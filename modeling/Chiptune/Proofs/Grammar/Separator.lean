import Chiptune.Proofs.Grammar.LongestMatch
import Chiptune.Render

/-!
# Texts in pieces

No lexeme goes on past a separator, a character that stands in none behind its first. So a text is
scanned up to a separator as if it ended there, and from the separator on as if it began there.

* `Scanner.tokensFrom_append`: the tokens of both pieces.
* `Scanner.tokensFrom_add`: the place of a text in a longer one only moves its tokens.
* `Rendering.score_append_voice`: what is said on both sides of a `;`.
* `tokenize_append`: no lexeme reaches across a separator, and what stands before it does not change
  what is read from it on.
-/

namespace Chiptune

namespace Grammar

/-- A character that is no part of a number, of a length, of an accidental or of a directive's
name. -/
structure Separator (s : Char) : Prop where
  not_digit : s.isDigit = false
  not_lower : s.isLower = false
  not_sign : s ∉ ['.', '&', ',', '+', '-']

variable {s c : Char} {cs b : List Char} {offset : Nat} {found later : List Placed}

/-- Blanks, and all else that is no printable character of ASCII, separate. -/
theorem separator_of_unprintable (h : s.toNat ≤ 32 ∨ 127 ≤ s.toNat) : Separator s where
  not_digit := Bool.eq_false_iff.mpr fun digit => by
    have : 48 ≤ s.toNat ∧ s.toNat ≤ 57 := by
      simpa [Char.isDigit, UInt32.le_iff_toNat_le] using digit
    omega
  not_lower := Bool.eq_false_iff.mpr fun lower => by
    have lower : (decide (97 ≤ s.val) && decide (s.val ≤ 122)) = true := lower
    have : 97 ≤ s.toNat ∧ s.toNat ≤ 122 := by
      simpa [UInt32.le_iff_toNat_le] using lower
    omega
  not_sign sign := by
    simp only [List.mem_cons, List.not_mem_nil, or_false] at sign
    have printable : 32 < s.toNat ∧ s.toNat < 127 := by
      rcases sign with rfl | rfl | rfl | rfl | rfl <;> decide
    omega

/-- So do the signs that a lexeme begins with. -/
theorem separator_of_sign (h : s ∈ ['[', ']', '<', '>', ';', '@', '#']) : Separator s := by
  simp only [List.mem_cons, List.not_mem_nil, or_false] at h
  rcases h with rfl | rfl | rfl | rfl | rfl | rfl | rfl <;>
    exact ⟨by decide, by decide, by decide⟩

theorem Separator.ne_of_isLower (hs : Separator s) (lower : c.isLower) : s ≠ c := by
  rintro rfl
  rw [hs.not_lower] at lower
  cases lower

theorem Separator.notMem_tail (hs : Separator s) (x : Lexeme) : s ∉ x.tail := by
  obtain ⟨point, tie, comma, plus, minus⟩ : s ≠ '.' ∧ s ≠ '&' ∧ s ≠ ',' ∧ s ≠ '+' ∧ s ≠ '-' := by
    simpa using hs.not_sign
  have length (l : Ties) : s ∉ l.text := l.notMem_text hs.not_digit point tie
  have numeral (n : Numeral) : s ∉ n.text := n.notMem_text hs.not_digit point
  have letter {c : Char} (lower : c.isLower) (p : Params) : s ∉ c :: p.text :=
    List.not_mem_cons_of_ne_of_not_mem (hs.ne_of_isLower lower)
      (p.notMem_text hs.not_digit point comma)
  cases x with
  | note _ accidental l =>
    have sign : s ∉ accidentalText accidental := by cases accidental <;> simp [accidentalText, *]
    exact fun h => (List.mem_append.mp h).elim sign (length l)
  | rest l | defaultLength l => exact length l
  | tempo n | volume n => exact numeral n
  | waveform ds => exact ds.notMem hs.not_digit
  | envelope p | harmony p | unison p => exact letter rfl p
  | effect _ lower p => exact letter lower p
  | repeatEnd count => exact Digits.notMem_optional hs.not_digit count
  | mark => exact List.not_mem_nil

/-- What stands before a separator and a rest, and has no separator, stands before the separator. -/
theorem prefix_of_notMem {u : List Char} (free : s ∉ u) (h : u <+: cs ++ s :: b) : u <+: cs := by
  rcases Nat.lt_or_ge cs.length u.length with longer | shorter
  · have reaches : cs ++ [s] <+: cs ++ s :: b := ⟨b, by simp⟩
    have within : cs ++ [s] <+: u := List.prefix_of_prefix_length_le reaches h (by simpa)
    exact absurd (within.subset (List.mem_append_right cs List.mem_cons_self)) free
  · exact List.prefix_of_prefix_length_le h (List.prefix_append cs _) shorter

theorem text_prefix_append_iff (hs : Separator s) (x : Lexeme) :
    x.text <+: c :: (cs ++ s :: b) ↔ x.text <+: c :: cs := by
  constructor
  · intro h
    obtain ⟨head, tail⟩ := List.cons_prefix_cons.mp h
    exact List.cons_prefix_cons.mpr ⟨head, prefix_of_notMem (hs.notMem_tail x) tail⟩
  · intro h
    exact h.trans (List.prefix_append (c :: cs) (s :: b))

theorem longest_append_iff (hs : Separator s) (x : Lexeme) :
    Longest Lexeme.text (c :: (cs ++ s :: b)) x ↔ Longest Lexeme.text (c :: cs) x := by
  simp only [Longest, text_prefix_append_iff hs]

/-- A separator is none of the characters that a lexeme needs behind its first. -/
theorem Skipped.append (hs : Separator s) (h : Skipped c cs) : Skipped c (cs ++ s :: b) := by
  cases cs with
  | cons d cs => exact h
  | nil =>
    have digit : s.isDigit = false := hs.not_digit
    have lower : s.isLower = false := hs.not_lower
    have letter : s ≠ 'e' ∧ s ≠ 'h' ∧ s ≠ 'u' :=
      ⟨hs.ne_of_isLower rfl, hs.ne_of_isLower rfl, hs.ne_of_isLower rfl⟩
    unfold Skipped at h ⊢
    split <;> simp_all

/-! ## Scans in pieces -/

/-- What is found ends within the text. -/
theorem Scans.stop_le (h : Scans offset cs found) : ∀ p ∈ found, p.stop ≤ offset + cs.length := by
  intro p hp
  obtain ⟨i, place, stands⟩ := h.text_prefix p hp
  have within : p.lexeme.text.length ≤ cs.length - i := by
    rw [← List.length_drop]
    exact stands.length_le
  have behind : p.offset < p.stop := p.offset_lt_stop
  unfold Placed.stop at behind ⊢
  omega

theorem Scans.append (hs : Separator s) (h : Scans offset cs found)
    (h' : Scans (offset + cs.length) (s :: b) later) :
    Scans offset (cs ++ s :: b) (found ++ later) := by
  induction h with
  | done => exact h'
  | @take offset cs x others longest _ ih =>
    cases cs with
    | nil => exact absurd (List.prefix_nil.mp longest.1) (List.cons_ne_nil _ _)
    | cons c cs =>
      have within : x.text.length ≤ (c :: cs).length := longest.1.length_le
      refine .take ((longest_append_iff hs x).mpr longest) ?_
      rw [List.drop_append_of_le_length within]
      refine ih ?_
      rw [List.length_drop, Nat.add_assoc, Nat.add_sub_cancel' within]
      exact h'
  | skip skipped _ ih =>
    refine .skip (skipped.append hs) (ih ?_)
    rw [List.length_cons, Nat.add_comm _ 1, ← Nat.add_assoc] at h'
    exact h'

/-- The same lexeme, `k` characters later. -/
def Placed.shift (k : Nat) (p : Placed) : Placed := ⟨p.offset + k, p.lexeme⟩

theorem Placed.token?_shift (k : Nat) (p : Placed) :
    (p.shift k).token? = p.token?.map fun t => ⟨t.directive, t.offset + k⟩ := by
  rw [token?, token?, Option.map_map]
  rfl

theorem Scans.shift (h : Scans offset cs found) (k : Nat) :
    Scans (offset + k) cs (found.map (·.shift k)) := by
  induction h with
  | done => exact .done _
  | take longest _ ih =>
    rw [Nat.add_right_comm] at ih
    exact .take longest ih
  | skip skipped _ ih =>
    rw [Nat.add_right_comm] at ih
    exact .skip skipped ih

end Grammar

namespace Scanner

open Grammar

/-- What is said of a scan are the tokens of the text. -/
theorem tokensFrom_of_scans {offset : Nat} {cs : List Char} {found : List Placed}
    (h : Scans offset cs found) : tokensFrom offset cs = found.filterMap Placed.token? := by
  obtain ⟨other, scans, tokens⟩ := exists_scans offset cs
  rw [tokens, h.unique scans]

/-- **A text is scanned piece by piece.** -/
theorem tokensFrom_append {s : Char} (hs : Separator s) (offset : Nat) (cs b : List Char) :
    tokensFrom offset (cs ++ s :: b)
      = tokensFrom offset cs ++ tokensFrom (offset + cs.length) (s :: b) := by
  obtain ⟨found, scans, tokens⟩ := exists_scans offset cs
  obtain ⟨later, scans', tokens'⟩ := exists_scans (offset + cs.length) (s :: b)
  rw [tokensFrom_of_scans (scans.append hs scans'), List.filterMap_append, tokens, tokens']

/-- The place of a text in a longer one only moves its tokens. -/
theorem tokensFrom_add (offset k : Nat) (cs : List Char) :
    tokensFrom (offset + k) cs
      = (tokensFrom offset cs).map fun t => ⟨t.directive, t.offset + k⟩ := by
  obtain ⟨found, scans, tokens⟩ := exists_scans offset cs
  rw [tokensFrom_of_scans (scans.shift k), tokens, List.filterMap_map, List.map_filterMap]
  exact List.filterMap_congr fun p _ => p.token?_shift k

end Scanner

namespace Rendering

/-- What is said on both sides of a `;`. -/
theorem score_append_voice (a b : List Char) :
    score (a ++ ';' :: b) = score a ++ .voiceReset :: score b := by
  have voice : Grammar.Separator ';' := ⟨rfl, rfl, by decide⟩
  have moved : (Scanner.tokensFrom (a.length + 1) b).map (·.directive) = score b := by
    rw [← Nat.zero_add (a.length + 1), Scanner.tokensFrom_add, List.map_map]
    rfl
  rw [score, tokenize, Scanner.tokensFrom_append voice, List.map_append, Nat.zero_add,
    Scanner.tokensFrom]
  exact congrArg (score a ++ ·) (congrArg (Directive.voiceReset :: ·) moved)

end Rendering

open Grammar in
/-- **Texts fall apart at separators.** Around a separator the tokens of a text are those of the
part before it and those from it on, moved to their place: nothing before the separator changes what
is read from it on. No lexeme that is found, whether it says something or not, goes on from the one
part into the other. Separators are, among others, all blanks, brackets, octave marks, `;`, `@`
and `#`. -/
theorem tokenize_append :
    (∀ (a b : List Char) (s : Char), Separator s →
      tokenize (a ++ s :: b)
          = tokenize a ++ (tokenize (s :: b)).map (fun t => ⟨t.directive, t.offset + a.length⟩) ∧
        ∃ found, Scans 0 (a ++ s :: b) found ∧
          tokenize (a ++ s :: b) = found.filterMap Placed.token? ∧
          ∀ p ∈ found, p.stop ≤ a.length ∨ a.length ≤ p.offset) ∧
    ∀ s : Char, s.toNat ≤ 32 ∨ 127 ≤ s.toNat ∨ s ∈ ['[', ']', '<', '>', ';', '@', '#'] →
      Separator s := by
  constructor
  · intro a b s hs
    obtain ⟨found, scans, -⟩ := exists_scans 0 a
    obtain ⟨later, scans', -⟩ := exists_scans (0 + a.length) (s :: b)
    have whole := scans.append hs scans'
    refine ⟨?_, found ++ later, whole, Scanner.tokensFrom_of_scans whole, fun p hp => ?_⟩
    · rw [tokenize, Scanner.tokensFrom_append hs, Scanner.tokensFrom_add]
      rfl
    · rcases List.mem_append.mp hp with before | behind
      · left
        have ends := scans.stop_le p before
        rwa [Nat.zero_add] at ends
      · right
        obtain ⟨i, place, -⟩ := scans'.text_prefix p behind
        omega
  · rintro s (control | high | sign)
    · exact separator_of_unprintable (.inl control)
    · exact separator_of_unprintable (.inr high)
    · exact separator_of_sign sign

/-- A blank ends a list of numbers behind its last comma, and a tie. -/
theorem tokenize_append_blank :
    Grammar.Separator ' ' ∧
      tokenize ("@u2,".toList ++ ' ' :: "5c4& 8".toList)
        = tokenize "@u2,".toList
          ++ (tokenize (' ' :: "5c4& 8".toList)).map (fun t => ⟨t.directive, t.offset + 4⟩) :=
  have blank : Grammar.Separator ' ' := tokenize_append.2 ' ' (.inl (by decide))
  ⟨blank, (tokenize_append.1 "@u2,".toList "5c4& 8".toList ' ' blank).1⟩

end Chiptune
