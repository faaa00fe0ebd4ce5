import Chiptune.Proofs.Grammar.Separator

/-!
# The slices of a text

A text can be cut in front of each token: what is passed over between two tokens is passed over in
the slice of the first of them as well, and no lexeme needs what stands behind the cut.

* `Grammar.Scans.cut`: a scan falls apart in front of everything that it finds.
* `Scanner.tokensFrom_cut`: so do the tokens of a text.
* `tokenize_slices`: each token is that of its slice, and the tokens from it on are those of the
  text from it on.
-/

namespace Chiptune

namespace Grammar

variable {c : Char} {cs : List Char} {offset n : Nat} {before after : List Placed} {p : Placed}

/-- The longest lexeme is still the longest where the text is cut behind it. -/
theorem Longest.take {x : Lexeme} (h : Longest Lexeme.text cs x) (fits : x.text.length ≤ n) :
    Longest Lexeme.text (cs.take n) x :=
  ⟨List.prefix_take_iff.mpr ⟨h.1, fits⟩, fun y hy => h.2 y (hy.trans (List.take_prefix n cs))⟩

/-- What is passed over for what stands behind it is passed over where nothing does. -/
theorem Skipped.nil (h : Skipped c cs) : Skipped c [] := by
  unfold Skipped at h ⊢
  split <;> simp_all

theorem Skipped.take (h : Skipped c cs) (n : Nat) : Skipped c (cs.take n) := by
  cases n with
  | zero => exact h.nil
  | succ n =>
    cases cs with
    | nil => exact h
    | cons d cs => exact h

/-- **A scan falls apart in front of everything that it finds.** -/
theorem Scans.cut (h : Scans offset cs (before ++ p :: after)) :
    ∃ n, p.offset = offset + n ∧ Scans offset (cs.take n) before ∧
      Scans p.offset (cs.drop n) (p :: after) := by
  generalize whole : before ++ p :: after = found at h
  induction h generalizing before with
  | done => exact absurd whole (by simp)
  | @take offset cs x others longest rest ih =>
    cases before with
    | nil =>
      obtain ⟨rfl, rfl⟩ := List.cons.inj whole
      exact ⟨0, rfl, .done _, .take longest rest⟩
    | cons q before =>
      obtain ⟨rfl, rests⟩ := List.cons.inj whole
      obtain ⟨n, place, left, right⟩ := ih rests
      refine ⟨x.text.length + n, by rw [place, Nat.add_assoc], ?_, ?_⟩
      · refine .take (longest.take (Nat.le_add_right _ n)) ?_
        rwa [List.drop_take, Nat.add_sub_cancel_left]
      · rwa [← List.drop_drop]
  | @skip offset c cs found skipped rest ih =>
    obtain ⟨n, place, left, right⟩ := ih whole
    exact ⟨n + 1, by omega, .skip (skipped.take n) left, right⟩

end Grammar

namespace Scanner

open Grammar

variable {offset : Nat} {cs : List Char} {earlier later : List Token} {t u : Token}

/-- **A text can be cut in front of each of its tokens.** -/
theorem tokensFrom_cut (h : tokensFrom offset cs = earlier ++ t :: later) :
    ∃ n, t.offset = offset + n ∧ tokensFrom offset (cs.take n) = earlier ∧
      tokensFrom t.offset (cs.drop n) = t :: later := by
  obtain ⟨found, scans, tokens⟩ := exists_scans offset cs
  rw [h] at tokens
  obtain ⟨before, others, rfl, said, rest⟩ := List.filterMap_eq_append_iff.mp tokens.symm
  -- Between the earlier tokens and this one there may be lexemes that say nothing.
  obtain ⟨silent, p, after, rfl, nothing, token, behind⟩ := List.filterMap_eq_cons_iff.mp rest
  have place : t.offset = p.offset := Placed.token?_offset token
  rw [← List.append_assoc] at scans
  obtain ⟨n, start, left, right⟩ := scans.cut
  refine ⟨n, place.trans start, ?_, ?_⟩
  · rw [tokensFrom_of_scans left, List.filterMap_append, said,
      List.filterMap_eq_nil_iff.mpr nothing, List.append_nil]
  · rw [place, tokensFrom_of_scans right, List.filterMap_cons, token, behind]

/-- In front of the next token, a text that begins with a token has no other one. -/
theorem tokensFrom_take_next (h : tokensFrom offset cs = t :: u :: later) :
    tokensFrom offset (cs.take (u.offset - offset)) = [t] := by
  have split : tokensFrom offset cs = [t] ++ u :: later := h
  obtain ⟨n, place, alone, -⟩ := tokensFrom_cut split
  rwa [place, Nat.add_sub_cancel_left]

end Scanner

open Scanner

/-- A text that lies in a longer one has the tokens that it has there, moved to its start. -/
theorem tokenize_eq_singleton {offset : Nat} {cs : List Char} {t : Token}
    (h : tokensFrom offset cs = [t]) (start : t.offset = offset) :
    tokenize cs = [⟨t.directive, 0⟩] := by
  rw [← Nat.zero_add offset, tokensFrom_add, List.map_eq_singleton_iff] at h
  obtain ⟨s, alone, rfl⟩ := h
  have first : s.offset = 0 := by
    dsimp only at start
    omega
  rw [tokenize, alone, ← first]

/-- The text up to a token has the tokens before it, and the text from there on has the others. -/
theorem tokenize_cut {source : List Char} {i : Nat} {t : Token}
    (h : (tokenize source)[i]? = some t) :
    tokenize (source.take t.offset) = (tokenize source).take i ∧
      tokensFrom t.offset (source.drop t.offset) = t :: (tokenize source).drop (i + 1) := by
  have split : tokenize source
      = (tokenize source).take i ++ t :: (tokenize source).drop (i + 1) := by
    obtain ⟨inside, rfl⟩ := List.getElem?_eq_some_iff.mp h
    rw [← List.drop_eq_getElem_cons inside, List.take_append_drop]
  obtain ⟨n, place, front, rest⟩ := tokensFrom_cut split
  rw [Nat.zero_add] at place
  rw [place] at rest ⊢
  exact ⟨front, rest⟩

/-- Where the slice of the `i`-th token ends: at the next token, or with the text. -/
def sliceStop (source : List Char) (i : Nat) : Nat :=
  (tokenize source)[i + 1]?.elim source.length (·.offset)

/-- The slice of a token has this token only. -/
theorem tokenize_extract {source : List Char} {i : Nat} {t : Token}
    (h : (tokenize source)[i]? = some t) :
    tokenize (source.extract t.offset (sliceStop source i)) = [⟨t.directive, 0⟩] := by
  have rest := (tokenize_cut h).2
  rw [List.extract_eq_take_drop, sliceStop]
  cases next : (tokenize source)[i + 1]? with
  | none =>
    have last : (tokenize source).drop (i + 1) = [] :=
      List.drop_eq_nil_of_le (List.getElem?_eq_none_iff.mp next)
    rw [last] at rest
    rw [Option.elim_none, ← List.length_drop, List.take_length]
    exact tokenize_eq_singleton rest rfl
  | some u =>
    obtain ⟨inside, rfl⟩ := List.getElem?_eq_some_iff.mp next
    rw [List.drop_eq_getElem_cons inside] at rest
    exact tokenize_eq_singleton (tokensFrom_take_next rest) rfl

/-- The text from a token on has the tokens from there on. -/
theorem tokenize_drop {source : List Char} {i : Nat} {t : Token}
    (h : (tokenize source)[i]? = some t) :
    (tokenize source).drop i
      = (tokenize (source.drop t.offset)).map fun u => ⟨u.directive, u.offset + t.offset⟩ := by
  have rest := (tokenize_cut h).2
  have moved := tokensFrom_add 0 t.offset (source.drop t.offset)
  obtain ⟨inside, rfl⟩ := List.getElem?_eq_some_iff.mp h
  rw [Nat.zero_add, rest, ← List.drop_eq_getElem_cons inside] at moved
  exact moved

/-- **Each token can be read again from its own slice of the text**, which goes on to the next
token: it is the only token there, at the start. In front of the first token there is none, and the
text from a token on has the tokens from there on. -/
theorem tokenize_slices (source : List Char) :
    (∀ t ∈ (tokenize source).head?, tokenize (source.take t.offset) = []) ∧
      ∀ i t, (tokenize source)[i]? = some t →
        tokenize (source.extract t.offset (sliceStop source i)) = [⟨t.directive, 0⟩] ∧
          (tokenize source).drop i
            = (tokenize (source.drop t.offset)).map fun u =>
                ⟨u.directive, u.offset + t.offset⟩ := by
  refine ⟨fun t first => ?_, fun i t h => ⟨tokenize_extract h, tokenize_drop h⟩⟩
  rw [Option.mem_def, List.head?_eq_getElem?] at first
  exact (tokenize_cut first).1

/-- A dropped length and signs without a directive stand before a token, and between two. -/
theorem tokenize_slices_dropped :
    let source := "l0&.@t c4.#&l& v80x".toList
    let note : Token := ⟨.note ⟨.c, .natural⟩ (Length.ofParts? [⟨4, true⟩]), 7⟩
    tokenize source = [note, ⟨.volume ⟨80, 0⟩, 15⟩] ∧
      tokenize (source.take 7) = [] ∧
      tokenize (source.extract 7 15) = [⟨note.directive, 0⟩] ∧
      (tokenize source).drop 1
        = (tokenize (source.drop 15)).map fun u => ⟨u.directive, u.offset + 15⟩ := by
  intro source note
  have tokens : tokenize source = [note, ⟨.volume ⟨80, 0⟩, 15⟩] := by decide +kernel
  have first : (tokenize source)[0]? = some note := by rw [tokens]; rfl
  have second : (tokenize source)[1]? = some ⟨.volume ⟨80, 0⟩, 15⟩ := by rw [tokens]; rfl
  have stop : sliceStop source 0 = 15 := by rw [sliceStop, tokens]; rfl
  obtain ⟨front, slices⟩ := tokenize_slices source
  have slice := (slices 0 note first).1
  rw [stop] at slice
  exact ⟨tokens, front note (by rw [tokens]; rfl), slice, (slices 1 _ second).2⟩

end Chiptune
