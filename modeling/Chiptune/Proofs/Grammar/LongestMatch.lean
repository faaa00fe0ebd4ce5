import Mathlib.Data.List.TakeWhile
import Chiptune.Notation.Scanner
import Chiptune.Proofs.Grammar.Basic

/-!
# The scan takes the longest lexemes

`tokenize` reads the grammar of `Grammar.Basic` from left to right: at each position it takes the
longest lexeme that stands there, and passes over one character where there is none
(`tokenize_longestMatch`).

* `Longest text cs b`: of all things with a text, `b` has the longest one that `cs` begins with.
  Where one thing stands before another, and the second begins with a character that the first
  cannot have, the longest of both is the longest first followed by the longest second
  (`Longest.pair`). All repetitions of the grammar are of this form.
* `Finds text value cs answer`: a reader answers the value of the longest text, and its width.
  Each reader of the scanner has its lemma.
-/

namespace Chiptune.Grammar

variable {β γ δ : Type} {text : β → List Char} {cs : List Char}

/-! ## Longest texts -/

/-- `cs` begins with the text of `b`, and with no longer one. -/
def Longest (text : β → List Char) (cs : List Char) (b : β) : Prop :=
  text b <+: cs ∧ ∀ b', text b' <+: cs → (text b').length ≤ (text b).length

/-- `cs` does not begin with any of the texts. -/
def Absent (text : β → List Char) (cs : List Char) : Prop := ∀ b, ¬ text b <+: cs

/-- There is only one longest text. -/
theorem Longest.unique (inj : Function.Injective text) {a b : β} (ha : Longest text cs a)
    (hb : Longest text cs b) : a = b := by
  have len : (text a).length = (text b).length := Nat.le_antisymm (hb.2 a ha.1) (ha.2 b hb.1)
  have pre : text a <+: text b := List.prefix_of_prefix_length_le ha.1 hb.1 (Nat.le_of_eq len)
  exact inj (pre.eq_of_length len)

theorem Longest.not_absent {b : β} (h : Longest text cs b) : ¬ Absent text cs :=
  fun absent => absent b h.1

theorem Longest.optional {b : β} (h : Longest text cs b) :
    Longest (optional text) cs (some b) := by
  refine ⟨h.1, fun b? hb => ?_⟩
  cases b? with
  | none => exact Nat.zero_le _
  | some b' => exact h.2 b' hb

theorem Absent.optional (h : Absent text cs) : Longest (optional text) cs none := by
  refine ⟨List.nil_prefix, fun b? hb => ?_⟩
  cases b? with
  | none => exact Nat.le_refl _
  | some b' => exact absurd hb (h b')

/-- A text with further ones behind it that begin with a separator: either it is the longest, or
it is no longer than that and nothing follows. -/
theorem Longest.cases {sep : Char} {a b : β} {u : List Char} (ha : Longest text cs a)
    (free : sep ∉ text a) (opens : Opens sep u) (h : text b ++ u <+: cs) :
    (text b).length ≤ (text a).length ∧ u = [] ∨
      text b = text a ∧ u <+: cs.drop (text a).length := by
  have hb : text b <+: cs := (List.prefix_append _ _).trans h
  obtain ⟨v, hv⟩ := List.prefix_of_prefix_length_le hb ha.1 (ha.2 b hb)
  obtain ⟨w, hw⟩ := ha.1
  obtain ⟨z, hz⟩ := h
  have rests : u ++ z = v ++ w := by
    rw [← hw, ← hv, List.append_assoc, List.append_assoc] at hz
    exact List.append_cancel_left hz
  cases v with
  | nil =>
    right
    rw [List.append_nil] at hv
    rw [← hw, List.drop_left]
    exact ⟨hv, z, rests⟩
  | cons c v =>
    left
    refine ⟨ha.2 b hb, ?_⟩
    cases u with
    | nil => rfl
    | cons d u =>
      -- The separator would stand where the longer text goes on.
      have first : c = sep := (List.cons.inj rests).1 ▸ opens d rfl
      rw [← hv, first] at free
      exact absurd (List.mem_append_right _ List.mem_cons_self) free

/-- **The longest of two things in a row** is made of the longest first and the longest second, if
the second begins with a separator that the first cannot have. -/
theorem Longest.pair {sep : Char} {tail : δ → List Char} {a : β} {d : δ} (ha : Longest text cs a)
    (hd : Longest tail (cs.drop (text a).length) d) (free : sep ∉ text a)
    (opens : ∀ d, Opens sep (tail d)) :
    Longest (fun x : β × δ => text x.1 ++ tail x.2) cs (a, d) := by
  constructor
  · obtain ⟨v, hv⟩ := ha.1
    obtain ⟨w, hw⟩ := hd.1
    rw [← hv, List.drop_left] at hw
    exact ⟨w, by rw [List.append_assoc, hw, hv]⟩
  · rintro ⟨b, d'⟩ h
    rw [List.length_append, List.length_append]
    rcases ha.cases free (opens d') h with ⟨le, none⟩ | ⟨same, more⟩
    · rw [none]
      exact Nat.add_le_add le (Nat.zero_le _)
    · rw [same]
      exact Nat.add_le_add_left (hd.2 d' more) _

theorem Longest.separated {sep : Char} {b : β} {bs : List β} (hb : Longest text cs b)
    (hbs : Longest (following sep text) (cs.drop (text b).length) bs) (free : sep ∉ text b) :
    Longest (fun x : β × List β => separated sep text x.1 x.2) cs (b, bs) :=
  hb.pair hbs free (opens_following sep text)

theorem Longest.following {sep : Char} {b : β} {bs : List β}
    (h : Longest (fun x : β × List β => Grammar.separated sep text x.1 x.2) cs (b, bs)) :
    Longest (following sep text) (sep :: cs) (b :: bs) := by
  refine ⟨(List.prefix_cons_inj sep).mpr h.1, fun bs' hbs => ?_⟩
  cases bs' with
  | nil => exact Nat.zero_le _
  | cons b' bs' => exact Nat.succ_le_succ (h.2 (b', bs') ((List.prefix_cons_inj sep).mp hbs))

theorem longest_following_nil {sep : Char} (h : ∀ tail, cs = sep :: tail → Absent text tail) :
    Longest (following sep text) cs [] := by
  refine ⟨List.nil_prefix, fun bs hbs => ?_⟩
  cases bs with
  | nil => exact Nat.le_refl _
  | cons b bs =>
    obtain ⟨v, hv⟩ := hbs
    refine absurd ⟨following sep text bs ++ v, ?_⟩ (h _ hv.symm b)
    exact (List.append_assoc _ _ _).symm

/-! ## Readers -/

/-- A reader answers the value of the longest text and its width. -/
def Finds (text : β → List Char) (value : β → γ) (cs : List Char) (answer : γ × Nat) : Prop :=
  ∃ b, Longest text cs b ∧ answer = (value b, (text b).length)

/-- A reader answers the value of the longest text and its width, or that there is none. -/
def Finds? (text : β → List Char) (value : β → γ) (cs : List Char) (answer? : Option (γ × Nat)) :
    Prop :=
  (∃ answer, answer? = some answer ∧ Finds text value cs answer) ∨ answer? = none ∧ Absent text cs

theorem digits_prefix (cs : List Char) : Scanner.digits cs <+: cs := List.takeWhile_prefix _

/-- The digits in front are the longest. -/
theorem length_le_digits {ds : List Char} (digits : ∀ c ∈ ds, c.isDigit) (h : ds <+: cs) :
    ds.length ≤ (Scanner.digits cs).length := by
  induction ds generalizing cs with
  | nil => exact Nat.zero_le _
  | cons d ds ih =>
    obtain ⟨v, rfl⟩ := h
    have first : d.isDigit = true := digits d List.mem_cons_self
    have others := ih (fun c hc => digits c (List.mem_cons_of_mem d hc)) (List.prefix_append ds v)
    rw [Scanner.digits, List.cons_append, List.takeWhile_cons_of_pos first]
    exact Nat.succ_le_succ others

theorem finds_digits (cs : List Char) :
    (∃ ds : Digits, Scanner.digits cs = ds.chars ∧ Longest Digits.chars cs ds) ∨
      Scanner.digits cs = [] ∧ Absent Digits.chars cs := by
  by_cases none : Scanner.digits cs = []
  · refine .inr ⟨none, fun ds h => ?_⟩
    have le := length_le_digits ds.digits h
    rw [none, List.length_nil, Nat.le_zero, List.length_eq_zero_iff] at le
    exact ds.nonempty le
  · refine .inl ⟨⟨Scanner.digits cs, none, fun c h => ?_⟩, rfl, digits_prefix cs, fun ds h => ?_⟩
    · exact List.mem_takeWhile_imp h
    · exact length_le_digits ds.digits h

theorem whole?_of_digits {ds : Digits} (h : Scanner.digits cs = ds.chars) :
    Scanner.whole? cs = (some ds.value, ds.chars.length) := by
  have ne := ds.nonempty
  unfold Scanner.whole?
  rw [h]
  split
  · contradiction
  · rfl

theorem whole?_of_nil (h : Scanner.digits cs = []) : Scanner.whole? cs = (none, 0) := by
  rw [Scanner.whole?, h]

theorem finds_whole (cs : List Char) :
    Finds (optional Digits.chars) (Option.map Digits.value) cs (Scanner.whole? cs) := by
  rcases finds_digits cs with ⟨ds, found, longest⟩ | ⟨none, absent⟩
  · exact ⟨some ds, longest.optional, whole?_of_digits found⟩
  · exact ⟨Option.none, absent.optional, whole?_of_nil none⟩

theorem Longest.cons {b : β} (h : Longest text cs b) (c : Char) :
    Longest (fun b => c :: text b) (c :: cs) b :=
  ⟨(List.prefix_cons_inj c).mpr h.1,
    fun b' hb => Nat.succ_le_succ (h.2 b' ((List.prefix_cons_inj c).mp hb))⟩

theorem Absent.cons {c : Char} (h : ∀ tail, cs = c :: tail → Absent text tail) :
    Absent (fun b => c :: text b) cs := by
  rintro b ⟨v, hv⟩
  exact h _ hv.symm b (List.prefix_append _ _)

/-- The longest numeral, from its digits and from what stands behind them. -/
theorem longest_numeral {whole : Digits} {fraction : Option Digits}
    (hw : Longest Digits.chars cs whole)
    (hf : Longest (optional fun ds : Digits => '.' :: ds.chars) (cs.drop whole.chars.length)
      fraction) :
    Longest Numeral.text cs ⟨whole, fraction⟩ := by
  have both := hw.pair hf (whole.notMem rfl) (opens_optional fun _ => opens_cons '.' _)
  exact ⟨both.1, fun n h => both.2 (n.whole, n.fraction) h⟩

theorem finds_number (cs : List Char) :
    Finds? Numeral.text Numeral.value cs (Scanner.number? cs) := by
  unfold Scanner.number?
  rcases finds_digits cs with ⟨whole, found, longest⟩ | ⟨none, absent⟩
  · have plain : (Decimal.ofParts whole.chars [], whole.chars.length)
        = (Numeral.value ⟨whole, none⟩, (Numeral.text ⟨whole, none⟩).length) := by
      simp [Numeral.value, Numeral.text, optional]
    have ne := whole.nonempty
    refine .inl ?_
    rw [found]
    split
    · contradiction
    split
    · rename_i tail behind
      rcases finds_digits tail with ⟨after, found, longest'⟩ | ⟨none, absent⟩
      · have ne := after.nonempty
        rw [found]
        split
        · contradiction
        refine ⟨_, rfl, ⟨whole, some after⟩, longest_numeral longest ?_, ?_⟩
        · rw [behind]
          exact (longest'.cons '.').optional
        · simp [Numeral.value, Numeral.text, optional, Nat.add_assoc, Nat.add_comm 1]
      · rw [none]
        refine ⟨_, rfl, ⟨whole, Option.none⟩, longest_numeral longest ?_, plain⟩
        rw [behind]
        exact (Absent.cons fun t h => by cases h; exact absent).optional
    · rename_i no_point
      refine ⟨_, rfl, ⟨whole, none⟩, longest_numeral longest ?_, plain⟩
      exact (Absent.cons fun t h => absurd h (no_point t)).optional
  · rw [none]
    exact .inr ⟨rfl, fun n h => absent n.whole ((List.prefix_append _ _).trans h)⟩

theorem length_following_cons (sep : Char) (b : β) (bs : List β) :
    (following sep text (b :: bs)).length
      = 1 + (text b).length + (following sep text bs).length := by
  simp only [following, List.flatMap_cons, List.length_append, List.length_cons]
  omega

theorem finds_furtherNumbers (cs : List Char) :
    Finds (following ',' Numeral.text) (List.map Numeral.value) cs
      (Scanner.furtherNumbers cs) := by
  by_cases comma : ∃ tail, cs = ',' :: tail
  · obtain ⟨tail, behind⟩ := comma
    rw [behind, Scanner.furtherNumbers]
    rcases finds_number tail with ⟨_, found, n, longest, rfl⟩ | ⟨none, absent⟩
    · obtain ⟨ns, others, more⟩ := finds_furtherNumbers (tail.drop n.text.length)
      refine ⟨n :: ns, (longest.separated others (n.notMem_text rfl (by decide))).following, ?_⟩
      simp only [found, more, length_following_cons, List.map_cons]
    · rw [none]
      exact ⟨[], longest_following_nil fun t h => by cases h; exact absent, rfl⟩
  · rw [Scanner.furtherNumbers.eq_2 cs fun tail h => comma ⟨tail, h⟩]
    exact ⟨[], longest_following_nil fun tail h => absurd ⟨tail, h⟩ comma, rfl⟩
termination_by cs.length
decreasing_by simp only [behind, List.length_drop, List.length_cons]; omega

theorem finds_numbers (cs : List Char) :
    Finds Params.text Params.values cs (Scanner.numbers cs) := by
  unfold Scanner.numbers
  rcases finds_number cs with ⟨_, found, n, longest, rfl⟩ | ⟨none, absent⟩
  · obtain ⟨ns, others, more⟩ := finds_furtherNumbers (cs.drop n.text.length)
    have both := longest.separated others (n.notMem_text rfl (by decide))
    refine ⟨.some n ns, ⟨both.1, fun params h => ?_⟩, ?_⟩
    · cases params with
      | none => exact Nat.zero_le _
      | some first others => exact both.2 (first, others) h
    · simp only [found, more, Params.values, Params.text, separated, List.length_append,
        List.map_cons]
  · rw [none]
    refine ⟨.none, ⟨List.nil_prefix, fun params h => ?_⟩, rfl⟩
    cases params with
    | none => exact Nat.le_refl _
    | some first others => exact absurd ((List.prefix_append _ _).trans h) (absent first)

theorem longest_dot (cs : List Char) :
    Longest (fun dotted => if dotted then ['.'] else []) cs (cs.head? == some '.') := by
  by_cases point : cs.head? = some '.'
  · obtain ⟨tail, rfl⟩ := List.head?_eq_some_iff.mp point
    refine ⟨⟨tail, rfl⟩, fun dotted _ => ?_⟩
    cases dotted
    · exact Nat.zero_le _
    · exact Nat.le_refl _
  · rw [beq_eq_false_iff_ne.mpr point]
    refine ⟨List.nil_prefix, fun dotted h => ?_⟩
    cases dotted
    · exact Nat.le_refl _
    · obtain ⟨tail, rfl⟩ := h
      exact absurd rfl point

/-- The longest part of a length: all digits, and a dot if there is one. -/
theorem exists_longest_part (cs : List Char) :
    ∃ p, Longest Part.text cs p ∧ optional Digits.chars p.digits = Scanner.digits cs ∧
      ((cs.drop (Scanner.digits cs).length).head? == some '.') = p.dotted := by
  have front : ∃ ds?, Longest (optional Digits.chars) cs ds? ∧
      optional Digits.chars ds? = Scanner.digits cs := by
    rcases finds_digits cs with ⟨ds, found, longest⟩ | ⟨none, absent⟩
    · exact ⟨some ds, longest.optional, found.symm⟩
    · exact ⟨Option.none, absent.optional, none.symm⟩
  obtain ⟨ds?, longest, found⟩ := front
  have both := longest.pair (longest_dot _) (Digits.notMem_optional rfl ds?) opens_dot
  rw [found] at both
  exact ⟨⟨ds?, _⟩, ⟨both.1, fun p h => both.2 (p.digits, p.dotted) h⟩, found, rfl⟩

theorem finds_noteValues (cs : List Char) :
    Finds Ties.text Ties.values cs (Scanner.noteValues cs) := by
  obtain ⟨p, longest, digits, dotted⟩ := exists_longest_part cs
  have width : (Scanner.digits cs).length + p.dotted.toNat = p.text.length := by
    rw [Part.text, List.length_append, digits]
    cases p.dotted <;> rfl
  have value : (if (Scanner.digits cs).isEmpty then [] else
      [⟨Scanner.whole (Scanner.digits cs), p.dotted⟩]) = p.value?.toList := by
    rw [← digits, Part.value?]
    cases p.digits with
    | none => rfl
    | some ds =>
      have some : ¬ (optional Digits.chars (some ds)).isEmpty = true :=
        fun h => ds.nonempty (List.isEmpty_iff.mp h)
      rw [if_neg some]
      rfl
  rw [Scanner.noteValues.eq_def]
  simp only [dotted, width, value]
  split
  · rename_i tail behind
    rw [dotted, width] at behind
    have shorter : tail.length < cs.length := by
      have := congrArg List.length behind
      simp only [List.length_drop, List.length_cons] at this
      omega
    obtain ⟨⟨first, others⟩, longest', more⟩ := finds_noteValues tail
    have tied : Longest (following '&' Part.text) (cs.drop p.text.length) (first :: others) := by
      rw [behind]
      exact Longest.following ⟨longest'.1, fun x => longest'.2 ⟨x.1, x.2⟩⟩
    have all := longest.separated tied (p.notMem_text rfl (by decide))
    refine ⟨⟨p, first :: others⟩, ⟨all.1, fun ties => all.2 (ties.first, ties.others)⟩, ?_⟩
    rw [more, Ties.values_cons]
    simp only [Ties.text, separated, List.length_append, length_following_cons, Nat.add_assoc]
  · rename_i no_tie
    simp only [dotted, width] at no_tie
    have nothing : Longest (following '&' Part.text) (cs.drop p.text.length) [] :=
      longest_following_nil fun tail h => absurd h (no_tie tail)
    have all := longest.separated nothing (p.notMem_text rfl (by decide))
    refine ⟨⟨p, []⟩, ⟨all.1, fun ties => all.2 (ties.first, ties.others)⟩, ?_⟩
    rw [Ties.values_single, Ties.text, separated, following, List.flatMap_nil, List.append_nil]
termination_by cs.length

theorem finds_length (cs : List Char) :
    Finds Ties.text Ties.length? cs (Scanner.length? cs) := by
  obtain ⟨ties, longest, found⟩ := finds_noteValues cs
  exact ⟨ties, longest, by rw [Scanner.length?, found]; rfl⟩

/-! ## Lexemes -/

theorem accidental_of_ofChar? {c : Char} {accidental : Accidental}
    (h : Accidental.ofChar? c = some accidental) :
    accidentalText accidental = [c] ∧ (c = '+' ∨ c = '-') := by
  unfold Accidental.ofChar? at h
  split at h <;> cases h
  · exact ⟨rfl, .inl rfl⟩
  · exact ⟨rfl, .inr rfl⟩

theorem accidental_cases (accidental : Accidental) :
    accidentalText accidental = [] ∨
      ∃ c, accidentalText accidental = [c] ∧ Accidental.ofChar? c = some accidental := by
  cases accidental with
  | flat => exact .inr ⟨'-', rfl, rfl⟩
  | natural => exact .inl rfl
  | sharp => exact .inr ⟨'+', rfl, rfl⟩

theorem finds_note (letter : Letter) (cs : List Char) :
    Finds (fun x : Accidental × Ties => accidentalText x.1 ++ x.2.text)
      (fun x => .note ⟨letter, x.1⟩ x.2.length?) cs (Scanner.note letter cs) := by
  unfold Scanner.note
  cases sign : cs.head?.bind Accidental.ofChar? with
  | none =>
    obtain ⟨ties, longest, found⟩ := finds_length cs
    refine ⟨(.natural, ties), ⟨longest.1, ?_⟩, by rw [found]; rfl⟩
    rintro ⟨accidental, length⟩ h
    rcases accidental_cases accidental with natural | ⟨c, signed, of⟩
    · simp only [natural, List.nil_append] at h ⊢
      exact longest.2 length h
    · obtain ⟨rest, rfl⟩ := h
      simp [signed, of] at sign
  | some accidental =>
    obtain ⟨c, front, of⟩ := Option.bind_eq_some_iff.mp sign
    obtain ⟨tail, rfl⟩ := List.head?_eq_some_iff.mp front
    obtain ⟨signed, plus_or_minus⟩ := accidental_of_ofChar? of
    obtain ⟨ties, longest, found⟩ := finds_length tail
    refine ⟨(accidental, ties), ⟨?_, ?_⟩, ?_⟩
    · simp only [signed]
      exact (List.prefix_cons_inj c).mpr longest.1
    · rintro ⟨other, length⟩ h
      rcases accidental_cases other with natural | ⟨d, signed', -⟩
      · -- Without a sign there is nothing before the sign.
        simp only [natural, List.nil_append] at h ⊢
        cases empty : length.text with
        | nil => exact Nat.zero_le _
        | cons d ds =>
          obtain ⟨rest, joined⟩ := h
          rw [empty] at joined
          obtain rfl := (List.cons.inj joined).1
          exact absurd empty (length.text_ne_cons plus_or_minus ds)
      · simp only [signed, signed', List.singleton_append] at h ⊢
        exact Nat.succ_le_succ (longest.2 length (List.cons_prefix_cons.mp h).2)
    · rw [List.tail_cons, found]
      simp only [signed, List.length_append, List.length_singleton]

/-- A lexeme whose tail is the longest of its kind is the longest. -/
theorem longest_lexeme {x : Lexeme} (h : x.tail <+: cs)
    (le : ∀ y : Lexeme, y.kind = x.kind → y.tail <+: cs → y.tail.length ≤ x.tail.length) :
    Longest Lexeme.text (x.head :: cs) x := by
  refine ⟨(List.prefix_cons_inj _).mpr h, fun y hy => ?_⟩
  obtain ⟨first, others⟩ := List.cons_prefix_cons.mp hy
  exact Nat.succ_le_succ (le y (Lexeme.kind_eq_of_head first) others)

/-- Where one character is passed over: there is no lexeme that begins with it, or what the lexemes
have behind it is missing. -/
def Skipped (c : Char) (cs : List Char) : Prop :=
  match c with
  | 't' | 'v' => ¬ cs.head?.any Char.isDigit
  | '@' => ¬ cs.head?.any fun d => d.isDigit || d ∈ ['e', 'h', 'u']
  | '#' => ¬ cs.head?.any Char.isLower
  | c => Kind.ofChar? c = none

/-- The scanner takes the longest lexeme that stands there, or passes over the character. -/
def Takes (c : Char) (cs : List Char) (answer : Option Directive × Nat) : Prop :=
  (∃ x, Longest Lexeme.text (c :: cs) x ∧ answer = (x.directive?, x.tail.length)) ∨
    Skipped c cs ∧ answer = (none, 0)

/-- The lexemes of a kind are made from one thing, whose text is all that stands behind their first
character. -/
structure Makes (kind : Kind) (text : β → List Char) (make : β → Lexeme) : Prop where
  kind_eq : ∀ b, (make b).kind = kind
  tail_eq : ∀ b, (make b).tail = text b
  all : ∀ y : Lexeme, y.kind = kind → ∃ b, y = make b

section Makes

variable {kind : Kind} {make : β → Lexeme}

theorem Makes.longest (m : Makes kind text make) {b : β} (longest : Longest text cs b) :
    Longest Lexeme.text (kind.char :: cs) (make b) := by
  rw [← m.kind_eq b]
  refine longest_lexeme (by rw [m.tail_eq]; exact longest.1) fun y hy h => ?_
  obtain ⟨b', rfl⟩ := m.all y (hy.trans (m.kind_eq b))
  rw [m.tail_eq] at h ⊢
  rw [m.tail_eq]
  exact longest.2 b' h

theorem Makes.takes (m : Makes kind text make) {value : β → γ} {answer : γ × Nat}
    (found : Finds text value cs answer) (meaning : γ → Option Directive)
    (means : ∀ b, (make b).directive? = meaning (value b)) :
    Takes kind.char cs (meaning answer.1, answer.2) := by
  obtain ⟨b, longest, rfl⟩ := found
  exact .inl ⟨make b, m.longest longest, by rw [means, m.tail_eq]⟩

end Makes

theorem takes_mark (m : Mark) (cs : List Char) :
    Takes (Kind.mark m).char cs (some m.directive, 0) := by
  refine .inl ⟨.mark m, longest_lexeme List.nil_prefix fun y hy _ => ?_, rfl⟩
  cases y <;> cases hy
  exact Nat.le_refl _

theorem takes_note (letter : Letter) (cs : List Char) :
    Takes letter.toChar cs (some (Scanner.note letter cs).1, (Scanner.note letter cs).2) := by
  have makes : Makes (.note letter) (fun x : Accidental × Ties => accidentalText x.1 ++ x.2.text)
      fun x => .note letter x.1 x.2 := by
    refine ⟨fun _ => rfl, fun _ => rfl, fun y hy => ?_⟩
    cases y <;> cases hy
    exact ⟨(_, _), rfl⟩
  exact makes.takes (finds_note letter cs) some fun _ => rfl

theorem takes_rest (cs : List Char) :
    Takes 'r' cs (some (.rest (Scanner.length? cs).1), (Scanner.length? cs).2) := by
  have makes : Makes .rest Ties.text .rest := by
    refine ⟨fun _ => rfl, fun _ => rfl, fun y hy => ?_⟩
    cases y <;> cases hy
    exact ⟨_, rfl⟩
  exact makes.takes (finds_length cs) (fun length => some (.rest length)) fun _ => rfl

theorem takes_defaultLength (cs : List Char) :
    Takes 'l' cs ((Scanner.length? cs).1.map .defaultLength, (Scanner.length? cs).2) := by
  have makes : Makes .defaultLength Ties.text .defaultLength := by
    refine ⟨fun _ => rfl, fun _ => rfl, fun y hy => ?_⟩
    cases y <;> cases hy
    exact ⟨_, rfl⟩
  exact makes.takes (finds_length cs) (Option.map .defaultLength) fun _ => rfl

theorem takes_repeatEnd (cs : List Char) :
    Takes ']' cs (some (.repeatEnd (Scanner.whole? cs).1), (Scanner.whole? cs).2) := by
  have makes : Makes .repeatEnd (optional Digits.chars) .repeatEnd := by
    refine ⟨fun _ => rfl, fun _ => rfl, fun y hy => ?_⟩
    cases y <;> cases hy
    exact ⟨_, rfl⟩
  exact makes.takes (finds_whole cs) (fun count => some (.repeatEnd count)) fun _ => rfl

/-- Where no digits stand, the next character is none. -/
theorem not_digit_of_absent (h : Absent Digits.chars cs) : ¬ cs.head?.any Char.isDigit := by
  cases cs with
  | nil => exact Bool.false_ne_true
  | cons c cs =>
    intro digit
    have alone : ∀ d ∈ [c], d.isDigit := fun d hd => List.mem_singleton.mp hd ▸ digit
    exact h ⟨[c], List.cons_ne_nil _ _, alone⟩ ⟨cs, rfl⟩

theorem takes_withNumber {kind : Kind} {make : Numeral → Lexeme} {directive : Decimal → Directive}
    (makes : Makes kind Numeral.text make)
    (means : ∀ n, (make n).directive? = some (directive n.value)) (cs : List Char)
    (skipped : ¬ cs.head?.any Char.isDigit → Skipped kind.char cs) :
    Takes kind.char cs (Scanner.withNumber directive cs) := by
  unfold Scanner.withNumber
  rcases finds_number cs with ⟨answer, found, finds⟩ | ⟨none, absent⟩
  · rw [found]
    exact makes.takes finds (fun value => some (directive value)) means
  · rw [none]
    refine .inr ⟨skipped (not_digit_of_absent fun ds h => ?_), rfl⟩
    have alone : Numeral.text ⟨ds, Option.none⟩ = ds.chars := List.append_nil _
    exact absent ⟨ds, Option.none⟩ (alone ▸ h)

theorem takes_tempo (cs : List Char) : Takes 't' cs (Scanner.withNumber .tempo cs) := by
  have makes : Makes .tempo Numeral.text .tempo := by
    refine ⟨fun _ => rfl, fun _ => rfl, fun y hy => ?_⟩
    cases y <;> cases hy
    exact ⟨_, rfl⟩
  exact takes_withNumber makes (fun _ => rfl) cs id

theorem takes_volume (cs : List Char) : Takes 'v' cs (Scanner.withNumber .volume cs) := by
  have makes : Makes .volume Numeral.text .volume := by
    refine ⟨fun _ => rfl, fun _ => rfl, fun y hy => ?_⟩
    cases y <;> cases hy
    exact ⟨_, rfl⟩
  exact takes_withNumber makes (fun _ => rfl) cs id

/-- A letter with parameters, where no other lexeme of the kind has this letter. -/
theorem longest_withParams {kind : Kind} {c : Char} (make : Params → Lexeme)
    (kinds : ∀ p, (make p).kind = kind) (tails : ∀ p, (make p).tail = c :: p.text)
    (tail_ne : ∀ y : Lexeme, y.kind = kind → y.tail ≠ [])
    (all : ∀ y : Lexeme, y.kind = kind → ∀ ds, y.tail = c :: ds → ∃ p, y = make p)
    {p : Params} (longest : Longest Params.text cs p) :
    Longest Lexeme.text (kind.char :: c :: cs) (make p) := by
  rw [← kinds p]
  refine longest_lexeme ?_ fun y hy h => ?_
  · rw [tails]
    exact (List.prefix_cons_inj c).mpr longest.1
  · obtain ⟨d, ds, tail⟩ := List.exists_cons_of_ne_nil (tail_ne y (hy.trans (kinds p)))
    rw [tail] at h
    obtain rfl := (List.cons_prefix_cons.mp h).1
    obtain ⟨p', rfl⟩ := all y (hy.trans (kinds p)) ds tail
    rw [← tail, tails] at h
    rw [tails, tails]
    exact Nat.succ_le_succ (longest.2 p' ((List.prefix_cons_inj d).mp h))

theorem takes_effect (cs : List Char) : Takes '#' cs (Scanner.effect cs) := by
  unfold Scanner.effect
  split
  · rename_i letter tail
    split
    · rename_i lower
      obtain ⟨params, longest, found⟩ := finds_numbers tail
      rw [found]
      refine .inl ⟨.effect letter lower params, ?_, congrArg (Prod.mk _) (Nat.add_comm 1 _)⟩
      refine longest_withParams (.effect letter lower) (fun _ => rfl) (fun _ => rfl)
        (fun y hy => ?_) (fun y hy ds h => ?_) longest
      · cases y <;> cases hy
        exact List.cons_ne_nil _ _
      · cases y <;> cases hy
        cases h
        exact ⟨_, rfl⟩
    · rename_i not_lower
      exact .inr ⟨not_lower, rfl⟩
  · exact .inr ⟨Bool.false_ne_true, rfl⟩

theorem Lexeme.atSign_cases {y : Lexeme} (h : y.kind = .atSign) :
    (∃ index, y = .waveform index) ∨ (∃ params, y = .envelope params) ∨
      (∃ params, y = .harmony params) ∨ ∃ params, y = .unison params := by
  cases y <;> simp_all [kind]

/-- A letter behind an `@`, where no other lexeme has this letter there. -/
theorem takes_atLetter {c : Char} {directive : List Decimal → Directive} (make : Params → Lexeme)
    (kinds : ∀ p, (make p).kind = .atSign) (tails : ∀ p, (make p).tail = c :: p.text)
    (all : ∀ y : Lexeme, y.kind = .atSign → ∀ ds, y.tail = c :: ds → ∃ p, y = make p)
    (means : ∀ p, (make p).directive? = some (directive p.values)) (cs : List Char) :
    Takes '@' (c :: cs)
      (some (directive (Scanner.numbers cs).1), 1 + (Scanner.numbers cs).2) := by
  obtain ⟨params, longest, found⟩ := finds_numbers cs
  have tail_ne (y : Lexeme) (hy : y.kind = .atSign) : y.tail ≠ [] := by
    rcases Lexeme.atSign_cases hy with ⟨index, rfl⟩ | ⟨_, rfl⟩ | ⟨_, rfl⟩ | ⟨_, rfl⟩
    · exact index.nonempty
    all_goals exact List.cons_ne_nil _ _
  refine .inl ⟨make params, longest_withParams make kinds tails tail_ne all longest, ?_⟩
  rw [found, means, tails, List.length_cons, Nat.add_comm]

theorem takes_atDirective (cs : List Char) : Takes '@' cs (Scanner.atDirective cs) := by
  unfold Scanner.atDirective
  split
  · rename_i tail
    refine takes_atLetter .envelope (fun _ => rfl) (fun _ => rfl) (fun y hy ds h => ?_)
      (fun _ => rfl) tail
    rcases Lexeme.atSign_cases hy with ⟨index, rfl⟩ | mine | ⟨_, rfl⟩ | ⟨_, rfl⟩
    · exact absurd h (index.chars_ne_cons rfl ds)
    · exact mine
    all_goals exact absurd (List.cons.inj h).1 (by decide)
  · rename_i tail
    refine takes_atLetter .harmony (fun _ => rfl) (fun _ => rfl) (fun y hy ds h => ?_)
      (fun _ => rfl) tail
    rcases Lexeme.atSign_cases hy with ⟨index, rfl⟩ | ⟨_, rfl⟩ | mine | ⟨_, rfl⟩
    · exact absurd h (index.chars_ne_cons rfl ds)
    · exact absurd (List.cons.inj h).1 (by decide)
    · exact mine
    · exact absurd (List.cons.inj h).1 (by decide)
  · rename_i tail
    refine takes_atLetter .unison (fun _ => rfl) (fun _ => rfl) (fun y hy ds h => ?_)
      (fun _ => rfl) tail
    rcases Lexeme.atSign_cases hy with ⟨index, rfl⟩ | ⟨_, rfl⟩ | ⟨_, rfl⟩ | mine
    · exact absurd h (index.chars_ne_cons rfl ds)
    · exact absurd (List.cons.inj h).1 (by decide)
    · exact absurd (List.cons.inj h).1 (by decide)
    · exact mine
  · rename_i not_e not_h not_u
    rcases finds_digits cs with ⟨index, found, longest⟩ | ⟨none, absent⟩
    · rw [whole?_of_digits found]
      refine .inl ⟨.waveform index, ?_, rfl⟩
      refine longest_lexeme (x := .waveform index) longest.1 fun y hy h => ?_
      have other {c : Char} (hc : ∀ tail, cs ≠ c :: tail) (ds : List Char) : ¬ c :: ds <+: cs :=
        fun ⟨tail, h⟩ => hc _ h.symm
      rcases Lexeme.atSign_cases hy with ⟨ds, rfl⟩ | ⟨p, rfl⟩ | ⟨p, rfl⟩ | ⟨p, rfl⟩
      · exact longest.2 ds h
      · exact absurd h (other not_e _)
      · exact absurd h (other not_h _)
      · exact absurd h (other not_u _)
    · rw [whole?_of_nil none]
      refine .inr ⟨?_, rfl⟩
      cases cs with
      | nil => exact Bool.false_ne_true
      | cons d tail =>
        have digit : ¬ d.isDigit := not_digit_of_absent absent
        have letter : d ≠ 'e' ∧ d ≠ 'h' ∧ d ≠ 'u' :=
          ⟨fun h => not_e tail (by rw [h]), fun h => not_h tail (by rw [h]),
            fun h => not_u tail (by rw [h])⟩
        simp [Skipped, digit, letter]

theorem Letter.eq_toChar {c : Char} {letter : Letter} (h : Letter.ofChar? c = some letter) :
    c = letter.toChar := by
  unfold Letter.ofChar? at h
  split at h <;> cases h <;> rfl

theorem takes_lexeme (c : Char) (cs : List Char) : Takes c cs (Scanner.lexeme c cs) := by
  unfold Scanner.lexeme
  split
  · rename_i letter h
    rw [Letter.eq_toChar h]
    exact takes_note letter cs
  · rename_i not_letter
    split
    · exact takes_rest cs
    · exact takes_defaultLength cs
    · exact takes_tempo cs
    · exact takes_volume cs
    · exact takes_mark .octaveUp cs
    · exact takes_mark .octaveDown cs
    · exact takes_mark .repeatStart cs
    · exact takes_repeatEnd cs
    · exact takes_mark .voiceReset cs
    · exact takes_atDirective cs
    · exact takes_effect cs
    · refine .inr ⟨?_, rfl⟩
      have none : Kind.ofChar? c = none := by
        unfold Kind.ofChar?
        simp only [not_letter]
      unfold Skipped
      split <;> first | exact none | contradiction

theorem Digits.head_of_prefix {ds : Digits} (h : ds.chars <+: cs) :
    cs.head?.any Char.isDigit := by
  obtain ⟨c, rest, eq⟩ := List.exists_cons_of_ne_nil ds.nonempty
  obtain ⟨tail, rfl⟩ := h
  have first : c ∈ ds.chars := by rw [eq]; exact List.mem_cons_self
  rw [eq]
  exact ds.digits c first

theorem Numeral.head_of_prefix {n : Numeral} (h : n.text <+: cs) : cs.head?.any Char.isDigit :=
  Digits.head_of_prefix ((List.prefix_append _ _).trans h)

/-- Where a character is passed over, no lexeme stands. -/
theorem Skipped.absent {c : Char} (h : Skipped c cs) : Absent Lexeme.text (c :: cs) := by
  intro x hx
  obtain ⟨head, tail⟩ := List.cons_prefix_cons.mp hx
  unfold Skipped at h
  split at h
  · have tempo : x.kind = .tempo := Lexeme.kind_eq_of_head head
    cases x <;> cases tempo
    exact h (Numeral.head_of_prefix tail)
  · have volume : x.kind = .volume := Lexeme.kind_eq_of_head head
    cases x <;> cases volume
    exact h (Numeral.head_of_prefix tail)
  · rcases Lexeme.atSign_cases (Lexeme.kind_eq_of_head head) with
      ⟨index, rfl⟩ | ⟨p, rfl⟩ | ⟨p, rfl⟩ | ⟨p, rfl⟩
    · have digit := Digits.head_of_prefix tail
      cases cs with
      | nil => cases digit
      | cons d cs => exact h (Bool.or_eq_true_iff.mpr (.inl digit))
    all_goals
      obtain ⟨rest, rfl⟩ := tail
      exact h rfl
  · have effect : x.kind = .effect := Lexeme.kind_eq_of_head head
    cases x <;> cases effect
    rename_i letter lower params
    obtain ⟨rest, rfl⟩ := tail
    exact h lower
  · rw [← head, Lexeme.head, Kind.ofChar?_char] at h
    cases h

/-! ## The scan -/

/-- A lexeme and the index of its first character. -/
structure Placed where
  offset : Nat
  lexeme : Lexeme

namespace Placed

/-- The index behind the last character. -/
def stop (p : Placed) : Nat := p.offset + p.lexeme.text.length

/-- The token of a lexeme that says something. -/
def token? (p : Placed) : Option Token := p.lexeme.directive?.map fun directive =>
  ⟨directive, p.offset⟩

end Placed

/-- The scan of a text whose first character has the index `offset`, with what it finds. -/
inductive Scans : Nat → List Char → List Placed → Prop where
  | done (offset : Nat) : Scans offset [] []
  /-- The longest lexeme is taken, and the scan goes on behind it. -/
  | take {offset : Nat} {cs : List Char} {x : Lexeme} {others : List Placed}
      (longest : Longest Lexeme.text cs x)
      (rest : Scans (offset + x.text.length) (cs.drop x.text.length) others) :
      Scans offset cs (⟨offset, x⟩ :: others)
  /-- Where there is none, one character is passed over. -/
  | skip {offset : Nat} {c : Char} {cs : List Char} {found : List Placed}
      (skipped : Skipped c cs) (rest : Scans (offset + 1) cs found) :
      Scans offset (c :: cs) found

variable {offset : Nat} {found : List Placed}

/-- There is only one scan of a text. -/
theorem Scans.unique (h : Scans offset cs found) {other : List Placed}
    (h' : Scans offset cs other) : other = found := by
  induction h generalizing other with
  | done offset =>
    cases h' with
    | done => rfl
    | take longest => exact absurd (List.prefix_nil.mp longest.1) (List.cons_ne_nil _ _)
  | take longest _ ih =>
    cases h' with
    | done => exact absurd (List.prefix_nil.mp longest.1) (List.cons_ne_nil _ _)
    | take longest' rest =>
      obtain rfl := longest.unique Lexeme.text_injective longest'
      rw [ih rest]
    | skip skipped => exact absurd skipped.absent longest.not_absent
  | skip skipped _ ih =>
    cases h' with
    | take longest => exact absurd skipped.absent longest.not_absent
    | skip _ rest => exact ih rest

/-- What is found stands in the text. -/
theorem Scans.text_prefix (h : Scans offset cs found) :
    ∀ p ∈ found, ∃ i, p.offset = offset + i ∧ p.lexeme.text <+: cs.drop i := by
  induction h with
  | done => exact fun p hp => nomatch hp
  | @take offset cs x others longest _ ih =>
    intro p hp
    rcases List.mem_cons.mp hp with rfl | hp
    · exact ⟨0, rfl, longest.1⟩
    · obtain ⟨i, place, stands⟩ := ih p hp
      rw [List.drop_drop] at stands
      exact ⟨x.text.length + i, by rw [place, Nat.add_assoc], stands⟩
  | skip _ _ ih =>
    intro p hp
    obtain ⟨i, place, stands⟩ := ih p hp
    exact ⟨i + 1, by omega, stands⟩

/-- What is found stands one behind the other. -/
theorem Scans.pairwise (h : Scans offset cs found) :
    found.Pairwise fun p q => p.stop ≤ q.offset := by
  induction h with
  | done => exact List.Pairwise.nil
  | @take offset cs x others longest rest ih =>
    refine List.Pairwise.cons (fun q hq => ?_) ih
    obtain ⟨i, place, -⟩ := rest.text_prefix q hq
    rw [place]
    exact Nat.le_add_right _ _
  | skip _ _ ih => exact ih

/-- The tokens of a text are those of its scan. -/
theorem exists_scans (offset : Nat) (cs : List Char) :
    ∃ found, Scans offset cs found ∧
      Scanner.tokensFrom offset cs = found.filterMap Placed.token? := by
  match cs with
  | [] => exact ⟨[], .done offset, by rw [Scanner.tokensFrom]; rfl⟩
  | c :: cs =>
    rcases takes_lexeme c cs with ⟨x, longest, taken⟩ | ⟨skipped, taken⟩
    · obtain ⟨found, scans, tokens⟩ :=
        exists_scans (offset + 1 + x.tail.length) (cs.drop x.tail.length)
      refine ⟨⟨offset, x⟩ :: found, .take longest ?_, ?_⟩
      · rw [Lexeme.text, List.length_cons, List.drop_succ_cons, Nat.add_comm x.tail.length,
          ← Nat.add_assoc]
        exact scans
      · rw [Scanner.tokensFrom, taken]
        simp only [tokens, List.filterMap_cons, Placed.token?]
        cases x.directive? <;> rfl
    · obtain ⟨found, scans, tokens⟩ := exists_scans (offset + 1) cs
      refine ⟨found, .skip skipped scans, ?_⟩
      rw [Scanner.tokensFrom, taken]
      exact tokens
termination_by cs.length
decreasing_by
  · simp only [List.length_drop, List.length_cons]; omega
  · simp only [List.length_cons]; omega

theorem Placed.token?_offset {p : Placed} {t : Token} (h : p.token? = some t) :
    t.offset = p.offset := by
  obtain ⟨directive, -, rfl⟩ := Option.map_eq_some_iff.mp h
  rfl

theorem Placed.offset_lt_stop (p : Placed) : p.offset < p.stop :=
  Nat.lt_add_of_pos_right (Nat.succ_pos _)

end Chiptune.Grammar

namespace Chiptune

open Grammar

/-- **The scanner reads its grammar by longest match.** Every text has exactly one scan; the tokens
are what the lexemes say that it finds, each at the index of its first character. The lexemes
stand in the text, one behind the other. -/
theorem tokenize_longestMatch (source : List Char) :
    ∃ found, Scans 0 source found ∧ (∀ other, Scans 0 source other → other = found) ∧
      tokenize source = found.filterMap Placed.token? ∧
      (∀ p ∈ found, p.lexeme.text <+: source.drop p.offset) ∧
      found.Pairwise (fun p q => p.stop ≤ q.offset) ∧
      (tokenize source).Pairwise fun s t => s.offset < t.offset := by
  obtain ⟨found, scans, tokens⟩ := exists_scans 0 source
  have stands : ∀ p ∈ found, p.lexeme.text <+: source.drop p.offset := by
    intro p hp
    obtain ⟨i, place, stands⟩ := scans.text_prefix p hp
    rwa [place, Nat.zero_add]
  have increasing : (found.filterMap Placed.token?).Pairwise fun s t => s.offset < t.offset := by
    refine List.pairwise_filterMap.mpr (scans.pairwise.imp fun {p q} h s hs t ht => ?_)
    rw [Placed.token?_offset hs, Placed.token?_offset ht]
    exact Nat.lt_of_lt_of_le p.offset_lt_stop h
  refine ⟨found, scans, fun other => scans.unique, tokens, stands, scans.pairwise, ?_⟩
  rw [tokenize, tokens]
  exact increasing

/-- A `t` without a number is passed over, the last tie and the last comma lead to nothing, and the
`l` has no part that counts. -/
example : tokenize "tc4.&x@u2,5,l&".toList
    = [⟨.note ⟨.c, .natural⟩ (Length.ofParts? [⟨4, true⟩]), 1⟩, ⟨.unison [⟨2, 0⟩, ⟨5, 0⟩], 6⟩] := by
  decide +kernel

end Chiptune
