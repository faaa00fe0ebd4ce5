import Chiptune.Proofs.Grammar.Separator

/-!
# Two readers of lengths

A length is read in the middle of a text by the scanner, and by itself by `Length.parse?`. Both
read tied parts, each of digits and a dot that may both be absent.

* `Grammar.tokenize_text`: the text of a lexeme has what the lexeme says as its only token.
* `Grammar.Part.Fits`: the digits of a part write at most `maxWhole`. The scanner takes a larger
  number as `maxWhole`, the other reader passes over the part.
* `Length.parse?_text`: by itself, a length is read as its fitting parts.
* `Grammar.readers_agree_iff`: the two agree on exactly those texts of which all parts fit.
-/

namespace Chiptune

namespace Length

/-! ## Parts between ties -/

theorem splitTies_eq_splitOn (cs : List Char) : splitTies cs = cs.splitOn '&' := by
  induction cs with
  | nil => rfl
  | cons c cs ih =>
    rw [List.splitOn_eq_splitOnP, List.splitOnP_cons_eq_if_modifyHead, ← List.splitOn_eq_splitOnP,
      ← ih]
    by_cases tie : c = '&'
    · simp [tie, splitTies]
    · rw [splitTies.eq_3 c cs tie, if_neg (by simpa using tie)]
      cases split : splitTies cs with
      | nil => exact absurd (ih.symm.trans split) (List.splitOn_ne_nil '&' cs)
      | cons first others => rfl

/-- A length says no more than its parts with a denominator. -/
theorem ofParts?_eq_iff {xs ys : List NoteValue} :
    ofParts? xs = ofParts? ys ↔
      xs.filter (0 < ·.denominator) = ys.filter (0 < ·.denominator) := by
  have kept (xs : List NoteValue) :
      xs.filter (0 < ·.denominator) = ((ofParts? xs).map parts).getD [] := by
    unfold ofParts?
    dsimp only
    split <;> simp_all
  constructor
  · intro h
    rw [kept, kept, h]
  · intro h
    simp only [ofParts?, h]

end Length

namespace Grammar

theorem separated_eq_intercalate {β : Type} (sep : Char) (text : β → List Char) (first : β)
    (others : List β) :
    separated sep text first others = [sep].intercalate ((first :: others).map text) := by
  induction others generalizing first with
  | nil => simp [separated, following]
  | cons next others ih =>
    rw [List.map_cons, List.map_cons, List.intercalate_cons_cons, ← List.map_cons, ← ih next]
    simp [separated, following]

/-- All parts of a length. -/
def Ties.parts (l : Ties) : List Part := l.first :: l.others

/-- The ties of a length part what stands between them. -/
theorem splitTies_text (l : Ties) : Length.splitTies l.text = l.parts.map Part.text := by
  rw [Length.splitTies_eq_splitOn, Ties.text, separated_eq_intercalate]
  refine List.splitOn_intercalate '&' ?_ (by simp)
  intro text h
  obtain ⟨p, -, rfl⟩ := List.mem_map.mp h
  exact p.notMem_text rfl (by decide)

/-! ## One part -/

/-- The number of a part, if it has one, is at most `maxWhole`. -/
def Part.Fits (p : Part) : Prop := ∀ ds ∈ p.digits, Decimal.whole ds.chars ≤ maxWhole

instance (p : Part) : Decidable p.Fits :=
  match h : p.digits with
  | none => isTrue (by simp [Part.Fits, h])
  | some ds => decidable_of_iff (Decimal.whole ds.chars ≤ maxWhole) (by simp [Part.Fits, h])

theorem denominator?_chars (ds : Digits) :
    Length.denominator? ds.chars
      = if Decimal.whole ds.chars ≤ maxWhole then some (Decimal.whole ds.chars) else none := by
  have digits : ds.chars.all Char.isDigit := List.all_eq_true.mpr ds.digits
  unfold Length.denominator?
  split
  · rename_i tail plus
    exact absurd plus (ds.chars_ne_cons rfl tail)
  · simp [ds.nonempty, digits]

theorem getLast?_ne_dot (digits : Option Digits) :
    (optional Digits.chars digits).getLast? ≠ some '.' := fun h =>
  Digits.notMem_optional rfl digits (List.mem_of_getLast? h)

/-- What stands between two ties is read without the dot at its end. -/
theorem part?_text (p : Part) :
    Length.part? p.text
      = (Length.denominator? (optional Digits.chars p.digits)).map (⟨·, p.dotted⟩) := by
  obtain ⟨digits, dotted⟩ := p
  cases dotted with
  | false => simp [Part.text, Length.part?, getLast?_ne_dot digits]
  | true => simp [Part.text, Length.part?]

/-- **A part is read by itself as in a text, if it fits**, and else passed over. -/
theorem part?_text_of_fits (p : Part) :
    Length.part? p.text = if p.Fits then p.value? else none := by
  rw [part?_text]
  obtain ⟨digits, dotted⟩ := p
  cases digits with
  | none => simp [Part.value?, optional, Length.denominator?]
  | some ds =>
    have fits : Part.Fits ⟨some ds, dotted⟩ ↔ Decimal.whole ds.chars ≤ maxWhole := by
      simp [Part.Fits]
    simp only [optional, Option.elim_some, denominator?_chars, fits]
    split
    · rename_i le
      simp [Part.value?, Digits.value, Nat.min_eq_left le]
    · rfl

/-- In a text a part that does not fit counts for the largest denominator. -/
theorem Part.value?_of_not_fits {p : Part} (h : ¬ p.Fits) :
    p.value? = some ⟨maxWhole, p.dotted⟩ := by
  obtain ⟨digits, dotted⟩ := p
  cases digits with
  | none => exact absurd (by simp [Part.Fits]) h
  | some ds =>
    have le : maxWhole ≤ Decimal.whole ds.chars := by
      simp only [Part.Fits, Option.mem_def, Option.some.injEq, forall_eq', not_le] at h
      omega
    simp [Part.value?, Digits.value, Nat.min_eq_right le]

/-! ## All parts -/

/-- **By itself, a length is read as its fitting parts.** -/
theorem parse?_text (l : Ties) :
    Length.parse? l.text
      = Length.ofParts? ((l.parts.filter fun p => p.Fits).filterMap Part.value?) := by
  rw [Length.parse?, splitTies_text, List.filterMap_map, List.filterMap_filter]
  congr 1
  refine List.filterMap_congr fun p _ => ?_
  simp [part?_text_of_fits]

/-- Parts that count, in the order in which they stand. -/
def counting (parts : List Part) : List NoteValue :=
  (parts.filterMap Part.value?).filter (0 < ·.denominator)

theorem counting_cons (p : Part) (parts : List Part) :
    counting (p :: parts) = p.value?.toList.filter (0 < ·.denominator) ++ counting parts := by
  unfold counting
  rw [← List.filter_append]
  congr 1
  cases value : p.value? <;> simp [value]

/-- Without the parts that do not fit, fewer count. -/
theorem length_counting_fits (parts : List Part) :
    (counting (parts.filter fun p => p.Fits)).length
        + parts.countP (fun p => ¬ p.Fits) = (counting parts).length := by
  induction parts with
  | nil => rfl
  | cons p parts ih =>
    rw [counting_cons, List.length_append, List.countP_cons, ← ih]
    by_cases fits : p.Fits
    · simp [fits, counting_cons]
      omega
    · simp [fits, Part.value?_of_not_fits fits, maxWhole]
      omega

theorem parse?_text_eq_iff (l : Ties) :
    Length.parse? l.text = l.length? ↔ ∀ p ∈ l.parts, p.Fits := by
  rw [parse?_text, Ties.length?, Length.ofParts?_eq_iff]
  show counting (l.parts.filter fun p => p.Fits) = counting l.parts ↔ _
  constructor
  · intro same p hp
    have none := length_counting_fits l.parts
    rw [same, Nat.add_eq_left, List.countP_eq_zero] at none
    simpa using none p hp
  · intro fits
    rw [List.filter_eq_self.mpr (by simpa using fits)]

/-! ## Lexemes by themselves -/

/-- **The text of a lexeme has one token**, if the lexeme says something. -/
theorem tokenize_text (x : Lexeme) :
    tokenize x.text = (x.directive?.map (⟨·, 0⟩)).toList := by
  have longest : Longest Lexeme.text x.text x := ⟨List.prefix_rfl, fun _ h => h.length_le⟩
  have scan : Scans 0 x.text [⟨0, x⟩] := by
    refine .take longest ?_
    rw [List.drop_length]
    exact .done _
  rw [tokenize, Scanner.tokensFrom_of_scans scan]
  simp [List.filterMap_cons, Placed.token?]
  cases x.directive? <;> rfl

/-- **The two readers agree on the lengths of which all parts fit, and on no others.** Agreeing, the
scanner gives a note and a rest the length that is read by itself from what stands behind them, and
an `l` sets it, or says nothing if there is none. -/
theorem readers_agree_iff (l : Ties) :
    (tokenize ('l' :: l.text)
          = ((Length.parse? l.text).map fun length => ⟨.defaultLength length, 0⟩).toList ∧
        tokenize ('r' :: l.text) = [⟨.rest (Length.parse? l.text), 0⟩] ∧
        ∀ letter accidental,
          tokenize (letter.toChar :: (accidentalText accidental ++ l.text))
            = [⟨.note ⟨letter, accidental⟩ (Length.parse? l.text), 0⟩]) ↔
      ∀ p ∈ l.parts, p.Fits := by
  have rest : tokenize ('r' :: l.text) = [⟨.rest l.length?, 0⟩] := tokenize_text (.rest l)
  constructor
  · rintro ⟨-, same, -⟩
    rw [rest] at same
    exact (parse?_text_eq_iff l).mp (by simpa using same.symm)
  · intro fits
    rw [(parse?_text_eq_iff l).mpr fits]
    refine ⟨?_, rest, fun letter accidental => tokenize_text (.note letter accidental l)⟩
    have default := tokenize_text (.defaultLength l)
    rw [Lexeme.directive?, Option.map_map] at default
    exact default

/-- A whole number of 33 bits is too large. -/
theorem readers_disagree :
    Length.parse? "4294967296".toList = none ∧
      tokenize "l4294967296".toList
        = ((Length.single? maxWhole).map fun length => ⟨.defaultLength length, 0⟩).toList := by
  decide +kernel

end Grammar

end Chiptune
