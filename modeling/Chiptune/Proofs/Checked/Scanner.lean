import Chiptune.Proofs.Checked.Basic
import Chiptune.Notation.Scanner

/-!
# Checked scanning

The scanner as a machine runs it: positions in a text, where a character is read after every test
that there is one. Each reader answers what it has read and the position behind it.

* `At text pos cs`: `cs` stands in `text` from position `pos` on.
* `Reads`: a checked reader answers as the reader over the characters in front does, and stops
  behind its width. Each reader has its lemma; `tokens_eq` is that of the whole scan.
-/

namespace Chiptune.Checked

/-! ## Readers -/

/-- The character at `pos` and the position behind it. -/
def advance (text : List Char) (pos : Nat) : Option (Char × Nat) := do
  let c ← text[pos]?
  return (c, ← add pos 1)

/-- Whether a digit stands behind `pos`. -/
def digitFollows (text : List Char) (pos : Nat) : Option Bool := do
  let next ← add pos 1
  return (text[next]?).any Char.isDigit

/-- Whether `c` stands at `pos`; if so, it is passed over. -/
def pass (c : Char) (text : List Char) (pos : Nat) : Option (Bool × Nat) := do
  if text[pos]? = some c then
    let (_, pos) ← advance text pos
    return (true, pos)
  else return (false, pos)

/-- Where a loop goes on that has come from `pos` to `after`. It must not stand still, and must
not leave the text. -/
def onward (text : List Char) (pos after : Nat) :
    Option { next : Nat // pos < next ∧ next ≤ text.length } :=
  if h : pos < after ∧ after ≤ text.length then some ⟨after, h⟩ else none

/-- The digits from `pos` on. -/
def digits (text : List Char) (pos : Nat) : Option (List Char × Nat) :=
  if pos < text.length then do
    let c ← text[pos]?
    if c.isDigit then
      let (c, after) ← advance text pos
      let ⟨next, _⟩ ← onward text pos after
      let (ds, after) ← digits text next
      return (c :: ds, after)
    else return ([], pos)
  else return ([], pos)
termination_by text.length - pos
decreasing_by omega

/-- Digits, if there are any, as a whole number. -/
def whole (text : List Char) (pos : Nat) : Option (Option Nat × Nat) := do
  let (ds, after) ← digits text pos
  return (if ds.isEmpty then none else some (Scanner.whole ds), after)

/-- Digits, then perhaps a point and further digits. -/
def number (text : List Char) (pos : Nat) : Option (Option Decimal × Nat) := do
  let (before, pos) ← digits text pos
  if before.isEmpty then return (none, pos)
  else if text[pos]? = some '.' then
    if ← digitFollows text pos then
      let (_, pos) ← advance text pos
      let (after, pos) ← digits text pos
      return (some (.ofParts before after), pos)
    else return (some (.ofParts before []), pos)
  else return (some (.ofParts before []), pos)

/-- Numbers that each follow a comma. -/
def furtherNumbers (text : List Char) (pos : Nat) : Option (List Decimal × Nat) := do
  if text[pos]? = some ',' then
    if ← digitFollows text pos then
      let (_, after) ← advance text pos
      match ← number text after with
      | (some value, after) =>
        let ⟨next, _⟩ ← onward text pos after
        let (values, after) ← furtherNumbers text next
        return (value :: values, after)
      | (none, after) => return ([], after)
    else return ([], pos)
  else return ([], pos)
termination_by text.length - pos
decreasing_by omega

/-- Numbers with commas between them, perhaps none. -/
def numbers (text : List Char) (pos : Nat) : Option (List Decimal × Nat) := do
  match ← number text pos with
  | (some value, pos) =>
    let (values, pos) ← furtherNumbers text pos
    return (value :: values, pos)
  | (none, pos) => return ([], pos)

/-- Digits and a dot, both of which may be absent. -/
def part (text : List Char) (pos : Nat) : Option (List NoteValue × Nat) := do
  let (ds, pos) ← digits text pos
  let (dotted, pos) ← pass '.' text pos
  return (if ds.isEmpty then [] else [⟨Scanner.whole ds, dotted⟩], pos)

/-- Tied parts. -/
def noteValues (text : List Char) (pos : Nat) : Option (List NoteValue × Nat) := do
  let (value, after) ← part text pos
  let (tied, after) ← pass '&' text after
  if tied then
    let ⟨next, _⟩ ← onward text pos after
    let (values, after) ← noteValues text next
    return (value ++ values, after)
  else return (value, after)
termination_by text.length - pos
decreasing_by omega

/-- A length, if a part of it has a denominator. -/
def length (text : List Char) (pos : Nat) : Option (Option Length × Nat) := do
  let (values, pos) ← noteValues text pos
  return (Length.ofParts? values, pos)

/-- An accidental, if one stands at `pos`. -/
def accidental (text : List Char) (pos : Nat) : Option (Accidental × Nat) := do
  match text[pos]?.bind Accidental.ofChar? with
  | some accidental =>
    let (_, pos) ← advance text pos
    return (accidental, pos)
  | none => return (.natural, pos)

/-- A pitch letter, perhaps an accidental and a length. -/
def note (text : List Char) (pos : Nat) : Option (Option Directive × Nat) := do
  let (letter, pos) ← advance text pos
  let (accidental, pos) ← accidental text pos
  match Letter.ofChar? letter with
  | some letter =>
    let (length, pos) ← length text pos
    return (some (.note ⟨letter, accidental⟩ length), pos)
  | none => return (none, pos)

/-- A letter and its numbers. -/
def withNumbers (directive : List Decimal → Directive) (text : List Char) (pos : Nat) :
    Option (Option Directive × Nat) := do
  let (_, pos) ← advance text pos
  let (values, pos) ← numbers text pos
  return (some (directive values), pos)

/-- An `@` and a waveform's index, or a letter and its numbers. -/
def atDirective (text : List Char) (pos : Nat) : Option (Option Directive × Nat) := do
  let (_, pos) ← advance text pos
  if pos < text.length then
    match ← text[pos]? with
    | 'e' => withNumbers .envelope text pos
    | 'h' => withNumbers .harmony text pos
    | 'u' => withNumbers .unison text pos
    | _ =>
      let (index, pos) ← whole text pos
      return (index.map .waveform, pos)
  else return (none, pos)

/-- A `#`, a lower-case letter and its numbers. -/
def effect (text : List Char) (pos : Nat) : Option (Option Directive × Nat) := do
  let (_, pos) ← advance text pos
  if pos < text.length then
    let letter ← text[pos]?
    if letter.isLower then withNumbers (.effect letter) text pos
    else return (none, pos)
  else return (none, pos)

/-- A character that says something by itself. -/
def single (directive : Option Directive) (text : List Char) (pos : Nat) :
    Option (Option Directive × Nat) := do
  let (_, pos) ← advance text pos
  return (directive, pos)

/-- A letter and the number that it needs. -/
def withNumber (directive : Decimal → Directive) (text : List Char) (pos : Nat) :
    Option (Option Directive × Nat) := do
  let (_, pos) ← advance text pos
  let (value, pos) ← number text pos
  return (value.map directive, pos)

/-- What begins at `pos`. -/
def lexeme (text : List Char) (pos : Nat) : Option (Option Directive × Nat) := do
  let c ← text[pos]?
  if 'a' ≤ c ∧ c ≤ 'g' then note text pos
  else
    match c with
    | 'r' =>
      let (_, pos) ← advance text pos
      let (length, pos) ← length text pos
      return (some (.rest length), pos)
    | 'l' =>
      let (_, pos) ← advance text pos
      let (length, pos) ← length text pos
      return (length.map .defaultLength, pos)
    | 't' => withNumber .tempo text pos
    | 'v' => withNumber .volume text pos
    | '<' => single (some .octaveUp) text pos
    | '>' => single (some .octaveDown) text pos
    | '[' => single (some .repeatStart) text pos
    | ']' =>
      let (_, pos) ← advance text pos
      let (count, pos) ← whole text pos
      return (some (.repeatEnd count), pos)
    | ';' => single (some .voiceReset) text pos
    | '@' => atDirective text pos
    | '#' => effect text pos
    | _ => single none text pos

/-- The tokens from `pos` on. -/
def tokens (text : List Char) (pos : Nat) : Option (List Token) :=
  if pos < text.length then do
    let (directive, after) ← lexeme text pos
    let ⟨next, _⟩ ← onward text pos after
    let others ← tokens text next
    match directive with
    | some directive => return ⟨directive, pos⟩ :: others
    | none => return others
  else return []
termination_by text.length - pos
decreasing_by omega

/-! ## Positions -/

/-- `cs` stands in `text` from `pos` on, and the number of characters in `text` is a count. -/
structure At (text : List Char) (pos : Nat) (cs : List Char) : Prop where
  rest : text.drop pos = cs
  le : pos ≤ text.length
  length_le : text.length ≤ maxCount

/-- A reader at `pos` answers `value` and passes over `width` of the characters `cs` there. -/
def Reads {β : Type} (text : List Char) (pos : Nat) (cs : List Char)
    (answer : Option (β × Nat)) (value : β) (width : Nat) : Prop :=
  answer = some (value, pos + width) ∧ At text (pos + width) (cs.drop width)

variable {text cs : List Char} {c : Char} {pos : Nat}

theorem Reads.intro {β : Type} {answer : Option (β × Nat)} {value : β} {after width : Nat}
    (answer_eq : answer = some (value, after)) (after_eq : after = pos + width)
    (at_after : At text after (cs.drop width)) : Reads text pos cs answer value width := by
  subst after_eq
  exact ⟨answer_eq, at_after⟩

namespace At

theorem getElem? (h : At text pos cs) : text[pos]? = cs.head? := by
  rw [← h.rest, List.head?_drop]

theorem lt_of_cons (h : At text pos (c :: cs)) : pos < text.length := by
  have := congrArg List.length h.rest
  rw [List.length_drop, List.length_cons] at this
  omega

theorem not_lt_of_nil (h : At text pos []) : ¬ pos < text.length :=
  Nat.not_lt.mpr (List.drop_eq_nil_iff.mp h.rest)

theorem next (h : At text pos (c :: cs)) : At text (pos + 1) cs where
  rest := by rw [← List.tail_drop, h.rest, List.tail_cons]
  le := h.lt_of_cons
  length_le := h.length_le

theorem add_one (h : At text pos (c :: cs)) : add pos 1 = some (pos + 1) :=
  add_eq (Nat.le_trans h.lt_of_cons h.length_le)

theorem advance (h : At text pos (c :: cs)) : advance text pos = some (c, pos + 1) := by
  simp [Checked.advance, h.getElem?, h.add_one]

theorem onward {after : Nat} (h : At text after cs) (lt : pos < after) :
    onward text pos after = some ⟨after, lt, h.le⟩ := dif_pos ⟨lt, h.le⟩

theorem digitFollows (h : At text pos (c :: cs)) :
    digitFollows text pos = some (cs.head?.any Char.isDigit) := by
  simp [Checked.digitFollows, h.add_one, h.next.getElem?]

end At

theorem pass_of_cons (h : At text pos (c :: cs)) : pass c text pos = some (true, pos + 1) := by
  simp [pass, h.getElem?, h.advance]

theorem pass_of_ne (h : At text pos cs) (hc : cs.head? ≠ some c) :
    pass c text pos = some (false, pos) := by
  simp [pass, h.getElem?, hc]

theorem reads_pass (c : Char) (h : At text pos cs) :
    Reads text pos cs (pass c text pos) (cs.head? == some c) (cs.head? == some c).toNat := by
  by_cases hc : cs.head? = some c
  · obtain ⟨tail, rfl⟩ := List.head?_eq_some_iff.mp hc
    simpa [pass_of_cons h] using Reads.intro rfl rfl h.next
  · have other : (cs.head? == some c) = false := by simpa using hc
    rw [other]
    exact Reads.intro (pass_of_ne h hc) rfl h

/-! ## Numbers -/

theorem digits_cons_of_isDigit (hc : c.isDigit = true) (cs : List Char) :
    Scanner.digits (c :: cs) = c :: Scanner.digits cs := by
  simp [Scanner.digits, hc]

theorem digits_of_head {cs : List Char} (h : cs.head?.any Char.isDigit = false) :
    Scanner.digits cs = [] := by
  cases cs with
  | nil => rfl
  | cons c cs => simp_all [Scanner.digits]

theorem reads_digits (h : At text pos cs) :
    Reads text pos cs (digits text pos) (Scanner.digits cs) (Scanner.digits cs).length := by
  induction cs generalizing pos with
  | nil =>
    rw [digits, if_neg h.not_lt_of_nil]
    exact ⟨rfl, h⟩
  | cons c cs ih =>
    rw [digits, if_pos h.lt_of_cons, h.getElem?]
    by_cases hc : c.isDigit = true
    · obtain ⟨answer, after⟩ := ih h.next
      rw [digits_cons_of_isDigit hc]
      refine Reads.intro ?_ (Nat.add_right_comm pos 1 _) after
      simp [hc, h.advance, h.next.onward (Nat.lt_succ_self pos), answer]
    · rw [digits_of_head (by simpa using hc)]
      refine Reads.intro ?_ rfl h
      simp [hc]

theorem reads_whole (h : At text pos cs) :
    Reads text pos cs (whole text pos) (Scanner.whole? cs).1 (Scanner.whole? cs).2 := by
  obtain ⟨answer, after⟩ := reads_digits h
  unfold Scanner.whole?
  cases hd : Scanner.digits cs with
  | nil => exact Reads.intro (by simp [whole, answer, hd]) rfl h
  | cons d ds =>
    rw [hd] at answer after
    exact Reads.intro (by simp [whole, answer]) rfl after

theorem digits_ne_nil {cs : List Char} (h : cs.head?.any Char.isDigit = true) :
    Scanner.digits cs ≠ [] := by
  cases cs with
  | nil => cases h
  | cons c cs => rw [digits_cons_of_isDigit (by simpa using h)]; exact List.cons_ne_nil _ _

theorem number?_of_digits_nil (h : Scanner.digits cs = []) : Scanner.number? cs = none := by
  simp [Scanner.number?, h]

/-- A number is whole where no point with a digit behind it follows. -/
theorem number?_of_whole {before : List Char} (h : Scanner.digits cs = before) (hb : before ≠ [])
    (ht : ∀ tail, cs.drop before.length = '.' :: tail → Scanner.digits tail = []) :
    Scanner.number? cs = some (.ofParts before [], before.length) := by
  obtain ⟨d, ds, rfl⟩ := List.exists_cons_of_ne_nil hb
  simp only [Scanner.number?, h]
  split
  · rename_i tail he
    rw [ht tail he]
  · rfl

theorem number?_of_fraction {before after tail : List Char} (h : Scanner.digits cs = before)
    (hb : before ≠ []) (ht : cs.drop before.length = '.' :: tail)
    (ha : Scanner.digits tail = after) (hne : after ≠ []) :
    Scanner.number? cs
      = some (.ofParts before after, before.length + 1 + after.length) := by
  obtain ⟨d, ds, rfl⟩ := List.exists_cons_of_ne_nil hb
  obtain ⟨e, es, rfl⟩ := List.exists_cons_of_ne_nil hne
  simp only [Scanner.number?, h, ht, ha]

theorem reads_number (h : At text pos cs) :
    Reads text pos cs (number text pos) ((Scanner.number? cs).map (·.1))
      (((Scanner.number? cs).map (·.2)).getD 0) := by
  obtain ⟨answer, after⟩ := reads_digits h
  generalize hd : Scanner.digits cs = before at answer after
  by_cases hb : before = []
  · subst hb
    rw [number?_of_digits_nil hd]
    exact Reads.intro (by simp [number, answer]) rfl h
  unfold number
  simp only [answer, Option.bind_eq_bind, Option.bind_some, List.isEmpty_iff, hb, if_false]
  cases ht : cs.drop before.length with
  | nil =>
    have here : At text (pos + before.length) [] := ht ▸ after
    rw [number?_of_whole hd hb (by simp [ht])]
    exact Reads.intro (by simp [here.getElem?]) rfl after
  | cons c tail =>
    have here : At text (pos + before.length) (c :: tail) := ht ▸ after
    by_cases hc : c = '.'
    · subst hc
      cases hf : tail.head?.any Char.isDigit with
      | false =>
        rw [number?_of_whole hd hb (by simp [ht, digits_of_head hf])]
        exact Reads.intro (by simp [here.getElem?, here.digitFollows, hf]) rfl after
      | true =>
        obtain ⟨fraction, behind⟩ := reads_digits here.next
        rw [number?_of_fraction hd hb ht rfl (digits_ne_nil hf), Option.map_some, Option.map_some,
          Option.getD_some]
        have width : pos + before.length + 1 + (Scanner.digits tail).length
            = pos + (before.length + 1 + (Scanner.digits tail).length) := by omega
        have passed : cs.drop (before.length + 1 + (Scanner.digits tail).length)
            = tail.drop (Scanner.digits tail).length := by
          rw [← List.drop_drop, ← List.drop_drop, ht, List.drop_succ_cons, List.drop_zero]
        refine Reads.intro ?_ width (passed ▸ behind)
        simp [here.getElem?, here.digitFollows, hf, here.advance, fraction]
    · rw [number?_of_whole hd hb (by simp [ht, hc])]
      exact Reads.intro (by simp [here.getElem?, hc]) rfl after

theorem reads_number_some {value : Decimal} {width : Nat} (h : At text pos cs)
    (hn : Scanner.number? cs = some (value, width)) :
    Reads text pos cs (number text pos) (some value) width := by
  simpa only [hn, Option.map_some, Option.getD_some] using reads_number h

theorem reads_number_none (h : At text pos cs) (hn : Scanner.number? cs = none) :
    number text pos = some (none, pos) := by
  have answer := (reads_number h).1
  rw [hn] at answer
  exact answer

theorem number?_isSome (cs : List Char) :
    (Scanner.number? cs).isSome = cs.head?.any Char.isDigit := by
  cases hf : cs.head?.any Char.isDigit with
  | false => rw [number?_of_digits_nil (digits_of_head hf)]; rfl
  | true =>
    obtain ⟨d, ds, hd⟩ := List.exists_cons_of_ne_nil (digits_ne_nil hf)
    simp only [Scanner.number?, hd]
    split
    · split <;> rfl
    · rfl

/-! ## Lists of numbers -/

theorem reads_furtherNumbers (h : At text pos cs) :
    Reads text pos cs (furtherNumbers text pos) (Scanner.furtherNumbers cs).1
      (Scanner.furtherNumbers cs).2 := by
  fun_induction Scanner.furtherNumbers cs generalizing pos with
  | case1 tail hn =>
    have lone : tail.head?.any Char.isDigit = false := by rw [← number?_isSome, hn]; rfl
    rw [furtherNumbers]
    exact Reads.intro (by simp [h.getElem?, h.digitFollows, lone]) rfl h
  | case2 tail value width hn values more hm ih =>
    have digit : tail.head?.any Char.isDigit = true := by rw [← number?_isSome, hn]; rfl
    obtain ⟨first, after⟩ := reads_number_some h.next hn
    obtain ⟨others, behind⟩ := ih after
    rw [hm] at others behind
    have at_behind : At text (pos + 1 + width + more) ((',' :: tail).drop (1 + width + more)) := by
      rw [← List.drop_drop, ← List.drop_drop]
      exact behind
    have further := after.onward (show pos < pos + 1 + width by omega)
    rw [furtherNumbers]
    refine Reads.intro ?_ (by omega) at_behind
    simp [h.getElem?, h.digitFollows, digit, h.advance, first, further, others]
  | case3 cs hc =>
    have other : cs.head? ≠ some ',' := fun he => by
      obtain ⟨tail, rfl⟩ := List.head?_eq_some_iff.mp he
      exact hc tail rfl
    rw [furtherNumbers]
    exact Reads.intro (by simp [h.getElem?, other]) rfl h

theorem reads_numbers (h : At text pos cs) :
    Reads text pos cs (numbers text pos) (Scanner.numbers cs).1 (Scanner.numbers cs).2 := by
  unfold Scanner.numbers
  cases hn : Scanner.number? cs with
  | none => exact Reads.intro (by simp [numbers, reads_number_none h hn]) rfl h
  | some found =>
    obtain ⟨value, width⟩ := found
    obtain ⟨first, after⟩ := reads_number_some h hn
    obtain ⟨others, behind⟩ := reads_furtherNumbers after
    rw [List.drop_drop] at behind
    refine Reads.intro ?_ (Nat.add_assoc _ _ _) behind
    simp [numbers, first, others]

/-! ## Lengths -/

/-- Whether a dot stands behind the digits in front. -/
def dotted (cs : List Char) : Bool := (cs.drop (Scanner.digits cs).length).head? == some '.'

/-- The characters of the first part of a length. -/
def partWidth (cs : List Char) : Nat := (Scanner.digits cs).length + (dotted cs).toNat

/-- The note value of the first part of a length, if it has one. -/
def partValue (cs : List Char) : List NoteValue :=
  if (Scanner.digits cs).isEmpty then [] else [⟨Scanner.whole (Scanner.digits cs), dotted cs⟩]

theorem noteValues_of_tie {tail : List Char} (h : cs.drop (partWidth cs) = '&' :: tail) :
    Scanner.noteValues cs = (partValue cs ++ (Scanner.noteValues tail).1,
      partWidth cs + 1 + (Scanner.noteValues tail).2) := by
  rw [Scanner.noteValues]
  split
  · rename_i tail' h'
    obtain rfl : tail' = tail := (List.cons.inj (h'.symm.trans h)).2
    rfl
  · rename_i other
    exact absurd h (other tail)

theorem noteValues_of_no_tie (h : (cs.drop (partWidth cs)).head? ≠ some '&') :
    Scanner.noteValues cs = (partValue cs, partWidth cs) := by
  rw [Scanner.noteValues]
  split
  · rename_i tail h'
    exact absurd (congrArg List.head? h') h
  · rfl

theorem reads_part (h : At text pos cs) :
    Reads text pos cs (part text pos) (partValue cs) (partWidth cs) := by
  obtain ⟨answer, after⟩ := reads_digits h
  obtain ⟨dot, behind⟩ := reads_pass '.' after
  rw [List.drop_drop] at behind
  exact Reads.intro (by simp [part, answer, dot, partValue, dotted]) (Nat.add_assoc _ _ _) behind

theorem reads_noteValues {text cs : List Char} {pos : Nat} (h : At text pos cs) :
    Reads text pos cs (noteValues text pos) (Scanner.noteValues cs).1
      (Scanner.noteValues cs).2 := by
  obtain ⟨answer, after⟩ := reads_part h
  by_cases ht : (cs.drop (partWidth cs)).head? = some '&'
  · obtain ⟨tail, ht⟩ := List.head?_eq_some_iff.mp ht
    have here : At text (pos + partWidth cs) ('&' :: tail) := ht ▸ after
    obtain ⟨others, behind⟩ := reads_noteValues here.next
    have passed : cs.drop (partWidth cs + 1 + (Scanner.noteValues tail).2)
        = tail.drop (Scanner.noteValues tail).2 := by
      rw [← List.drop_drop, ← List.drop_drop, ht, List.drop_succ_cons, List.drop_zero]
    have further := here.next.onward (show pos < pos + partWidth cs + 1 by omega)
    rw [noteValues_of_tie ht, noteValues]
    refine Reads.intro ?_ (by omega) (passed ▸ behind)
    simp [answer, pass_of_cons here, further, others]
  · rw [noteValues_of_no_tie ht, noteValues]
    exact Reads.intro (by simp [answer, pass_of_ne after ht]) rfl after
termination_by cs.length
decreasing_by
  have := congrArg List.length ht
  simp only [List.length_drop, List.length_cons] at this
  omega

theorem reads_length (h : At text pos cs) :
    Reads text pos cs (length text pos) (Scanner.length? cs).1 (Scanner.length? cs).2 := by
  obtain ⟨answer, after⟩ := reads_noteValues h
  exact Reads.intro (by simp [length, answer, Scanner.length?]) rfl after

/-! ## Lexemes -/

/-- A lexeme is read as one with the character in front of it. -/
theorem Reads.cons {β : Type} {answer : Option (β × Nat)} {value : β} {width : Nat}
    (h : Reads text (pos + 1) cs answer value width) :
    Reads text pos (c :: cs) answer value (1 + width) := by
  obtain ⟨answer, after⟩ := h
  refine Reads.intro answer (Nat.add_assoc _ _ _) ?_
  rw [Nat.add_comm 1 width]
  exact after

theorem letter_eq_none (h : ¬ ('a' ≤ c ∧ c ≤ 'g')) : Letter.ofChar? c = none := by
  unfold Letter.ofChar?
  split <;> first | rfl | exact absurd (by decide) h

theorem letter_eq_some (h : 'a' ≤ c ∧ c ≤ 'g') : ∃ letter, Letter.ofChar? c = some letter := by
  obtain ⟨low, high⟩ := h
  rw [Char.le_def, UInt32.le_iff_toNat_le] at low high
  have code : c = Char.ofNat c.toNat := (Char.ofNat_toNat c).symm
  have cases : c.toNat = 97 ∨ c.toNat = 98 ∨ c.toNat = 99 ∨ c.toNat = 100 ∨ c.toNat = 101 ∨
      c.toNat = 102 ∨ c.toNat = 103 := by
    change 97 ≤ c.toNat at low
    change c.toNat ≤ 103 at high
    omega
  rw [code]
  rcases cases with h | h | h | h | h | h | h <;> rw [h] <;> exact ⟨_, rfl⟩

theorem reads_note {letter : Letter} (h : At text pos (c :: cs))
    (hl : Letter.ofChar? c = some letter) :
    Reads text pos (c :: cs) (note text pos) (some (Scanner.note letter cs).1)
      (1 + (Scanner.note letter cs).2) := by
  unfold Scanner.note
  cases ha : cs.head?.bind Accidental.ofChar? with
  | none =>
    obtain ⟨answer, after⟩ := reads_length h.next
    refine Reads.cons (Reads.intro ?_ rfl after)
    simp [note, h.advance, accidental, h.next.getElem?, ha, hl, answer]
  | some sign =>
    obtain ⟨b, hb, -⟩ := Option.bind_eq_some_iff.mp ha
    obtain ⟨tail, rfl⟩ := List.head?_eq_some_iff.mp hb
    obtain ⟨answer, after⟩ := reads_length h.next.next
    refine Reads.cons (Reads.cons (Reads.intro ?_ rfl after))
    simp_all [note, h.advance, accidental, h.next.getElem?, h.next.advance]

theorem reads_single (directive : Option Directive) (h : At text pos (c :: cs)) :
    Reads text pos (c :: cs) (single directive text pos) directive 1 :=
  Reads.intro (by simp [single, h.advance]) rfl h.next

theorem reads_withNumber (directive : Decimal → Directive) (h : At text pos (c :: cs)) :
    Reads text pos (c :: cs) (withNumber directive text pos) (Scanner.withNumber directive cs).1
      (1 + (Scanner.withNumber directive cs).2) := by
  unfold Scanner.withNumber
  cases hn : Scanner.number? cs with
  | none =>
    have answer := reads_number_none h.next hn
    exact Reads.cons (Reads.intro (by simp [withNumber, h.advance, answer]) rfl h.next)
  | some found =>
    obtain ⟨value, width⟩ := found
    obtain ⟨answer, after⟩ := reads_number_some h.next hn
    exact Reads.cons (Reads.intro (by simp [withNumber, h.advance, answer]) rfl after)

theorem reads_withNumbers (directive : List Decimal → Directive) (h : At text pos (c :: cs)) :
    Reads text pos (c :: cs) (withNumbers directive text pos)
      (some (directive (Scanner.numbers cs).1)) (1 + (Scanner.numbers cs).2) := by
  obtain ⟨answer, after⟩ := reads_numbers h.next
  exact Reads.cons (Reads.intro (by simp [withNumbers, h.advance, answer]) rfl after)

theorem reads_atDirective (h : At text pos (c :: cs)) :
    Reads text pos (c :: cs) (atDirective text pos) (Scanner.atDirective cs).1
      (1 + (Scanner.atDirective cs).2) := by
  unfold atDirective
  simp only [h.advance, Option.bind_eq_bind, Option.bind_some]
  cases cs with
  | nil =>
    rw [if_neg h.next.not_lt_of_nil]
    exact Reads.intro rfl rfl h.next
  | cons b cs =>
    rw [if_pos h.next.lt_of_cons, h.next.getElem?]
    refine Reads.cons ?_
    simp only [List.head?_cons, Option.bind_some]
    split
    · exact reads_withNumbers .envelope h.next
    · exact reads_withNumbers .harmony h.next
    · exact reads_withNumbers .unison h.next
    · rename_i he hh hu
      obtain ⟨answer, after⟩ := reads_whole h.next
      have other : Scanner.atDirective (b :: cs)
          = ((Scanner.whole? (b :: cs)).1.map .waveform, (Scanner.whole? (b :: cs)).2) := by
        unfold Scanner.atDirective
        split <;> first | rfl | simp_all
      rw [other]
      exact Reads.intro (by simp [answer]) rfl after

theorem reads_effect (h : At text pos (c :: cs)) :
    Reads text pos (c :: cs) (effect text pos) (Scanner.effect cs).1
      (1 + (Scanner.effect cs).2) := by
  unfold effect
  simp only [h.advance, Option.bind_eq_bind, Option.bind_some]
  cases cs with
  | nil =>
    rw [if_neg h.next.not_lt_of_nil]
    exact Reads.intro rfl rfl h.next
  | cons b cs =>
    rw [if_pos h.next.lt_of_cons, h.next.getElem?]
    refine Reads.cons ?_
    simp only [List.head?_cons, Option.bind_some, Scanner.effect]
    split
    · exact reads_withNumbers _ h.next
    · exact Reads.intro rfl rfl h.next

theorem reads_lexeme (h : At text pos (c :: cs)) :
    Reads text pos (c :: cs) (lexeme text pos) (Scanner.lexeme c cs).1
      (1 + (Scanner.lexeme c cs).2) := by
  unfold lexeme
  simp only [h.getElem?, List.head?_cons, Option.bind_eq_bind, Option.bind_some]
  by_cases hc : 'a' ≤ c ∧ c ≤ 'g'
  · obtain ⟨letter, hl⟩ := letter_eq_some hc
    rw [if_pos hc]
    simpa only [Scanner.lexeme, hl] using reads_note h hl
  · rw [if_neg hc]
    split
    · show Reads text pos _ _ (some (Directive.rest (Scanner.length? cs).1))
        (1 + (Scanner.length? cs).2)
      obtain ⟨answer, after⟩ := reads_length h.next
      exact Reads.cons (Reads.intro (by simp [h.advance, answer]) rfl after)
    · show Reads text pos _ _ ((Scanner.length? cs).1.map Directive.defaultLength)
        (1 + (Scanner.length? cs).2)
      obtain ⟨answer, after⟩ := reads_length h.next
      exact Reads.cons (Reads.intro (by simp [h.advance, answer]) rfl after)
    · exact reads_withNumber .tempo h
    · exact reads_withNumber .volume h
    · exact reads_single (some .octaveUp) h
    · exact reads_single (some .octaveDown) h
    · exact reads_single (some .repeatStart) h
    · show Reads text pos _ _ (some (Directive.repeatEnd (Scanner.whole? cs).1))
        (1 + (Scanner.whole? cs).2)
      obtain ⟨answer, after⟩ := reads_whole h.next
      exact Reads.cons (Reads.intro (by simp [h.advance, answer]) rfl after)
    · exact reads_single (some .voiceReset) h
    · exact reads_atDirective h
    · exact reads_effect h
    · have other : Scanner.lexeme c cs = (none, 0) := by
        unfold Scanner.lexeme
        rw [letter_eq_none hc]
        split <;> simp_all
      rw [other]
      exact reads_single none h

/-- **The checked scan finds the tokens of the text**: every character is there when it is read,
and the scan ends. -/
theorem tokens_eq {text cs : List Char} {pos : Nat} (h : At text pos cs) :
    tokens text pos = some (Scanner.tokensFrom pos cs) := by
  rw [tokens]
  match cs, h with
  | [], h => rw [if_neg h.not_lt_of_nil, Scanner.tokensFrom]; rfl
  | c :: cs, h =>
    obtain ⟨answer, after⟩ := reads_lexeme h
    rw [← List.drop_drop, List.drop_succ_cons, List.drop_zero, ← Nat.add_assoc] at after
    have further := after.onward (show pos < pos + 1 + (Scanner.lexeme c cs).2 by omega)
    have others := tokens_eq after
    rw [if_pos h.lt_of_cons, Scanner.tokensFrom]
    simp only [answer, further, others, Option.bind_eq_bind, Option.bind_some, ← Nat.add_assoc]
    cases (Scanner.lexeme c cs).1 <;> rfl
termination_by cs.length
decreasing_by simp only [List.length_drop, List.length_cons]; omega

end Chiptune.Checked
