import Mathlib.Data.List.Basic
import Chiptune.Notation.Token

/-!
# The grammar of the notation

What a lexeme of the notation is, as a tree with the text that it has. With

    D  =  one or more digits          N  =  D ('.' D)?
    L  =  D? '.'? ('&' D? '.'?)*      P  =  (N (',' N)*)?

the lexemes are

    [a-g] [+-]? L    r L    l L    t N    v N    @ D    @e P    @h P    @u P    # [a-z] P
    ] D?    <    >    [    ;

* `Lexeme.directive?`: what a lexeme says. Runs of digits are read in decimal, at most `maxWhole`
  where a whole number is wanted; parts of a length without digits, or with a denominator of
  zero, do not count.
* `Lexeme.text_injective`: no text is that of two lexemes.
-/

namespace Chiptune.Grammar

/-! ## Texts -/

/-- `D`: one or more digits. -/
structure Digits where
  chars : List Char
  nonempty : chars ≠ []
  digits : ∀ c ∈ chars, c.isDigit

/-- The text of something that may be absent. -/
def optional {β : Type} (text : β → List Char) (b? : Option β) : List Char := b?.elim [] text

/-- The text of items with a character before each of them. -/
def following {β : Type} (sep : Char) (text : β → List Char) (items : List β) : List Char :=
  items.flatMap fun b => sep :: text b

/-- The text of items with a character between any two of them. -/
def separated {β : Type} (sep : Char) (text : β → List Char) (first : β) (others : List β) :
    List Char :=
  text first ++ following sep text others

/-- `N`: digits, perhaps with a point and further digits behind them. -/
structure Numeral where
  whole : Digits
  fraction : Option Digits

/-- `D? '.'?`: one part of a length. -/
structure Part where
  digits : Option Digits
  dotted : Bool

/-- `L`: parts of a length with ties between them. -/
structure Ties where
  first : Part
  others : List Part

/-- `P`: no parameters at all, or numerals with commas between them. -/
inductive Params where
  | none
  | some (first : Numeral) (others : List Numeral)

def Numeral.text (n : Numeral) : List Char :=
  n.whole.chars ++ optional (fun ds : Digits => '.' :: ds.chars) n.fraction

def Part.text (p : Part) : List Char :=
  optional Digits.chars p.digits ++ if p.dotted then ['.'] else []

def Ties.text (l : Ties) : List Char := separated '&' Part.text l.first l.others

def Params.text : Params → List Char
  | none => []
  | some first others => separated ',' Numeral.text first others

/-- The text of an accidental; a natural has none. -/
def accidentalText : Accidental → List Char
  | .sharp => ['+']
  | .flat => ['-']
  | .natural => []

/-- The lexemes of a single character. -/
inductive Mark where
  | octaveUp
  | octaveDown
  | repeatStart
  | voiceReset

/-- What the first character of a lexeme tells about it. -/
inductive Kind where
  | note (letter : Letter)
  | rest
  | defaultLength
  | tempo
  | volume
  | atSign
  | effect
  | repeatEnd
  | mark (m : Mark)

/-- The first character of the lexemes of a kind. -/
def Kind.char : Kind → Char
  | note letter => letter.toChar
  | rest => 'r'
  | defaultLength => 'l'
  | tempo => 't'
  | volume => 'v'
  | atSign => '@'
  | effect => '#'
  | repeatEnd => ']'
  | mark .octaveUp => '<'
  | mark .octaveDown => '>'
  | mark .repeatStart => '['
  | mark .voiceReset => ';'

/-- The kind of the lexemes that a character begins, if it begins any. -/
def Kind.ofChar? (c : Char) : Option Kind :=
  match Letter.ofChar? c with
  | some letter => some (note letter)
  | none =>
    match c with
    | 'r' => some rest
    | 'l' => some defaultLength
    | 't' => some tempo
    | 'v' => some volume
    | '@' => some atSign
    | '#' => some effect
    | ']' => some repeatEnd
    | '<' => some (mark .octaveUp)
    | '>' => some (mark .octaveDown)
    | '[' => some (mark .repeatStart)
    | ';' => some (mark .voiceReset)
    | _ => none

theorem Kind.ofChar?_char (kind : Kind) : ofChar? kind.char = some kind := by
  cases kind with
  | note letter => cases letter <;> rfl
  | mark m => cases m <;> rfl
  | _ => rfl

/-- The lexemes of the notation. -/
inductive Lexeme where
  | note (letter : Letter) (accidental : Accidental) (length : Ties)
  | rest (length : Ties)
  | defaultLength (length : Ties)
  | tempo (value : Numeral)
  | volume (value : Numeral)
  | waveform (index : Digits)
  | envelope (params : Params)
  | harmony (params : Params)
  | unison (params : Params)
  | effect (letter : Char) (lower : letter.isLower) (params : Params)
  | repeatEnd (count : Option Digits)
  | mark (m : Mark)

namespace Lexeme

def kind : Lexeme → Kind
  | note letter _ _ => .note letter
  | rest _ => .rest
  | defaultLength _ => .defaultLength
  | tempo _ => .tempo
  | volume _ => .volume
  | waveform _ | envelope _ | harmony _ | unison _ => .atSign
  | effect _ _ _ => .effect
  | repeatEnd _ => .repeatEnd
  | mark m => .mark m

/-- The character that a lexeme begins with. -/
def head (x : Lexeme) : Char := x.kind.char

/-- The characters behind the first. -/
def tail : Lexeme → List Char
  | note _ accidental length => accidentalText accidental ++ length.text
  | rest length | defaultLength length => length.text
  | tempo value | volume value => value.text
  | waveform index => index.chars
  | envelope params => 'e' :: params.text
  | harmony params => 'h' :: params.text
  | unison params => 'u' :: params.text
  | effect letter _ params => letter :: params.text
  | repeatEnd count => optional Digits.chars count
  | mark _ => []

def text (x : Lexeme) : List Char := x.head :: x.tail

end Lexeme

/-! ## What they say -/

/-- Digits as a whole number, at most `maxWhole`. -/
def Digits.value (ds : Digits) : Nat := min (Decimal.whole ds.chars) maxWhole

def Numeral.value (n : Numeral) : Decimal :=
  .ofParts n.whole.chars (optional Digits.chars n.fraction)

/-- A part without digits has no value. -/
def Part.value? (p : Part) : Option NoteValue := p.digits.map fun ds => ⟨ds.value, p.dotted⟩

/-- The values of the parts, from left to right. -/
def Ties.values (l : Ties) : List NoteValue := (l.first :: l.others).filterMap Part.value?

theorem Ties.values_single (p : Part) : Ties.values ⟨p, []⟩ = p.value?.toList := by
  rw [values, List.filterMap_cons]
  cases p.value? <;> rfl

theorem Ties.values_cons (p first : Part) (others : List Part) :
    Ties.values ⟨p, first :: others⟩ = p.value?.toList ++ Ties.values ⟨first, others⟩ := by
  rw [values, List.filterMap_cons]
  cases p.value? <;> rfl

/-- The length of the parts that count, if there are any. -/
def Ties.length? (l : Ties) : Option Length := Length.ofParts? l.values

def Params.values : Params → List Decimal
  | none => []
  | some first others => (first :: others).map Numeral.value

def Mark.directive : Mark → Directive
  | octaveUp => .octaveUp
  | octaveDown => .octaveDown
  | repeatStart => .repeatStart
  | voiceReset => .voiceReset

/-- What a lexeme says. A default length without a part that counts says nothing. -/
def Lexeme.directive? : Lexeme → Option Directive
  | note letter accidental length => some (.note ⟨letter, accidental⟩ length.length?)
  | rest length => some (.rest length.length?)
  | defaultLength length => length.length?.map .defaultLength
  | tempo value => some (.tempo value.value)
  | volume value => some (.volume value.value)
  | waveform index => some (.waveform index.value)
  | envelope params => some (.envelope params.values)
  | harmony params => some (.harmony params.values)
  | unison params => some (.unison params.values)
  | effect letter _ params => some (.effect letter params.values)
  | repeatEnd count => some (.repeatEnd (count.map Digits.value))
  | mark m => some m.directive

/-! ## No text is that of two -/

/-- Nothing, or a text that begins with the character. -/
def Opens (c : Char) (cs : List Char) : Prop := ∀ d ∈ cs.head?, d = c

/-- Two texts without a separator that are followed by it, or by nothing, end at the same place. -/
theorem append_inj_of_opens {sep : Char} {u v s t : List Char} (hu : sep ∉ u) (hv : sep ∉ v)
    (hs : Opens sep s) (ht : Opens sep t) (h : u ++ s = v ++ t) : u = v ∧ s = t := by
  induction u generalizing v with
  | nil =>
    cases v with
    | nil => exact ⟨rfl, h⟩
    | cons c v =>
      have first : c = sep := hs c (by rw [← List.nil_append s, h]; rfl)
      exact absurd (first ▸ List.mem_cons_self) hv
  | cons c u ih =>
    cases v with
    | nil =>
      have first : c = sep := ht c (by rw [← List.nil_append t, ← h]; rfl)
      exact absurd (first ▸ List.mem_cons_self) hu
    | cons d v =>
      obtain ⟨first, rest⟩ := List.cons.inj h
      obtain ⟨others, same⟩ :=
        ih (List.not_mem_of_not_mem_cons hu) (List.not_mem_of_not_mem_cons hv) rest
      exact ⟨by rw [first, others], same⟩

theorem opens_nil (c : Char) : Opens c [] := fun _ h => nomatch h

theorem opens_cons (c : Char) (cs : List Char) : Opens c (c :: cs) :=
  fun _ h => (Option.some.inj h).symm

theorem opens_optional {β : Type} {c : Char} {text : β → List Char} (h : ∀ b, Opens c (text b))
    (b? : Option β) : Opens c (optional text b?) := by
  cases b? with
  | none => exact opens_nil c
  | some b => exact h b

theorem opens_following {β : Type} (sep : Char) (text : β → List Char) (bs : List β) :
    Opens sep (following sep text bs) := by
  cases bs with
  | nil => exact opens_nil sep
  | cons b bs => exact opens_cons sep _

theorem optional_injective {β : Type} {text : β → List Char} (inj : Function.Injective text)
    (ne : ∀ b, text b ≠ []) : Function.Injective (optional text) := by
  rintro (_ | a) (_ | b) h
  · rfl
  · exact absurd h.symm (ne b)
  · exact absurd h (ne a)
  · exact congrArg some (inj h)

theorem separated_injective {β : Type} {sep : Char} {text : β → List Char}
    (inj : Function.Injective text) (free : ∀ b, sep ∉ text b) {a b : β} {as bs : List β}
    (h : separated sep text a as = separated sep text b bs) : a = b ∧ as = bs := by
  induction as generalizing a b bs with
  | nil =>
    obtain ⟨first, others⟩ := append_inj_of_opens (free a) (free b) (opens_nil sep)
      (opens_following sep text bs) h
    refine ⟨inj first, ?_⟩
    cases bs with
    | nil => rfl
    | cons => cases others
  | cons a' as ih =>
    obtain ⟨first, others⟩ := append_inj_of_opens (free a) (free b)
      (opens_following sep text (a' :: as)) (opens_following sep text bs) h
    cases bs with
    | nil => cases others
    | cons b' bs =>
      obtain ⟨next, rest⟩ := ih (List.cons.inj others).2
      exact ⟨inj first, by rw [next, rest]⟩

theorem Digits.chars_injective : Function.Injective Digits.chars := by
  rintro ⟨ds, _, _⟩ ⟨es, _, _⟩ h
  cases h
  rfl

/-- A character that is no digit is in no run of digits. -/
theorem Digits.notMem {c : Char} (hc : c.isDigit = false) (ds : Digits) : c ∉ ds.chars :=
  fun h => by simpa [hc] using ds.digits c h

theorem Digits.notMem_optional {c : Char} (hc : c.isDigit = false) (ds? : Option Digits) :
    c ∉ optional Digits.chars ds? := by
  cases ds? with
  | none => exact List.not_mem_nil
  | some ds => exact ds.notMem hc

theorem Numeral.text_injective : Function.Injective Numeral.text := by
  rintro ⟨whole, fraction⟩ ⟨whole', fraction'⟩ h
  have opens (f : Option Digits) : Opens '.' (optional (fun ds : Digits => '.' :: ds.chars) f) :=
    opens_optional (fun _ => opens_cons '.' _) f
  obtain ⟨left, right⟩ := append_inj_of_opens (whole.notMem rfl) (whole'.notMem rfl)
    (opens fraction) (opens fraction') h
  have inj : Function.Injective fun ds : Digits => '.' :: ds.chars :=
    fun _ _ same => Digits.chars_injective (List.cons.inj same).2
  rw [Digits.chars_injective left, optional_injective inj (fun _ => List.cons_ne_nil _ _) right]

theorem opens_dot (dotted : Bool) : Opens '.' (if dotted then ['.'] else []) := by
  cases dotted
  · exact opens_nil '.'
  · exact opens_cons '.' []

theorem Part.text_injective : Function.Injective Part.text := by
  rintro ⟨digits, dotted⟩ ⟨digits', dotted'⟩ h
  obtain ⟨left, right⟩ := append_inj_of_opens (Digits.notMem_optional rfl digits)
    (Digits.notMem_optional rfl digits') (opens_dot dotted) (opens_dot dotted') h
  have same : dotted = dotted' := by cases dotted <;> cases dotted' <;> first | rfl | cases right
  rw [same, optional_injective Digits.chars_injective Digits.nonempty left]

/-- A numeral has digits and a point only. -/
theorem Numeral.notMem_text {c : Char} (digit : c.isDigit = false) (point : c ≠ '.') (n : Numeral) :
    c ∉ n.text := by
  intro h
  rcases List.mem_append.mp h with h | h
  · exact n.whole.notMem digit h
  · cases hf : n.fraction with
    | none => simp [hf, optional] at h
    | some ds =>
      rw [hf] at h
      rcases List.mem_cons.mp h with h | h
      · exact point h
      · exact ds.notMem digit h

/-- A part of a length has digits and a dot only. -/
theorem Part.notMem_text {c : Char} (digit : c.isDigit = false) (dot : c ≠ '.') (p : Part) :
    c ∉ p.text := by
  intro h
  rcases List.mem_append.mp h with h | h
  · exact Digits.notMem_optional digit _ h
  · split at h
    · exact dot (List.mem_singleton.mp h)
    · exact List.not_mem_nil h

theorem Ties.text_injective : Function.Injective Ties.text := by
  rintro ⟨first, others⟩ ⟨first', others'⟩ h
  obtain ⟨rfl, rfl⟩ := separated_injective Part.text_injective
    (Part.notMem_text rfl (by decide)) h
  rfl

theorem Params.text_injective : Function.Injective Params.text := by
  have ne (first : Numeral) (others : List Numeral) : (some first others).text ≠ [] := fun h =>
    first.whole.nonempty (List.append_eq_nil_iff.mp (List.append_eq_nil_iff.mp h).1).1
  rintro (_ | ⟨first, others⟩) (_ | ⟨first', others'⟩) h
  · rfl
  · exact absurd h.symm (ne first' others')
  · exact absurd h (ne first others)
  · obtain ⟨rfl, rfl⟩ := separated_injective Numeral.text_injective
      (Numeral.notMem_text rfl (by decide)) h
    rfl

theorem notMem_separated {β : Type} {sep c : Char} {text : β → List Char} (hc : c ≠ sep)
    (free : ∀ b, c ∉ text b) (first : β) (others : List β) :
    c ∉ separated sep text first others := by
  intro h
  rcases List.mem_append.mp h with h | h
  · exact free first h
  · obtain ⟨b, -, h⟩ := List.mem_flatMap.mp h
    rcases List.mem_cons.mp h with h | h
    · exact hc h
    · exact free b h

theorem Ties.notMem_text {c : Char} (digit : c.isDigit = false) (dot : c ≠ '.') (tie : c ≠ '&')
    (l : Ties) : c ∉ l.text :=
  notMem_separated tie (Part.notMem_text digit dot) l.first l.others

theorem Params.notMem_text {c : Char} (digit : c.isDigit = false) (point : c ≠ '.')
    (comma : c ≠ ',') (p : Params) : c ∉ p.text := by
  cases p with
  | none => exact List.not_mem_nil
  | some first others => exact notMem_separated comma (Numeral.notMem_text digit point) first others

/-- A length does not begin with the sign of an accidental. -/
theorem Ties.text_ne_cons {c : Char} (hc : c = '+' ∨ c = '-') (l : Ties) (cs : List Char) :
    l.text ≠ c :: cs := by
  intro h
  have first : c ∈ l.text := by rw [h]; exact List.mem_cons_self
  rcases hc with rfl | rfl
  · exact l.notMem_text rfl (by decide) (by decide) first
  · exact l.notMem_text rfl (by decide) (by decide) first

theorem accidental_injective {a b : Accidental} {l m : Ties}
    (h : accidentalText a ++ l.text = accidentalText b ++ m.text) : a = b ∧ l = m := by
  cases a <;> cases b
  case flat.flat | natural.natural | sharp.sharp =>
    exact ⟨rfl, Ties.text_injective (List.append_cancel_left h)⟩
  case flat.sharp | sharp.flat => exact absurd (List.cons.inj h).1 (by decide)
  case natural.flat => exact absurd h (l.text_ne_cons (.inr rfl) m.text)
  case natural.sharp => exact absurd h (l.text_ne_cons (.inl rfl) m.text)
  case flat.natural => exact absurd h.symm (m.text_ne_cons (.inr rfl) l.text)
  case sharp.natural => exact absurd h.symm (m.text_ne_cons (.inl rfl) l.text)

theorem Digits.chars_ne_cons {c : Char} (hc : c.isDigit = false) (ds : Digits) (cs : List Char) :
    ds.chars ≠ c :: cs := by
  intro h
  have first : c ∈ ds.chars := by rw [h]; exact List.mem_cons_self
  exact ds.notMem hc first

/-- The first character tells the kind. -/
theorem Lexeme.kind_eq_of_head {x : Lexeme} {kind : Kind} (h : x.head = kind.char) :
    x.kind = kind := by
  have found := congrArg Kind.ofChar? h
  rw [Lexeme.head, Kind.ofChar?_char, Kind.ofChar?_char] at found
  exact Option.some.inj found

/-- **No text is that of two lexemes.** -/
theorem Lexeme.text_injective : Function.Injective Lexeme.text := by
  intro x y h
  obtain ⟨first, others⟩ := List.cons.inj h
  have kinds : x.kind = y.kind := kind_eq_of_head first
  cases x <;> cases y <;> cases kinds
  case note.note =>
    obtain ⟨rfl, rfl⟩ := accidental_injective others
    rfl
  case rest.rest | defaultLength.defaultLength => rw [Ties.text_injective others]
  case tempo.tempo | volume.volume => rw [Numeral.text_injective others]
  case waveform.waveform => rw [Digits.chars_injective others]
  case waveform.envelope ds _ | waveform.harmony ds _ | waveform.unison ds _ =>
    exact absurd others (ds.chars_ne_cons rfl _)
  case envelope.waveform ds | harmony.waveform ds | unison.waveform ds =>
    exact absurd others.symm (ds.chars_ne_cons rfl _)
  case envelope.envelope | harmony.harmony | unison.unison =>
    rw [Params.text_injective (List.cons.inj others).2]
  case effect.effect =>
    obtain ⟨rfl, params⟩ := List.cons.inj others
    rw [Params.text_injective params]
  case repeatEnd.repeatEnd =>
    rw [optional_injective Digits.chars_injective Digits.nonempty others]
  case mark.mark => rfl
  all_goals exact absurd (List.cons.inj others).1 (by decide)

end Chiptune.Grammar
