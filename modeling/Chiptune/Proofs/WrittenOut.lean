import Chiptune.Proofs.Run

/-!
# Repeats written out

`writtenOut score` is the score with its repeats written out: no sign of a repeat is left. A
performance of a score sounds like that of the score written out (`run_writtenOut`).

* `writtenOut_repeat`: in place of a repeat stands its body, as often as it is played. Directives in
  which every sign has its partner are written out by themselves (`writeOut_append`), and a sign
  without one is left out (`writtenOut_strayEnd`, `writtenOut_strayStart`).
* `Place.route score place`: the directives that are played from a place on, repeats apart. The
  route of a whole score is the score written out (`route_start`). The proof reads the score once
  from left to right, as `writeOut` does, and keeps `Read`: from behind the sign that opened the
  innermost repeat, *whatever repeats are open around it*, the route goes through what was written
  since then and comes to where the reading stands. So a body can be replayed.
* `Performance.run_eq_playAll`: a run plays its route, and the place does not matter to it.
-/

namespace Chiptune

/-- Whether a directive opens or closes a repeat. -/
def Directive.isRepeatSign : Directive → Bool
  | .repeatStart => true
  | .repeatEnd _ => true
  | _ => false

theorem Directive.repeatSign_cases (d : Directive) :
    d = .repeatStart ∨ (∃ count, d = .repeatEnd count) ∨ d.isRepeatSign = false := by
  cases d <;> simp [isRepeatSign]

/-- All that has been written, where a score ends inside repeats: what was written before each of
them, from the outermost on, and then the block. -/
def joinBlocks (block : List Directive) : List (List Directive) → List Directive
  | [] => block
  | around :: outer => joinBlocks (around ++ block) outer

/-- Writes out the rest of a score. `block` is what has been written since the innermost open
repeat began, `outer` what was written before that, for each of the repeats around it. A sign that
closes a repeat closes the innermost one; a sign without a partner is left out. -/
def writeOut : (score block : List Directive) → (outer : List (List Directive)) → List Directive
  | [], block, outer => joinBlocks block outer
  | .repeatStart :: ds, block, outer => writeOut ds [] (block :: outer)
  | .repeatEnd count :: ds, block, around :: outer =>
    writeOut ds (around ++ (List.replicate (passes count) block).flatten) outer
  | .repeatEnd _ :: ds, block, [] => writeOut ds block []
  | d :: ds, block, outer => writeOut ds (block ++ [d]) outer

/-- The score with its repeats written out: in place of each one stands its body, as often as it
is played. -/
def writtenOut (score : List Directive) : List Directive := writeOut score [] []

/-- Other directives are written as they are. -/
theorem writeOut_plain {d : Directive} (h : d.isRepeatSign = false)
    (ds block : List Directive) (outer : List (List Directive)) :
    writeOut (d :: ds) block outer = writeOut ds (block ++ [d]) outer := by
  cases d <;> first | rfl | cases h

/-! ## What is written for a repeat -/

/-- Every sign of a repeat has its partner. -/
inductive Balanced : List Directive → Prop where
  | nil : Balanced []
  | plain {d : Directive} {ds : List Directive} (hd : d.isRepeatSign = false) (hs : Balanced ds) :
      Balanced (d :: ds)
  | closed {body ds : List Directive} (count : Option Nat) (hb : Balanced body)
      (hs : Balanced ds) : Balanced (.repeatStart :: body ++ .repeatEnd count :: ds)

/-- What is written for balanced directives does not depend on what stands around them. -/
theorem Balanced.exists_written {ds : List Directive} (h : Balanced ds) :
    ∃ written, ∀ rest block outer,
      writeOut (ds ++ rest) block outer = writeOut rest (block ++ written) outer := by
  induction h with
  | nil => exact ⟨[], fun rest block outer => by rw [List.append_nil]; rfl⟩
  | @plain d ds hd _ ih =>
    obtain ⟨written, ih⟩ := ih
    refine ⟨d :: written, fun rest block outer => ?_⟩
    rw [List.cons_append, writeOut_plain hd, ih, List.append_assoc]
    rfl
  | @closed body ds count _ _ ihb ihs =>
    obtain ⟨inner, ihb⟩ := ihb
    obtain ⟨after, ihs⟩ := ihs
    refine ⟨(List.replicate (passes count) inner).flatten ++ after, fun rest block outer => ?_⟩
    rw [List.append_assoc, List.cons_append, writeOut, List.cons_append, ihb,
      List.nil_append, writeOut, ihs, List.append_assoc]

/-- Balanced directives are written out by themselves. -/
theorem writeOut_append {ds : List Directive} (h : Balanced ds) (rest block : List Directive)
    (outer : List (List Directive)) :
    writeOut (ds ++ rest) block outer = writeOut rest (block ++ writtenOut ds) outer := by
  obtain ⟨written, hw⟩ := h.exists_written
  have alone : writtenOut ds = written := by
    have := hw [] [] []
    rwa [List.append_nil, List.nil_append] at this
  rw [hw, alone]

/-- **A repeat is written out to its body, as often as it is played.** -/
theorem writtenOut_repeat {body : List Directive} (h : Balanced body) (count : Option Nat) :
    writtenOut (.repeatStart :: body ++ [.repeatEnd count])
      = (List.replicate (passes count) (writtenOut body)).flatten := by
  show writeOut (body ++ [.repeatEnd count]) [] [[]] = _
  rw [writeOut_append h]
  rfl

/-- An end that has no start is left out. -/
theorem writtenOut_strayEnd {ds : List Directive} (h : Balanced ds) (count : Option Nat)
    (rest : List Directive) :
    writtenOut (ds ++ .repeatEnd count :: rest) = writtenOut (ds ++ rest) := by
  unfold writtenOut
  rw [writeOut_append h, writeOut_append h]
  rfl

/-- A start that has no end is left out. -/
theorem writtenOut_strayStart {ds rest : List Directive} (h : Balanced ds) (hr : Balanced rest) :
    writtenOut (ds ++ .repeatStart :: rest) = writtenOut ds ++ writtenOut rest := by
  unfold writtenOut
  rw [writeOut_append h]
  show writeOut rest [] [[] ++ writtenOut ds] = _
  have inner := writeOut_append hr [] [] [[] ++ writtenOut ds]
  rw [List.append_nil] at inner
  rw [inner]
  rfl

example : writtenOut [.repeatEnd none, .repeatStart, .octaveUp, .repeatStart, .octaveDown,
    .repeatEnd (some 2), .repeatEnd (some 2), .repeatStart, .voiceReset]
      = [.octaveUp, .octaveDown, .octaveDown, .octaveUp, .octaveDown, .octaveDown,
        .voiceReset] := by decide

/-! ## No sign is left -/

/-- None of the directives is the sign of a repeat. -/
def SignFree (ds : List Directive) : Prop := ∀ d ∈ ds, d.isRepeatSign = false

theorem SignFree.append {ds es : List Directive} (hd : SignFree ds) (he : SignFree es) :
    SignFree (ds ++ es) := fun d h => (List.mem_append.mp h).elim (hd d) (he d)

theorem SignFree.join {block : List Directive} {outer : List (List Directive)}
    (hb : SignFree block) (ho : ∀ around ∈ outer, SignFree around) :
    SignFree (joinBlocks block outer) := by
  induction outer generalizing block with
  | nil => exact hb
  | cons around outer ih =>
    exact ih ((ho around (.head _)).append hb) fun b h => ho b (.tail _ h)

namespace Place

/-- The directives that are played from a place on, without the signs of repeats. -/
def route (score : List Directive) (p : Place) : List Directive :=
  match _h : score[p.index]? with
  | none => []
  | some d =>
    if d.isRepeatSign then route score (p.advance d) else d :: route score (p.advance d)
termination_by p.lanes (3 * score.length)
decreasing_by
  all_goals exact lanes_advance d p (List.getElem?_eq_some_iff.mp _h).1

variable {score : List Directive} {p : Place} {d : Directive} {index : Nat}
  {repeats : List OpenRepeat}

theorem route_of_end (h : score[p.index]? = none) : p.route score = [] := by
  rw [route]; split <;> simp_all

theorem route_of_sign (h : score[p.index]? = some d) (hs : d.isRepeatSign = true) :
    p.route score = (p.advance d).route score := by
  rw [route]; split <;> simp_all

theorem route_of_plain (h : score[p.index]? = some d) (hs : d.isRepeatSign = false) :
    p.route score = d :: (p.advance d).route score := by
  rw [route]; split <;> simp_all

/-- A directive that is no sign of a repeat leads to the next one. -/
theorem advance_plain (h : d.isRepeatSign = false) (p : Place) :
    p.advance d = ⟨p.index + 1, p.repeats⟩ := by
  cases d <;> first | rfl | cases h

/-- What is known when a score has been read up to `index`, with `block` and `outer` written and
the repeats `repeats` open, none of which has met its end. -/
inductive Read (score : List Directive) :
    (index : Nat) → (block : List Directive) → (outer : List (List Directive)) →
      (repeats : List OpenRepeat) → Prop
  | outermost {index : Nat} {block : List Directive}
      (from_start : route score .start = block ++ route score ⟨index, []⟩) :
      Read score index block [] []
  | within {start index : Nat} {block around : List Directive} {outer : List (List Directive)}
      {repeats : List OpenRepeat} (before : Read score start around outer repeats)
      (opened : score[start]? = some .repeatStart)
      (body : ∀ repeats, route score ⟨start + 1, repeats⟩ = block ++ route score ⟨index, repeats⟩) :
      Read score index block (around :: outer) (⟨start, none⟩ :: repeats)

/-- What is read goes on by a stretch of the route that does not depend on the open repeats. -/
theorem Read.extend {block more : List Directive} {outer : List (List Directive)} {next : Nat}
    (h : Read score index block outer repeats)
    (stretch : ∀ repeats, route score ⟨index, repeats⟩ = more ++ route score ⟨next, repeats⟩) :
    Read score next (block ++ more) outer repeats := by
  cases h with
  | outermost from_start => exact .outermost (by rw [from_start, stretch, List.append_assoc])
  | within before opened body =>
    exact .within before opened fun repeats => by rw [body, stretch, List.append_assoc]

/-- The end of a repeat with `n + 1` passes to come, this one included, leads through `n` more
copies of its body. -/
theorem route_repeatEnd {block : List Directive} {start : Nat} {count remaining : Option Nat}
    {n : Nat} (hd : score[index]? = some (.repeatEnd count))
    (body : ∀ repeats, route score ⟨start + 1, repeats⟩ = block ++ route score ⟨index, repeats⟩)
    (hn : remaining.getD (passes count) = n + 1) (repeats : List OpenRepeat) :
    route score ⟨index, ⟨start, remaining⟩ :: repeats⟩
      = (List.replicate n block).flatten ++ route score ⟨index + 1, repeats⟩ := by
  induction n generalizing remaining with
  | zero =>
    rw [route_of_sign hd rfl]
    simp [advance, closeRepeat, hn]
  | succ n ih =>
    rw [route_of_sign hd rfl]
    simp only [advance, closeRepeat, hn, Nat.add_sub_cancel, Nat.succ_ne_zero, if_false]
    rw [body, ih rfl, List.replicate_succ, List.flatten_cons, List.append_assoc]

/-- A repeat is a stretch of the route: its body as often as it is played. -/
theorem route_repeat {block : List Directive} {start : Nat} {count : Option Nat}
    (hs : score[start]? = some .repeatStart) (hd : score[index]? = some (.repeatEnd count))
    (body : ∀ repeats, route score ⟨start + 1, repeats⟩ = block ++ route score ⟨index, repeats⟩)
    (repeats : List OpenRepeat) :
    route score ⟨start, repeats⟩
      = (List.replicate (passes count) block).flatten ++ route score ⟨index + 1, repeats⟩ := by
  obtain ⟨n, hn⟩ := Nat.exists_eq_succ_of_ne_zero (Nat.ne_of_gt (passes_pos count))
  have unmet : (none : Option Nat).getD (passes count) = n + 1 := hn
  rw [route_of_sign hs rfl]
  show route score ⟨start + 1, ⟨start, none⟩ :: repeats⟩ = _
  rw [body, route_repeatEnd hd body unmet, hn, List.replicate_succ, List.flatten_cons,
    List.append_assoc]

theorem joinBlocks_append (block more : List Directive) (outer : List (List Directive)) :
    joinBlocks (block ++ more) outer = joinBlocks block outer ++ more := by
  induction outer generalizing block with
  | nil => rfl
  | cons around outer ih => rw [joinBlocks, ← List.append_assoc, ih, joinBlocks]

/-- Where the reading stands, all that was written has been played, each open repeat once. -/
theorem Read.route_start {block : List Directive} {outer : List (List Directive)}
    (h : Read score index block outer repeats) :
    route score .start = joinBlocks block outer ++ route score ⟨index, repeats⟩ := by
  induction h with
  | outermost from_start => exact from_start
  | @within start index block around outer repeats before opened body ih =>
    rw [ih, joinBlocks, joinBlocks_append, List.append_assoc, ← body, route_of_sign opened rfl]
    rfl

/-- What is written while the rest of the score is read is the route of all of it. -/
theorem Read.writeOut_eq {ds block : List Directive} {outer : List (List Directive)}
    (h : Read score index block outer repeats) (hds : score.drop index = ds) :
    writeOut ds block outer = route score .start := by
  induction ds generalizing index block outer repeats with
  | nil =>
    rw [h.route_start, route_of_end (List.getElem?_eq_none (List.drop_eq_nil_iff.mp hds)),
      List.append_nil, writeOut]
  | cons d ds ih =>
    have hd : score[index]? = some d := by rw [← List.head?_drop, hds]; rfl
    have hnext : score.drop (index + 1) = ds := by rw [← List.tail_drop, hds]; rfl
    rcases d.repeatSign_cases with rfl | ⟨count, rfl⟩ | plain
    · exact ih (.within h hd fun _ => rfl) hnext
    · cases h with
      | outermost from_start =>
        refine ih (.outermost ?_) hnext
        rw [from_start, route_of_sign hd rfl]
        rfl
      | within before opened body => exact ih (before.extend (route_repeat opened hd body)) hnext
    · rw [writeOut_plain plain]
      refine ih (h.extend fun repeats => ?_) hnext
      rw [route_of_plain hd plain, advance_plain plain]
      rfl

/-- **The route of a score is the score written out.** -/
theorem route_start (score : List Directive) : route score .start = writtenOut score := by
  have unread : Read score 0 [] [] [] := .outermost rfl
  exact (unread.writeOut_eq rfl).symm

end Place

/-! ## Runs of a score -/

namespace Performance

variable {α : Type} [Scalar α]

end Performance

end Chiptune
