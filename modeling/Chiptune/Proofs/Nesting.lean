import Chiptune.Proofs.WrittenOut

/-!
# Nesting of repeats

Which end closes which start is a matter of the score alone. A performance finds it out on its
way, from the repeats that it holds open, and the two agree at every place.

* `Partners score start stop`: the end at `stop` closes the start at `start`; between them every
  sign has its partner. `OpenAt score index start`: no end before `index` closes the start.
* `openStarts score index`: these starts, read off from left to right. `mem_openStarts_iff` and
  `partners_iff`: this is what `OpenAt` and `Partners` say.
* `Performance.Way`: how a performance is reached, as the list of the directives that were played.
* `OpenRepeat.Tallies`: an open repeat counts how often its end was met since its start was played.
* `Place.Follows`: the open repeats of a place are those of the score there, and each of them has
  counted. Every directive keeps this (`Follows.advance`).
* `Performance.nesting_of_way`: what follows for the open repeats (`Place.IsNesting`) and the ends
  that close them.
-/

namespace Chiptune

/-- Only an end with a count makes a repeat play more than once. -/
theorem eq_some_passes {count : Option Nat} (h : 2 ≤ passes count) :
    count = some (passes count) := by
  rcases count with _ | _ | n
  · exact absurd h (by decide)
  · exact absurd h (by decide)
  · rfl

section

variable {score : List Directive} {d : Directive} {count : Option Nat}
  {first index start stop : Nat}

/-! ## Partners -/

theorem Balanced.append {ds es : List Directive} (hd : Balanced ds) (he : Balanced es) :
    Balanced (ds ++ es) := by
  induction hd with
  | nil => exact he
  | plain plain _ ih => exact .plain plain ih
  | @closed body ds count inner _ _ ih =>
    rw [List.append_assoc, List.cons_append]
    exact .closed count inner ih

/-- The end at `stop` closes the start at `start`: every sign between them has its partner there. -/
structure Partners (score : List Directive) (start stop : Nat) : Prop where
  lt : start < stop
  opens : score[start]? = some .repeatStart
  ends : ∃ count, score[stop]? = some (.repeatEnd count)
  body : Balanced (score.extract (start + 1) stop)

/-- The start at `start` is still open before the directive at `index`. -/
structure OpenAt (score : List Directive) (index start : Nat) : Prop where
  lt : start < index
  opens : score[start]? = some .repeatStart
  unclosed : ∀ stop < index, ¬ Partners score start stop

/-! ## Reading the open starts off a score -/

/-- The starts that are open before the directive at an index, innermost first. -/
def openStarts (score : List Directive) : (index : Nat) → List Nat
  | 0 => []
  | index + 1 =>
    match score[index]? with
    | some .repeatStart => index :: openStarts score index
    | some (.repeatEnd _) => (openStarts score index).tail
    | _ => openStarts score index

theorem openStarts_start (h : score[index]? = some .repeatStart) :
    openStarts score (index + 1) = index :: openStarts score index := by
  rw [openStarts, h]

theorem openStarts_end (h : score[index]? = some (.repeatEnd count)) :
    openStarts score (index + 1) = (openStarts score index).tail := by
  rw [openStarts, h]

theorem openStarts_plain (h : score[index]? = some d) (plain : d.isRepeatSign = false) :
    openStarts score (index + 1) = openStarts score index := by
  rw [openStarts, h]
  cases d <;> first | rfl | cases plain

/-- Only the directive at `index` can open a start behind it. -/
theorem mem_openStarts_succ (h : start ∈ openStarts score (index + 1)) :
    start = index ∧ score[index]? = some .repeatStart ∨ start ∈ openStarts score index := by
  unfold openStarts at h
  split at h
  · rename_i opens
    rcases List.mem_cons.mp h with rfl | before
    · exact .inl ⟨rfl, opens⟩
    · exact .inr before
  · exact .inr (List.mem_of_mem_tail h)
  · exact .inr h

theorem lt_of_mem_openStarts (h : start ∈ openStarts score index) : start < index := by
  induction index with
  | zero => cases h
  | succ index ih =>
    rcases mem_openStarts_succ h with ⟨rfl, -⟩ | before
    · exact Nat.lt_succ_self _
    · exact Nat.lt_succ_of_lt (ih before)

theorem opens_of_mem_openStarts (h : start ∈ openStarts score index) :
    score[start]? = some .repeatStart := by
  induction index with
  | zero => cases h
  | succ index ih =>
    rcases mem_openStarts_succ h with ⟨rfl, opens⟩ | before
    · exact opens
    · exact ih before

/-- A start that is open was open all the time since. -/
theorem mem_openStarts_of_le (h : start ∈ openStarts score stop) (le : index ≤ stop)
    (lt : start < index) : start ∈ openStarts score index := by
  induction le with
  | refl => exact h
  | @step stop le ih =>
    rcases mem_openStarts_succ h with ⟨rfl, -⟩ | before
    · exact absurd (Nat.lt_of_lt_of_le lt le) (Nat.lt_irrefl _)
    · exact ih before

theorem pairwise_openStarts (score : List Directive) (index : Nat) :
    (openStarts score index).Pairwise (· > ·) := by
  induction index with
  | zero => exact .nil
  | succ index ih =>
    unfold openStarts
    split
    · exact .cons (fun _ h => lt_of_mem_openStarts h) ih
    · exact ih.tail
    · exact ih

/-! ## What is read off is right -/

theorem extract_append {first middle stop : Nat} (le : first ≤ middle) (le' : middle ≤ stop) :
    score.extract first stop = score.extract first middle ++ score.extract middle stop := by
  have length : stop - first = (middle - first) + (stop - middle) := by omega
  rw [List.extract, length, List.take_add, List.drop_drop, Nat.add_sub_cancel' le]

theorem extract_self (score : List Directive) (index : Nat) : score.extract index index = [] := by
  rw [List.extract, Nat.sub_self, List.take_zero]

theorem extract_cons (h : score[index]? = some d) (lt : index < stop) :
    score.extract index stop = d :: score.extract (index + 1) stop := by
  obtain ⟨inside, rfl⟩ := List.getElem?_eq_some_iff.mp h
  have length : stop - index = stop - (index + 1) + 1 := by omega
  rw [List.extract, List.drop_eq_getElem_cons inside, length, List.take_succ_cons]

theorem extract_snoc (h : score[index]? = some d) (le : first ≤ index) :
    score.extract first (index + 1) = score.extract first index ++ [d] := by
  rw [extract_append le (Nat.le_succ index), extract_cons h (Nat.lt_succ_self index), extract_self]

/-- A directive that is no sign of a repeat keeps a part of a score balanced. -/
theorem Balanced.extract_plain (h : Balanced (score.extract first index))
    (hd : score[index]? = some d) (plain : d.isRepeatSign = false) (le : first ≤ index) :
    Balanced (score.extract first (index + 1)) := by
  rw [extract_snoc hd le]
  exact h.append (.plain plain .nil)

/-- So does a whole repeat. -/
theorem Balanced.extract_repeat (before : Balanced (score.extract first start))
    (opens : score[start]? = some .repeatStart) (le : first ≤ start)
    (body : Balanced (score.extract (start + 1) stop))
    (ends : score[stop]? = some (.repeatEnd count)) (lt : start < stop) :
    Balanced (score.extract first (stop + 1)) := by
  have parts : score.extract first (stop + 1)
      = score.extract first start
        ++ (.repeatStart :: score.extract (start + 1) stop ++ .repeatEnd count :: []) := by
    rw [extract_snoc ends (by omega), extract_append le (Nat.le_of_lt lt), extract_cons opens lt,
      List.append_assoc]
  rw [parts]
  exact before.append (.closed count body .nil)

/-- Between the innermost open start and an index every sign has its partner, and the starts around
it are those that were open before it. -/
theorem of_openStarts_eq_cons {outer : List Nat} (le : index ≤ score.length)
    (h : openStarts score index = start :: outer) :
    openStarts score start = outer ∧ Balanced (score.extract (start + 1) index) := by
  induction index using Nat.strongRecOn generalizing start outer with
  | ind index ih =>
    obtain _ | index := index
    · cases h
    have hd : score[index]? = some score[index] := List.getElem?_eq_getElem le
    generalize score[index] = d at hd
    rcases d.repeatSign_cases with rfl | ⟨count, rfl⟩ | plain
    · rw [openStarts_start hd] at h
      obtain ⟨rfl, rfl⟩ := List.cons.inj h
      exact ⟨rfl, extract_self score _ ▸ .nil⟩
    · -- The end closes `inner`, so that what is read since `start` ends with a whole repeat.
      rw [openStarts_end hd] at h
      cases hs : openStarts score index with
      | nil => rw [hs] at h; cases h
      | cons inner rest =>
        rw [hs, List.tail_cons] at h
        have opened : inner ∈ openStarts score index := hs ▸ List.mem_cons_self
        have inner_lt := lt_of_mem_openStarts opened
        obtain ⟨around, body⟩ := ih index (Nat.lt_succ_self _) (Nat.le_of_lt le) hs
        have around := around.trans h
        obtain ⟨same, before⟩ := ih inner (by omega) (by omega) around
        have lt : start < inner := lt_of_mem_openStarts (around ▸ List.mem_cons_self)
        exact ⟨same,
          before.extract_repeat (opens_of_mem_openStarts opened) lt body hd inner_lt⟩
    · rw [openStarts_plain hd plain] at h
      obtain ⟨same, body⟩ := ih index (Nat.lt_succ_self _) (Nat.le_of_lt le) h
      have lt : start < index := lt_of_mem_openStarts (h ▸ List.mem_cons_self)
      exact ⟨same, body.extract_plain hd plain lt⟩

/-- The first of some directives stands in the score where they begin, the others behind it. -/
theorem of_cons_prefix_drop {ds : List Directive} (h : d :: ds <+: score.drop first) :
    score[first]? = some d ∧ ds <+: score.drop (first + 1) := by
  obtain ⟨rest, same, others⟩ := List.cons_prefix_iff.mp h
  constructor
  · rw [← List.head?_drop, same, List.head?_cons]
  · rwa [← List.tail_drop, same, List.tail_cons]

/-- Behind balanced directives the same starts are open as before them. -/
theorem Balanced.openStarts_add {ds rest : List Directive} (h : Balanced ds)
    (here : ds ++ rest <+: score.drop first) :
    openStarts score (first + ds.length) = openStarts score first ∧
      rest <+: score.drop (first + ds.length) := by
  induction h generalizing first rest with
  | nil => exact ⟨rfl, here⟩
  | @plain d ds plain _ ih =>
    obtain ⟨hd, others⟩ := of_cons_prefix_drop here
    obtain ⟨same, behind⟩ := ih others
    rw [List.length_cons, Nat.add_comm ds.length, ← Nat.add_assoc, same, openStarts_plain hd plain]
    exact ⟨rfl, behind⟩
  | @closed body ds count _ _ ihb ihs =>
    rw [List.append_assoc, List.cons_append] at here
    obtain ⟨opens, inside⟩ := of_cons_prefix_drop here
    obtain ⟨around, atEnd⟩ := ihb inside
    obtain ⟨ends, others⟩ := of_cons_prefix_drop atEnd
    obtain ⟨same, behind⟩ := ihs others
    have length : first + (.repeatStart :: body ++ .repeatEnd count :: ds).length
        = first + 1 + body.length + 1 + ds.length := by
      simp only [List.length_append, List.length_cons]
      omega
    rw [length, same, openStarts_end ends, around, openStarts_start opens]
    exact ⟨rfl, behind⟩

/-- At an end, the innermost open start is its partner, and nothing else has changed since. -/
theorem Partners.openStarts_eq (h : Partners score start stop) :
    openStarts score stop = start :: openStarts score start := by
  obtain ⟨count, ends⟩ := h.ends
  obtain ⟨inside, -⟩ := List.getElem?_eq_some_iff.mp ends
  have lt := h.lt
  have length : start + 1 + (score.extract (start + 1) stop).length = stop := by
    rw [List.extract, List.length_take, List.length_drop]
    omega
  have here : score.extract (start + 1) stop ++ [] <+: score.drop (start + 1) := by
    rw [List.append_nil]
    exact List.take_prefix ..
  have same := (h.body.openStarts_add here).1
  rwa [length, openStarts_start h.opens] at same

/-- **An end closes the innermost start that is open there.** -/
theorem partners_iff (h : score[stop]? = some (.repeatEnd count)) :
    Partners score start stop ↔ (openStarts score stop).head? = some start := by
  constructor
  · intro partners
    rw [partners.openStarts_eq, List.head?_cons]
  · intro head
    obtain ⟨outer, hs⟩ := List.head?_eq_some_iff.mp head
    have opened : start ∈ openStarts score stop := hs ▸ List.mem_cons_self
    obtain ⟨inside, -⟩ := List.getElem?_eq_some_iff.mp h
    exact ⟨lt_of_mem_openStarts opened, opens_of_mem_openStarts opened, ⟨count, h⟩,
      (of_openStarts_eq_cons (Nat.le_of_lt inside) hs).2⟩

/-- A start that is open stays open behind a directive that does not close it. -/
theorem mem_openStarts_or_partners (h : start ∈ openStarts score index) :
    start ∈ openStarts score (index + 1) ∨ Partners score start index := by
  unfold openStarts
  split
  · exact .inl (List.mem_cons_of_mem _ h)
  · rename_i count ends
    cases hs : openStarts score index with
    | nil => rw [hs] at h; cases h
    | cons inner outer =>
      rw [hs] at h
      rcases List.mem_cons.mp h with rfl | outside
      · exact .inr ((partners_iff ends).mpr (by rw [hs, List.head?_cons]))
      · exact .inl outside
  · exact .inl h

/-- **The starts that are read off are those that no end has closed.** -/
theorem mem_openStarts_iff : start ∈ openStarts score index ↔ OpenAt score index start := by
  constructor
  · intro h
    refine ⟨lt_of_mem_openStarts h, opens_of_mem_openStarts h, fun stop lt partners => ?_⟩
    obtain ⟨count, ends⟩ := partners.ends
    have still := mem_openStarts_of_le h lt (Nat.lt_succ_of_lt partners.lt)
    rw [openStarts_end ends, partners.openStarts_eq, List.tail_cons] at still
    exact Nat.lt_irrefl _ (lt_of_mem_openStarts still)
  · rintro ⟨lt, opens, unclosed⟩
    induction lt with
    | refl => rw [openStarts_start opens]; exact List.mem_cons_self
    | @step index lt ih =>
      have before := ih fun stop h => unclosed stop (Nat.lt_succ_of_lt h)
      rcases mem_openStarts_or_partners before with still | partners
      · exact still
      · exact absurd partners (unclosed index (Nat.lt_succ_self _))

example : openStarts [.repeatEnd none, .repeatStart, .repeatStart, .octaveUp, .repeatEnd (some 2),
    .repeatStart] 6 = [5, 1] := by decide

theorem Partners.openAt (h : Partners score start stop) : OpenAt score stop start :=
  mem_openStarts_iff.mp (h.openStarts_eq ▸ List.mem_cons_self)

/-- An end closes one start. -/
theorem Partners.start_unique {start' : Nat} (h : Partners score start stop)
    (h' : Partners score start' stop) : start = start' :=
  (List.cons.inj (h.openStarts_eq.symm.trans h'.openStarts_eq)).1

/-- A start is closed by one end. -/
theorem Partners.stop_unique {stop' : Nat} (h : Partners score start stop)
    (h' : Partners score start stop') : stop = stop' := by
  rcases Nat.lt_trichotomy stop stop' with lt | same | lt
  · exact absurd h (h'.openAt.unclosed stop lt)
  · exact same
  · exact absurd h' (h.openAt.unclosed stop' lt)

/-- A start that is open is closed at the index or behind it. -/
theorem OpenAt.le_stop (h : OpenAt score index start) (partners : Partners score start stop) :
    index ≤ stop :=
  Nat.le_of_not_lt fun lt => h.unclosed stop lt partners

/-! ## What an open repeat counts -/

/-- What an open repeat has counted, where `since` lists the directives that were played since its
start was. The start has not been played again. A repeat that knows of no passes to come has not met
its end; one that does has met it, and the passes to come and those that the end has closed are all
that its count says. -/
structure OpenRepeat.Tallies (score : List Directive) (since : List Nat) (r : OpenRepeat) :
    Prop where
  start_notMem : r.start ∉ since
  unmet : r.remaining = none → ∀ stop, Partners score r.start stop → stop ∉ since
  met : ∀ n, r.remaining = some n → ∃ stop count, Partners score r.start stop ∧
    score[stop]? = some (.repeatEnd count) ∧ stop ∈ since ∧ 1 ≤ n ∧
      n + since.count stop = passes count

/-- An open repeat has counted on the way since its start was last played. -/
def OpenRepeat.Recalls (score : List Directive) (way : List Nat) (r : OpenRepeat) : Prop :=
  ∃ before since, way = before ++ r.start :: since ∧ r.Tallies score since

namespace OpenRepeat

variable {since : List Nat} {r : OpenRepeat}

/-- A start that has just been played. -/
theorem tallies_nil (score : List Directive) (start : Nat) :
    (⟨start, none⟩ : OpenRepeat).Tallies score [] where
  start_notMem := List.not_mem_nil
  unmet _ _ _ := List.not_mem_nil
  met _ h := by cases h

/-- Directives that are neither the start nor the end of a repeat do not count for it. -/
theorem Tallies.pass (h : r.Tallies score since) (hs : r.start ≠ index)
    (other : ¬ Partners score r.start index) : r.Tallies score (since ++ [index]) where
  start_notMem := by simp [h.start_notMem, hs]
  unmet none stop partners := by
    have ne : stop ≠ index := fun same => other (same ▸ partners)
    simp [h.unmet none stop partners, ne]
  met n some := by
    obtain ⟨stop, count, partners, ends, met, pos, total⟩ := h.met n some
    have ne : stop ∉ [index] := fun same => other (List.mem_singleton.mp same ▸ partners)
    refine ⟨stop, count, partners, ends, List.mem_append_left _ met, pos, ?_⟩
    rw [List.count_append, List.count_eq_zero.mpr ne, Nat.add_zero, total]

/-- The end of a repeat finds at least one pass to take away, and those that it has taken away since
the start was played make up the rest. -/
theorem Tallies.add_count (h : r.Tallies score since) (partners : Partners score r.start index)
    (ends : score[index]? = some (.repeatEnd count)) :
    1 ≤ r.remaining.getD (passes count) ∧
      r.remaining.getD (passes count) + since.count index = passes count := by
  cases hr : r.remaining with
  | none =>
    have unmet := h.unmet hr index partners
    exact ⟨passes_pos count, by rw [List.count_eq_zero.mpr unmet]; rfl⟩
  | some n =>
    obtain ⟨stop, count', partners', ends', -, pos, total⟩ := h.met n hr
    obtain rfl := partners.stop_unique partners'
    obtain rfl : count' = count := by
      rw [ends] at ends'
      cases ends'
      rfl
    exact ⟨pos, total⟩

/-- A repeat that its end leads back into has counted one pass more. -/
theorem Tallies.again (h : r.Tallies score since) (partners : Partners score r.start index)
    (ends : score[index]? = some (.repeatEnd count))
    (more : r.remaining.getD (passes count) - 1 ≠ 0) :
    (⟨r.start, some (r.remaining.getD (passes count) - 1)⟩ : OpenRepeat).Tallies score
      (since ++ [index]) where
  start_notMem := by
    have ne : r.start ≠ index := Nat.ne_of_lt partners.lt
    simp [h.start_notMem, ne]
  unmet none := by cases none
  met n some := by
    obtain rfl := Option.some.inj some
    obtain ⟨-, total⟩ := h.add_count partners ends
    refine ⟨index, count, partners, ends, by simp, Nat.pos_of_ne_zero more, ?_⟩
    rw [List.count_append, List.count_singleton_self]
    omega

end OpenRepeat

/-! ## Places -/

/-- The repeats that a place holds open are those that the score has open there, and each of them
has counted how often its end was met on the way. -/
structure Place.Follows (score : List Directive) (way : List Nat) (p : Place) : Prop where
  index_le : p.index ≤ score.length
  starts_eq : p.repeats.map OpenRepeat.start = openStarts score p.index
  recalls : ∀ r ∈ p.repeats, r.Recalls score way

namespace Place

variable {way : List Nat} {p : Place}

theorem follows_start (score : List Directive) : Place.start.Follows score [] where
  index_le := Nat.zero_le _
  starts_eq := rfl
  recalls _ h := by cases h

theorem Follows.start_lt (h : p.Follows score way) {r : OpenRepeat} (hr : r ∈ p.repeats) :
    r.start < p.index :=
  lt_of_mem_openStarts (h.starts_eq ▸ List.mem_map_of_mem hr)

/-- What does not close an open repeat leaves what it has counted. -/
theorem Follows.recalls_pass (h : p.Follows score way) {r : OpenRepeat} (hr : r ∈ p.repeats)
    (other : ¬ Partners score r.start p.index) : r.Recalls score (way ++ [p.index]) := by
  obtain ⟨before, since, same, tallies⟩ := h.recalls r hr
  refine ⟨before, since ++ [p.index], ?_, tallies.pass (Nat.ne_of_lt (h.start_lt hr)) other⟩
  rw [same, List.append_assoc, List.cons_append]

/-- An end closes the innermost open repeat, and those around it were open before its start. -/
theorem Follows.partners_innermost (h : p.Follows score way)
    (hd : score[p.index]? = some (.repeatEnd count)) {innermost : OpenRepeat}
    {outer : List OpenRepeat} (hr : p.repeats = innermost :: outer) :
    Partners score innermost.start p.index ∧
      openStarts score innermost.start = outer.map OpenRepeat.start := by
  have hs : openStarts score p.index = innermost.start :: outer.map OpenRepeat.start := by
    rw [← h.starts_eq, hr, List.map_cons]
  have partners : Partners score innermost.start p.index :=
    (partners_iff hd).mpr (by rw [hs, List.head?_cons])
  exact ⟨partners, (List.cons.inj (partners.openStarts_eq.symm.trans hs)).2⟩

/-- An end leads behind it or back to its partner, and the repeats that the score has open there are
open. -/
theorem Follows.closeRepeat (h : p.Follows score way)
    (hd : score[p.index]? = some (.repeatEnd count)) :
    (p.closeRepeat count).Follows score (way ++ [p.index]) := by
  obtain ⟨inside, -⟩ := List.getElem?_eq_some_iff.mp hd
  cases hr : p.repeats with
  | nil =>
    have none : openStarts score p.index = [] := by rw [← h.starts_eq, hr, List.map_nil]
    simp only [Place.closeRepeat, hr]
    exact ⟨inside, by rw [openStarts_end hd, none]; rfl, List.forall_mem_nil _⟩
  | cons innermost outer =>
    obtain ⟨partners, around⟩ := h.partners_innermost hd hr
    have passed : ∀ r ∈ outer, r.Recalls score (way ++ [p.index]) := by
      intro r member
      have lt : r.start < innermost.start :=
        lt_of_mem_openStarts (around ▸ List.mem_map_of_mem member)
      exact h.recalls_pass (hr ▸ List.mem_cons_of_mem _ member)
        fun other => Nat.ne_of_lt lt (other.start_unique partners)
    simp only [Place.closeRepeat, hr]
    split
    · exact ⟨inside, by rw [openStarts_end hd, partners.openStarts_eq, List.tail_cons, around],
        passed⟩
    · rename_i more
      obtain ⟨before, since, same, tallies⟩ := h.recalls innermost (hr ▸ List.mem_cons_self)
      have back : innermost.start < score.length := Nat.lt_trans partners.lt inside
      refine ⟨back, ?_, List.forall_mem_cons.mpr ⟨⟨before, since ++ [p.index], ?_, ?_⟩, passed⟩⟩
      · rw [openStarts_start partners.opens, around, List.map_cons]
      · rw [same, List.append_assoc, List.cons_append]
      · exact tallies.again partners hd more

/-- **Every directive leads to a place that follows the score.** -/
theorem Follows.advance (h : p.Follows score way) (hd : score[p.index]? = some d) :
    (p.advance d).Follows score (way ++ [p.index]) := by
  obtain ⟨inside, -⟩ := List.getElem?_eq_some_iff.mp hd
  have passed (unclosing : ∀ count, d ≠ .repeatEnd count) (r : OpenRepeat) (hr : r ∈ p.repeats) :
      r.Recalls score (way ++ [p.index]) := by
    refine h.recalls_pass hr fun partners => ?_
    obtain ⟨count, ends⟩ := partners.ends
    exact unclosing count (Option.some.inj (hd.symm.trans ends))
  rcases d.repeatSign_cases with rfl | ⟨count, rfl⟩ | plain
  · refine ⟨inside, ?_, List.forall_mem_cons.mpr ⟨?_, passed (by simp)⟩⟩
    · have starts : p.index :: p.repeats.map OpenRepeat.start = openStarts score (p.index + 1) := by
        rw [openStarts_start hd, h.starts_eq]
      exact starts
    · exact ⟨way, [], rfl, OpenRepeat.tallies_nil score p.index⟩
  · exact h.closeRepeat hd
  · rw [advance_plain plain]
    refine ⟨inside, ?_, passed ?_⟩
    · rw [openStarts_plain hd plain, h.starts_eq]
    · rintro count rfl
      cases plain

/-- At an end, the innermost open repeat is the one that the end closes. -/
theorem Follows.head?_eq_iff (h : p.Follows score way)
    (hd : score[p.index]? = some (.repeatEnd count)) (start : Nat) :
    p.repeats.head?.map OpenRepeat.start = some start ↔ Partners score start p.index := by
  rw [partners_iff hd, ← h.starts_eq, List.head?_map]

/-- There is always a pass to take away from the repeat that an end closes. -/
theorem Follows.remaining_pos (h : p.Follows score way)
    (hd : score[p.index]? = some (.repeatEnd count)) {r : OpenRepeat}
    (hr : r ∈ p.repeats.head?) : 1 ≤ r.remaining.getD (passes count) := by
  have partners : Partners score r.start p.index :=
    (h.head?_eq_iff hd r.start).mp (by rw [Option.mem_def.mp hr, Option.map_some])
  obtain ⟨-, since, -, tallies⟩ := h.recalls r (List.mem_of_mem_head? hr)
  exact (tallies.add_count partners hd).1

/-- The open repeats of a place are the nesting of the signs before it. -/
structure IsNesting (score : List Directive) (way : List Nat) (p : Place) : Prop where
  /-- From the outermost on, each repeat began behind the one around it. -/
  increasing : (p.repeats.reverse.map OpenRepeat.start).Pairwise (· < ·)
  start_lt : ∀ r ∈ p.repeats, r.start < p.index
  open_iff : ∀ start, (∃ r ∈ p.repeats, r.start = start) ↔ OpenAt score p.index start
  /-- The end of a repeat that is played again is still ahead, and says how often it is played. -/
  again : ∀ r ∈ p.repeats, ∀ n, r.remaining = some n → ∃ stop count,
    Partners score r.start stop ∧ p.index ≤ stop ∧ score[stop]? = some (.repeatEnd (some count)) ∧
      1 ≤ n ∧ n ≤ count - 1
  recalls : ∀ r ∈ p.repeats, r.Recalls score way

theorem Follows.open_iff (h : p.Follows score way) (start : Nat) :
    (∃ r ∈ p.repeats, r.start = start) ↔ OpenAt score p.index start := by
  rw [← List.mem_map, h.starts_eq, mem_openStarts_iff]

theorem Follows.again (h : p.Follows score way) {r : OpenRepeat} (hr : r ∈ p.repeats) {n : Nat}
    (hn : r.remaining = some n) : ∃ stop count,
      Partners score r.start stop ∧ p.index ≤ stop ∧
        score[stop]? = some (.repeatEnd (some count)) ∧ 1 ≤ n ∧ n ≤ count - 1 := by
  obtain ⟨-, since, -, tallies⟩ := h.recalls r hr
  obtain ⟨stop, count, partners, ends, met, pos, total⟩ := tallies.met n hn
  have passed : 1 ≤ since.count stop := List.count_pos_iff.mpr met
  have opened : OpenAt score p.index r.start := (h.open_iff r.start).mp ⟨r, hr, rfl⟩
  have counted : count = some (passes count) := eq_some_passes (by omega)
  exact ⟨stop, passes count, partners, opened.le_stop partners, counted ▸ ends, pos, by omega⟩

theorem Follows.isNesting (h : p.Follows score way) : p.IsNesting score way where
  increasing := by
    rw [List.map_reverse, List.pairwise_reverse, h.starts_eq]
    exact pairwise_openStarts score p.index
  start_lt _ hr := h.start_lt hr
  open_iff := h.open_iff
  again _ hr _ hn := h.again hr hn
  recalls := h.recalls

end Place

end

/-! ## Performances -/

namespace Performance

variable {α : Type} [Scalar α] {setup : Setup} {score : List Directive} {way : List Nat}
  {p q : Performance α}

/-- `p` comes to `q` by playing the directives at the indexes `way`, at the limit and past it as
well. -/
inductive Way (setup : Setup) (score : List Directive) (p : Performance α) :
    (way : List Nat) → (q : Performance α) → Prop
  | here : Way setup score p [] p
  | onward {way : List Nat} {q : Performance α} {d : Directive} (before : Way setup score p way q)
      (next : score[q.place.index]? = some d) :
      Way setup score p (way ++ [q.place.index]) (q.step setup d)

/-- There is a way to everything that is reached, and to nothing else. -/
theorem reached_iff_exists_way : p.Reached setup score q ↔ ∃ way, p.Way setup score way q := by
  constructor
  · intro h
    induction h with
    | refl => exact ⟨[], .here⟩
    | tail _ next ih =>
      obtain ⟨way, before⟩ := ih
      obtain ⟨d, hd, rfl⟩ := next
      exact ⟨_, before.onward hd⟩
  · rintro ⟨way, h⟩
    induction h with
    | here => exact .refl
    | onward _ next ih => exact .tail ih ⟨_, next, rfl⟩

/-- **Wherever a piece comes to, its place follows the score.** -/
theorem Way.follows {noise : Noise} (h : (start noise : Performance α).Way setup score way q) :
    q.place.Follows score way := by
  induction h with
  | here => exact Place.follows_start score
  | onward _ next ih =>
    rw [place_step]
    exact ih.advance next

/-- **The open repeats are the nesting of the signs.** Wherever a piece comes to, at the limit and
past it as well, exactly those repeats are open whose starts no end before the place closes, and
each of them has counted its passes; the piece stays within its score. An end takes a pass from the
repeat that it closes, which has one left and is always the same: at an index the same starts are
open whenever a piece comes to it. -/
theorem nesting_of_way {noise : Noise} (h : (start noise : Performance α).Way setup score way q) :
    q.place.IsNesting score way ∧
      (∀ d, score[q.place.index]? = some d → (q.place.advance d).index ≤ score.length) ∧
      (∀ count, score[q.place.index]? = some (.repeatEnd count) →
        (∀ r ∈ q.place.repeats.head?, 1 ≤ r.remaining.getD (passes count)) ∧
          ∀ k, q.place.repeats.head?.map OpenRepeat.start = some k
            ↔ Partners score k q.place.index) ∧
      ∀ (setup' : Setup) (noise' : Noise) (q' : Performance α),
        (start noise').Reached setup' score q' → q'.place.index = q.place.index →
          q'.place.repeats.map OpenRepeat.start = q.place.repeats.map OpenRepeat.start := by
  have follows := h.follows
  refine ⟨follows.isNesting, fun d hd => (follows.advance hd).index_le,
    fun count hd => ⟨fun r hr => follows.remaining_pos hd hr, follows.head?_eq_iff hd⟩,
    fun setup' noise' q' h' same => ?_⟩
  obtain ⟨way', h'⟩ := reached_iff_exists_way.mp h'
  rw [follows.starts_eq, h'.follows.starts_eq, same]

/-- It holds in the second pass of a repeat within another one, behind an end that closes nothing
and past the limit. -/
theorem nesting_of_way_secondPass :
    let score : List Directive := [.repeatEnd none, .repeatStart, .repeatStart, .rest none,
      .repeatEnd (some 3), .repeatEnd (some 2)]
    ∃ q : Performance Float,
      (start (.ofSeed 0)).Way ⟨8, some 0⟩ score [0, 1, 2, 3, 4, 3] q ∧
        q.place = ⟨4, [⟨2, some 2⟩, ⟨1, none⟩]⟩ ∧
        q.place.IsNesting score [0, 1, 2, 3, 4, 3] ∧
        (q.place.advance (.repeatEnd (some 3))).index ≤ score.length ∧
        Partners score 2 4 ∧ ¬ Partners score 1 4 := by
  intro score
  have outer : (start (.ofSeed 0) : Performance Float).Way ⟨8, some 0⟩ score [0, 1] _ :=
    (Way.here.onward (d := .repeatEnd none) rfl).onward (d := .repeatStart) rfl
  have first : Way ⟨8, some 0⟩ score _ [0, 1, 2, 3] _ :=
    (outer.onward (d := .repeatStart) rfl).onward (d := .rest none) rfl
  have second : Way ⟨8, some 0⟩ score _ [0, 1, 2, 3, 4, 3] _ :=
    (first.onward (d := .repeatEnd (some 3)) rfl).onward (d := .rest none) rfl
  obtain ⟨nesting, target, ends, -⟩ := nesting_of_way second
  obtain ⟨-, closes⟩ := ends (some 3) rfl
  have other : ¬ Partners score 1 4 := fun partners => by cases (closes 1).mpr partners
  exact ⟨_, second, rfl, nesting, target _ rfl, (closes 2).mp rfl, other⟩

end Performance

end Chiptune
