import Chiptune.Proofs.Writes

/-!
# The way of the signal

Which samples go through the effects, and how.

* `Chain.through_eq_byStage`: samples that go through all stages one by one come out as if the
  whole signal had gone through the first stage, then through the second, and so on.
* `Chain.replay`: what a chain makes of `Event`s: samples that it is fed and stages that join it.
  Each sample goes through the chain once and is written once.
* `Performance.replay_events`: the writes of a run and the chain that it leaves are the replay of
  its events. What goes in is sound until the gate of a note closes, and silence from there on and
  for a rest; only then the volume is applied behind the effects.
* `Chain.replay_eq_joined`: a stage that joins takes what the stages before it put out from then
  on, and leaves what they put out earlier.
* `Performance.writes_through_effects`: all of this for the runs of a score.
-/

namespace Chiptune

variable {α : Type} [Scalar α]

/-! ## Sample by sample and stage by stage -/

/-- Sends a signal through a stage. -/
def Effect.through : Effect α → List α → List α × Effect α
  | effect, [] => ([], effect)
  | effect, x :: xs =>
    let (y, effect) := effect.apply x
    let (ys, effect) := through effect xs
    (y :: ys, effect)

namespace Chain

/-- Sends a signal through a chain: each sample through all stages, then the next sample. -/
def through : Chain α → List α → List α × Chain α
  | chain, [] => ([], chain)
  | chain, x :: xs =>
    let (y, chain) := chain.apply x
    let (ys, chain) := through chain xs
    (y :: ys, chain)

/-- As many samples come out as go in. -/
theorem length_through (chain : Chain α) (xs : List α) :
    (chain.through xs).1.length = xs.length := by
  induction xs generalizing chain with
  | nil => rfl
  | cons x xs ih => simp [through, ih]

theorem through_append (chain : Chain α) (xs ys : List α) :
    chain.through (xs ++ ys)
      = ((chain.through xs).1 ++ ((chain.through xs).2.through ys).1,
          ((chain.through xs).2.through ys).2) := by
  induction xs generalizing chain with
  | nil => rfl
  | cons x xs ih => simp [through, ih]

/-- Sends a signal through a chain: all of it through a stage, then through the next stage. -/
def byStage : Chain α → List α → List α × Chain α
  | [], xs => (xs, [])
  | effect :: effects, xs =>
    let (ys, effect) := effect.through xs
    let (zs, effects) := byStage effects ys
    (zs, effect :: effects)

/-- Sends a signal through stages of which each joins behind a number of samples and leaves those
as they are. -/
def joined : List (Nat × Effect α) → List α → List α × Chain α
  | [], xs => (xs, [])
  | (onset, effect) :: later, xs =>
    let (ys, effect) := effect.through (xs.drop onset)
    let (zs, effects) := joined later (xs.take onset ++ ys)
    (zs, effect :: effects)

/-- Stages that are there from the first sample on. -/
def atOnce (chain : Chain α) : List (Nat × Effect α) := chain.map fun effect => (0, effect)

/-- Stages that join one sample later. -/
def delayed (stages : List (Nat × Effect α)) : List (Nat × Effect α) :=
  stages.map fun (onset, effect) => (onset + 1, effect)

theorem joined_atOnce (chain : Chain α) (xs : List α) :
    joined (atOnce chain) xs = byStage chain xs := by
  induction chain generalizing xs with
  | nil => rfl
  | cons effect effects ih =>
    have rest := ih (effect.through xs).1
    simp only [atOnce, List.map_cons, joined, List.drop_zero, List.take_zero, List.nil_append,
      byStage] at rest ⊢
    rw [rest]

/-- Before the first sample every chain is as it was. -/
theorem joined_nil (stages : List (Nat × Effect α)) :
    joined stages [] = ([], stages.map (·.2)) := by
  induction stages with
  | nil => rfl
  | cons stage stages ih =>
    simp only [joined, List.drop_nil, List.take_nil, Effect.through, List.nil_append, ih,
      List.map_cons]

/-- Stages that join later leave the first sample. -/
theorem joined_delayed (stages : List (Nat × Effect α)) (x : α) (xs : List α) :
    joined (delayed stages) (x :: xs) = (x :: (joined stages xs).1, (joined stages xs).2) := by
  induction stages generalizing xs with
  | nil => rfl
  | cons stage stages ih =>
    have rest := ih (xs.take stage.1 ++ (stage.2.through (xs.drop stage.1)).1)
    simp only [delayed, List.map_cons, joined, List.drop_succ_cons, List.take_succ_cons,
      List.cons_append] at rest ⊢
    rw [rest]

/-- The first sample goes through the stages that are there, and then the signal goes on. -/
theorem joined_cons (chain : Chain α) (later : List (Nat × Effect α)) (x : α) (xs : List α) :
    joined (atOnce chain ++ delayed later) (x :: xs)
      = ((chain.apply x).1 :: (joined (atOnce (chain.apply x).2 ++ later) xs).1,
          (joined (atOnce (chain.apply x).2 ++ later) xs).2) := by
  induction chain generalizing x xs with
  | nil => exact joined_delayed later x xs
  | cons effect effects ih =>
    have rest := ih (effect.apply x).1 ((effect.apply x).2.through xs).1
    simp only [atOnce, List.map_cons, List.cons_append, joined, List.drop_zero, List.take_zero,
      List.nil_append, Effect.through, apply] at rest ⊢
    rw [rest]

/-- **The order of samples and stages can be exchanged.** -/
theorem through_eq_byStage (chain : Chain α) (xs : List α) :
    chain.through xs = chain.byStage xs := by
  rw [← joined_atOnce]
  induction xs generalizing chain with
  | nil =>
    rw [joined_nil, atOnce, List.map_map]
    exact congrArg (Prod.mk []) (List.map_id chain).symm
  | cons x xs ih =>
    have step := joined_cons chain [] x xs
    rw [delayed, List.map_nil, List.append_nil, List.append_nil, ← ih] at step
    exact step.symm

end Chain

/-! ## Events -/

/-- What the effects are fed with. -/
inductive Input (α : Type) where
  /-- A sample of a note. -/
  | sound (x : α)
  /-- Silence, behind which the volume is applied. -/
  | silence (volume : α)

/-- The sample that goes into the effects. -/
def Input.sample : Input α → α
  | sound x => x
  | silence _ => 0

/-- The value that is written, where the effects have put out `wet`. -/
def Input.level (wet : α) : Input α → α
  | sound _ => wet
  | silence volume => wet * volume

/-- What happens to the effects of a piece. -/
inductive Event (α : Type) where
  /-- A stage joins at the end of the chain. -/
  | stage (effect : Effect α)
  /-- The chain is fed, and what it puts out is written at a position. -/
  | feed (index : Nat) (input : Input α)

/-- What is written for inputs where the chain puts out `wets`. -/
def Event.written (inputs : List (Nat × Input α)) (wets : List α) : List (Nat × α) :=
  List.zipWith (fun (index, input) wet => (index, input.level wet)) inputs wets

/-- Inputs that are written from `index` on. -/
def Event.feeds (index : Nat) (inputs : List (Input α)) : List (Event α) :=
  (Timeline.placed index inputs).map fun (i, input) => feed i input

namespace Chain

/-- The writes that events lead to, and the chain after them. For each write the chain is fed
once. -/
def replay : Chain α → List (Event α) → List (Nat × α) × Chain α
  | chain, [] => ([], chain)
  | chain, .stage effect :: events => replay (chain ++ [effect]) events
  | chain, .feed index input :: events =>
    let (wet, chain) := chain.apply input.sample
    let (writes, chain) := replay chain events
    ((index, input.level wet) :: writes, chain)

theorem replay_feed (chain : Chain α) (index : Nat) (input : Input α) (events : List (Event α)) :
    chain.replay (.feed index input :: events)
      = ((index, input.level (chain.apply input.sample).1)
            :: ((chain.apply input.sample).2.replay events).1,
          ((chain.apply input.sample).2.replay events).2) := rfl

theorem replay_append (chain : Chain α) (xs ys : List (Event α)) :
    chain.replay (xs ++ ys)
      = ((chain.replay xs).1 ++ ((chain.replay xs).2.replay ys).1,
          ((chain.replay xs).2.replay ys).2) := by
  induction xs generalizing chain with
  | nil => rfl
  | cons event events ih =>
    cases event with
    | stage effect => exact ih (chain ++ [effect])
    | feed index input =>
      rw [List.cons_append, replay_feed, ih, replay_feed]
      rfl

end Chain

/-- Inputs from an index on are written from there on. -/
theorem Event.written_placed (index : Nat) (inputs : List (Input α)) (wets : List α) :
    Event.written (Timeline.placed index inputs) wets
      = Timeline.placed index (List.zipWith (fun input wet => input.level wet) inputs wets) := by
  induction inputs generalizing index wets with
  | nil => rfl
  | cons input inputs ih =>
    cases wets with
    | nil => rfl
    | cons wet wets => exact congrArg (List.cons (index, input.level wet)) (ih (index + 1) wets)

/-- Feeding a chain with inputs is sending their signal through it. -/
theorem Chain.replay_feeds (chain : Chain α) (index : Nat) (inputs : List (Input α)) :
    chain.replay (Event.feeds index inputs)
      = (Event.written (Timeline.placed index inputs) (chain.through (inputs.map (·.sample))).1,
          (chain.through (inputs.map (·.sample))).2) := by
  induction inputs generalizing chain index with
  | nil => rfl
  | cons input inputs ih =>
    have rest := ih (chain.apply input.sample).2 (index + 1)
    show chain.replay (.feed index input :: Event.feeds (index + 1) inputs) = _
    rw [replay_feed, rest]
    rfl

/-! ## The events of a run -/

/-- From `passage`, feeding the inputs leads to `later`: the samples that are added are those that
the chain puts out. -/
def Passage.Takes (inputs : List (Input α)) (passage later : Passage α) : Prop :=
  ∃ added, later.samples.toList = passage.samples.toList ++ added ∧
    ∀ index, passage.chain.replay (Event.feeds index inputs)
      = (Timeline.placed index added, later.chain)

namespace Passage

theorem takes_nil (passage : Passage α) : passage.Takes [] passage :=
  ⟨[], (List.append_nil _).symm, fun _ => rfl⟩

/-- One sample, and then the others. -/
theorem Takes.cons {input : Input α} {inputs : List (Input α)} {passage later : Passage α}
    {noise : Noise}
    (h : (passage.add (input.level (passage.chain.apply input.sample).1)
      (passage.chain.apply input.sample).2 noise).Takes inputs later) :
    passage.Takes (input :: inputs) later := by
  obtain ⟨added, samples, replayed⟩ := h
  refine ⟨input.level (passage.chain.apply input.sample).1 :: added, ?_, fun index => ?_⟩
  · rw [samples, toList_add, List.append_assoc]
    rfl
  · have rest : (passage.chain.apply input.sample).2.replay (Event.feeds (index + 1) inputs)
        = (Timeline.placed (index + 1) added, later.chain) := replayed (index + 1)
    show passage.chain.replay (.feed index input :: Event.feeds (index + 1) inputs) = _
    rw [Chain.replay_feed, rest]
    rfl

/-- Silence feeds the chain with silence. -/
theorem takes_silence (volume : α) (n : Nat) (passage : Passage α) :
    passage.Takes (List.replicate n (.silence volume)) (passage.silence volume n) := by
  induction n generalizing passage with
  | zero => exact passage.takes_nil
  | succ n ih =>
    rw [silence_succ, List.replicate_succ]
    exact Takes.cons (ih _)

end Passage

namespace Note

/-- What a note feeds the chain with, from its `i`-th sample on: its sound until the gate closes,
then silence. -/
def inputs (note : Note α) : (n i : Nat) → Passage α → List (Input α)
  | 0, _, _ => []
  | n + 1, i, passage =>
    .sound (note.dry i passage.noise).1 ::
      if note.gateCloses i (note.wet i passage) then List.replicate n (.silence note.volume)
      else note.inputs n (i + 1) (note.sound i passage)

theorem takes_play (note : Note α) (n i : Nat) (passage : Passage α) :
    passage.Takes (note.inputs n i passage) (note.play n i passage) := by
  induction n generalizing i passage with
  | zero => exact passage.takes_nil
  | succ n ih =>
    rw [play_succ, inputs]
    refine Passage.Takes.cons (show (note.sound i passage).Takes _ _ from ?_)
    split
    · exact Passage.takes_silence _ _ _
    · exact ih _ _

end Note

namespace Performance

variable {setup : Setup} {score : List Directive} {p : Performance α} {d : Directive}

/-- What a directive feeds the effects with: as many samples as it writes. -/
def inputsOf (setup : Setup) (d : Directive) (p : Performance α) : List (Input α) :=
  match d with
  | .note pitch length =>
    let note := p.noteOf setup pitch length
    note.inputs (min note.contour.total (setup.budget p.cursor)) 0 ⟨#[], p.chain, p.noise⟩
  | .rest length =>
    List.replicate (min (p.duration setup length) (setup.budget p.cursor))
      (.silence p.settings.volume)
  | _ => []

/-- The events of a directive. -/
def eventsOf (setup : Setup) (d : Directive) (p : Performance α) : List (Event α) :=
  match d with
  | .effect letter params =>
    ((Effect.ofLetter? letter (params.map Scalar.ofDecimal) setup.rate).map .stage).toList
  | d => Event.feeds p.cursor (p.inputsOf setup d)

/-- The events of a run, in order. -/
def events (setup : Setup) (score : List Directive) (p : Performance α) : List (Event α) :=
  (p.played setup score).flatMap fun (d, q) => q.eventsOf setup d

theorem events_of_step (hd : score[p.place.index]? = some d) (hl : p.limitReached setup = false) :
    p.events setup score = p.eventsOf setup d ++ (p.step setup d).events setup score := by
  rw [events, played_of_step hd hl, List.flatMap_cons]
  rfl

theorem takes_passage (setup : Setup) (d : Directive) (p : Performance α) :
    Passage.Takes (p.inputsOf setup d) ⟨#[], p.chain, p.noise⟩ (p.passage setup d) := by
  cases d with
  | note pitch length => exact Note.takes_play _ _ _ _
  | rest length => exact Passage.takes_silence _ _ _
  | _ => exact Passage.takes_nil _

theorem replay_feeds (setup : Setup) (d : Directive) (p : Performance α) :
    p.chain.replay (Event.feeds p.cursor (p.inputsOf setup d))
      = (p.writesOf setup d, (p.passage setup d).chain) := by
  obtain ⟨added, samples, replayed⟩ := takes_passage setup d p
  rw [writesOf, samples]
  exact replayed p.cursor

/-- The signal of a directive goes through the chain once, and what comes out is written. -/
theorem writesOf_eq (setup : Setup) (d : Directive) (p : Performance α) :
    p.writesOf setup d
      = Event.written (Timeline.placed p.cursor (p.inputsOf setup d))
          (p.chain.through ((p.inputsOf setup d).map (·.sample))).1 := by
  have fed := replay_feeds setup d p
  rw [Chain.replay_feeds] at fed
  exact (Prod.mk.inj fed).1.symm

/-- The samples of a directive are what comes out for its inputs. -/
theorem samples_passage_eq (setup : Setup) (d : Directive) (p : Performance α) :
    (p.passage setup d).samples.toList
      = List.zipWith (fun input wet => input.level wet) (p.inputsOf setup d)
          (p.chain.through ((p.inputsOf setup d).map (·.sample))).1 := by
  have written := writesOf_eq setup d p
  rw [Event.written_placed] at written
  exact Timeline.placed_injective written

/-- What is written leaves the chain behind the signal. -/
theorem chain_passage (setup : Setup) (d : Directive) (p : Performance α) :
    (p.passage setup d).chain
      = (p.chain.through ((p.inputsOf setup d).map (·.sample))).2 := by
  have fed := replay_feeds setup d p
  rw [Chain.replay_feeds] at fed
  exact (Prod.mk.inj fed).2.symm

/-- The writes of a directive and the chain that it leaves are the replay of its events. -/
theorem replay_eventsOf (setup : Setup) (d : Directive) (p : Performance α) :
    p.chain.replay (p.eventsOf setup d) = (p.writesOf setup d, (p.step setup d).chain) := by
  cases d with
  | effect letter params =>
    simp only [eventsOf, writesOf, passage, step, play, addEffect]
    split <;> rename_i found <;> rw [found] <;> rfl
  | _ => exact replay_feeds setup _ p

/-- **So are those of a run.** -/
theorem replay_events (setup : Setup) (score : List Directive) (p : Performance α) :
    p.chain.replay (p.events setup score)
      = (p.writes setup score, (p.run setup score).chain) := by
  fun_induction run setup score p with
  | case1 p hd => rw [events, writes, played_of_end hd]; rfl
  | case2 p d hd hl => rw [events, writes, played_of_limitReached hl]; rfl
  | case3 p d hd hl ih =>
    have going := Bool.eq_false_iff.mpr hl
    rw [events_of_step hd going, writes_of_step hd going, Chain.replay_append, replay_eventsOf, ih]

end Performance

/-! ## Stages that join in the middle of a piece -/

/-- The stages that join, each with the number of samples fed before it does. -/
def Event.onsets : List (Event α) → List (Nat × Effect α)
  | [] => []
  | stage effect :: events => (0, effect) :: onsets events
  | feed _ _ :: events => Chain.delayed (onsets events)

/-- The inputs with the positions at which they are written. -/
def Event.fed : List (Event α) → List (Nat × Input α)
  | [] => []
  | stage _ :: events => fed events
  | feed index input :: events => (index, input) :: fed events

/-- **A stage that joins takes what the stages before it put out from then on.** -/
theorem Chain.replay_eq_joined (chain : Chain α) (events : List (Event α)) :
    chain.replay events
      = (Event.written (Event.fed events)
            (joined (atOnce chain ++ Event.onsets events)
              ((Event.fed events).map fun (_, input) => input.sample)).1,
          (joined (atOnce chain ++ Event.onsets events)
            ((Event.fed events).map fun (_, input) => input.sample)).2) := by
  induction events generalizing chain with
  | nil =>
    have still : (atOnce chain).map (·.2) = chain := by
      rw [atOnce, List.map_map]
      exact List.map_id chain
    rw [Event.onsets, Event.fed, List.append_nil, List.map_nil, joined_nil, still]
    rfl
  | cons event events ih =>
    cases event with
    | stage effect =>
      have longer : atOnce (chain ++ [effect]) ++ Event.onsets events
          = atOnce chain ++ (0, effect) :: Event.onsets events := by
        rw [atOnce, List.map_append, List.append_assoc]
        rfl
      rw [replay, ih, longer]
      rfl
    | feed index input =>
      rw [replay_feed, ih, Event.onsets, Event.fed, List.map_cons, joined_cons]
      rfl

/-- A stage that has heard nothing yet. -/
def Effect.IsFresh : Effect α → Prop
  | filter f => f.x1 = 0 ∧ f.x2 = 0 ∧ f.y1 = 0 ∧ f.y2 = 0
  | echo e => e.line = #[] ∧ e.position = 0

/-- Every letter names a stage that has heard nothing yet. -/
theorem Effect.isFresh_of_letter {letter : Char} {params : List α} {rate : Nat}
    {effect : Effect α} (h : ofLetter? letter params rate = some effect) : effect.IsFresh := by
  unfold ofLetter? at h
  split at h
  · cases h; exact ⟨rfl, rfl, rfl, rfl⟩
  · cases h; exact ⟨rfl, rfl, rfl, rfl⟩
  · cases h; exact ⟨rfl, rfl⟩
  · cases h

omit [Scalar α] in
theorem Event.stage_notMem_feeds (effect : Effect α) (index : Nat) (inputs : List (Input α)) :
    .stage effect ∉ feeds index inputs := by
  intro h
  obtain ⟨⟨i, input⟩, -, same⟩ := List.mem_map.mp h
  cases same

namespace Performance

theorem isFresh_of_mem_eventsOf {setup : Setup} {d : Directive} {p : Performance α}
    {effect : Effect α} (h : .stage effect ∈ p.eventsOf setup d) : effect.IsFresh := by
  cases d with
  | effect letter params =>
    obtain ⟨named, hn, same⟩ := Option.map_eq_some_iff.mp (Option.mem_toList.mp h)
    cases same
    exact Effect.isFresh_of_letter hn
  | _ => exact absurd h (Event.stage_notMem_feeds effect _ _)

/-- **Every sample that is written passes once through every effect, in order.**

In every run the writes, in their order, are what the chain puts out, fed once for each of them;
the volume is applied behind the chain where silence goes in. A signal that is sent through a
chain sample by sample comes out as if it were sent through stage by stage. And over a whole run,
across notes, rests, repeats and voices, each effect works as a fresh stage that takes what the
stages before it put out from the moment on when it joined. -/
theorem writes_through_effects :
    (∀ (setup : Setup) (score : List Directive) (p : Performance α),
      (p.run setup score).timeline = p.timeline.overlayAll (p.writes setup score) ∧
        p.chain.replay (p.events setup score)
          = (p.writes setup score, (p.run setup score).chain)) ∧
    (∀ (chain : Chain α) (xs : List α), chain.through xs = chain.byStage xs) ∧
    ∀ (setup : Setup) (score : List Directive) (noise : Noise),
      let events := (start noise : Performance α).events setup score
      let signal := (Event.fed events).map fun (_, input) => input.sample
      let (wets, chain) := Chain.joined (Event.onsets events) signal
      (start noise).writes setup score = Event.written (Event.fed events) wets ∧
        ((start noise).run setup score).chain = chain ∧
        ∀ effect, .stage effect ∈ events → effect.IsFresh := by
  refine ⟨fun setup score p => ⟨timeline_run setup score p, replay_events setup score p⟩,
    Chain.through_eq_byStage, fun setup score noise => ?_⟩
  have whole := Chain.replay_eq_joined [] ((start noise : Performance α).events setup score)
  have played := replay_events setup score (start noise : Performance α)
  obtain ⟨writes, chain⟩ := Prod.mk.inj (played.symm.trans whole)
  refine ⟨writes, chain, fun effect h => ?_⟩
  obtain ⟨⟨d, q⟩, -, member⟩ := List.mem_flatMap.mp h
  exact isFresh_of_mem_eventsOf member

end Performance

end Chiptune
