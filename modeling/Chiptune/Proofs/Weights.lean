import Chiptune.Proofs.Heard

/-!
# Weights that are left

A further voice takes over the weights of the partials, but no note of it listens to them before
the voice has set its own.

* `Performance.withWeights`: the performance with other weights. `Performance.Deaf`: it sounds the
  same with them, since they are the same or the waveform does not look at weights.
* `Performance.Deaf.step`, `Performance.Deaf.step_withWeights`: directives keep this, and do the
  same but for the weights.
* `Performance.leftover_unheard`: from a `;` on, any other weights make the same run.
-/

namespace Chiptune

variable {α : Type} [Scalar α]

/-- The weights behind a directive, where there were `weights` before it. -/
def Directive.carry (d : Directive) (weights : List α) : List α :=
  match d with
  | .harmony (w :: ws) => (w :: ws).map fun w => Scalar.ofDecimal w / 100
  | _ => weights

/-! ## Settings -/

namespace Settings

variable {s : Settings α} {weights : List α}

/-- The settings with other weights. -/
def withWeights (weights : List α) (s : Settings α) : Settings α := { s with weights }

/-- A directive sets weights of its own or leaves those that are there. -/
theorem apply_withWeights (d : Directive) (s : Settings α) (weights : List α) :
    (s.withWeights weights).apply d = (s.apply d).withWeights (d.carry weights) := by
  cases d with
  | harmony params => cases params <;> rfl
  | tempo | envelope | unison =>
    simp only [apply]
    split <;> rfl
  | _ => rfl

/-- Settings that sound the same with other weights still do so behind a directive. -/
theorem heard_apply (h : s.wave.heard weights = s.wave.heard s.weights) (d : Directive) :
    (s.apply d).wave.heard (d.carry weights) = (s.apply d).wave.heard (s.apply d).weights := by
  cases d with
  | harmony params =>
    cases params with
    | nil => exact h
    | cons => rfl
  | waveform index => rw [apply, Waveform.heard_ofIndex, Waveform.heard_ofIndex]
  | tempo | envelope | unison =>
    simp only [apply]
    split <;> exact h
  | voiceReset => rfl
  | _ => exact h

end Settings

/-! ## Performances -/

namespace Performance

variable {setup : Setup} {score : List Directive} {p : Performance α} {weights : List α}

/-- The performance with other weights. -/
def withWeights (weights : List α) (p : Performance α) : Performance α :=
  { p with settings := p.settings.withWeights weights }

/-- The performance does not hear whether it has these weights or its own. -/
def Deaf (weights : List α) (p : Performance α) : Prop :=
  p.settings.wave.heard weights = p.settings.wave.heard p.settings.weights

/-- A directive with weights makes them the only ones. -/
theorem step_harmony (setup : Setup) (p : Performance α) (weights : List α) (w : Decimal)
    (ws : List Decimal) :
    (p.withWeights weights).step setup (.harmony (w :: ws)) = p.step setup (.harmony (w :: ws)) :=
  rfl

namespace Deaf

/-- Behind a `;` no weights are heard. -/
theorem voiceReset (setup : Setup) (p : Performance α) (weights : List α) :
    (p.step setup .voiceReset).Deaf weights := rfl

theorem passage_withWeights (h : p.Deaf weights) (d : Directive) :
    (p.withWeights weights).passage setup d = p.passage setup d := by
  have alike : (p.withWeights weights).settings.audible = p.settings.audible :=
    congrArg (fun weights => p.settings.withWeights weights) h
  have same : (p.withWeights weights).audible = p.audible :=
    congrArg (fun settings => { p.audible with settings }) alike
  rw [← passage_audible, same, passage_audible]

theorem step (h : p.Deaf weights) (setup : Setup) (d : Directive) :
    (p.step setup d).Deaf (d.carry weights) := by
  show (p.play setup d).Deaf (d.carry weights)
  rw [Deaf, settings_play]
  exact Settings.heard_apply h d

/-- **A directive does the same with any weights that are not heard.** -/
theorem step_withWeights (h : p.Deaf weights) (setup : Setup) (d : Directive) :
    (p.withWeights weights).step setup d = (p.step setup d).withWeights (d.carry weights) := by
  have passage : (p.withWeights weights).passage setup d = p.passage setup d :=
    h.passage_withWeights d
  have settings : (p.withWeights weights).settings.apply d
      = (p.settings.apply d).withWeights (d.carry weights) :=
    Settings.apply_withWeights d p.settings weights
  cases d with
  | note | rest =>
    simp only [Performance.step, play, passage]
    rfl
  | effect letter params =>
    simp only [Performance.step, play, addEffect]
    split <;> rfl
  | voiceReset => rfl
  | _ =>
    simp only [Performance.step, play, settings]
    rfl

end Deaf

/-! ## Runs -/

/-- No other weights are heard from here on: not now, or not behind the `;` that comes next. -/
def Unheard (score : List Directive) (weights : List α) (p : Performance α) : Prop :=
  p.Deaf weights ∨ score[p.place.index]? = some .voiceReset

namespace Unheard

variable {d : Directive}

theorem next (h : p.Unheard score weights) (hd : score[p.place.index]? = some d) (setup : Setup) :
    (p.step setup d).Unheard score (d.carry weights) ∧
      (p.withWeights weights).step setup d
        = (p.step setup d).withWeights (d.carry weights) := by
  rcases h with deaf | voice
  · exact ⟨.inl (deaf.step setup d), deaf.step_withWeights setup d⟩
  · obtain rfl : d = .voiceReset := Option.some.inj (hd.symm.trans voice)
    exact ⟨.inl (Deaf.voiceReset setup p _), rfl⟩

/-- Weights apart, every directive leads to the same, also past the limit. -/
theorem trace_eq (h : p.Unheard score weights) (setup : Setup) (n : Nat) :
    ((p.withWeights weights).trace setup score n).map (withWeights [])
      = (p.trace setup score n).map (withWeights []) := by
  induction n generalizing p weights with
  | zero => rfl
  | succ n ih =>
    have place : (p.withWeights weights).place = p.place := rfl
    simp only [trace, place]
    cases hd : score[p.place.index]? with
    | none => rfl
    | some d =>
      obtain ⟨unheard, step⟩ := h.next hd setup
      simp only [step, List.map_cons, ih unheard]
      rfl

/-- Weights apart, a run plays the same directives from the same states, and ends in the same. -/
theorem run_eq (h : p.Unheard score weights) (setup : Setup) :
    ((p.withWeights weights).played setup score).map (Prod.map id (withWeights []))
        = (p.played setup score).map (Prod.map id (withWeights [])) ∧
      ((p.withWeights weights).run setup score).withWeights []
        = (p.run setup score).withWeights [] := by
  fun_induction run setup score p generalizing weights with
  | case1 p hd =>
    rw [played_of_end (p := p.withWeights weights) hd, run_of_end (p := p.withWeights weights) hd,
      played_of_end hd]
    exact ⟨rfl, rfl⟩
  | case2 p d hd hl =>
    rw [played_of_limitReached (p := p.withWeights weights) hl,
      run_of_limitReached (p := p.withWeights weights) hl, played_of_limitReached hl]
    exact ⟨rfl, rfl⟩
  | case3 p d hd hl ih =>
    have further := Bool.eq_false_iff.mpr hl
    obtain ⟨unheard, step⟩ := h.next hd setup
    obtain ⟨played, run⟩ := ih unheard
    rw [played_of_step (p := p.withWeights weights) hd further,
      run_of_step (p := p.withWeights weights) hd further, played_of_step hd further, step,
      List.map_cons, played]
    exact ⟨rfl, run⟩

/-- Behind a directive with weights nothing is left of the others. -/
theorem run_harmony (h : p.Unheard score weights) (setup : Setup)
    {before after : List (Directive × Performance α)} {q : Performance α} {w : Decimal}
    {ws : List Decimal}
    (sets : p.played setup score = before ++ (.harmony (w :: ws), q) :: after) :
    ((p.withWeights weights).played setup score).drop (before.length + 1) = after ∧
      (p.withWeights weights).run setup score = p.run setup score := by
  fun_induction run setup score p generalizing weights before with
  | case1 p hd => simp [played_of_end hd] at sets
  | case2 p d hd hl => simp [played_of_limitReached hl] at sets
  | case3 p d hd hl ih =>
    have further := Bool.eq_false_iff.mpr hl
    rw [played_of_step hd further] at sets
    rw [played_of_step (p := p.withWeights weights) hd further,
      run_of_step (p := p.withWeights weights) hd further, List.drop_succ_cons]
    cases before with
    | nil =>
      obtain ⟨here, rfl⟩ := List.cons.inj sets
      obtain ⟨rfl, rfl⟩ := Prod.mk.inj here
      rw [step_harmony]
      exact ⟨rfl, rfl⟩
    | cons play before =>
      obtain ⟨unheard, step⟩ := h.next hd setup
      rw [step]
      exact ih unheard (List.cons.inj sets).2

end Unheard

/-- **Weights left by an earlier voice are never heard.** Where a `;` comes next, other weights
change nothing but themselves: whatever is played from there on, in a run or past its limit, with
any number of repeats and back across the `;` as well, is played from states that are the same
weights apart, and the run ends in one that is. Once a directive has set weights, all is the
same. -/
theorem leftover_unheard (next : score[p.place.index]? = some .voiceReset) (setup : Setup)
    (weights : List α) :
    let q := p.withWeights weights
    (∀ n, (q.trace setup score n).map (withWeights [])
        = (p.trace setup score n).map (withWeights [])) ∧
      (q.played setup score).map (Prod.map id (withWeights []))
        = (p.played setup score).map (Prod.map id (withWeights [])) ∧
      (q.run setup score).withWeights [] = (p.run setup score).withWeights [] ∧
      ∀ before after r w ws,
        p.played setup score = before ++ (.harmony (w :: ws), r) :: after →
          (q.played setup score).drop (before.length + 1) = after ∧
            q.run setup score = p.run setup score := by
  have unheard : p.Unheard score weights := .inr next
  obtain ⟨played, run⟩ := unheard.run_eq setup
  exact ⟨unheard.trace_eq setup, played, run, fun _ _ _ _ _ sets => unheard.run_harmony setup sets⟩

/-- It holds of a voice that plays a note before it sets weights, and one after that. -/
theorem leftover_unheard_twoNotes :
    let score : List Directive :=
      [.harmony [⟨100, 0⟩, ⟨50, 0⟩], .voiceReset, .note ⟨.c, .natural⟩ none, .harmony [⟨100, 0⟩],
        .note ⟨.c, .natural⟩ none]
    let p : Performance Float :=
      (start (.ofSeed 0)).step ⟨8, none⟩ (.harmony [⟨100, 0⟩, ⟨50, 0⟩])
    score[p.place.index]? = some .voiceReset ∧
      (∃ before after r,
        p.played ⟨8, none⟩ score = before ++ (.harmony [⟨100, 0⟩], r) :: after) ∧
      (p.withWeights [7]).run ⟨8, none⟩ score = p.run ⟨8, none⟩ score := by
  intro score p
  have next : score[p.place.index]? = some .voiceReset := rfl
  let first := p.step ⟨8, none⟩ .voiceReset
  let second := first.step ⟨8, none⟩ (.note ⟨.c, .natural⟩ none)
  let third := second.step ⟨8, none⟩ (.harmony [⟨100, 0⟩])
  have sets : p.played ⟨8, none⟩ score
      = [(.voiceReset, p), (.note ⟨.c, .natural⟩ none, first)]
        ++ (.harmony [⟨100, 0⟩], second) :: [(.note ⟨.c, .natural⟩ none, third)] := by
    rw [played_of_step next rfl, played_of_step (p := first) rfl rfl,
      played_of_step (p := second) rfl rfl, played_of_step (p := third) rfl rfl, played_of_end rfl]
    rfl
  obtain ⟨-, -, -, harmony⟩ := leftover_unheard next ⟨8, none⟩ [7]
  exact ⟨next, ⟨_, _, _, sets⟩, (harmony _ _ _ _ _ sets).2⟩

end Performance

end Chiptune
