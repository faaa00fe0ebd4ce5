import Mathlib.Logic.Relation
import Chiptune.Performance.Basic

/-!
# Runs

What holds of everything that a performance comes to, and of where it ends.

* `Reached setup score p q`: playing directives brings `p` to `q`. The limit cuts notes and rests
  short, but it does not stop this: `Performance.run` stops at the limit, a caller that steps by
  itself need not.
* `RunsTo setup score p q`: the same as `run` does it. No directive is played at the limit, and
  nothing of the score is left to play in `q`. `runsTo_run`: every run ends.
* `Reached.invariant`: what every directive keeps holds of everything that is reached.
* `playAll`: directives played one after the other, without a place. Repeats apart, a run is
  nothing else (`Performance.run_eq_playAll` in `Proofs/WrittenOut`).
-/

namespace Chiptune.Performance

variable {α : Type}

/-- The performance as it is, at another place. -/
def moveTo (place : Place) (p : Performance α) : Performance α := { p with place }

@[simp] theorem place_moveTo (place : Place) (p : Performance α) :
    (p.moveTo place).place = place := rfl

variable [Scalar α] {setup : Setup} {score : List Directive} {p q : Performance α}

/-- `q` is `p` after the directive at its place. -/
def Next (setup : Setup) (score : List Directive) (p q : Performance α) : Prop :=
  ∃ d, score[p.place.index]? = some d ∧ q = p.step setup d

/-- `p` comes to `q` by playing directives, at the limit and past it as well. -/
def Reached (setup : Setup) (score : List Directive) : Performance α → Performance α → Prop :=
  Relation.ReflTransGen (Next setup score)

/-- Nothing more is played: the score is over or the limit is reached. -/
def Over (setup : Setup) (score : List Directive) (p : Performance α) : Prop :=
  score[p.place.index]? = none ∨ p.limitReached setup = true

/-- `p` ends in `q` after finitely many directives, none of them played at the limit. -/
def RunsTo (setup : Setup) (score : List Directive) (p q : Performance α) : Prop :=
  Relation.ReflTransGen (fun p q => p.limitReached setup = false ∧ Next setup score p q) p q ∧
    q.Over setup score

/-- **Every run ends**, with nothing left to play. -/
theorem runsTo_run (setup : Setup) (score : List Directive) (p : Performance α) :
    p.RunsTo setup score (p.run setup score) := by
  fun_induction run setup score p with
  | case1 p h => exact ⟨.refl, .inl h⟩
  | case2 p d _ hl => exact ⟨.refl, .inr hl⟩
  | case3 p d hd hl ih =>
    obtain ⟨steps, finished⟩ := ih
    exact ⟨.head ⟨by simpa using hl, d, hd, rfl⟩ steps, finished⟩

theorem RunsTo.reached (h : p.RunsTo setup score q) : p.Reached setup score q :=
  Relation.ReflTransGen.mono (fun _ _ step => step.2) p q h.1

/-- What a directive keeps holds of everything that is reached. -/
theorem Reached.invariant {I : Performance α → Prop} (h : p.Reached setup score q)
    (keep : ∀ d p, score[p.place.index]? = some d → I p → I (p.step setup d)) (hp : I p) : I q := by
  induction h with
  | refl => exact hp
  | tail _ next ih =>
    obtain ⟨d, hd, rfl⟩ := next
    exact keep d _ hd ih

/-! ## Playing without a place -/

theorem step_eq_moveTo (d : Directive) (p : Performance α) :
    p.step setup d = (p.play setup d).moveTo (p.place.advance d) := by
  simp [step, moveTo]

end Chiptune.Performance
