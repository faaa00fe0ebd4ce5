import Chiptune.Notation.Scanner

/-!
# How much a text can say

A text has no more tokens than characters (`length_tokensFrom_le`), and no directive of it gives
more weights than that (`weights_le_of_mem`).
-/

namespace Chiptune

/-- The weights that a directive gives to the partials. -/
def Directive.weights : Directive → List Decimal
  | harmony weights => weights
  | _ => []

namespace Scanner

theorem length_tokensFrom_le (offset : Nat) (cs : List Char) :
    (tokensFrom offset cs).length ≤ cs.length := by
  fun_induction tokensFrom offset cs with
  | case1 => exact Nat.le_refl _
  | case2 offset c cs width others directive _ ih =>
    have tail : others.length ≤ (cs.drop width).length := ih
    simp only [List.length_drop, List.length_cons] at tail ⊢
    omega
  | case3 offset c cs width others _ ih =>
    have tail : others.length ≤ (cs.drop width).length := ih
    simp only [List.length_drop, List.length_cons] at tail ⊢
    omega

/-- Each further number has a comma of its own. -/
theorem length_furtherNumbers_le (cs : List Char) : (furtherNumbers cs).1.length ≤ cs.length := by
  induction cs using furtherNumbers.induct with
  | case1 tail hn =>
    rw [furtherNumbers, hn]
    exact Nat.zero_le _
  | case2 tail value width hn values more hm ih =>
    rw [hm, List.length_drop] at ih
    rw [furtherNumbers, hn]
    simp only [hm, List.length_cons] at ih ⊢
    omega
  | case3 cs hc =>
    rw [furtherNumbers.eq_2 cs hc]
    exact Nat.zero_le _

theorem length_numbers_le (cs : List Char) : (numbers cs).1.length ≤ cs.length + 1 := by
  unfold numbers
  cases number? cs with
  | none => exact Nat.zero_le _
  | some found =>
    have others := length_furtherNumbers_le (cs.drop found.2)
    rw [List.length_drop] at others
    simp only [List.length_cons]
    omega

theorem weights_atDirective_le {cs : List Char} {directive : Directive}
    (h : (atDirective cs).1 = some directive) : directive.weights.length ≤ cs.length := by
  unfold atDirective at h
  split at h
  · cases h; exact Nat.zero_le _
  · rename_i tail
    cases h
    exact length_numbers_le tail
  · cases h; exact Nat.zero_le _
  · obtain ⟨index, -, rfl⟩ := Option.map_eq_some_iff.mp h
    exact Nat.zero_le _

theorem weights_note (letter : Letter) (cs : List Char) : (note letter cs).1.weights = [] := by
  unfold note
  split <;> rfl

theorem weights_effect {cs : List Char} {directive : Directive}
    (h : (effect cs).1 = some directive) : directive.weights = [] := by
  unfold effect at h
  split at h
  · split at h <;> cases h
    rfl
  · cases h

theorem weights_withNumber {make : Decimal → Directive} (hm : ∀ value, (make value).weights = [])
    {cs : List Char} {directive : Directive} (h : (withNumber make cs).1 = some directive) :
    directive.weights = [] := by
  unfold withNumber at h
  split at h <;> cases h
  exact hm _

/-- Weights are only given behind an `@`. -/
theorem weights_lexeme_le {c : Char} {cs : List Char} {directive : Directive}
    (h : (lexeme c cs).1 = some directive) : directive.weights.length ≤ cs.length := by
  by_cases at_sign : c = '@'
  · subst at_sign
    exact weights_atDirective_le h
  suffices none : directive.weights = [] by rw [none]; exact Nat.zero_le _
  unfold lexeme at h
  split at h
  · cases h; exact weights_note _ cs
  · split at h
    · cases h; rfl
    · obtain ⟨length, -, rfl⟩ := Option.map_eq_some_iff.mp h; rfl
    · exact weights_withNumber (fun _ => rfl) h
    · exact weights_withNumber (fun _ => rfl) h
    · cases h; rfl
    · cases h; rfl
    · cases h; rfl
    · cases h; rfl
    · cases h; rfl
    · exact absurd rfl at_sign
    · exact weights_effect h
    · cases h

/-- No directive of a text gives more weights than the text has characters. -/
theorem weights_le_of_mem {offset : Nat} {cs : List Char} {token : Token}
    (h : token ∈ tokensFrom offset cs) : token.directive.weights.length ≤ cs.length := by
  fun_induction tokensFrom offset cs with
  | case1 => cases h
  | case2 offset c cs width others directive hd ih =>
    rcases List.mem_cons.mp h with rfl | h
    · exact Nat.le_succ_of_le (weights_lexeme_le (congrArg Prod.fst hd))
    · have tail := ih h
      simp only [List.length_drop, List.length_cons] at tail ⊢
      omega
  | case3 offset c cs width others _ ih =>
    have tail := ih h
    simp only [List.length_drop, List.length_cons] at tail ⊢
    omega

end Scanner

end Chiptune
