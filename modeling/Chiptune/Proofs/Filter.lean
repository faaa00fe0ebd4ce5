import Chiptune.Proofs.Exact
import Chiptune.Proofs.Signal

/-!
# What filters let through

* `Filter.recurs_through`: a filter is its difference equation. The registers hold the last two
  inputs and outputs (`Filter.Remembers`), and every sample keeps them up to date.
* `Coefficients.IsStable`, `Coefficients.IsNormalised`: both poles lie inside the unit circle, and
  what is not to be attenuated is let through as it is. The clamp keeps the angle of the cutoff
  between zero and half a turn, where this holds of every coefficient that is divided by the same
  `a0`.
* `Effect.ofResonance_isStable`: so it is for all parameters that the notation can give.
-/

namespace Chiptune

/-! ## Difference equations -/

section

variable {α : Type} [Scalar α]

/-- The entry of `l` that comes `k` places before the place `n`; zero before the first one. -/
def past (l : List α) (n k : Nat) : α := if k ≤ n then l.getD (n - k) 0 else 0

theorem past_append {l : List α} {n k : Nat} (le : n ≤ l.length) (pos : 1 ≤ k) (l' : List α) :
    past (l ++ l') n k = past l n k := by
  unfold past
  split
  · exact List.getD_append _ _ _ _ (by omega)
  · rfl

theorem past_one (l : List α) (x : α) : past (l ++ [x]) (l ++ [x]).length 1 = x := by
  simp [past]

/-- What was one place back is two places back when an entry is appended. -/
theorem past_two (l : List α) (x : α) :
    past (l ++ [x]) (l ++ [x]).length 2 = past l l.length 1 := by
  have before : (l ++ [x]).length - 2 = l.length - 1 := by rw [List.length_append]; rfl
  have some : 2 ≤ (l ++ [x]).length ↔ 1 ≤ l.length := by
    rw [List.length_append]
    exact Nat.succ_le_succ_iff
  unfold past
  rw [before]
  split
  · rename_i long
    rw [if_pos (some.mp long), List.getD_append _ _ _ _ (by have := some.mp long; omega)]
  · rename_i short
    rw [if_neg (mt some.mpr short)]

/-- Each output is made of the inputs up to that place and of the last two outputs. -/
structure Coefficients.Recurs (c : Coefficients α) (xs ys : List α) : Prop where
  length_eq : ys.length = xs.length
  each : ∀ n x, xs[n]? = some x →
    ys[n]? = some (c.b0 * x + c.b1 * past xs n 1 + c.b2 * past xs n 2
      - c.a1 * past ys n 1 - c.a2 * past ys n 2)

namespace Filter

/-- A filter that was fresh and has put out `ys` for `xs`. -/
structure Remembers (c : Coefficients α) (xs ys : List α) (f : Filter α) : Prop where
  coefficients : f.coefficients = c
  x1 : f.x1 = past xs xs.length 1
  x2 : f.x2 = past xs xs.length 2
  y1 : f.y1 = past ys ys.length 1
  y2 : f.y2 = past ys ys.length 2

variable {c : Coefficients α} {xs ys : List α} {f : Filter α}

theorem remembers_fresh (band : Band) (cutoff q : α) (rate : Nat) :
    Remembers (fresh band cutoff q rate).coefficients [] [] (fresh band cutoff q rate) :=
  ⟨rfl, rfl, rfl, rfl, rfl⟩

/-- **Every sample moves the registers on.** -/
theorem Remembers.apply (h : Remembers c xs ys f) (x : α) :
    Remembers c (xs ++ [x]) (ys ++ [(f.apply x).1]) (f.apply x).2 where
  coefficients := h.coefficients
  x1 := (past_one xs x).symm
  x2 := by rw [past_two]; exact h.x1
  y1 := (past_one ys _).symm
  y2 := by rw [past_two]; exact h.y1

/-- The next output is that of the difference equation. -/
theorem Remembers.output (h : Remembers c xs ys f) (recurs : c.Recurs xs ys) (x : α) :
    c.Recurs (xs ++ [x]) (ys ++ [(f.apply x).1]) where
  length_eq := by rw [List.length_append, List.length_append, recurs.length_eq]; rfl
  each n y hy := by
    have same := recurs.length_eq
    have bound := (List.getElem?_eq_some_iff.mp hy).1
    rw [List.length_append, List.length_singleton] at bound
    rcases Nat.lt_or_ge n xs.length with lt | ge
    · rw [List.getElem?_append_left lt] at hy
      rw [List.getElem?_append_left (by omega), past_append (by omega) (by omega),
        past_append (by omega) (by omega), past_append (by omega) (by omega),
        past_append (by omega) (by omega)]
      exact recurs.each n y hy
    · obtain rfl : n = xs.length := by omega
      rw [List.getElem?_concat_length, Option.some_inj] at hy
      subst hy
      have last : ys.length = xs.length := same
      rw [past_append le_rfl (by omega), past_append le_rfl (by omega),
        past_append (by omega) (by omega), past_append (by omega) (by omega), ← last,
        List.getElem?_concat_length, Filter.apply, Filter.output, h.coefficients, h.x1, h.x2, h.y1,
        h.y2, last]

/-- **A filter is its difference equation.** -/
theorem recurs_through (h : Remembers c xs ys f) (recurs : c.Recurs xs ys) (later : List α) :
    c.Recurs (xs ++ later) (ys ++ ((Effect.filter f).through later).1) := by
  induction later generalizing xs ys f with
  | nil => simpa [Effect.through] using recurs
  | cons x later ih =>
    have rest := ih (h.apply x) (h.output recurs x)
    rw [List.append_assoc, List.append_assoc, List.singleton_append, List.singleton_append] at rest
    exact rest

end Filter

end

/-! ## Poles and gain -/

open Exact

/-- A quadratic with real coefficients in this triangle has both roots inside the unit circle. -/
theorem norm_lt_one_of_root {a b : ℝ} (product : |b| < 1) (sum : |a| < 1 + b) {z : ℂ}
    (root : z ^ 2 + a * z + b = 0) : ‖z‖ < 1 := by
  obtain ⟨x, y⟩ := z
  obtain ⟨-, small⟩ := abs_lt.mp product
  obtain ⟨low, high⟩ := abs_lt.mp sum
  have re : x ^ 2 - y ^ 2 + a * x + b = 0 := by
    have re := congrArg Complex.re root
    simp [pow_two] at re
    linarith
  have im : y * (2 * x + a) = 0 := by
    have im := congrArg Complex.im root
    simp [pow_two] at im
    linarith
  have square : x ^ 2 + y ^ 2 < 1 := by
    rcases mul_eq_zero.mp im with rfl | conjugate
    · -- Both roots are real. Were one of them outside, the other one would be too.
      obtain ⟨w, other⟩ : ∃ w, w = -a - x := ⟨_, rfl⟩
      have both : x * w = b := by rw [other]; linarith
      have right : 0 < (1 - x) * (1 - w) := by rw [other] at both ⊢; linarith
      have left : 0 < (1 + x) * (1 + w) := by rw [other] at both ⊢; linarith
      rcases mul_pos_iff.mp right with ⟨below, -⟩ | ⟨beyond, beyond'⟩
      · rcases mul_pos_iff.mp left with ⟨above, -⟩ | ⟨beyond, beyond'⟩
        · nlinarith
        · linarith [mul_pos_of_neg_of_neg beyond beyond']
      · linarith [mul_pos_of_neg_of_neg beyond beyond']
    · -- The other root is the conjugate, and their product is `b`.
      have double : a = -2 * x := by linarith
      rw [double] at re
      linarith
  rw [← sq_lt_one_iff₀ (norm_nonneg _), Complex.sq_norm, Complex.normSq_mk]
  linarith

namespace Coefficients

/-- How a filter depends on the angle of its cutoff and on its bandwidth. -/
noncomputable def shaped (band : Band) (cosine bandwidth : ℝ) : Coefficients ℝ :=
  let a0 := 1 + bandwidth
  match band with
  | .lowPass =>
    ⟨(1 - cosine) / 2 / a0, (1 - cosine) / a0, (1 - cosine) / 2 / a0, -2 * cosine / a0,
      (1 - bandwidth) / a0⟩
  | .highPass =>
    ⟨-(-(1 + cosine)) / 2 / a0, -(1 + cosine) / a0, -(-(1 + cosine)) / 2 / a0, -2 * cosine / a0,
      (1 - bandwidth) / a0⟩

theorem of_eq (band : Band) (cutoff q rate : ℝ) :
    Coefficients.of band cutoff q rate
      = shaped band (Real.cos (2 * Real.pi * cutoff / rate))
          (Real.sin (2 * Real.pi * cutoff / rate) / (2 * q)) := by
  cases band <;> rw [shaped, ← one_eq] <;> rfl

/-! ### Stability -/

/-- The denominator of the transfer function, times `z ^ 2`. Its roots are the poles. -/
noncomputable def denominator (c : Coefficients ℝ) (z : ℂ) : ℂ := z ^ 2 + c.a1 * z + c.a2

/-- The numerator, times `z ^ 2`. -/
noncomputable def numerator (c : Coefficients ℝ) (z : ℂ) : ℂ := c.b0 * z ^ 2 + c.b1 * z + c.b2

/-- What a filter answers dies away. -/
structure IsStable (c : Coefficients ℝ) : Prop where
  product : |c.a2| < 1
  sum : |c.a1| < 1 + c.a2
  /-- Both poles lie strictly inside the unit circle. -/
  poles : ∀ z, c.denominator z = 0 → ‖z‖ < 1

/-- The factor by which a vibration that goes on for ever is changed, where it turns by `z` from one
sample to the next. -/
noncomputable def transfer (c : Coefficients ℝ) (z : ℂ) : ℂ := c.numerator z / c.denominator z

/-- That factor for a vibration of some frequency. -/
noncomputable def response (c : Coefficients ℝ) (rate : ℕ) (frequency : ℝ) : ℂ :=
  c.transfer (Complex.exp ((2 * Real.pi * frequency / rate : ℝ) * Complex.I))

/-- The band is let through as it is at its far end, and nothing is at the other end. -/
def IsNormalised (c : Coefficients ℝ) (rate : ℕ) : Band → Prop
  | .lowPass => c.response rate 0 = 1 ∧ c.response rate (rate / 2) = 0
  | .highPass => c.response rate 0 = 0 ∧ ‖c.response rate (rate / 2)‖ = 1

variable {c : Coefficients ℝ}

theorem IsStable.denominator_ne_zero (h : c.IsStable) {z : ℂ} (unit : ‖z‖ = 1) :
    c.denominator z ≠ 0 :=
  fun root => (h.poles z root).ne unit

/-- A vibration that has gone on for ever comes out as itself, times the transfer factor: this is a
solution of the difference equation. -/
theorem IsStable.transfer_steady (h : c.IsStable) {z : ℂ} (unit : ‖z‖ = 1) (n : ℕ) :
    c.transfer z * z ^ (n + 2)
      = c.b0 * z ^ (n + 2) + c.b1 * z ^ (n + 1) + c.b2 * z ^ n
        - c.a1 * (c.transfer z * z ^ (n + 1)) - c.a2 * (c.transfer z * z ^ n) := by
  have quotient : c.transfer z * c.denominator z = c.numerator z :=
    div_mul_cancel₀ _ (h.denominator_ne_zero unit)
  rw [denominator, numerator] at quotient
  linear_combination z ^ n * quotient

theorem response_zero (c : Coefficients ℝ) (rate : ℕ) : c.response rate 0 = c.transfer 1 := by
  simp [response]

theorem response_half (c : Coefficients ℝ) {rate : ℕ} (pos : 0 < rate) :
    c.response rate (rate / 2) = c.transfer (-1) := by
  have turn : 2 * Real.pi * (rate / 2) / rate = Real.pi := by
    have nonzero : (rate : ℝ) ≠ 0 := Nat.cast_ne_zero.mpr pos.ne'
    field_simp
  rw [response, turn, Complex.exp_pi_mul_I]

/-- **All coefficients of an angle strictly between zero and half a turn are stable.** -/
theorem isStable_shaped (band : Band) {cosine bandwidth : ℝ} (turned : |cosine| < 1)
    (wide : 0 < bandwidth) : (shaped band cosine bandwidth).IsStable := by
  obtain ⟨low, high⟩ := abs_lt.mp turned
  have pos : 0 < 1 + bandwidth := by linarith
  have a1 : (shaped band cosine bandwidth).a1 = -2 * cosine / (1 + bandwidth) := by
    cases band <;> rfl
  have a2 : (shaped band cosine bandwidth).a2 = (1 - bandwidth) / (1 + bandwidth) := by
    cases band <;> rfl
  have product : |(shaped band cosine bandwidth).a2| < 1 := by
    rw [a2, abs_div, abs_of_pos pos, div_lt_one pos, abs_lt]
    exact ⟨by linarith, by linarith⟩
  have sum : |(shaped band cosine bandwidth).a1| < 1 + (shaped band cosine bandwidth).a2 := by
    have whole : 1 + (1 - bandwidth) / (1 + bandwidth) = 2 / (1 + bandwidth) := by
      field_simp
      ring
    rw [a1, a2, whole, abs_div, abs_of_pos pos, div_lt_div_iff_of_pos_right pos, abs_lt]
    exact ⟨by linarith, by linarith⟩
  exact ⟨product, sum, fun z root => norm_lt_one_of_root product sum root⟩

/-- **What is not to be attenuated is let through as it is**, and the other end is taken away. -/
theorem isNormalised_shaped (band : Band) {cosine bandwidth : ℝ} (turned : |cosine| < 1)
    (wide : 0 < bandwidth) {rate : ℕ} (pos : 0 < rate) :
    (shaped band cosine bandwidth).IsNormalised rate band := by
  have stable := isStable_shaped band turned wide
  have nonzero := stable.denominator_ne_zero norm_one
  have nonzero' := stable.denominator_ne_zero ((norm_neg _).trans norm_one)
  have divisor : (1 + bandwidth : ℂ) ≠ 0 := by exact_mod_cast (by linarith : 1 + bandwidth ≠ 0)
  cases band with
  | lowPass =>
    constructor
    · rw [response_zero, transfer, div_eq_one_iff_eq nonzero, numerator, denominator, shaped]
      push_cast
      field_simp
      ring
    · rw [response_half _ pos, transfer, numerator, div_eq_zero_iff, shaped]
      left
      push_cast
      field_simp
      ring
  | highPass =>
    constructor
    · rw [response_zero, transfer, numerator, div_eq_zero_iff, shaped]
      left
      push_cast
      field_simp
      ring
    · have whole : (shaped .highPass cosine bandwidth).transfer (-1) = 1 := by
        rw [transfer, div_eq_one_iff_eq nonzero', numerator, denominator, shaped]
        push_cast
        field_simp
        ring
      rw [response_half _ pos, whole, norm_one]

end Coefficients

/-! ## Filters of the notation -/

namespace Filter

theorem cutoff_fresh (band : Band) (cutoff q : ℝ) (rate : ℕ) :
    (fresh band cutoff q rate).cutoff = max (min cutoff (rate * (49 / 100))) 1 := by
  have literal : (Scalar.ofDecimal ⟨49, 2⟩ : ℝ) = 49 / 100 := by norm_num [Scalar.ofDecimal]
  rw [← one_eq, ← literal, ← least_eq, ← greatest_eq]
  rfl

/-- The angle of the cutoff is strictly between zero and half a turn. -/
theorem angle_mem (band : Band) (cutoff q : ℝ) {rate : ℕ} (enough : 3 ≤ rate) :
    0 < 2 * Real.pi * (fresh band cutoff q rate).cutoff / rate ∧
      2 * Real.pi * (fresh band cutoff q rate).cutoff / rate < Real.pi := by
  have rate_le : (3 : ℝ) ≤ rate := by exact_mod_cast enough
  have low : 1 ≤ (fresh band cutoff q rate).cutoff := by
    rw [cutoff_fresh]
    exact le_max_right ..
  have high : (fresh band cutoff q rate).cutoff ≤ rate * (49 / 100) := by
    rw [cutoff_fresh]
    exact max_le (min_le_right ..) (by linarith)
  have turn := Real.pi_pos
  constructor
  · positivity
  · rw [div_lt_iff₀ (by linarith)]
    nlinarith

/-- The coefficients of a filter are those of an angle that is neither zero nor half a turn. -/
theorem coefficients_fresh (band : Band) (cutoff : ℝ) {q : ℝ} (pos : 0 < q) {rate : ℕ}
    (enough : 3 ≤ rate) :
    ∃ cosine bandwidth, |cosine| < 1 ∧ 0 < bandwidth ∧
      (fresh band cutoff q rate).coefficients = Coefficients.shaped band cosine bandwidth := by
  obtain ⟨above, below⟩ := angle_mem band cutoff q enough
  have sine := Real.sin_pos_of_pos_of_lt_pi above below
  refine ⟨_, _, ?_, div_pos sine (mul_pos two_pos pos),
    Coefficients.of_eq band (fresh band cutoff q rate).cutoff q rate⟩
  rw [← sq_lt_one_iff_abs_lt_one, Real.cos_sq']
  linarith [pow_pos sine 2]

end Filter

/-- **Filters are stable and let through what they should.** Whatever cutoff and resonance the
notation gives, at a rate of at least three samples per second both poles of a filter lie strictly
inside the unit circle; a low-pass filter lets the frequency zero through as it is and takes half
the rate away, and a high-pass filter does the reverse. From its first sample on the filter is the
difference equation of its coefficients. -/
theorem Effect.ofResonance_isStable (band : Band) (cutoff : ℝ) {resonance : ℝ}
    (nonneg : 0 ≤ resonance) {rate : ℕ} (enough : 3 ≤ rate) :
    ∃ f : Filter ℝ, ofResonance band cutoff resonance rate = .filter f ∧
      f.coefficients.IsStable ∧ f.coefficients.IsNormalised rate band ∧
      ∀ xs, f.coefficients.Recurs xs ((ofResonance band cutoff resonance rate).through xs).1 := by
  have pos : 0 < resonance / (100 : ℕ) + √(1 / 2) := by positivity
  obtain ⟨cosine, bandwidth, turned, wide, shaped⟩ :=
    Filter.coefficients_fresh band cutoff pos enough
  refine ⟨_, rfl, ?_, ?_, fun xs => ?_⟩
  · exact shaped ▸ Coefficients.isStable_shaped band turned wide
  · exact shaped ▸ Coefficients.isNormalised_shaped band turned wide (by omega)
  · exact Filter.recurs_through (Filter.remembers_fresh ..) ⟨rfl, by simp⟩ xs

/-- At three samples per second a cutoff far above the rate is kept below half of it. -/
theorem Effect.ofResonance_isStable_lowRate :
    (0 : ℝ) ≤ 50 ∧ 3 ≤ 3 ∧
      ∃ f : Filter ℝ, ofResonance .lowPass 10000 50 3 = .filter f ∧ f.coefficients.IsStable ∧
        f.coefficients.IsNormalised 3 .lowPass ∧
        f.coefficients.Recurs [1, 0, 0]
          ((ofResonance .lowPass (10000 : ℝ) 50 3).through [1, 0, 0]).1 := by
  have nonneg : (0 : ℝ) ≤ 50 := by norm_num
  obtain ⟨f, made, stable, normalised, recurs⟩ :=
    ofResonance_isStable .lowPass 10000 nonneg (le_refl 3)
  exact ⟨nonneg, le_refl 3, f, made, stable, normalised, recurs _⟩

end Chiptune
