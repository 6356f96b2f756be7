import Mathlib.Algebra.Order.Ring.Nat

/-!
# A slow counter measured by polling

A counter that ticks every `T` cycles shows `(j + φ) / T` in cycle `j`. Nobody sees the
tick itself; a poll only finds the counter changed since the poll before, so the tick lies
between the two (`tick_between`), and every cycle between them is as good a guess of it as
any other (`guess_le`, `le_guess`). A rate computed from two such guesses is off by their
errors, divided by the number of ticks in between (`rate_le`, `le_rate`).

`FirstAfter` is where a polling loop ends: the first index behind `a` with some property.
-/

namespace Ticks

/-! ## Polling loops -/

/-- `b` is the first index behind `a` for which `P` holds. -/
structure FirstAfter (P : Nat → Prop) (a b : Nat) : Prop where
  lt : a < b
  holds : P b
  before : ∀ j, a < j → j < b → ¬P j

theorem FirstAfter.eq {P : Nat → Prop} {a b b' : Nat} (h : FirstAfter P a b)
    (h' : FirstAfter P a b') : b = b' := by
  rcases Nat.lt_trichotomy b b' with hlt | heq | hgt
  · exact absurd h.holds (h'.before b h.lt hlt)
  · exact heq
  · exact absurd h'.holds (h.before b' h'.lt hgt)

/-- The index before the first is `a` itself or has not got the property. -/
theorem FirstAfter.pred {P : Nat → Prop} {a b : Nat} (h : FirstAfter P a b) :
    b - 1 = a ∨ ¬P (b - 1) := by
  have hlt := h.lt
  rcases Nat.eq_or_lt_of_le (Nat.le_sub_one_of_lt hlt) with heq | hbehind
  · exact Or.inl heq.symm
  · exact Or.inr (h.before (b - 1) hbehind (by omega))

/-- A poll that did not end the loop moves its start. -/
theorem FirstAfter.step {P : Nat → Prop} {a b : Nat} (h : FirstAfter P (a + 1) b)
    (ha : ¬P (a + 1)) : FirstAfter P a b := by
  refine ⟨Nat.lt_of_succ_lt h.lt, h.holds, fun j hj hjb => ?_⟩
  rcases Nat.eq_or_lt_of_le (Nat.succ_le_of_lt hj) with rfl | hlt
  · exact ha
  · exact h.before j hlt hjb

theorem firstAfter_succ {P : Nat → Prop} {a : Nat} (h : P (a + 1)) : FirstAfter P a (a + 1) :=
  ⟨Nat.lt_succ_self a, h, fun _ hj hjb => absurd hjb (Nat.not_lt.mpr (Nat.succ_le_of_lt hj))⟩

/-! ## Guessing a tick -/

variable {T φ M q q' p D : Nat}

/-- The tick to `M` lies between two polls that see the counter before and behind it. -/
theorem tick_between (hT : 0 < T) (hbefore : (q + φ) / T < M) (hbehind : M ≤ (q' + φ) / T) :
    q + φ < T * M ∧ T * M ≤ q' + φ := by
  constructor
  · rw [Nat.mul_comm]
    exact (Nat.div_lt_iff_lt_mul hT).mp hbefore
  · rw [Nat.mul_comm]
    exact (Nat.le_div_iff_mul_le hT).mp hbehind

/-- A cycle `p` between two polls at most `D` apart is at most `D` behind the tick. -/
theorem guess_le (htick : q + φ < T * M ∧ T * M ≤ q' + φ) (hp : p ≤ q') (hD : q' ≤ q + D) :
    p + φ ≤ T * M + D := by omega

/-- And a cycle `p` behind the first of the two polls is at most `D` before the tick. -/
theorem le_guess (htick : q + φ < T * M ∧ T * M ≤ q' + φ) (hp : q ≤ p) (hD : q' ≤ q + D) :
    T * M ≤ p + φ + D := by omega

/-! ## The rate -/

variable {m n c e r : Nat}

/-- `c` cycles were counted in `m` ticks, too many by at most `e`. -/
theorem rate_le (hn : 0 < n) (hm : n ≤ m) (h : c ≤ T * m + e) :
    c * r / m ≤ T * r + e * r / n := by
  have hpos : 0 < m := Nat.lt_of_lt_of_le hn hm
  calc c * r / m ≤ (T * m + e) * r / m := Nat.div_le_div_right (Nat.mul_le_mul_right r h)
    _ = (e * r + m * (T * r)) / m := by
      rw [Nat.add_mul, Nat.mul_comm T m, Nat.mul_assoc, Nat.add_comm]
    _ = e * r / m + T * r := Nat.add_mul_div_left _ _ hpos
    _ ≤ T * r + e * r / n := by
      rw [Nat.add_comm]
      exact Nat.add_le_add_left (Nat.div_le_div_left hm hn) _

/-- If the count is too small by at most `e`, the rate is too small by what `e` adds to it and one
for rounding. -/
theorem le_rate (hn : 0 < n) (hm : n ≤ m) (h : T * m ≤ c + e) :
    T * r ≤ c * r / m + e * r / n + 1 := by
  have hpos : 0 < m := Nat.lt_of_lt_of_le hn hm
  have hmul : m * (T * r) ≤ c * r + e * r := by
    rw [← Nat.add_mul, ← Nat.mul_assoc, Nat.mul_comm m T]
    exact Nat.mul_le_mul_right r h
  have hle : e * r / m ≤ e * r / n := Nat.div_le_div_left hm hn
  have hc := Nat.lt_mul_div_succ (c * r) hpos
  have he := Nat.lt_mul_div_succ (e * r) hpos
  have hlt : m * (T * r) < m * (c * r / m + 1 + (e * r / m + 1)) := by
    rw [Nat.mul_add]
    omega
  have hcancel := Nat.lt_of_mul_lt_mul_left hlt
  omega

end Ticks
