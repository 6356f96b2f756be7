import Mathlib.Algebra.Group.Nat.Defs

/-!
# Functions linear over exclusive or

A function of a bit vector that takes exclusive or to exclusive or is given by its values
on the vectors with one bit set (`Linear.ext`). A function to one bit is then a parity
check: the parity of those bits at which it is set.
-/

namespace XorLinear

variable {n : Nat}

/-- A function to one bit that is linear over exclusive or. -/
def Linear (f : BitVec n → Bool) : Prop := ∀ a b, f (a ^^^ b) = (f a ^^ f b)

/-- Whether an odd number of the low `k` bits is set. -/
def parityTo (v : BitVec n) : Nat → Bool
  | 0 => false
  | k + 1 => parityTo v k ^^ v.getLsbD k

def parity (v : BitVec n) : Bool := parityTo v n

theorem Linear.zero {f : BitVec n → Bool} (hf : Linear f) : f 0#n = false := by
  have h := hf 0#n 0#n
  rw [BitVec.xor_self, Bool.xor_self] at h
  exact h

theorem parityTo_xor (a b : BitVec n) (k : Nat) :
    parityTo (a ^^^ b) k = (parityTo a k ^^ parityTo b k) := by
  induction k with
  | zero => rfl
  | succ k ih =>
    unfold parityTo
    rw [ih, BitVec.getLsbD_xor]
    cases parityTo a k <;> cases parityTo b k <;> cases a.getLsbD k <;> cases b.getLsbD k <;> rfl

/-- A parity check. -/
theorem linear_parity (mask : BitVec n) : Linear fun v => parity (mask &&& v) := by
  intro a b
  have hdistrib : mask &&& (a ^^^ b) = (mask &&& a) ^^^ (mask &&& b) := by
    apply BitVec.eq_of_getLsbD_eq
    intro i _
    rw [BitVec.getLsbD_and, BitVec.getLsbD_xor, BitVec.getLsbD_xor, BitVec.getLsbD_and,
      BitVec.getLsbD_and]
    cases mask.getLsbD i <;> cases a.getLsbD i <;> cases b.getLsbD i <;> rfl
  show parity (mask &&& (a ^^^ b)) = _
  rw [hdistrib]
  exact parityTo_xor _ _ n

/-- The low `k` bits of a vector, with all others cleared. -/
def low (v : BitVec n) (k : Nat) : BitVec n := v &&& BitVec.ofNat n (2 ^ k - 1)

theorem getLsbD_low (v : BitVec n) (k : Nat) {i : Nat} (hi : i < n) :
    (low v k).getLsbD i = (v.getLsbD i && decide (i < k)) := by
  unfold low
  rw [BitVec.getLsbD_and, BitVec.getLsbD_ofNat, Nat.testBit_two_pow_sub_one, decide_eq_true hi,
    Bool.true_and]

/-- One more bit. -/
theorem low_succ (v : BitVec n) (k : Nat) :
    low v (k + 1) = low v k ^^^ (if v.getLsbD k then BitVec.twoPow n k else 0#n) := by
  apply BitVec.eq_of_getLsbD_eq
  intro i hi
  rw [BitVec.getLsbD_xor, getLsbD_low _ _ hi, getLsbD_low _ _ hi]
  rcases Nat.lt_trichotomy i k with h | h | h
  · have hbit : (if v.getLsbD k then BitVec.twoPow n k else 0#n).getLsbD i = false := by
      split
      · rw [BitVec.getLsbD_twoPow, decide_eq_false (show ¬k = i by omega), Bool.and_false]
      · exact BitVec.getLsbD_zero
    rw [hbit, decide_eq_true h, decide_eq_true (show i < k + 1 by omega), Bool.xor_false]
  · subst h
    have hbit : (if v.getLsbD i then BitVec.twoPow n i else 0#n).getLsbD i = v.getLsbD i := by
      split
      next hv =>
        rw [BitVec.getLsbD_twoPow, decide_eq_true hi, decide_eq_true rfl, hv]
        rfl
      next hv =>
        rw [BitVec.getLsbD_zero]
        exact (Bool.eq_false_iff.mpr hv).symm
    rw [hbit, decide_eq_true (Nat.lt_succ_self i), decide_eq_false (Nat.lt_irrefl i),
      Bool.and_true, Bool.and_false, Bool.false_xor]
  · have hbit : (if v.getLsbD k then BitVec.twoPow n k else 0#n).getLsbD i = false := by
      split
      · rw [BitVec.getLsbD_twoPow, decide_eq_false (show ¬k = i by omega), Bool.and_false]
      · exact BitVec.getLsbD_zero
    rw [hbit, decide_eq_false (show ¬i < k by omega), decide_eq_false (show ¬i < k + 1 by omega),
      Bool.and_false]
    rfl

/-- Linear functions that agree on the vectors with one bit set agree. -/
theorem Linear.ext {f g : BitVec n → Bool} (hf : Linear f) (hg : Linear g)
    (h : ∀ i < n, f (BitVec.twoPow n i) = g (BitVec.twoPow n i)) (v : BitVec n) : f v = g v := by
  have hlow : ∀ k ≤ n, f (low v k) = g (low v k) := by
    intro k
    induction k with
    | zero =>
      intro _
      have hzero : low v 0 = 0#n := by
        unfold low
        exact BitVec.and_zero
      rw [hzero, hf.zero, hg.zero]
    | succ k ih =>
      intro hk
      rw [low_succ, hf, hg, ih (by omega)]
      split
      · rw [h k (by omega)]
      · rw [hf.zero, hg.zero]
  have hall : low v n = v := by
    apply BitVec.eq_of_getLsbD_eq
    intro i hi
    rw [getLsbD_low v n hi, decide_eq_true hi, Bool.and_true]
  rw [← hall]
  exact hlow n (Nat.le_refl n)

end XorLinear
