import Mathlib.Algebra.Group.Nat.Defs

/-!
# Numbers in two halves

A register too wide for the bus is accessed in two halves, at two times. If it changes in
between, the halves belong to two values: `torn w a b` has the high half of `a` and the low
half of `b`, in base `w`. A counter read high half first never comes out too large
(`torn_le`), and is whole if there was no carry (`torn_eq`). How a torn value compares with
another one is a comparison of halves (`le_torn_iff`, `lt_torn_iff`).

`join` puts two 32-bit words together; `wordHi` and `wordLo` take a number apart.
-/

namespace Halves

/-! ## In base `w` -/

/-- The high half of `a` and the low half of `b`. -/
def torn (w a b : Nat) : Nat := a / w * w + b % w

variable {w a b t : Nat}

theorem le_iff_halves (a b w : Nat) :
    a ≤ b ↔ a / w < b / w ∨ a / w = b / w ∧ a % w ≤ b % w := by
  have ha := Nat.div_add_mod a w
  have hb := Nat.div_add_mod b w
  rcases Nat.lt_trichotomy (a / w) (b / w) with hlt | heq | hgt
  · exact ⟨fun _ => Or.inl hlt, fun _ => Nat.le_of_lt (Nat.lt_of_div_lt_div hlt)⟩
  · rw [heq] at ha ⊢
    omega
  · have hba := Nat.lt_of_div_lt_div hgt
    omega

theorem lt_iff_halves (a b w : Nat) :
    a < b ↔ a / w < b / w ∨ a / w = b / w ∧ a % w < b % w := by
  have h := le_iff_halves b a w
  omega

theorem torn_div (hw : 0 < w) : torn w a b / w = a / w := by
  unfold torn
  rw [Nat.mul_comm, Nat.mul_add_div hw, Nat.div_eq_of_lt (Nat.mod_lt b hw), Nat.add_zero]

theorem torn_mod : torn w a b % w = b % w := by
  unfold torn
  rw [Nat.mul_add_mod_self_right, Nat.mod_mod]

/-- Without a carry in between the value is whole. -/
theorem torn_eq (h : a / w = b / w) : torn w a b = b := by
  unfold torn
  rw [h, Nat.mul_comm, Nat.div_add_mod]

theorem torn_le (h : a ≤ b) : torn w a b ≤ b := by
  have hhi : a / w * w ≤ b / w * w := Nat.mul_le_mul_right w (Nat.div_le_div_right h)
  have hb := Nat.div_add_mod b w
  rw [Nat.mul_comm] at hb
  unfold torn
  omega

theorem le_torn_iff (hw : 0 < w) :
    t ≤ torn w a b ↔ t / w < a / w ∨ t / w = a / w ∧ t % w ≤ b % w := by
  rw [le_iff_halves t _ w, torn_div hw, torn_mod]

theorem lt_torn_iff (hw : 0 < w) :
    t < torn w a b ↔ t / w < a / w ∨ t / w = a / w ∧ t % w < b % w := by
  rw [lt_iff_halves t _ w, torn_div hw, torn_mod]

/-- A counter that stands at `t` and is then read as `torn w a b` is read too low only behind
a carry. -/
theorem le_torn_counter_iff (hw : 0 < w) (hta : t ≤ a) (hab : a ≤ b) :
    t ≤ torn w a b ↔ a / w = b / w ∨ t / w < a / w ∨ t % w ≤ b % w := by
  have hta' := (le_iff_halves t a w).mp hta
  rw [le_torn_iff hw]
  constructor
  · rintro (hlt | ⟨-, hle⟩)
    · exact Or.inr (Or.inl hlt)
    · exact Or.inr (Or.inr hle)
  · rintro (hwhole | hlt | hle)
    · have htb := (le_iff_halves t b w).mp (Nat.le_trans hta hab)
      rwa [← hwhole] at htb
    · exact Or.inl hlt
    · exact hta'.imp_right fun h => ⟨h.1, hle⟩

/-- A number below `a` against a register whose high half is already that of `a`. -/
theorem lt_torn_below_iff (hw : 0 < w) (h : t < a) :
    t < torn w a b ↔ t / w < a / w ∨ t % w < b % w := by
  have hta := (lt_iff_halves t a w).mp h
  rw [lt_torn_iff hw]
  constructor
  · exact Or.imp_right And.right
  · rintro (hlt | hlow)
    · exact Or.inl hlt
    · exact hta.imp_right fun heq => ⟨heq.1, hlow⟩

/-! ## 32-bit words -/

/-- `((uint64_t)hi << 32) | (uint64_t)lo`, a doubleword from its two halves. -/
def join (hi lo : BitVec 32) : BitVec 64 := hi.setWidth 64 <<< 32 ||| lo.setWidth 64

def wordHi (t : Nat) : BitVec 32 := BitVec.ofNat 32 (t / 2 ^ 32)

def wordLo (t : Nat) : BitVec 32 := BitVec.ofNat 32 t

theorem toNat_join (hi lo : BitVec 32) : (join hi lo).toNat = hi.toNat * 2 ^ 32 + lo.toNat := by
  have hhi := hi.isLt
  unfold join
  rw [BitVec.toNat_or, BitVec.toNat_shiftLeft, BitVec.toNat_setWidth, BitVec.toNat_setWidth,
    Nat.mod_eq_of_lt (by omega), Nat.mod_eq_of_lt (by omega), Nat.shiftLeft_eq,
    Nat.mod_eq_of_lt (by omega), Nat.mul_comm]
  exact (Nat.two_pow_add_eq_or_of_lt lo.isLt _).symm

/-- Two numbers read in halves, at the width of the register. -/
theorem join_words (a b : Nat) :
    join (wordHi a) (wordLo b) = BitVec.ofNat 64 (torn (2 ^ 32) a b) := by
  apply BitVec.eq_of_toNat_eq
  rw [toNat_join]
  unfold wordHi wordLo torn
  rw [BitVec.toNat_ofNat, BitVec.toNat_ofNat, BitVec.toNat_ofNat]
  omega

theorem toNat_join_words {a b : Nat} (ha : a < 2 ^ 64) :
    (join (wordHi a) (wordLo b)).toNat = torn (2 ^ 32) a b := by
  rw [toNat_join]
  unfold wordHi wordLo torn
  rw [BitVec.toNat_ofNat, BitVec.toNat_ofNat]
  omega

/-- The halves of a 64-bit word are those of its value. -/
theorem hi_eq_wordHi (v : BitVec 64) : (v >>> 32).setWidth 32 = wordHi v.toNat := by
  apply BitVec.eq_of_toNat_eq
  unfold wordHi
  rw [BitVec.toNat_setWidth, BitVec.toNat_ushiftRight, Nat.shiftRight_eq_div_pow,
    BitVec.toNat_ofNat]

theorem lo_eq_wordLo (v : BitVec 64) : v.setWidth 32 = wordLo v.toNat := by
  apply BitVec.eq_of_toNat_eq
  unfold wordLo
  rw [BitVec.toNat_setWidth, BitVec.toNat_ofNat]

theorem join_self (v : BitVec 64) : join (wordHi v.toNat) (wordLo v.toNat) = v := by
  rw [join_words, torn_eq rfl, BitVec.ofNat_toNat, BitVec.setWidth_eq]

/-- A doubleword is what its own upper and lower half give when they are joined. -/
theorem join_halves (v : BitVec 64) : join ((v >>> 32).setWidth 32) (v.setWidth 32) = v := by
  rw [hi_eq_wordHi, lo_eq_wordLo, join_self]

end Halves
