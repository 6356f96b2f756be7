import Cheshire.Sw.SdCard

/-!
# The six bytes of a command

`__spi_sdcard_build_cmd` puts a frame together in a 64-bit word, which goes out from its
least significant byte. `sdBuildCmd_bytes` says which bytes these are.
-/

namespace Cheshire.Sw

open Firmware

theorem getLsbD_ff (n : Nat) : (0xFF : BitVec 64).getLsbD n = decide (n < 8) := by
  rcases Nat.lt_or_ge n 64 with h | h
  · have hbits : ∀ n < 64, (0xFF : BitVec 64).getLsbD n = decide (n < 8) := by decide
    exact hbits n h
  · rw [BitVec.getLsbD_of_ge _ _ h, decide_eq_false (by omega)]

theorem byteOf_or (x y : BitVec 64) (k : Nat) : byteOf (x ||| y) k = byteOf x k ||| byteOf y k := by
  unfold byteOf
  rw [BitVec.ushiftRight_or_distrib, BitVec.setWidth_or]

/-- One byte masked out and moved to place `n` is that byte at place `n` and zero elsewhere. -/
theorem byteOf_field (x : BitVec 64) {n : Nat} (k : Nat) (hn : n < 8) :
    byteOf ((x &&& 0xFF) <<< (8 * n)) k = if k = n then x.setWidth 8 else 0 := by
  unfold byteOf
  apply BitVec.eq_of_getLsbD_eq
  intro j hj
  rw [BitVec.getLsbD_setWidth, BitVec.getLsbD_ushiftRight, BitVec.getLsbD_shiftLeft,
    BitVec.getLsbD_and, getLsbD_ff, decide_eq_true hj]
  by_cases h : k = n
  · subst h
    rw [if_pos rfl, BitVec.getLsbD_setWidth, decide_eq_true (show 8 * k + j < 64 by omega),
      decide_eq_false (show ¬8 * k + j < 8 * k by omega), Nat.add_sub_cancel_left,
      decide_eq_true hj]
    simp
  · rw [if_neg h]
    simp
    omega

/-- What is moved to place 5 is not in the bytes before it. -/
theorem byteOf_shift (x : BitVec 64) {k : Nat} (hk : k ≤ 5) :
    byteOf (x <<< 40) k = if k = 5 then x.setWidth 8 else 0 := by
  unfold byteOf
  apply BitVec.eq_of_getLsbD_eq
  intro j hj
  rw [BitVec.getLsbD_setWidth, BitVec.getLsbD_ushiftRight, BitVec.getLsbD_shiftLeft,
    decide_eq_true hj]
  by_cases h : k = 5
  · subst h
    rw [if_pos rfl, BitVec.getLsbD_setWidth, decide_eq_true (show 8 * 5 + j < 64 by omega),
      decide_eq_false (show ¬8 * 5 + j < 40 by omega), Nat.add_sub_cancel_left, decide_eq_true hj]
    simp
  · rw [if_neg h, decide_eq_true (show 8 * k + j < 40 by omega)]
    simp

theorem byteOf_low (v : Byte) (k : Nat) : byteOf (v.setWidth 64) k = if k = 0 then v else 0 := by
  unfold byteOf
  apply BitVec.eq_of_getLsbD_eq
  intro j hj
  rw [BitVec.getLsbD_setWidth, BitVec.getLsbD_ushiftRight, BitVec.getLsbD_setWidth]
  by_cases h : k = 0
  · subst h
    rw [if_pos rfl, Nat.mul_zero, Nat.zero_add, decide_eq_true hj, decide_eq_true (by omega)]
    simp
  · rw [if_neg h, BitVec.getLsbD_of_ge v _ (by omega)]
    simp

/-- The bytes of a word, the most significant one first. -/
def beBytes32 (v : BitVec 32) : List Byte :=
  [(v >>> 24).setWidth 8, (v >>> 16).setWidth 8, (v >>> 8).setWidth 8, (v >>> 0).setWidth 8]

theorem setWidth_ushiftRight (v : BitVec 32) (n : Nat) :
    ((v.setWidth 64 >>> n).setWidth 8 : Byte) = (v >>> n).setWidth 8 := by
  apply BitVec.eq_of_getLsbD_eq
  intro j hj
  rw [BitVec.getLsbD_setWidth, BitVec.getLsbD_ushiftRight, BitVec.getLsbD_setWidth,
    BitVec.getLsbD_setWidth, BitVec.getLsbD_ushiftRight]
  rcases Nat.lt_or_ge (n + j) 64 with h | h
  · simp [h]
  · rw [BitVec.getLsbD_of_ge v _ (by omega)]
    simp

/-- Byte `k` of opcode and argument. -/
theorem byteOf_sdCmdWord (opcode : Byte) (arg : BitVec 32) (k : Nat) :
    byteOf (sdCmdWord opcode arg) k = (opcode :: beBytes32 arg).getD k 0 := by
  unfold sdCmdWord
  dsimp only
  rw [byteOf_or, byteOf_or, byteOf_or, byteOf_or, byteOf_low, byteOf_field (n := 1) _ _ (by omega),
    byteOf_field (n := 2) _ _ (by omega), byteOf_field (n := 3) _ _ (by omega),
    byteOf_field (n := 4) _ _ (by omega), setWidth_ushiftRight, setWidth_ushiftRight,
    setWidth_ushiftRight, setWidth_ushiftRight]
  match k with
  | 0 => simp [beBytes32]
  | 1 => simp [beBytes32]
  | 2 => simp [beBytes32]
  | 3 => simp [beBytes32]
  | 4 => simp [beBytes32]
  | k + 5 => simp [beBytes32]

theorem leBytes_sdCmdWord (opcode : Byte) (arg : BitVec 32) :
    leBytes (sdCmdWord opcode arg) 5 = opcode :: beBytes32 arg := by
  unfold leBytes
  rw [List.map_congr_left fun k _ => byteOf_sdCmdWord opcode arg k]
  rfl

/-- A frame: opcode, argument, and the CRC with the end bit. -/
theorem sdBuildCmd_bytes (opcode : Byte) (arg : BitVec 32) :
    leBytes (sdBuildCmd opcode arg) 6 =
      opcode :: beBytes32 arg ++ [(sdCrc7 (opcode :: beBytes32 arg) <<< 1) ||| 1] := by
  have hcrc : ∀ c : Byte,
      (((c.setWidth 64 : BitVec 64) <<< 1) ||| 1).setWidth 8 = (c <<< 1) ||| 1 := by
    intro c
    apply BitVec.eq_of_getLsbD_eq
    intro j hj
    rw [BitVec.getLsbD_setWidth, BitVec.getLsbD_or, BitVec.getLsbD_or, BitVec.getLsbD_shiftLeft,
      BitVec.getLsbD_shiftLeft, BitVec.getLsbD_setWidth, decide_eq_true hj,
      decide_eq_true (show j < 64 by omega), decide_eq_true (show j - 1 < 64 by omega)]
    simp
  have hbyte : ∀ k ∈ List.range 6, byteOf (sdBuildCmd opcode arg) k =
      (if k = 5 then (sdCrc7 (opcode :: beBytes32 arg) <<< 1) ||| 1 else 0) |||
        (opcode :: beBytes32 arg).getD k 0 := by
    intro k hk
    have hle : k ≤ 5 := Nat.le_of_lt_succ (List.mem_range.mp hk)
    unfold sdBuildCmd
    dsimp only
    rw [byteOf_or, byteOf_shift _ hle, byteOf_sdCmdWord, leBytes_sdCmdWord, hcrc]
  unfold leBytes
  rw [List.map_congr_left hbyte]
  simp [beBytes32, List.range_succ]

end Cheshire.Sw
