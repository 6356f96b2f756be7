import Cheshire.Lib.XorLinear
import Cheshire.Sw.SdFrame

/-!
# What the driver's CRC7 is

The table of `__spi_sdcard_crc7` holds remainders that are shifted left by one, in the
upper seven bits of a byte. Its loop shifts the state once more before it looks the next
byte up, and `__spi_sdcard_build_cmd` shifts the result once more before it sets the end
bit. Both would be right for a table without the shift.

A byte's part in the result is then not what it is in the remainder. Both are linear, so
the difference is a sum over the bytes of the string (`crc7Defect`): the driver's value is
the remainder where that sum is zero. A frame is right where seven parity checks of
opcode and argument come out even, one frame in 128.
-/

namespace Cheshire.Sw

open Firmware

/-- `x^7 + x^3 + 1`, the polynomial of the CRC7. -/
def crc7Poly : BitVec 7 := 0x09

/-- The CRC7 of a string, as the remainder it is defined by. -/
def crc7 (data : List Byte) : BitVec 7 := Crc.remainder crc7Poly data

/-- Seven bits in the upper bits of a byte, `crc << 1`. -/
def leftAligned (r : BitVec 7) : Byte := r ++ 0#1

/-- The generator for a register in the upper bits of a byte. -/
def crc7Poly8 : Byte := 0x12

/-- What one byte does to an empty register. -/
def crc7Byte (v : Byte) : Byte := Crc.stepByte crc7Poly8 0 v

/-- The register after a string, if it is added to the next byte through `place`. -/
def crc7Through (place : Byte → Byte) (s : Byte) (data : List Byte) : Byte :=
  data.foldl (fun s v => crc7Byte (v ^^^ place s)) s

/-- A byte's part in the register, with `k` more bytes behind it. -/
def crc7Part (place : Byte → Byte) (v : Byte) : Nat → Byte
  | 0 => crc7Byte v
  | k + 1 => crc7Byte (place (crc7Part place v k))

/-- The sum, over the bytes of a string, of the difference between a byte's part with the
state shifted once more and its part in the remainder. -/
def crc7Defect : List Byte → Byte
  | [] => 0
  | v :: rest =>
    crc7Part (· <<< 1) v rest.length ^^^ crc7Part id v rest.length ^^^ crc7Defect rest

/-! ## The table -/

theorem crc7Lookup_eq (v : Byte) : crc7Lookup.getD v.toNat 0 = crc7Byte v := by
  have htable : ∀ i : Fin 256, crc7Lookup.getD i 0 = crc7Byte (BitVec.ofNat 8 i) := by
    decide +kernel
  have hv := htable ⟨v.toNat, v.isLt⟩
  rwa [BitVec.ofNat_toNat, BitVec.setWidth_eq] at hv

theorem sdCrc7_eq_through (data : List Byte) : sdCrc7 data = crc7Through (· <<< 1) 0 data := by
  unfold sdCrc7 crc7Through
  congr 1
  funext s v
  exact crc7Lookup_eq _

/-- The step for one bit commutes with moving the register of seven bits to the upper bits of a
byte. -/
theorem stepBit_leftAligned (r : BitVec 7) (b : Bool) :
    Crc.stepBit crc7Poly8 (leftAligned r) b = leftAligned (Crc.stepBit crc7Poly r b) := by
  have hall : ∀ i : Fin 128, ∀ b, Crc.stepBit crc7Poly8 (leftAligned (BitVec.ofNat 7 i)) b =
      leftAligned (Crc.stepBit crc7Poly (BitVec.ofNat 7 i) b) := by
    decide +kernel
  have hr := hall ⟨r.toNat, r.isLt⟩ b
  rwa [BitVec.ofNat_toNat, BitVec.setWidth_eq] at hr

theorem stepBits_leftAligned : ∀ (bs : List Bool) (r : BitVec 7),
    Crc.stepBits crc7Poly8 (leftAligned r) bs = leftAligned (Crc.stepBits crc7Poly r bs) := by
  intro bs
  induction bs with
  | nil =>
    intro r
    rfl
  | cons b bs ih =>
    intro r
    show Crc.stepBits crc7Poly8 (Crc.stepBit crc7Poly8 (leftAligned r) b) bs = _
    rw [stepBit_leftAligned]
    exact ih _

/-- The register goes to the next byte as it is. -/
theorem stepByte_crc7 (s v : Byte) : Crc.stepByte crc7Poly8 s v = crc7Byte (v ^^^ s) := by
  have htop : Crc.topByte s = s := BitVec.setWidth_eq s
  have hgone : s <<< 8 = 0 := BitVec.shiftLeft_eq_zero (Nat.le_refl 8)
  rw [Crc.stepByte_eq_table crc7Poly8 s v (Nat.le_refl 8), htop, hgone]
  exact BitVec.xor_zero

theorem crc7_eq_through (data : List Byte) : leftAligned (crc7 data) = crc7Through id 0 data := by
  have hstep : ∀ (data : List Byte) (r : BitVec 7),
      leftAligned (data.foldl (Crc.stepByte crc7Poly) r) = crc7Through id (leftAligned r) data := by
    intro data
    induction data with
    | nil =>
      intro r
      rfl
    | cons v data ih =>
      intro r
      show _ = crc7Through id (crc7Byte (v ^^^ leftAligned r)) data
      rw [← stepByte_crc7]
      show _ = crc7Through id (Crc.stepBits crc7Poly8 (leftAligned r) (Crc.topBits v 8)) data
      rw [stepBits_leftAligned]
      exact ih _
  exact hstep data 0

/-! ## Linearity -/

theorem crc7Byte_xor (v v' : Byte) : crc7Byte (v ^^^ v') = crc7Byte v ^^^ crc7Byte v' := by
  have h := Crc.stepByte_xor crc7Poly8 0 0 v v'
  rw [BitVec.xor_self] at h
  exact h

variable {place : Byte → Byte}

theorem crc7Through_xor (hplace : ∀ a b, place (a ^^^ b) = place a ^^^ place b) :
    ∀ (d d' : List Byte) (s s' : Byte), d.length = d'.length →
      crc7Through place (s ^^^ s') (List.zipWith (· ^^^ ·) d d') =
        crc7Through place s d ^^^ crc7Through place s' d' := by
  intro d
  induction d with
  | nil =>
    intro d' s s' hlen
    cases d' with
    | nil => rfl
    | cons => cases hlen
  | cons v d ih =>
    intro d' s s' hlen
    cases d' with
    | nil => cases hlen
    | cons v' d' =>
      have hstep : crc7Byte ((v ^^^ v') ^^^ place (s ^^^ s')) =
          crc7Byte (v ^^^ place s) ^^^ crc7Byte (v' ^^^ place s') := by
        rw [hplace, ← crc7Byte_xor]
        congr 1
        ac_rfl
      show crc7Through place (crc7Byte ((v ^^^ v') ^^^ place (s ^^^ s'))) _ = _
      rw [hstep]
      exact ih d' _ _ (Nat.succ.inj hlen)

/-- On zeros the register goes on from the first byte's part to its part with as many more bytes
behind it. -/
theorem crc7Through_part (v : Byte) :
    ∀ (k j : Nat), crc7Through place (crc7Part place v j) (List.replicate k 0)
      = crc7Part place v (j + k) := by
  intro k
  induction k with
  | zero =>
    intro j
    rfl
  | succ k ih =>
    intro j
    show crc7Through place (crc7Byte (0 ^^^ place (crc7Part place v j))) (List.replicate k 0) = _
    rw [show (0 : Byte) ^^^ place (crc7Part place v j) = place (crc7Part place v j) from
      BitVec.zero_xor]
    rw [show j + (k + 1) = j + 1 + k by omega]
    exact ih (j + 1)

/-- The register after a string is the first byte's part and the register after the rest, added. -/
theorem crc7Through_cons (hplace : ∀ a b, place (a ^^^ b) = place a ^^^ place b) (v : Byte)
    (rest : List Byte) :
    crc7Through place 0 (v :: rest)
      = crc7Part place v rest.length ^^^ crc7Through place 0 rest := by
  have hzero : place 0 = 0 := by
    have h := hplace 0 0
    rw [BitVec.xor_self, BitVec.xor_self] at h
    exact h
  have hrest : List.zipWith (· ^^^ ·) (List.replicate rest.length 0) rest = rest := by
    refine List.ext_getElem (by simp) fun i hi hi' => ?_
    simp
  have hfirst : crc7Through place 0 (v :: rest) = crc7Through place (crc7Part place v 0 ^^^ 0)
      (List.zipWith (· ^^^ ·) (List.replicate rest.length 0) rest) := by
    rw [hrest]
    show crc7Through place (crc7Byte (v ^^^ place 0)) rest = _
    rw [hzero]
    congr 1
    exact (BitVec.xor_zero (x := crc7Byte v)) ▸ congrArg crc7Byte BitVec.xor_zero
  rw [hfirst, crc7Through_xor hplace _ _ _ _ (by simp), crc7Through_part v rest.length 0,
    Nat.zero_add]

theorem shift_xor (a b : Byte) : (a ^^^ b) <<< 1 = a <<< 1 ^^^ b <<< 1 :=
  BitVec.shiftLeft_xor_distrib a b 1

/-- The driver's value and the remainder, moved to the upper bits, differ by the string's defect. -/
theorem sdCrc7_xor (data : List Byte) :
    sdCrc7 data ^^^ leftAligned (crc7 data) = crc7Defect data := by
  rw [sdCrc7_eq_through, crc7_eq_through]
  induction data with
  | nil => rfl
  | cons v data ih =>
    rw [crc7Through_cons shift_xor, crc7Through_cons fun _ _ => rfl]
    unfold crc7Defect
    rw [← ih]
    ac_rfl

theorem sdCrc7_encodes_iff (data : List Byte) :
    sdCrc7 data = leftAligned (crc7 data) ↔ crc7Defect data = 0 := by
  rw [← sdCrc7_xor]
  constructor
  · intro h
    rw [h]
    exact BitVec.xor_self
  · intro h
    have hcancel : sdCrc7 data ^^^ leftAligned (crc7 data) ^^^ leftAligned (crc7 data)
        = 0 ^^^ leftAligned (crc7 data) := by rw [h]
    rw [BitVec.xor_assoc, BitVec.xor_self, BitVec.xor_zero] at hcancel
    exact hcancel.trans BitVec.zero_xor

/-! ## Frames -/

/-- The first five bytes of a frame, from opcode and argument in one word. -/
def frameBytes (m : BitVec 40) : List Byte :=
  (List.range 5).map fun k => m.extractLsb' (8 * (4 - k)) 8

/-- The seven parity checks: each is over the bits of opcode and argument that are set in
it. -/
def frameChecks : List (BitVec 40) :=
  [ 0xacc1b5d191, 0xe3e57283b3, 0xa8bcb15f66, 0x6b1066fe5d, 0xf3838cdc2b, 0xecf7a82956,
    0xec06c152ac ]

/-- All parity checks of a frame's opcode and argument come out even. -/
def FrameEven (opcode : Byte) (arg : BitVec 32) : Prop :=
  ∀ mask ∈ frameChecks, XorLinear.parity (mask &&& (opcode ++ arg)) = false

/-- A frame: opcode, argument and, with the end bit, the CRC7 of these five bytes. -/
def sdFrame (opcode : Byte) (arg : BitVec 32) : List Byte :=
  opcode :: beBytes32 arg ++ [leftAligned (crc7 (opcode :: beBytes32 arg)) ||| 1]

/-- How far the byte the driver sends is from the CRC, end bit aside. -/
def frameDefect (m : BitVec 40) : Byte :=
  sdCrc7 (frameBytes m) <<< 1 ^^^ leftAligned (crc7 (frameBytes m))

theorem frameBytes_append (opcode : Byte) (arg : BitVec 32) :
    frameBytes (opcode ++ arg) = opcode :: beBytes32 arg := by
  have hop : (opcode ++ arg).extractLsb' (8 * 4) 8 = opcode := BitVec.extractLsb'_append_eq_left
  have harg : ∀ k, 8 * k + 8 ≤ 32 →
      (opcode ++ arg).extractLsb' (8 * k) 8 = ((arg >>> (8 * k)).setWidth 8 : Byte) := by
    intro k hk
    rw [BitVec.extractLsb'_append_eq_of_add_le hk]
    rfl
  show [(opcode ++ arg).extractLsb' (8 * 4) 8, (opcode ++ arg).extractLsb' (8 * 3) 8,
    (opcode ++ arg).extractLsb' (8 * 2) 8, (opcode ++ arg).extractLsb' (8 * 1) 8,
    (opcode ++ arg).extractLsb' (8 * 0) 8] = _
  rw [hop, harg 3 (by omega), harg 2 (by omega), harg 1 (by omega), harg 0 (by omega)]
  rfl

theorem frameBytes_xor (m m' : BitVec 40) :
    frameBytes (m ^^^ m') = List.zipWith (· ^^^ ·) (frameBytes m) (frameBytes m') := by
  unfold frameBytes
  rw [List.zipWith_map, List.zipWith_self]
  refine List.map_congr_left fun k _ => ?_
  exact BitVec.extractLsb'_xor

theorem frameDefect_xor (m m' : BitVec 40) :
    frameDefect (m ^^^ m') = frameDefect m ^^^ frameDefect m' := by
  have hlen : (frameBytes m).length = (frameBytes m').length := rfl
  have hsd := @crc7Through_xor (· <<< 1) shift_xor _ _ 0 0 hlen
  have hcrc := @crc7Through_xor id (fun _ _ => rfl) _ _ 0 0 hlen
  have hzero : (0 : Byte) ^^^ 0 = 0 := BitVec.xor_self
  rw [hzero] at hsd hcrc
  unfold frameDefect
  rw [sdCrc7_eq_through, crc7_eq_through, frameBytes_xor, hsd, hcrc, shift_xor, sdCrc7_eq_through,
    crc7_eq_through, sdCrc7_eq_through, crc7_eq_through]
  ac_rfl

/-- Each bit of the difference is one of the checks; the lowest is the end bit's. -/
theorem frameDefect_bit (m : BitVec 40) {j : Nat} (hj : j < 8) :
    (frameDefect m).getLsbD j = XorLinear.parity ((0 :: frameChecks).getD j 0 &&& m) := by
  have hlin : XorLinear.Linear fun m => (frameDefect m).getLsbD j := by
    intro a b
    show (frameDefect (a ^^^ b)).getLsbD j = _
    rw [frameDefect_xor, BitVec.getLsbD_xor]
  have hbasis : ∀ i < 40, ∀ j < 8, (frameDefect (BitVec.twoPow 40 i)).getLsbD j =
      XorLinear.parity ((0 :: frameChecks).getD j 0 &&& BitVec.twoPow 40 i) := by
    decide +kernel
  exact hlin.ext (XorLinear.linear_parity _) (fun i hi => hbasis i hi j hj) m

theorem frameDefect_eq_zero_iff (opcode : Byte) (arg : BitVec 32) :
    frameDefect (opcode ++ arg) = 0 ↔ FrameEven opcode arg := by
  have hzero : XorLinear.parity ((0 : BitVec 40) &&& (opcode ++ arg)) = false := by
    rw [BitVec.and_comm]
    exact (XorLinear.linear_parity (opcode ++ arg)).zero
  constructor
  · intro h mask hmask
    obtain ⟨j, hj, rfl⟩ := List.mem_iff_getElem.mp hmask
    have hbit := frameDefect_bit (opcode ++ arg) (j := j + 1) (Nat.succ_lt_succ hj)
    rw [h, List.getD_cons_succ, ← List.getElem_eq_getD (h := hj) 0] at hbit
    rw [← hbit]
    exact BitVec.getLsbD_zero
  · intro h
    apply BitVec.eq_of_getLsbD_eq
    intro j hj
    rw [frameDefect_bit _ hj]
    cases j with
    | zero => exact hzero
    | succ j =>
      have hlt : j < frameChecks.length := Nat.lt_of_succ_lt_succ hj
      rw [List.getD_cons_succ, ← List.getElem_eq_getD (h := hlt) 0]
      exact (h _ (List.getElem_mem hlt)).trans BitVec.getLsbD_zero.symm

/-- Two bytes with the end bit set are the same if they are without it. -/
theorem endBit_iff {a b : Byte} (ha : a.getLsbD 0 = false) (hb : b.getLsbD 0 = false) :
    a ||| 1 = b ||| 1 ↔ a ^^^ b = 0 := by
  rw [show (a ^^^ b = 0) = (a ^^^ b = 0#8) from rfl, BitVec.xor_eq_zero_iff]
  refine ⟨fun h => ?_, fun h => by rw [h]⟩
  apply BitVec.eq_of_getLsbD_eq
  intro j hj
  cases j with
  | zero => rw [ha, hb]
  | succ j =>
    have hbit : (a ||| 1).getLsbD (j + 1) = (b ||| 1).getLsbD (j + 1) := by rw [h]
    have hone : (1 : Byte).getLsbD (j + 1) = false := by
      show (1#8).getLsbD (j + 1) = false
      rw [BitVec.getLsbD_one]
      simp
    rw [BitVec.getLsbD_or, BitVec.getLsbD_or, hone, Bool.or_false, Bool.or_false] at hbit
    exact hbit

theorem sdBuildCmd_frame_iff (opcode : Byte) (arg : BitVec 32) :
    leBytes (sdBuildCmd opcode arg) 6 = sdFrame opcode arg ↔ FrameEven opcode arg := by
  have hlow : ∀ c : Byte, (c <<< 1).getLsbD 0 = false := by
    intro c
    rw [BitVec.getLsbD_shiftLeft]
    rfl
  have hend : ∀ r : BitVec 7, (leftAligned r).getLsbD 0 = false := by
    intro r
    unfold leftAligned
    rw [BitVec.getLsbD_append]
    rfl
  rw [sdBuildCmd_bytes, ← frameDefect_eq_zero_iff]
  unfold sdFrame frameDefect
  rw [List.append_cancel_left_eq, List.cons.injEq, frameBytes_append,
    endBit_iff (hlow _) (hend _)]
  exact ⟨fun h => h.1, fun h => ⟨h, rfl⟩⟩

/-- The frames the initialization sends as constants, with their opcodes and arguments. -/
def initFrames : List (BitVec 64 × Byte × BitVec 32) :=
  [ (0x950000000040, 0x40, 0), (0x87AA01000048, 0x48, 0x1AA), (0x650000000077, 0x77, 0),
    (0x770000004069, 0x69, 0x4000_0000), (0xFD000000007A, 0x7A, 0), (0x150002000050, 0x50, 0x200) ]

/-- Those are right. -/
theorem initFrames_frame : ∀ f ∈ initFrames, leBytes f.1 6 = sdFrame f.2.1 f.2.2 := by
  have hall : initFrames.all fun f => leBytes f.1 6 = sdFrame f.2.1 f.2.2 := by decide +kernel
  intro f hf
  exact of_decide_eq_true (List.all_eq_true.mp hall f hf)

/-- The driver's CRC7 is the remainder where the defect of the string is zero, and its
frames are right where their parity checks are even. -/
theorem sdCrc7_frame_iff (data : List Byte) (opcode : Byte) (arg : BitVec 32) :
    (sdCrc7 data = leftAligned (crc7 data) ↔ crc7Defect data = 0) ∧
      (leBytes (sdBuildCmd opcode arg) 6 = sdFrame opcode arg ↔ FrameEven opcode arg) :=
  ⟨sdCrc7_encodes_iff data, sdBuildCmd_frame_iff opcode arg⟩

/-- Two strings with one remainder and two values, and CMD0 and CMD8 as the driver would
build them. -/
theorem sdCrc7_wrong :
    (crc7 [0x40, 0x00] = crc7 [0x00, 0x41] ∧ sdCrc7 [0x40, 0x00] ≠ sdCrc7 [0x00, 0x41]) ∧
    leBytes (sdBuildCmd 0x40 0) 6 ≠ sdFrame 0x40 0 ∧
    leBytes (sdBuildCmd 0x48 0x1AA) 6 ≠ sdFrame 0x48 0x1AA := by
  decide +kernel

end Cheshire.Sw
