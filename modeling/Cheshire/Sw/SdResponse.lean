import Mathlib.Algebra.Group.Nat.Defs
import Mathlib.Data.List.GetD
import Cheshire.Sw.SdFrame

/-!
# What `__spi_sdcard_cmd_check` lets through

The check compares the response and the expected value under a mask, and on a mismatch
it returns the masked response as an `int`. A response that is zero under the mask is so
returned as success, whatever was expected.

The mask is computed as `(1 << 8 * len) - 1`, where the 1 is an `int`. For the one and the
two bytes of R1 and R2 it covers the response. For the five bytes of R3 and R7 the shift is
out of range, and the results here are about every mask there may be. One that is all ones
compares the three bytes of `buf` that nothing was stored to as well
(`checkExact_allOnes`), and one of eight bits compares the first byte only
(`checkExact_byteMask`).
-/

namespace Cheshire.Sw

open Firmware Firmware.Prog

variable {env : Env SpiCall} {h : SdHandle}

/-! ## Bytes under a mask -/

theorem getLsbD_byteOf (v : BitVec 64) (k : Nat) {j : Nat} (hj : j < 8) :
    (byteOf v k).getLsbD j = v.getLsbD (8 * k + j) := by
  unfold byteOf
  rw [BitVec.getLsbD_setWidth, BitVec.getLsbD_ushiftRight, decide_eq_true hj, Bool.true_and]

theorem byteOf_zero (k : Nat) : byteOf 0 k = 0 := by
  unfold byteOf
  rw [show (0 : BitVec 64) >>> (8 * k) = 0 from BitVec.zero_ushiftRight]
  rfl

/-- Words that agree under a mask agree in the bits it takes. -/
theorem and_eq_iff (x y m : BitVec 64) :
    x &&& m = y &&& m ↔ ∀ i < 64, m.getLsbD i → x.getLsbD i = y.getLsbD i := by
  constructor
  · intro heq i _ hm
    have hbit : (x &&& m).getLsbD i = (y &&& m).getLsbD i := by
      rw [heq]
    rw [BitVec.getLsbD_and, BitVec.getLsbD_and, hm, Bool.and_true, Bool.and_true] at hbit
    exact hbit
  · intro hall
    apply BitVec.eq_of_getLsbD_eq
    intro i hi
    rw [BitVec.getLsbD_and, BitVec.getLsbD_and]
    cases hm : m.getLsbD i with
    | false => rw [Bool.and_false, Bool.and_false]
    | true => rw [hall i hi hm]

/-- A masked word is zero as an `int` if its low 32 bits are. -/
theorem and_int_eq_zero_iff (x m : BitVec 64) :
    (x &&& m).setWidth 32 = (0 : BitVec 32) ↔ ∀ i < 32, m.getLsbD i → x.getLsbD i = false := by
  constructor
  · intro hzero i hi hm
    have hbit : ((x &&& m).setWidth 32 : BitVec 32).getLsbD i = (0 : BitVec 32).getLsbD i := by
      rw [hzero]
    rw [BitVec.getLsbD_setWidth, BitVec.getLsbD_and, hm, decide_eq_true hi, Bool.true_and,
      Bool.and_true] at hbit
    exact hbit.trans BitVec.getLsbD_zero
  · intro hall
    apply BitVec.eq_of_getLsbD_eq
    intro i hi
    rw [BitVec.getLsbD_setWidth, BitVec.getLsbD_and, decide_eq_true hi, Bool.true_and]
    refine Eq.trans ?_ BitVec.getLsbD_zero.symm
    cases hm : m.getLsbD i with
    | false => rw [Bool.and_false]
    | true => rw [hall i hi hm, Bool.false_and]

/-- Bits below `8 * n` are those of the first `n` bytes. -/
theorem bytes_eq_iff (x y : BitVec 64) (n : Nat) :
    (∀ k < n, byteOf x k = byteOf y k) ↔ ∀ i < 8 * n, x.getLsbD i = y.getLsbD i := by
  constructor
  · intro hall i hi
    have hmod : i % 8 < 8 := Nat.mod_lt i (by omega)
    have hbit := congrArg (BitVec.getLsbD · (i % 8)) (hall (i / 8) (by omega))
    rw [getLsbD_byteOf x _ hmod, getLsbD_byteOf y _ hmod, Nat.div_add_mod] at hbit
    exact hbit
  · intro hall k hk
    apply BitVec.eq_of_getLsbD_eq
    intro j hj
    rw [getLsbD_byteOf x k hj, getLsbD_byteOf y k hj]
    exact hall _ (by omega)

/-- The mask that selects the low `n` bytes of a doubleword. -/
def byteMask (n : Nat) : BitVec 64 := BitVec.ofNat 64 (2 ^ (8 * n) - 1)

theorem getLsbD_byteMask (n : Nat) {i : Nat} (hi : i < 64) :
    (byteMask n).getLsbD i = decide (i < 8 * n) := by
  unfold byteMask
  rw [BitVec.getLsbD_ofNat, decide_eq_true hi, Bool.true_and, Nat.testBit_two_pow_sub_one]

theorem byteMask_lt {n i : Nat} (hi : i < 64) : (byteMask n).getLsbD i = true ↔ i < 8 * n := by
  rw [getLsbD_byteMask n hi, decide_eq_true_iff]

/-- Words that agree under the mask agree in the bytes it covers. -/
theorem mask_eq_iff (x y : BitVec 64) {n : Nat} (hn : n ≤ 8) :
    x &&& byteMask n = y &&& byteMask n ↔ ∀ k < n, byteOf x k = byteOf y k := by
  rw [and_eq_iff, bytes_eq_iff]
  constructor
  · intro hall i hi
    exact hall i (by omega) ((byteMask_lt (by omega)).mpr hi)
  · intro hall i hi hm
    exact hall i ((byteMask_lt hi).mp hm)

/-- What is masked to four bytes is not lost in an `int`. -/
theorem mask_int_eq_zero_iff (x : BitVec 64) {n : Nat} (hn : n ≤ 4) :
    (x &&& byteMask n).setWidth 32 = (0 : BitVec 32) ↔ ∀ k < n, byteOf x k = 0 := by
  have hbytes : (∀ k < n, byteOf x k = 0) ↔ ∀ k < n, byteOf x k = byteOf 0 k :=
    forall₂_congr fun k _ => by rw [byteOf_zero]
  rw [and_int_eq_zero_iff, hbytes, bytes_eq_iff]
  constructor
  · intro hall i hi
    exact (hall i (by omega) ((byteMask_lt (by omega)).mpr hi)).trans BitVec.getLsbD_zero.symm
  · intro hall i hi hm
    exact (hall i ((byteMask_lt (by omega)).mp hm)).trans BitVec.getLsbD_zero

/-! ## The response in its variable -/

/-- The mask of one byte, and of two, is the one that is meant. -/
theorem sdRespMask_short {resp : SdResp} (hshort : resp.len < 4) (junk : SdJunk) :
    sdRespMask junk resp = byteMask resp.len := by
  unfold sdRespMask
  rw [if_pos (by omega)]
  cases resp with
  | r1 | r1b | r2 => decide
  | r3 | r7 => exact absurd hshort (by decide)

theorem sdRespMask_five {resp : SdResp} (hfive : resp.len = 5) (junk : SdJunk) :
    sdRespMask junk resp = junk.mask := by
  unfold sdRespMask
  rw [hfive, if_neg (by omega)]

theorem byteOf_overlay (v : BitVec 64) (bytes : List Byte) {k : Nat} (hk : k < 8) :
    byteOf (overlay v bytes) k = bytes.getD k (byteOf v k) := by
  have hbyte := byte_le64 (fun i => bytes.getD i (byteOf v i)) 0 hk
  rw [Nat.zero_add] at hbyte
  exact hbyte

theorem byteOf_overlay_lt (v : BitVec 64) {bytes : List Byte} {k : Nat} (hlen : k < bytes.length)
    (hk : k < 8) : byteOf (overlay v bytes) k = bytes.getD k 0 := by
  rw [byteOf_overlay v bytes hk, ← List.getElem_eq_getD (h := hlen) (byteOf v k),
    ← List.getElem_eq_getD (h := hlen) 0]

/-- Behind its first byte a response is read to the length that its type has. -/
theorem sdRespRest_length (resp : SdResp) (s : SdSt) :
    wp env (sdRespRest h resp) (fun rest _ => rest.length = resp.len - 1) (fun _ _ => True) s := by
  unfold sdRespRest
  rw [wp_ite]
  split
  next hb =>
    rw [wp_bind]
    subst hb
    refine wp_mono (wp_any _ s) (fun r s₁ _ => ?_) fun _ _ he => he
    dsimp only
    rw [wp_bind, wp_returnIf _ (by decide)]
    exact ⟨fun _ => rfl, fun _ => trivial⟩
  next =>
    rw [wp_ite]
    split
    next hrem =>
      rw [wp_bind]
      unfold sdRx
      rw [wp_check]
      exact ⟨fun _ => by simp, fun _ => trivial⟩
    next hrem => exact (not_not.mp hrem).symm

theorem sdCmd_length (cmd : BitVec 64) (resp : SdResp) (csaat : Bool) (s : SdSt) :
    wp env (sdCmd h cmd resp csaat) (fun rdata _ => rdata.length = resp.len) (fun _ _ => True)
      s := by
  have hpos : resp.len - 1 + 1 = resp.len := by
    cases resp with
    | r1 | r1b | r2 | r3 | r7 => rfl
  unfold sdCmd
  rw [wp_bind]
  refine wp_mono (wp_any _ s) (fun _ s₁ _ => ?_) fun _ _ he => he
  rw [wp_bind]
  refine wp_mono (wp_any _ s₁) (fun _ s₂ _ => ?_) fun _ _ he => he
  rw [wp_bind]
  refine wp_mono (wp_any _ s₂) (fun r s₃ _ => ?_) fun _ _ he => he
  dsimp only
  rw [wp_bind]
  refine wp_mono (wp_any _ s₃) (fun _ s₄ _ => ?_) fun _ _ he => he
  rw [wp_bind]
  refine wp_mono (sdRespRest_length resp s₄) (fun rest s₅ hrest => ?_) fun _ _ he => he
  rw [wp_bind]
  refine wp_mono (wp_any _ s₅) (fun _ s₆ _ => ?_) fun _ _ he => he
  show (r.1 :: rest).length = resp.len
  rw [List.length_cons, hrest, hpos]

/-! ## The check -/

/-- The first `n` bytes of a response and of an expected value are the same. -/
def SameBytes (rdata : List Byte) (exp : BitVec 64) (n : Nat) : Prop :=
  ∀ k < n, rdata.getD k 0 = byteOf exp k

/-- The response passes: it is as expected under the mask, or zero as an `int`. -/
def Passes (junk : SdJunk) (resp : SdResp) (rdata : List Byte) (exp : BitVec 64) : Prop :=
  overlay junk.buf rdata &&& sdRespMask junk resp = exp &&& sdRespMask junk resp ∨
    (overlay junk.buf rdata &&& sdRespMask junk resp).setWidth 32 = (0 : BitVec 32)

/-- The check of a response comes out as `Passes` says. -/
theorem wp_passes {junk : SdJunk} {resp : SdResp} {rdata : List Byte} {exp : BitVec 64}
    {R : Unit → SdSt → Prop} {E : Stop → SdSt → Prop} {s : SdSt}
    (hpass : Passes junk resp rdata exp → R () s)
    (hfail : ∀ c, c ≠ 0 → ¬Passes junk resp rdata exp → E (.ret c) s) :
    wp env (retCode (if overlay junk.buf rdata &&& sdRespMask junk resp
          ≠ exp &&& sdRespMask junk resp
        then (overlay junk.buf rdata &&& sdRespMask junk resp).setWidth 32 else 0)) R E s := by
  rw [wp_retCode]
  by_cases heq : overlay junk.buf rdata &&& sdRespMask junk resp = exp &&& sdRespMask junk resp
  · rw [if_neg (not_not.mpr heq)]
    exact ⟨fun _ => hpass (Or.inl heq), fun hne => absurd rfl hne⟩
  · rw [if_pos heq]
    exact ⟨fun hzero => hpass (Or.inr hzero), fun hne => hfail _ hne fun hp => hp.elim heq hne⟩

/-- Where the command has succeeded, the check returns 0 if the response passes. -/
theorem sdCmdCheck_ok_iff {cmd : BitVec 64} {resp : SdResp} {junk : SdJunk} {exp : BitVec 64}
    {s s' : SdSt} {rdata : List Byte} (hcmd : sdCmd h cmd resp false env s = (.ok rdata, s')) :
    (sdCmdCheck h cmd resp junk (some exp) env s).1 = .ok () ↔ Passes junk resp rdata exp := by
  refine wp_decides ?_
  unfold sdCmdCheck
  rw [wp_bind]
  unfold wp
  rw [hcmd]
  exact wp_passes (fun hpass => hpass) fun _ _ hfail => hfail

/-- One or two bytes pass if they are the expected ones, and if they are zero. -/
theorem passes_short {junk : SdJunk} {resp : SdResp} {rdata : List Byte} {exp : BitVec 64}
    (hshort : resp.len < 4) (hlen : rdata.length = resp.len) :
    Passes junk resp rdata exp ↔
      SameBytes rdata exp resp.len ∨ SameBytes rdata 0 resp.len := by
  have hbyte : ∀ k < resp.len, byteOf (overlay junk.buf rdata) k = rdata.getD k 0 := fun k hk =>
    byteOf_overlay_lt junk.buf (by omega) (by omega)
  unfold Passes
  rw [sdRespMask_short hshort, mask_eq_iff _ _ (by omega), mask_int_eq_zero_iff _ (by omega)]
  refine or_congr (forall₂_congr fun k hk => ?_) (forall₂_congr fun k hk => ?_)
  · rw [hbyte k hk]
  · rw [hbyte k hk, byteOf_zero]

/-! ## Five bytes -/

/-- Bit `i` of a response, the first byte being the lowest. -/
def bitOf (rdata : List Byte) (i : Nat) : Bool := (rdata.getD (i / 8) 0).getLsbD (i % 8)

/-- Behind the five bytes, what `buf` held is what is expected, as far as the mask takes it. -/
def SdJunk.RestFits (junk : SdJunk) (exp : BitVec 64) : Prop :=
  ∀ i, 40 ≤ i → i < 64 → junk.mask.getLsbD i → junk.buf.getLsbD i = exp.getLsbD i

/-- The five bytes are the expected ones, as far as the mask takes them. -/
def SdJunk.Looks (junk : SdJunk) (rdata : List Byte) (exp : BitVec 64) : Prop :=
  ∀ i < 40, junk.mask.getLsbD i → bitOf rdata i = exp.getLsbD i

/-- The mask takes no set bit of the first four bytes. -/
def SdJunk.Blank (junk : SdJunk) (rdata : List Byte) : Prop :=
  ∀ i < 32, junk.mask.getLsbD i → bitOf rdata i = false

theorem getLsbD_overlay {v : BitVec 64} {rdata : List Byte} {i : Nat} (hi : i < 64) :
    (overlay v rdata).getLsbD i = if i < 8 * rdata.length then bitOf rdata i
      else v.getLsbD i := by
  have hmod : i % 8 < 8 := Nat.mod_lt i (by omega)
  have hbit := getLsbD_byteOf (overlay v rdata) (i / 8) hmod
  rw [Nat.div_add_mod] at hbit
  rw [← hbit]
  split
  next hlt => rw [byteOf_overlay_lt v (by omega) (by omega), bitOf]
  next hge =>
    rw [byteOf_overlay v rdata (by omega), List.getD_eq_default _ _ (by omega),
      getLsbD_byteOf v _ hmod, Nat.div_add_mod]

/-- Five bytes pass if all that the mask takes is as expected, and if it takes no set bit of
the first four. -/
theorem passes_five {junk : SdJunk} {resp : SdResp} {rdata : List Byte} {exp : BitVec 64}
    (hfive : resp.len = 5) (hlen : rdata.length = resp.len) :
    Passes junk resp rdata exp ↔
      (junk.Looks rdata exp ∧ junk.RestFits exp) ∨ junk.Blank rdata := by
  have hin : ∀ i < 40, (overlay junk.buf rdata).getLsbD i = bitOf rdata i := fun i hi => by
    rw [getLsbD_overlay (by omega), if_pos (by omega)]
  have hout : ∀ i, 40 ≤ i → i < 64 → (overlay junk.buf rdata).getLsbD i = junk.buf.getLsbD i :=
    fun i hlo hi => by rw [getLsbD_overlay hi, if_neg (by omega)]
  unfold Passes
  rw [sdRespMask_five hfive, and_eq_iff, and_int_eq_zero_iff]
  refine or_congr ⟨fun hall => ⟨fun i hi hm => ?_, fun i hlo hi hm => ?_⟩, ?_⟩
    (forall₂_congr fun i hi => ?_)
  · rw [← hin i hi]
    exact hall i (by omega) hm
  · rw [← hout i hlo hi]
    exact hall i hi hm
  · rintro ⟨hlooks, hrest⟩ i hi hm
    by_cases hlt : i < 40
    · rw [hin i hlt]
      exact hlooks i hlt hm
    · rw [hout i (by omega) hi]
      exact hrest i (by omega) hi hm
  · rw [hin i (by omega)]

theorem sameBytes_iff {rdata : List Byte} {exp : BitVec 64} {n : Nat} :
    SameBytes rdata exp n ↔ ∀ i < 8 * n, bitOf rdata i = exp.getLsbD i := by
  constructor
  · intro hsame i hi
    have hmod : i % 8 < 8 := Nat.mod_lt i (by omega)
    unfold bitOf
    rw [hsame (i / 8) (by omega), getLsbD_byteOf exp _ hmod, Nat.div_add_mod]
  · intro hall k hk
    apply BitVec.eq_of_getLsbD_eq
    intro j hj
    have hbit := hall (8 * k + j) (by omega)
    unfold bitOf at hbit
    rw [Nat.mul_add_div (by omega), Nat.div_eq_of_lt hj, Nat.add_zero, Nat.mul_add_mod,
      Nat.mod_eq_of_lt hj] at hbit
    rw [hbit, getLsbD_byteOf exp k hj]

/-- Where the check does what it is for. One or two bytes: they are not all zero, or zeros
are expected. Five that are the expected ones: the mask takes nothing else behind them, or no
set bit of the first four. Five others: the mask takes something that is not as expected, and
a set bit of the first four. -/
def CheckExact (junk : SdJunk) (resp : SdResp) (rdata : List Byte) (exp : BitVec 64) : Prop :=
  match resp with
  | .r1 | .r1b | .r2 => ¬SameBytes rdata 0 resp.len ∨ ∀ k < resp.len, byteOf exp k = 0
  | .r3 | .r7 =>
    (SameBytes rdata exp resp.len → junk.RestFits exp ∨ junk.Blank rdata) ∧
      (¬SameBytes rdata exp resp.len →
        ¬(junk.Looks rdata exp ∧ junk.RestFits exp) ∧ ¬junk.Blank rdata)

/-- A response all of whose bytes are under the mask. -/
theorem covered_iff {rdata : List Byte} {exp : BitVec 64} {n : Nat} :
    ((SameBytes rdata exp n ∨ SameBytes rdata 0 n) ↔ SameBytes rdata exp n) ↔
      ¬SameBytes rdata 0 n ∨ ∀ k < n, byteOf exp k = 0 := by
  constructor
  · intro h
    by_cases hzero : SameBytes rdata 0 n
    · refine Or.inr fun k hk => ?_
      rw [← h.mp (Or.inr hzero) k hk, hzero k hk, byteOf_zero]
    · exact Or.inl hzero
  · intro h
    refine ⟨fun hor => hor.elim id fun hzero => ?_, Or.inl⟩
    intro k hk
    rw [hzero k hk, byteOf_zero, h.resolve_left (not_not.mpr hzero) k hk]

/-- A response of five bytes, of which the mask may take any bits. -/
theorem five_iff {junk : SdJunk} {rdata : List Byte} {exp : BitVec 64} :
    (((junk.Looks rdata exp ∧ junk.RestFits exp) ∨ junk.Blank rdata) ↔
        SameBytes rdata exp 5) ↔
      (SameBytes rdata exp 5 → junk.RestFits exp ∨ junk.Blank rdata) ∧
        (¬SameBytes rdata exp 5 →
          ¬(junk.Looks rdata exp ∧ junk.RestFits exp) ∧ ¬junk.Blank rdata) := by
  constructor
  · intro h
    exact ⟨fun hsame => (h.mpr hsame).imp_left And.right,
      fun hother => not_or.mp fun hpass => hother (h.mp hpass)⟩
  · rintro ⟨hsame, hother⟩
    refine ⟨fun hpass => ?_, fun hall => (hsame hall).imp_left fun hrest => ⟨?_, hrest⟩⟩
    · by_contra hne
      exact not_or.mpr (hother hne) hpass
    · exact fun i hi _ => sameBytes_iff.mp hall i hi

/-- Where the command has succeeded, the check returns 0 exactly on the expected response
if and only if the response meets `CheckExact`. -/
theorem sdCmdCheck_exact_iff (env : Env SpiCall) (h : SdHandle) (cmd : BitVec 64) (resp : SdResp)
    (junk : SdJunk) (exp : BitVec 64) {s s' : SdSt} {rdata : List Byte}
    (hcmd : sdCmd h cmd resp false env s = (.ok rdata, s')) :
    ((sdCmdCheck h cmd resp junk (some exp) env s).1 = .ok () ↔ SameBytes rdata exp resp.len) ↔
      CheckExact junk resp rdata exp := by
  have hlen : rdata.length = resp.len := wp_ok (sdCmd_length cmd resp false s) hcmd
  rw [sdCmdCheck_ok_iff hcmd]
  cases resp with
  | r1 | r1b | r2 =>
    rw [passes_short (by decide) hlen]
    exact covered_iff
  | r3 | r7 =>
    rw [passes_five rfl hlen]
    exact five_iff

/-- The condition on five bytes, for either type that has them. -/
theorem checkExact_five {resp : SdResp} (hfive : resp = .r3 ∨ resp = .r7) (junk : SdJunk)
    (rdata : List Byte) (exp : BitVec 64) :
    CheckExact junk resp rdata exp ↔
      (SameBytes rdata exp 5 → junk.RestFits exp ∨ junk.Blank rdata) ∧
        (¬SameBytes rdata exp 5 →
          ¬(junk.Looks rdata exp ∧ junk.RestFits exp) ∧ ¬junk.Blank rdata) := by
  rcases hfive with rfl | rfl
  · exact Iff.rfl
  · exact Iff.rfl

/-- A mask of the first `n` bytes, as a shift of a word on RV64 makes it with `n` one: the
expected bytes are always taken, and others if the first `n` are as expected or zero. -/
theorem checkExact_byteMask {resp : SdResp} (hfive : resp = .r3 ∨ resp = .r7) {n : Nat}
    (hn : n ≤ 4) (buf : BitVec 64) (rdata : List Byte) (exp : BitVec 64) :
    CheckExact ⟨buf, byteMask n⟩ resp rdata exp ↔
      (¬SameBytes rdata exp 5 → ¬SameBytes rdata exp n ∧ ¬SameBytes rdata 0 n) := by
  have hrest : SdJunk.RestFits ⟨buf, byteMask n⟩ exp := by
    intro i hlo hi hm
    have hlt := (byteMask_lt hi).mp hm
    omega
  have hlooks : SdJunk.Looks ⟨buf, byteMask n⟩ rdata exp ↔ SameBytes rdata exp n := by
    rw [sameBytes_iff]
    exact ⟨fun hall i hi => hall i (by omega) ((byteMask_lt (by omega)).mpr hi),
      fun hall i hi hm => hall i ((byteMask_lt (by omega)).mp hm)⟩
  have hblank : SdJunk.Blank ⟨buf, byteMask n⟩ rdata ↔ SameBytes rdata 0 n := by
    rw [sameBytes_iff]
    constructor
    · intro hall i hi
      exact (hall i (by omega) ((byteMask_lt (by omega)).mpr hi)).trans BitVec.getLsbD_zero.symm
    · intro hall i hi hm
      exact (hall i ((byteMask_lt (by omega)).mp hm)).trans BitVec.getLsbD_zero
  rw [checkExact_five hfive, hlooks, hblank, and_iff_left hrest]
  exact and_iff_right fun _ => Or.inl hrest

/-- A mask folded to all ones: the expected bytes are taken if `buf` happened to hold the rest
of the expected word, or if the first four are zero; others are, if their first four are. -/
theorem checkExact_allOnes {resp : SdResp} (hfive : resp = .r3 ∨ resp = .r7) (buf : BitVec 64)
    (rdata : List Byte) (exp : BitVec 64) :
    CheckExact ⟨buf, BitVec.allOnes 64⟩ resp rdata exp ↔
      (SameBytes rdata exp 5 →
        (∀ k, 5 ≤ k → k < 8 → byteOf buf k = byteOf exp k) ∨ SameBytes rdata 0 4) ∧
      (¬SameBytes rdata exp 5 → ¬SameBytes rdata 0 4) := by
  have hones : ∀ i < 64, (BitVec.allOnes 64).getLsbD i = true := fun i hi => by
    rw [BitVec.getLsbD_allOnes, decide_eq_true hi]
  have hlooks : SdJunk.Looks ⟨buf, BitVec.allOnes 64⟩ rdata exp ↔ SameBytes rdata exp 5 := by
    rw [sameBytes_iff]
    exact forall₂_congr fun i hi => forall_prop_of_true (hones i (by omega))
  have hblank : SdJunk.Blank ⟨buf, BitVec.allOnes 64⟩ rdata ↔ SameBytes rdata 0 4 := by
    rw [sameBytes_iff]
    refine forall₂_congr fun i hi => ?_
    rw [show (0 : BitVec 64).getLsbD i = false from BitVec.getLsbD_zero]
    exact forall_prop_of_true (hones i (by omega))
  have hrest : SdJunk.RestFits ⟨buf, BitVec.allOnes 64⟩ exp ↔
      ∀ k, 5 ≤ k → k < 8 → byteOf buf k = byteOf exp k := by
    constructor
    · intro hfits k hlo hhi
      apply BitVec.eq_of_getLsbD_eq
      intro j hj
      rw [getLsbD_byteOf buf k hj, getLsbD_byteOf exp k hj]
      exact hfits _ (by omega) (by omega) (hones _ (by omega))
    · intro hbytes i hlo hi _
      have hmod : i % 8 < 8 := Nat.mod_lt i (by omega)
      have hbit := congrArg (BitVec.getLsbD · (i % 8)) (hbytes (i / 8) (by omega) (by omega))
      rw [getLsbD_byteOf buf _ hmod, getLsbD_byteOf exp _ hmod, Nat.div_add_mod] at hbit
      exact hbit
  rw [checkExact_five hfive, hlooks, hblank, hrest]
  exact and_congr_right fun _ => forall_congr' fun hother =>
    and_iff_right fun hboth => hother hboth.1

/-- A card that answers every byte with `v`. -/
def constCard (v : Byte) : Env SpiCall := fun _ _ => ⟨0, fun _ => v⟩

def sdIdle : SdSt := ⟨[], ⟨fun _ _ => 0, [], []⟩⟩

/-- An idle card: it answers with `0x01`, and behind that with what CMD8 sent it. -/
def idleCard : Env SpiCall := fun _ q =>
  ⟨0, fun i => if q.seg = .rx 1 then 0x01 else [0x00, 0x00, 0x01, 0xAA].getD i 0⟩

/-- CMD8 answered as expected, where `buf` held zeros. -/
theorem sdCmdCheck_exact_idle :
    (sdCmdCheck ⟨0, 1⟩ 0x87AA01000048 .r7 ⟨0, BitVec.allOnes 64⟩ (some 0xAA01000001) idleCard
        sdIdle).1 = .ok () ↔
      SameBytes [0x01, 0x00, 0x00, 0x01, 0xAA] 0xAA01000001 SdResp.r7.len := by
  have hcmd : ∃ s', sdCmd ⟨0, 1⟩ 0x87AA01000048 .r7 false idleCard sdIdle
      = (.ok [0x01, 0x00, 0x00, 0x01, 0xAA], s') := ⟨_, rfl⟩
  obtain ⟨s', hcmd⟩ := hcmd
  refine (sdCmdCheck_exact_iff idleCard ⟨0, 1⟩ 0x87AA01000048 .r7 ⟨0, BitVec.allOnes 64⟩
    0xAA01000001 hcmd).mpr ((checkExact_allOnes (Or.inr rfl) _ _ _).mpr ⟨fun _ => Or.inl ?_, ?_⟩)
  · have hrest : ∀ k < 8, 5 ≤ k → byteOf 0 k = byteOf 0xAA01000001 k := by decide
    exact fun k hlo hhi => hrest k hhi hlo
  · have hsame : ∀ k < 5, [0x01, 0x00, 0x00, 0x01, 0xAA].getD k 0 = byteOf 0xAA01000001 k := by
      decide
    exact fun hother => absurd hsame hother

/-- CMD0 answered with `0x00`, and CMD8 with five bytes `0x00`, are taken for the responses
that the initialization expects, whatever the mask; and CMD8 answered as expected is refused,
where the mask is all ones and `buf` did not hold zeros. -/
theorem sdCmdCheck_wrong :
    (∀ junk, (sdCmd ⟨0, 1⟩ 0x950000000040 .r1 false (constCard 0) sdIdle).1 = .ok [0x00] ∧
      ¬((sdCmdCheck ⟨0, 1⟩ 0x950000000040 .r1 junk (some 0x01) (constCard 0) sdIdle).1 = .ok () ↔
        SameBytes [0x00] 0x01 SdResp.r1.len)) ∧
    (∀ junk, (sdCmd ⟨0, 1⟩ 0x87AA01000048 .r7 false (constCard 0) sdIdle).1
        = .ok [0x00, 0x00, 0x00, 0x00, 0x00] ∧
      ¬((sdCmdCheck ⟨0, 1⟩ 0x87AA01000048 .r7 junk (some 0xAA01000001) (constCard 0) sdIdle).1
          = .ok () ↔ SameBytes [0x00, 0x00, 0x00, 0x00, 0x00] 0xAA01000001 SdResp.r7.len)) ∧
    (sdCmdCheck ⟨0, 1⟩ 0x87AA01000048 .r7 ⟨BitVec.allOnes 64, BitVec.allOnes 64⟩
        (some 0xAA01000001) idleCard sdIdle).1 = .error (.ret 0x01000001) ∧
      SameBytes [0x01, 0x00, 0x00, 0x01, 0xAA] 0xAA01000001 SdResp.r7.len := by
  have hzero : ∀ k < 1, ([0x00] : List Byte).getD k 0 = byteOf 0 k := by decide
  have hblank : ∀ i < 32, bitOf [0x00, 0x00, 0x00, 0x00, 0x00] i = false := by decide
  refine ⟨fun junk => ⟨rfl, fun h => ?_⟩, fun junk => ⟨rfl, fun h => ?_⟩, ?_, ?_⟩
  · have hcmd : ∃ s', sdCmd ⟨0, 1⟩ 0x950000000040 .r1 false (constCard 0) sdIdle
        = (.ok [0x00], s') := ⟨_, rfl⟩
    obtain ⟨s', hcmd⟩ := hcmd
    have hpass : Passes junk .r1 [0x00] 0x01 := (passes_short (by decide) rfl).mpr (Or.inr hzero)
    exact absurd (h.mp ((sdCmdCheck_ok_iff hcmd).mpr hpass) 0 Nat.one_pos) (by decide)
  · have hcmd : ∃ s', sdCmd ⟨0, 1⟩ 0x87AA01000048 .r7 false (constCard 0) sdIdle
        = (.ok [0x00, 0x00, 0x00, 0x00, 0x00], s') := ⟨_, rfl⟩
    obtain ⟨s', hcmd⟩ := hcmd
    have hpass : Passes junk .r7 [0x00, 0x00, 0x00, 0x00, 0x00] 0xAA01000001 :=
      (passes_five rfl rfl).mpr (Or.inr fun i hi _ => hblank i hi)
    exact absurd (h.mp ((sdCmdCheck_ok_iff hcmd).mpr hpass) 0 (by decide)) (by decide)
  · decide +kernel
  · show ∀ k < 5, [0x01, 0x00, 0x00, 0x01, 0xAA].getD k 0 = byteOf 0xAA01000001 k
    decide

end Cheshire.Sw
