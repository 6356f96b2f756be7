import Mathlib.Algebra.Group.Nat.Defs
import Mathlib.Order.MinMax
import Cheshire.Hw.Config

/-!
# The AXI user signal of atomics managers

LR/SC reservations and AMOs tell managers apart by a slice of the user signal,
and a slice of zero means that the manager has no atomics. A core writes its
index, shifted by an offset, into the slice; the debug module, the DMA and VGA
keep the default; the serial link sets one bit on what it sends out.

Within the documented ranges nothing is lost in the slice (`core_amoId`,
`slinkTx_amoId`), so all identities are distinct. Whether they are nonzero is up
to the offset alone (`amoUser_sound_iff`): with none, core 0 has the identity of
a manager without atomics.
-/

namespace Cheshire.Hw

/-- The width of the slice `[Cfg.AxiUserAmoMsb:Cfg.AxiUserAmoLsb]`. -/
def amoWidth (cfg : CheshireCfg) : Nat := cfg.axiUserAmoMsb.toNat + 1 - cfg.axiUserAmoLsb.toNat

/-- `user[Cfg.AxiUserAmoMsb:Cfg.AxiUserAmoLsb] = v;` -/
def setAmo {w m : Nat} (cfg : CheshireCfg) (user : BitVec w) (v : BitVec m) : BitVec w :=
  let mask : BitVec w := (BitVec.allOnes (amoWidth cfg)).setWidth w <<< cfg.axiUserAmoLsb.toNat
  (user &&& ~~~mask) ||| ((v.setWidth (amoWidth cfg)).setWidth w <<< cfg.axiUserAmoLsb.toNat)

/-- `user[Cfg.AxiUserAmoMsb:Cfg.AxiUserAmoLsb]`, what the atomics filters read. -/
def amoId {w : Nat} (cfg : CheshireCfg) (user : BitVec w) : BitVec (amoWidth cfg) :=
  user.extractLsb' cfg.axiUserAmoLsb.toNat (amoWidth cfg)

/-- `logic [Cfg.AxiUserWidth-1:0]`, the user field of a request. -/
abbrev User (cfg : CheshireCfg) : Type := BitVec cfg.axiUserWidth.toNat

/-- `core_ur_req.aw.user = Cfg.AxiUserDefault;`, then the slice, in core `i`. The sum has
the width of the slice where that is wider than a `doub_bt`. -/
def coreUser (cfg : CheshireCfg) (i : Nat) : User cfg :=
  let m := max 64 (amoWidth cfg)
  setAmo cfg (cfg.axiUserDefault.setWidth _)
    (cfg.coreUserAmoOffs.setWidth m + BitVec.ofNat m i)

/-- `axi_in_req[AxiIn.dbg].aw.user = Cfg.AxiUserDefault;`, also for the DMA and VGA. -/
def defaultUser (cfg : CheshireCfg) : User cfg := cfg.axiUserDefault.setWidth _

/-- `slink_tx_uar_req.aw.user |= (addr_t'(1) << Cfg.SlinkUserAmoBit);`, in the wider
of the two operands' widths. -/
def slinkTxUser (cfg : CheshireCfg) (user : User cfg) : User cfg :=
  let w := max cfg.axiUserWidth.toNat cfg.addrWidth.toNat
  (user.setWidth w ||| (1#w <<< cfg.slinkUserAmoBit.toNat)).setWidth _

/-- The documented ranges of the parameters: at least one core, and the serial link's bit in the
slice. -/
structure AmoParams (cfg : CheshireCfg) : Prop where
  cores : 1 ≤ cfg.numCores.toNat
  lsb : cfg.axiUserAmoLsb.toNat ≤ cfg.slinkUserAmoBit.toNat
  bit : cfg.slinkUserAmoBit.toNat ≤ cfg.axiUserAmoMsb.toNat
  msb : cfg.axiUserAmoMsb.toNat < cfg.axiUserWidth.toNat
  offs : cfg.coreUserAmoOffs.toNat + cfg.numCores.toNat
    ≤ 2 ^ (cfg.slinkUserAmoBit.toNat - cfg.axiUserAmoLsb.toNat)
  default : amoId cfg (defaultUser cfg) = 0

/-- What makes the identities usable: local cores differ from each other, from zero and
from the managers without atomics, and remote cores differ from all of them. -/
structure AmoSound (cfg : CheshireCfg) : Prop where
  local_ne : ∀ i < cfg.numCores.toNat, ∀ j < cfg.numCores.toNat, i ≠ j →
    amoId cfg (coreUser cfg i) ≠ amoId cfg (coreUser cfg j)
  nonzero : ∀ i < cfg.numCores.toNat, amoId cfg (coreUser cfg i) ≠ 0
  default_ne : ∀ i < cfg.numCores.toNat, amoId cfg (coreUser cfg i) ≠ amoId cfg (defaultUser cfg)
  remote_local_ne : ∀ i < cfg.numCores.toNat, ∀ j < cfg.numCores.toNat,
    amoId cfg (slinkTxUser cfg (coreUser cfg i)) ≠ amoId cfg (coreUser cfg j)
  remote_ne : ∀ i < cfg.numCores.toNat, ∀ j < cfg.numCores.toNat, i ≠ j →
    amoId cfg (slinkTxUser cfg (coreUser cfg i)) ≠ amoId cfg (slinkTxUser cfg (coreUser cfg j))

variable {cfg : CheshireCfg} {i : Nat}

theorem amoWidth_pos (h : AmoParams cfg) :
    cfg.slinkUserAmoBit.toNat - cfg.axiUserAmoLsb.toNat < amoWidth cfg := by
  have hlsb := h.lsb
  have hbit := h.bit
  unfold amoWidth
  omega

/-- The slice holds what was written to it. -/
theorem amoId_setAmo {w m : Nat} (hmsb : cfg.axiUserAmoMsb.toNat < w) (user : BitVec w)
    (v : BitVec m) : amoId cfg (setAmo cfg user v) = v.setWidth (amoWidth cfg) := by
  apply BitVec.eq_of_getLsbD_eq
  intro k hk
  have hw : cfg.axiUserAmoLsb.toNat + k < w := by
    unfold amoWidth at hk
    omega
  have hlsb : ¬cfg.axiUserAmoLsb.toNat + k < cfg.axiUserAmoLsb.toNat := by omega
  unfold amoId setAmo
  simp [hk, hw, hlsb]

/-- A core's identity is its index from the offset on, nothing cut off. -/
theorem core_amoId (h : AmoParams cfg) (hi : i < cfg.numCores.toNat) :
    (amoId cfg (coreUser cfg i)).toNat = cfg.coreUserAmoOffs.toNat + i ∧
      cfg.coreUserAmoOffs.toNat + i
        < 2 ^ (cfg.slinkUserAmoBit.toNat - cfg.axiUserAmoLsb.toNat) := by
  have hoffs := h.offs
  have hpos := amoWidth_pos h
  have hpow : 2 ^ (cfg.slinkUserAmoBit.toNat - cfg.axiUserAmoLsb.toNat) ≤ 2 ^ amoWidth cfg :=
    Nat.pow_le_pow_right (by omega) (by omega)
  have hmax : 2 ^ amoWidth cfg ≤ 2 ^ max 64 (amoWidth cfg) :=
    Nat.pow_le_pow_right (by omega) (Nat.le_max_right ..)
  refine ⟨?_, by omega⟩
  unfold coreUser
  rw [amoId_setAmo h.msb]
  simp only [BitVec.toNat_setWidth, BitVec.toNat_add, BitVec.toNat_ofNat, Nat.mod_add_mod,
    Nat.add_mod_mod]
  rw [Nat.mod_mod_of_dvd _ (Nat.pow_dvd_pow 2 (Nat.le_max_right ..)), Nat.mod_eq_of_lt (by omega)]

/-- The serial link's bit is the only change to the slice. -/
theorem slinkTx_amoId (h : AmoParams cfg) (user : User cfg) :
    amoId cfg (slinkTxUser cfg user)
      = amoId cfg user ||| 1#_ <<< (cfg.slinkUserAmoBit.toNat - cfg.axiUserAmoLsb.toNat) := by
  have hlsb := h.lsb
  have hbit := h.bit
  have hmsb := h.msb
  apply BitVec.eq_of_getLsbD_eq
  intro k hk
  have hw : cfg.axiUserAmoLsb.toNat + k < cfg.axiUserWidth.toNat := by
    unfold amoWidth at hk
    omega
  have hlt : cfg.axiUserAmoLsb.toNat + k < cfg.slinkUserAmoBit.toNat
      ↔ k < cfg.slinkUserAmoBit.toNat - cfg.axiUserAmoLsb.toNat := by omega
  have hsub : cfg.axiUserAmoLsb.toNat + k - cfg.slinkUserAmoBit.toNat
      = k - (cfg.slinkUserAmoBit.toNat - cfg.axiUserAmoLsb.toNat) := by omega
  unfold amoId slinkTxUser
  simp [hk, hw, hlt, hsub]

/-- Behind the serial link a core's identity lies above all local ones. -/
theorem remote_amoId (h : AmoParams cfg) (hi : i < cfg.numCores.toNat) :
    (amoId cfg (slinkTxUser cfg (coreUser cfg i))).toNat
      = 2 ^ (cfg.slinkUserAmoBit.toNat - cfg.axiUserAmoLsb.toNat)
        + (cfg.coreUserAmoOffs.toNat + i) := by
  obtain ⟨hid, hlt⟩ := core_amoId h hi
  have hpos := amoWidth_pos h
  have hpow : 2 ^ (cfg.slinkUserAmoBit.toNat - cfg.axiUserAmoLsb.toNat) < 2 ^ amoWidth cfg :=
    Nat.pow_lt_pow_right (by omega) hpos
  have hone : 1 % 2 ^ amoWidth cfg = 1 :=
    Nat.mod_eq_of_lt (Nat.one_lt_two_pow (by omega))
  have hor := Nat.two_pow_add_eq_or_of_lt hlt 1
  rw [Nat.mul_one] at hor
  rw [slinkTx_amoId h, BitVec.toNat_or, BitVec.toNat_shiftLeft, BitVec.toNat_ofNat, hone, hid,
    Nat.shiftLeft_eq, Nat.one_mul, Nat.mod_eq_of_lt hpow, Nat.or_comm, ← hor]

/-- The identities are usable exactly if the cores have an offset. -/
theorem amoUser_sound_iff (h : AmoParams cfg) : AmoSound cfg ↔ cfg.coreUserAmoOffs ≠ 0 := by
  have hcores := h.cores
  constructor
  · intro hs hoffs
    apply hs.nonzero 0 hcores
    apply BitVec.eq_of_toNat_eq
    rw [(core_amoId h hcores).1, hoffs]
    rfl
  · intro hoffs
    have hpos : 0 < cfg.coreUserAmoOffs.toNat :=
      Nat.pos_of_ne_zero fun h0 => hoffs (BitVec.eq_of_toNat_eq h0)
    have hnonzero : ∀ i < cfg.numCores.toNat, amoId cfg (coreUser cfg i) ≠ 0 := by
      intro i hi heq
      have hid := (core_amoId h hi).1
      rw [heq, show BitVec.toNat (0 : BitVec (amoWidth cfg)) = 0 from BitVec.toNat_zero] at hid
      omega
    refine ⟨?_, hnonzero, ?_, ?_, ?_⟩
    · intro i hi j hj hne heq
      have hij := (core_amoId h hi).1.symm.trans
        ((congrArg BitVec.toNat heq).trans (core_amoId h hj).1)
      omega
    · intro i hi
      rw [h.default]
      exact hnonzero i hi
    · -- a remote identity has the link's bit, a local one is below it
      intro i hi j hj heq
      have hij := (remote_amoId h hi).symm.trans
        ((congrArg BitVec.toNat heq).trans (core_amoId h hj).1)
      have hlt := (core_amoId h hj).2
      omega
    · intro i hi j hj hne heq
      have hij := (remote_amoId h hi).symm.trans
        ((congrArg BitVec.toNat heq).trans (remote_amoId h hj))
      omega

theorem amoParams_default : AmoParams {} :=
  ⟨by decide, by decide, by decide, by decide, by decide, by decide⟩

/-- Four cores behind an offset of one, with four user bits. -/
theorem amoUser_sound_offset : AmoSound
    { numCores := 4, coreUserAmoOffs := 1, axiUserWidth := 4, axiUserAmoMsb := 3,
      slinkUserAmoBit := 3 } :=
  (amoUser_sound_iff ⟨by decide, by decide, by decide, by decide, by decide, by decide⟩).mpr
    (by decide)

/-- By default core 0 has the identity of a manager without atomics. -/
theorem amoUser_default_unsound : AmoParams {} ∧ ¬AmoSound {} :=
  ⟨amoParams_default, fun hs => hs.nonzero 0 (by decide) (by decide)⟩

end Cheshire.Hw
