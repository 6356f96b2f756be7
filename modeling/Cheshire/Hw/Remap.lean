import Cheshire.Hw.Decode

/-!
# The SPM address remap in front of the LLC

The SPM is mapped twice, cached at `AmSpm` and uncached 64 MiB above it, and the
LLC knows only the first base. `gen_llc` is to bring both to that base:

    if (aw.addr & ~AmSpmRegionMask == AmSpmBaseUncached & ~AmSpmRegionMask)
      remap.aw.addr = AmSpm | (AmSpmRegionMask & aw.addr);

In SystemVerilog `==` binds tighter than `&`. The comparison is `~AmSpmRegionMask
== AmSpmBaseUncached`, which is 0, and so is its conjunction with anything: the
remap never happens (`genLlcRemap_eq`). Both windows still reach the LLC
(`spm_routed`), but the uncached one under its own addresses.
-/

namespace Cheshire.Hw

open AddrMap

/-- The addresses of the two request channels of `axi_slv_req_t`. -/
structure LlcReq where
  awAddr : Addr
  arAddr : Addr
  deriving DecidableEq

/-- `addr & (~AmSpmRegionMask == AmSpmBaseUncached) & ~AmSpmRegionMask`, the comparison
a single bit extended to the width of its neighbours. -/
def remapCond (addr : Addr) : Addr :=
  addr &&& (BitVec.ofBool (~~~amSpmRegionMask == amSpmBaseUncached)).setWidth 64
    &&& ~~~amSpmRegionMask

/-- `AmSpm | (AmSpmRegionMask & addr)`. -/
def spmAddr (addr : Addr) : Addr := amSpm ||| (amSpmRegionMask &&& addr)

/-- The `always_comb` block of `gen_llc`, on the addresses. -/
def genLlcRemap (cut : LlcReq) : LlcReq :=
  let remap := cut
  let remap := if remapCond cut.awAddr ≠ 0 then { remap with awAddr := spmAddr cut.awAddr }
    else remap
  if remapCond cut.arAddr ≠ 0 then { remap with arAddr := spmAddr cut.arAddr } else remap

/-- The window `[AmSpmBaseUncached, AmSpmBaseUncached + 0x0400_0000)`. -/
def uncachedWindow : Window Addr := ⟨amSpmBaseUncached, amSpmBaseUncached + 0x04000000⟩

/-- An SPM address in either window is routed to the LLC port and presented to the
LLC as the cached one, on both channels; all addresses outside the uncached window
pass unchanged. -/
def AliasSound (cfg : CheshireCfg) : Prop :=
  (∀ o : Addr, o.toNat < (getLlcSize cfg).toNat →
    ∀ a, a = amSpm + o ∨ a = amSpmBaseUncached + o →
      Selects (genAxiOut cfg).rules a ((genAxiOut cfg).port .llc) ∧
      (∀ ar, (genLlcRemap ⟨a, ar⟩).awAddr = amSpm + o) ∧
      ∀ aw, (genLlcRemap ⟨aw, a⟩).arAddr = amSpm + o) ∧
  ∀ req : LlcReq,
    (¬uncachedWindow.Covers req.awAddr → (genLlcRemap req).awAddr = req.awAddr) ∧
    (¬uncachedWindow.Covers req.arAddr → (genLlcRemap req).arAddr = req.arAddr)

theorem remapCond_eq_zero (addr : Addr) : remapCond addr = 0 := by
  have hcmp : (~~~amSpmRegionMask == amSpmBaseUncached) = false := by decide
  unfold remapCond
  rw [hcmp]
  simp

/-- The block passes every request on as it is. -/
theorem genLlcRemap_eq (req : LlcReq) : genLlcRemap req = req := by
  unfold genLlcRemap
  rw [remapCond_eq_zero, remapCond_eq_zero, if_neg (not_not.mpr rfl), if_neg (not_not.mpr rfl)]

/-- Addresses in the cached and in the uncached SPM window are both routed to the LLC's port. -/
theorem spm_routed {cfg : CheshireCfg} (h : Documented cfg) (hllc : cfg.llcNotBypass = true)
    {o : Addr} (ho : o.toNat < (getLlcSize cfg).toNat) {a : Addr}
    (ha : a = amSpm + o ∨ a = amSpmBaseUncached + o) :
    Selects (genAxiOut cfg).rules a ((genAxiOut cfg).port .llc) := by
  have hsize := h.llcSize
  have hs := sizeSpm_toNat cfg
  have hcov : ∃ v ∈ spmWindows cfg, v.Covers a := by
    have hspm : amSpm.toNat = 0x10000000 := rfl
    have hunc : amSpmBaseUncached.toNat = 0x14000000 := rfl
    have hoff : (0x04000000 : Addr).toNat = 0x04000000 := rfl
    rcases ha with rfl | rfl
    · refine ⟨_, List.mem_cons_self .., ?_⟩
      rw [covers_toNat]
      simp only [BitVec.toNat_add, hspm, hs]
      omega
    · refine ⟨_, List.mem_cons_of_mem _ (List.mem_cons_self ..), ?_⟩
      rw [covers_toNat]
      simp only [BitVec.toNat_add, hspm, hunc, hoff, hs]
      omega
  obtain ⟨v, hv, hc⟩ := hcov
  have hrule : (⟨BitVec.ofNat 6 (spmPort cfg), v⟩ : ARul) ∈ (genAxiOut cfg).rules := by
    rw [genAxiOut_rules]
    unfold spmRules
    rw [if_pos hllc]
    simp only [List.mem_append]
    exact Or.inl (Or.inl (Or.inr (List.mem_map_of_mem hv)))
  rw [genAxiOut_port_llc cfg (h.llc hllc)]
  exact selects_of_hits hrule hc (axi_hits_le_one h a)

/-- The uncached base is presented to the LLC as itself. -/
theorem alias_unsound {cfg : CheshireCfg} (h : 0 < (getLlcSize cfg).toNat) : ¬AliasSound cfg := by
  intro hsound
  have hzero : amSpmBaseUncached = amSpmBaseUncached + 0 := by decide
  have haw := (hsound.1 0 h amSpmBaseUncached (Or.inr hzero)).2.1 0
  rw [genLlcRemap_eq] at haw
  exact absurd haw (by decide)

/-- **The windows never alias.** In every configuration, they do if and only if there
is not one byte of SPM. -/
theorem alias_sound_iff (cfg : CheshireCfg) : AliasSound cfg ↔ getLlcSize cfg = 0 := by
  constructor
  · intro hsound
    have hnot : ¬0 < (getLlcSize cfg).toNat := fun hpos => alias_unsound hpos hsound
    apply BitVec.eq_of_toNat_eq
    show _ = 0
    omega
  · intro hzero
    refine ⟨fun o ho => ?_, fun req => ?_⟩
    · rw [hzero] at ho
      exact absurd ho (Nat.not_lt_zero _)
    · rw [genLlcRemap_eq]
      exact ⟨fun _ => rfl, fun _ => rfl⟩

/-- The default configuration has 128 KiB of SPM, so its uncached window is not remapped as it has
to be. -/
theorem alias_unsound_default : ¬AliasSound {} := alias_unsound (by decide)

end Cheshire.Hw
