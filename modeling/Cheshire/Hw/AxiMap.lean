import Cheshire.Lib.AddrMap
import Cheshire.Hw.Config

/-!
# `gen_axi_out`: the crossbar map

The crossbar has fixed ports for debug and the reg demux, then optional ones for
the LLC (or its bypass), the DMA and the serial link, then the external ports.
The two SPM windows have no port of their own: they share the number reached
when they are mapped, which is the LLC's. External reg regions are routed to the
reg demux.

`genAxiOut_rules` gives the whole map as a list, for every configuration: at
most 37 of the 64 slots are ever used.
-/

namespace Cheshire.Hw

open AddrMap

inductive AxiDev where
  | dbg
  | regDemux
  | llc
  | spm
  | dma
  | slink
  deriving DecidableEq, Repr

/-- `arul_t`, an address rule with a port index of six bits. -/
abbrev ARul := Rule (BitVec 6) Addr

/-- `'{dbg: 0, reg_demux: 1, default: '0}`, the counters and the first two rules. -/
def axiStart : Gen AxiDev 6 Addr where
  i := 1
  r := 1
  port d := if d = .regDemux then 1 else 0
  map := store (2 ^ 6)
    (store (2 ^ 6) (fun _ => ⟨0, 0, 0⟩) 0 ⟨0, amDbg, amDbg + 0x40000⟩)
    1 ⟨1, 0x02000000, 0x08000000⟩

def axiLlcEntry (cfg : CheshireCfg) : Entry AxiDev Addr :=
  ⟨.llc, cfg.llcOutRegionStart, cfg.llcOutRegionEnd⟩

def axiDmaEntry : Entry AxiDev Addr := ⟨.dma, 0x01000000, 0x01001000⟩

def axiSlinkEntry (cfg : CheshireCfg) : Entry AxiDev Addr :=
  ⟨.slink, cfg.slinkRegionStart, cfg.slinkRegionEnd⟩

/-- The cached SPM window, then the uncached one. -/
def spmWindows (cfg : CheshireCfg) : List (Window Addr) :=
  [⟨amSpm, amSpm + sizeSpm cfg⟩,
    ⟨amSpm + 0x04000000, amSpm + 0x04000000 + sizeSpm cfg⟩]

/-- The external AXI rules; `ret.ext_base + cfg.AxiExtRegionIdx[k]` is cut to an `aw_bt`. -/
def axiExtRules (cfg : CheshireCfg) (extBase : BitVec 6) : List ARul :=
  (List.range cfg.axiExtNumRules.toNat).map fun k =>
    ⟨extBase + (cfg.axiExtRegionIdx k).setWidth 6, cfg.axiExtRegionStart k, cfg.axiExtRegionEnd k⟩

/-- The external reg regions, which the crossbar directs to the reg demux. -/
def axiRegExtRules (cfg : CheshireCfg) : List ARul :=
  (List.range cfg.regExtNumRules.toNat).map fun j =>
    ⟨1, cfg.regExtRegionStart j, cfg.regExtRegionEnd j⟩

def axiAdd : Gen AxiDev 6 Addr → Entry AxiDev Addr → Gen AxiDev 6 Addr := Gen.add fun _ => true

/-- `gen_axi_out` up to the external ports, statement by statement. -/
def genAxiInternal (cfg : CheshireCfg) : Gen AxiDev 6 Addr :=
  let g := axiStart
  let g := if cfg.llcOutConnect then axiAdd g (axiLlcEntry cfg) else g
  let g := if cfg.llcNotBypass then (spmWindows cfg).foldl Gen.rule (g.name .spm) else g
  let g := if cfg.dma then axiAdd g axiDmaEntry else g
  if cfg.serialLink then axiAdd g (axiSlinkEntry cfg) else g

def genAxiOut (cfg : CheshireCfg) : Out AxiDev 6 Addr :=
  (genAxiInternal cfg).finish cfg.axiExtNumSlv.toNat fun extBase =>
    axiExtRules cfg extBase ++ axiRegExtRules cfg

/-- The SPM windows in numbers, for an LLC of at most 64 MiB. -/
theorem spmWindows_toNat {cfg : CheshireCfg} (hsize : (getLlcSize cfg).toNat ≤ 0x04000000) :
    (spmWindows cfg).map (fun v => (v.start.toNat, v.pte.toNat))
      = [(0x10000000, 0x10000000 + (getLlcSize cfg).toNat),
        (0x14000000, 0x14000000 + (getLlcSize cfg).toNat)] := by
  have hs := sizeSpm_toNat cfg
  simp only [spmWindows, List.map_cons, List.map_nil, BitVec.toNat_add, hs, amSpm,
    BitVec.ofNat_eq_ofNat, BitVec.toNat_ofNat, List.cons.injEq, Prod.mk.injEq, and_true, true_and]
  omega

/-! ## The map as a list -/

/-- The entry of the LLC as a list, empty when it is not connected. -/
def axiLlcEntries (cfg : CheshireCfg) : List (Entry AxiDev Addr) :=
  if cfg.llcOutConnect then [axiLlcEntry cfg] else []

/-- The DMA's and the serial link's entries when they are enabled. -/
def axiLateEntries (cfg : CheshireCfg) : List (Entry AxiDev Addr) :=
  (if cfg.dma then [axiDmaEntry] else []) ++ (if cfg.serialLink then [axiSlinkEntry cfg] else [])

/-- The number the SPM rules carry: the last port handed out before them. -/
def spmPort (cfg : CheshireCfg) : Nat := 1 + (axiLlcEntries cfg).length

def spmRules (cfg : CheshireCfg) : List ARul :=
  if cfg.llcNotBypass then (spmWindows cfg).map fun v => ⟨BitVec.ofNat 6 (spmPort cfg), v⟩ else []

/-- The state of the generator after the optional LLC. -/
def genAxiLlc (cfg : CheshireCfg) : Gen AxiDev 6 Addr :=
  axiStart.addAll (fun _ => true) (axiLlcEntries cfg)

/-- The state of the generator after the two SPM windows. -/
def genAxiSpm (cfg : CheshireCfg) : Gen AxiDev 6 Addr :=
  if cfg.llcNotBypass then (spmWindows cfg).foldl Gen.rule ((genAxiLlc cfg).name .spm)
  else genAxiLlc cfg

theorem genAxiInternal_eq (cfg : CheshireCfg) :
    genAxiInternal cfg = (genAxiSpm cfg).addAll (fun _ => true) (axiLateEntries cfg) := by
  unfold genAxiInternal genAxiSpm genAxiLlc axiLlcEntries axiLateEntries axiAdd
  rw [Gen.addAll_append]
  simp only [Gen.ite_add]

theorem axiStart_rules : axiStart.rules
    = [⟨0, amDbg, amDbg + 0x40000⟩, ⟨1, 0x02000000, 0x08000000⟩] := by decide

theorem axiLlcEntries_length (cfg : CheshireCfg) : (axiLlcEntries cfg).length ≤ 1 := by
  unfold axiLlcEntries
  split <;> simp

theorem axiLateEntries_length (cfg : CheshireCfg) : (axiLateEntries cfg).length ≤ 2 := by
  unfold axiLateEntries
  split <;> split <;> simp

theorem genAxiLlc_i (cfg : CheshireCfg) : (genAxiLlc cfg).i = spmPort cfg := Gen.addAll_i _ _

theorem genAxiLlc_r (cfg : CheshireCfg) : (genAxiLlc cfg).r = spmPort cfg := Gen.addAll_r _ _

theorem genAxiLlc_rules (cfg : CheshireCfg) :
    (genAxiLlc cfg).rules = axiStart.rules ++ numbered 6 2 (axiLlcEntries cfg) := by
  have h := axiLlcEntries_length cfg
  exact Gen.rules_addAll _ _ (by show 1 + _ < 64; omega)

theorem genAxiSpm_rules (cfg : CheshireCfg) :
    (genAxiSpm cfg).rules = (genAxiLlc cfg).rules ++ spmRules cfg := by
  have hlen := axiLlcEntries_length cfg
  have hr := genAxiLlc_r cfg
  unfold spmPort at hr
  unfold genAxiSpm spmRules
  split
  · simp only [spmWindows, List.foldl_cons, List.foldl_nil, Gen.rule]
    rw [Gen.rules_push _ (by show _ + 1 + 1 < 64; simp only [Gen.name]; omega),
      Gen.rules_push _ (by show _ + 1 < 64; simp only [Gen.name]; omega)]
    simp only [Gen.push, Gen.name, genAxiLlc_i, List.append_assoc]
    rfl
  · rw [List.append_nil]

theorem genAxiSpm_i (cfg : CheshireCfg) : (genAxiSpm cfg).i = spmPort cfg := by
  unfold genAxiSpm
  split
  · exact genAxiLlc_i cfg
  · exact genAxiLlc_i cfg

theorem genAxiSpm_r (cfg : CheshireCfg) : (genAxiSpm cfg).r ≤ 4 := by
  have hlen := axiLlcEntries_length cfg
  have hr := genAxiLlc_r cfg
  unfold spmPort at hr
  unfold genAxiSpm
  split
  · show (genAxiLlc cfg).r + 1 + 1 ≤ 4
    omega
  · omega

theorem genAxiInternal_rules (cfg : CheshireCfg) :
    (genAxiInternal cfg).rules = axiStart.rules ++ numbered 6 2 (axiLlcEntries cfg) ++ spmRules cfg
      ++ numbered 6 (spmPort cfg + 1) (axiLateEntries cfg) := by
  have hr := genAxiSpm_r cfg
  have hlen := axiLateEntries_length cfg
  rw [genAxiInternal_eq, Gen.rules_addAll _ _ (by show _ < 64; omega), genAxiSpm_rules,
    genAxiLlc_rules, genAxiSpm_i]

/-- The rules the crossbar is given. -/
theorem genAxiOut_rules (cfg : CheshireCfg) :
    (genAxiOut cfg).rules = axiStart.rules ++ numbered 6 2 (axiLlcEntries cfg) ++ spmRules cfg
      ++ numbered 6 (spmPort cfg + 1) (axiLateEntries cfg)
      ++ (axiExtRules cfg (genAxiOut cfg).extBase ++ axiRegExtRules cfg) := by
  have hr := genAxiSpm_r cfg
  have hlen := axiLateEntries_length cfg
  have hext := cfg.axiExtNumRules.isLt
  have hreg := cfg.regExtNumRules.isLt
  unfold genAxiOut
  rw [Gen.rules_finish, genAxiInternal_rules]
  · rfl
  · show _ < 64
    rw [genAxiInternal_eq, Gen.addAll_r]
    simp only [List.length_append, axiExtRules, axiRegExtRules, List.length_map, List.length_range]
    omega

theorem genAxiOut_port_regDemux (cfg : CheshireCfg) : (genAxiOut cfg).port .regDemux = 1 := by
  have hspm : (genAxiSpm cfg).port .regDemux = 1 := by
    have hllc : (genAxiLlc cfg).port .regDemux = 1 := by
      unfold genAxiLlc axiLlcEntries
      split <;> rfl
    unfold genAxiSpm
    split
    · exact hllc
    · exact hllc
  show (genAxiInternal cfg).port .regDemux = 1
  rw [genAxiInternal_eq]
  unfold axiLateEntries
  split <;> split <;> exact hspm

theorem genAxiOut_port_llc (cfg : CheshireCfg) (h : cfg.llcOutConnect = true) :
    (genAxiOut cfg).port .llc = BitVec.ofNat 6 (spmPort cfg) := by
  have hspm : (genAxiSpm cfg).port .llc = BitVec.ofNat 6 (spmPort cfg) := by
    have hllc : (genAxiLlc cfg).port .llc = BitVec.ofNat 6 (spmPort cfg) := by
      unfold genAxiLlc spmPort axiLlcEntries
      rw [if_pos h]
      rfl
    unfold genAxiSpm
    split
    · exact hllc
    · exact hllc
  show (genAxiInternal cfg).port .llc = _
  rw [genAxiInternal_eq]
  unfold axiLateEntries
  split <;> split <;> exact hspm

end Cheshire.Hw
