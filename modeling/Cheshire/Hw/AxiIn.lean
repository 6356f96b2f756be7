import Cheshire.Lib.AddrMap
import Cheshire.Hw.Config

/-!
# `gen_axi_in`: the masters of the crossbar

The crossbar has a port for each core and for the debug module, then optional ones for the
DMA, the serial link and the VGA, then the external ports. `cheshire_soc` wires every master
to the port named after it, each in the block that its feature bit enables.

`axiIn_driven` says that the two go together: for every configuration each request port is
driven, and by one master.
-/

namespace Cheshire.Hw

open AddrMap

/-- The configuration, with the number of external masters. -/
structure AxiMstCfg extends CheshireCfg where
  axiExtNumMst : BitVec 4 := 0

/-- `axi_in_t`: the crossbar's input ports by name, the base of the external ones and the number
of all. -/
structure AxiIn where
  cores : Nat → BitVec 6
  dbg : BitVec 6
  dma : BitVec 6
  slink : BitVec 6
  vga : BitVec 6
  extBase : BitVec 6
  numIn : BitVec 6

/-- `for (int j = 0; j < cfg.NumCores; j++) begin ret.cores[i] = i; i++; end`, on an array of
`2**MaxCoresWidth` fields. -/
def genCorePorts (numCores : Nat) : (Nat → BitVec 6) × Nat :=
  (List.range numCores).foldl
    (fun st _ => (store (2 ^ 5) st.1 st.2 (BitVec.ofNat 6 st.2), st.2 + 1)) (fun _ => 0, 0)

/-- `if (on) begin i++; ret.d = i; end`: the field and the counter. -/
def nextPort (on : Bool) (i : Nat) : BitVec 6 × Nat :=
  if on then (BitVec.ofNat 6 (i + 1), i + 1) else (0, i)

def genAxiIn (cfg : AxiMstCfg) : AxiIn :=
  let (cores, i) := genCorePorts cfg.numCores.toNat
  let dbg := BitVec.ofNat 6 i
  let (dma, i) := nextPort cfg.dma i
  let (slink, i) := nextPort cfg.serialLink i
  let (vga, i) := nextPort cfg.vga i
  let i := i + 1
  ⟨cores, dbg, dma, slink, vga, BitVec.ofNat 6 i, BitVec.ofNat 6 (i + cfg.axiExtNumMst.toNat)⟩

/-- The indices of `axi_in_req` that `cheshire_soc` assigns, in its order: external masters,
cores, debug module, DMA, serial link and VGA. -/
def axiDriven (cfg : AxiMstCfg) : List Nat :=
  let axiIn := genAxiIn cfg
  (if 0 < cfg.axiExtNumMst.toNat then
      -- `[AxiIn.num_in-1:AxiIn.ext_base]`
      List.range' axiIn.extBase.toNat (axiIn.numIn.toNat - axiIn.extBase.toNat) else [])
    ++ (List.range cfg.numCores.toNat).map (fun i => (axiIn.cores i).toNat)
    ++ [axiIn.dbg.toNat]
    ++ (if cfg.dma then [axiIn.dma.toNat] else [])
    ++ (if cfg.serialLink then [axiIn.slink.toNat] else [])
    ++ (if cfg.vga then [axiIn.vga.toNat] else [])

/-! ## The ports in numbers -/

/-- Core `j` has port `j`. -/
theorem genCorePorts_eq {n : Nat} (hn : n ≤ 32) :
    genCorePorts n = (fun j => if j < n then BitVec.ofNat 6 j else 0, n) := by
  induction n with
  | zero => rfl
  | succ n ih =>
    unfold genCorePorts at ih ⊢
    rw [List.range_succ, List.foldl_append, ih (by omega)]
    show (store (2 ^ 5) _ n (BitVec.ofNat 6 n), n + 1) = _
    congr 1
    funext j
    unfold store
    by_cases hj : j = n
    · rw [if_pos ⟨hj, by omega⟩, if_pos (by omega), hj]
    · rw [if_neg fun h => hj h.1]
      dsimp only
      by_cases hlt : j < n
      · rw [if_pos hlt, if_pos (by omega)]
      · rw [if_neg hlt, if_neg (by omega)]

/-- A port number below 64 keeps its value in the field of six bits that holds it. -/
theorem toNat_port {i : Nat} (hi : i < 64) : (BitVec.ofNat 6 i).toNat = i := by
  rw [BitVec.toNat_ofNat]
  exact Nat.mod_eq_of_lt hi

theorem nextPort_le (on : Bool) (i : Nat) :
    i ≤ (nextPort on i).2 ∧ (nextPort on i).2 ≤ i + 1 := by
  cases on with
  | false => exact ⟨Nat.le_refl i, Nat.le_succ i⟩
  | true => exact ⟨Nat.le_succ i, Nat.le_refl _⟩

/-- A device that is enabled takes the next port behind those in use. -/
theorem range_nextPort (on : Bool) {i : Nat} (hi : i < 63) :
    List.range (i + 1) ++ (if on then [(nextPort on i).1.toNat] else [])
      = List.range ((nextPort on i).2 + 1) := by
  cases on with
  | false => exact List.append_nil _
  | true =>
    show _ ++ [(BitVec.ofNat 6 (i + 1)).toNat] = List.range (i + 1 + 1)
    rw [toNat_port (by omega), @List.range_succ (i + 1)]

/-- The internal masters, in their order, have the ports up to `ext_base`. -/
theorem internalPorts_eq (cfg : AxiMstCfg) :
    (List.range cfg.numCores.toNat).map (fun i => ((genAxiIn cfg).cores i).toNat)
      ++ [(genAxiIn cfg).dbg.toNat]
      ++ (if cfg.dma then [(genAxiIn cfg).dma.toNat] else [])
      ++ (if cfg.serialLink then [(genAxiIn cfg).slink.toNat] else [])
      ++ (if cfg.vga then [(genAxiIn cfg).vga.toNat] else [])
      = List.range (genAxiIn cfg).extBase.toNat := by
  have hcores := cfg.numCores.isLt
  unfold genAxiIn
  rw [genCorePorts_eq (by omega)]
  dsimp only
  -- at most 31 cores, and four more ports up to `ext_base`: all fit the 6-bit fields
  have hdma := nextPort_le cfg.dma cfg.numCores.toNat
  have hslink := nextPort_le cfg.serialLink (nextPort cfg.dma cfg.numCores.toNat).2
  have hvga := nextPort_le cfg.vga
    (nextPort cfg.serialLink (nextPort cfg.dma cfg.numCores.toNat).2).2
  have hports : (List.range cfg.numCores.toNat).map
      (fun i => (if i < cfg.numCores.toNat then BitVec.ofNat 6 i else 0).toNat)
      = List.range cfg.numCores.toNat := by
    refine (List.map_congr_left fun i hi => ?_).trans (List.map_id _)
    rw [List.mem_range] at hi
    rw [if_pos hi]
    exact toNat_port (by omega)
  rw [hports, toNat_port (i := cfg.numCores.toNat) (by omega), ← List.range_succ,
    range_nextPort _ (by omega), range_nextPort _ (by omega), range_nextPort _ (by omega),
    toNat_port (by omega)]

/-- No counter of `gen_axi_in` wraps: the number of inputs is the external base and the external
managers. -/
theorem genAxiIn_numIn (cfg : AxiMstCfg) :
    (genAxiIn cfg).numIn.toNat = (genAxiIn cfg).extBase.toNat + cfg.axiExtNumMst.toNat := by
  have hcores := cfg.numCores.isLt
  have hext := cfg.axiExtNumMst.isLt
  unfold genAxiIn
  rw [genCorePorts_eq (by omega)]
  dsimp only
  have hdma := nextPort_le cfg.dma cfg.numCores.toNat
  have hslink := nextPort_le cfg.serialLink (nextPort cfg.dma cfg.numCores.toNat).2
  have hvga := nextPort_le cfg.vga
    (nextPort cfg.serialLink (nextPort cfg.dma cfg.numCores.toNat).2).2
  rw [toNat_port (by omega), toNat_port (by omega)]

/-- **Every port of the crossbar is driven by one master.** -/
theorem axiIn_driven (cfg : AxiMstCfg) :
    (axiDriven cfg).Perm (List.range (genAxiIn cfg).numIn.toNat) := by
  have hinternal := internalPorts_eq cfg
  simp only [List.append_assoc] at hinternal
  unfold axiDriven
  dsimp only
  simp only [List.append_assoc]
  rw [hinternal, genAxiIn_numIn, Nat.add_sub_cancel_left]
  have hext : (if 0 < cfg.axiExtNumMst.toNat then
      List.range' (genAxiIn cfg).extBase.toNat cfg.axiExtNumMst.toNat else [])
      = (List.range cfg.axiExtNumMst.toNat).map ((genAxiIn cfg).extBase.toNat + ·) := by
    by_cases hpos : 0 < cfg.axiExtNumMst.toNat
    · rw [if_pos hpos, List.range'_eq_map_range]
    · rw [if_neg hpos, Nat.eq_zero_of_not_pos hpos]
      rfl
  rw [hext, List.range_add]
  exact List.perm_append_comm

end Cheshire.Hw
