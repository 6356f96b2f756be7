import Cheshire.Hw.MemoryMap

/-!
# Port numbers of the reg demux

`gen_reg_out` counts ports and rules with plain integers and stores them in
six-bit fields, 64 rule slots and, for the per-core units, arrays of 32. Inside
these limits the ports are `0, 1, 2, ...` in device order (`regPorts_eq`), and
every rule carries its own device's number (`regRules_dev`).

The documented parameter range leaves them in two ways: enough CLICs, bus error
units and external slaves run the counters past 63, and with 31 cores the last
bus error unit has index 32 of an array that ends at 31. `regIndex_sound_iff`
says that nothing else goes wrong.
-/

namespace Cheshire.Hw

open AddrMap

variable {cfg : CheshireCfg}

/-- The port of the demux that external slave `k` is driven at. -/
def regExtPort (cfg : CheshireCfg) (k : Nat) : BitVec 6 :=
  (genRegOut cfg).extBase + BitVec.ofNat 6 k

/-- The ports of the enabled devices, then the external ones. -/
def regPorts (cfg : CheshireCfg) : List (BitVec 6) :=
  (regDevs cfg).map (genRegOut cfg).port
    ++ (List.range cfg.regExtNumSlv.toNat).map (regExtPort cfg)

/-- Every device and external slave has its own port below `num_out`; neither count
wraps; and every rule names the port of the device whose window it holds. -/
structure RegIndexSound (cfg : CheshireCfg) : Prop where
  distinct : (regPorts cfg).Nodup
  below : ∀ p ∈ regPorts cfg, p < (genRegOut cfg).numOut
  numOut : (genRegOut cfg).numOut.toNat = (regDevs cfg).length + cfg.regExtNumSlv.toNat
  numRules : (genRegOut cfg).numRules.toNat = (regEntries cfg).length + cfg.regExtNumRules.toNat
  rules : (genRegOut cfg).rules
    = (regEntries cfg).map (fun e => ⟨(genRegOut cfg).port e.dev, e.dev.window⟩)
      ++ (List.range cfg.regExtNumRules.toNat).map
        (fun k => ⟨regExtPort cfg (cfg.regExtRegionIdx k).toNat,
          cfg.regExtRegionStart k, cfg.regExtRegionEnd k⟩)
  inBlock : ∀ d ∈ regDevs cfg, d.InBlock
  external : ∀ k < cfg.regExtNumRules.toNat,
    regExtPort cfg (cfg.regExtRegionIdx k).toNat ∈ regPorts cfg

/-! ## Inside the limits -/

/-- With at most 30 cores under `BusErr`, every device's field exists. -/
theorem stored_of_mem (hbus : cfg.busErr = true → cfg.numCores.toNat ≤ 30) {d : RegDev}
    (hd : d ∈ regDevs cfg) : d.stored = true := by
  have hcores := cfg.numCores.isLt
  rw [mem_regDevs] at hd
  cases d with
  | clic j =>
    have hj : j < numClic cfg := of_decide_eq_true hd
    unfold numClic at hj
    refine decide_eq_true ?_
    split at hj <;> omega
  | busErr j =>
    have hj : j < numBusErr cfg := of_decide_eq_true hd
    unfold numBusErr at hj
    refine decide_eq_true ?_
    split at hj
    next hb =>
      have hle := hbus hb
      omega
    next => omega
  | _ => rfl

theorem map_idxOf {α : Type} [DecidableEq α] {l : List α} (h : l.Nodup) :
    l.map (fun x => l.idxOf x) = List.range l.length := by
  refine List.ext_getElem (by simp) (fun k h1 h2 => ?_)
  rw [List.getElem_map, List.getElem_range]
  exact h.idxOf_getElem k _

/-- The ports of the enabled devices, in the order in which they are stored, count up from 0. -/
theorem regDevs_ports (hbus : cfg.busErr = true → cfg.numCores.toNat ≤ 30) :
    (regDevs cfg).map (genRegOut cfg).port
      = (List.range (regPortCount cfg)).map (BitVec.ofNat 6) := by
  rw [← regDevs_length, ← map_idxOf (regDevs_nodup cfg), List.map_map]
  refine List.map_congr_left (fun d hd => ?_)
  exact regPort_eq cfg hd (stored_of_mem hbus hd)

theorem regExtPort_eq (cfg : CheshireCfg) (k : Nat) :
    regExtPort cfg k = BitVec.ofNat 6 (regPortCount cfg + k) := by
  unfold regExtPort
  rw [genRegOut_extBase, BitVec.ofNat_add]

/-- All ports of the register demux, those of external devices last, count up from 0. -/
theorem regPorts_eq (hbus : cfg.busErr = true → cfg.numCores.toNat ≤ 30) :
    regPorts cfg
      = (List.range (regPortCount cfg + cfg.regExtNumSlv.toNat)).map (BitVec.ofNat 6) := by
  unfold regPorts
  rw [regDevs_ports hbus, List.range_add, List.map_append, List.map_map]
  congr 1
  exact List.map_congr_left (fun k _ => regExtPort_eq cfg k)

theorem mem_regPorts (hbus : cfg.busErr = true → cfg.numCores.toNat ≤ 30) (hfits : RegFits cfg)
    {p : BitVec 6} : p ∈ regPorts cfg ↔ p < (genRegOut cfg).numOut := by
  have hfit := hfits.1
  rw [regPorts_eq hbus, genRegOut_numOut, BitVec.lt_def, BitVec.toNat_ofNat,
    Nat.mod_eq_of_lt (by omega), List.mem_map]
  constructor
  · intro h
    obtain ⟨k, hk, rfl⟩ := h
    rw [List.mem_range] at hk
    rw [BitVec.toNat_ofNat]
    omega
  · intro h
    exact ⟨p.toNat, List.mem_range.mpr h, BitVec.ofNat_toNat .. ▸ BitVec.setWidth_eq p⟩

theorem regPorts_nodup (hbus : cfg.busErr = true → cfg.numCores.toNat ≤ 30)
    (hfits : RegFits cfg) : (regPorts cfg).Nodup := by
  have hfit := hfits.1
  rw [regPorts_eq hbus]
  refine List.Nodup.map_on ?_ List.nodup_range
  intro j hj k hk heq
  rw [List.mem_range] at hj hk
  have hnat := congrArg BitVec.toNat heq
  rw [BitVec.toNat_ofNat, BitVec.toNat_ofNat] at hnat
  omega

/-- Rule `k` is that of device `k + 1`, under its own port. -/
theorem regRules_dev (hbus : cfg.busErr = true → cfg.numCores.toNat ≤ 30) :
    numbered 6 1 (regEntries cfg)
      = (regEntries cfg).map (fun e => ⟨(genRegOut cfg).port e.dev, e.dev.window⟩) := by
  have hnd := regDevs_nodup cfg
  refine List.ext_getElem (by rw [numbered_length, List.length_map]) (fun k h1 h2 => ?_)
  rw [List.length_map] at h2
  have hmem : (regEntries cfg)[k] ∈ regEntries cfg := List.getElem_mem h2
  have hdev : (regEntries cfg)[k].dev ∈ regDevs cfg :=
    List.mem_cons_of_mem _ (List.mem_map_of_mem hmem)
  -- the error slave has port 0 and no rule
  have hpos : (regDevs cfg).idxOf (regEntries cfg)[k].dev = 1 + k := by
    have hlen : k + 1 < (regDevs cfg).length := by
      simpa [regDevs] using h2
    have hget : (regDevs cfg)[k + 1] = (regEntries cfg)[k].dev := by
      simp [regDevs]
    rw [← hget, hnd.idxOf_getElem (k + 1) hlen, Nat.add_comm]
  rw [numbered_getElem _ _ _ _ h2, List.getElem_map, regPort_eq cfg hdev (stored_of_mem hbus hdev),
    hpos, regEntries_window hmem]

/-- A rule's port is one of the demux, external regions naming existing slaves. -/
theorem rule_idx_mem (hbus : cfg.busErr = true → cfg.numCores.toNat ≤ 30) (hfits : RegFits cfg)
    (hext : ∀ k < cfg.regExtNumRules.toNat,
      (cfg.regExtRegionIdx k).toNat < cfg.regExtNumSlv.toNat)
    {r : Rule (BitVec 6) Addr} (hr : r ∈ (genRegOut cfg).rules) : r.idx ∈ regPorts cfg := by
  rw [regRules_eq cfg hfits, regRules_dev hbus] at hr
  unfold regPorts
  rcases List.mem_append.mp hr with hr | hr
  · obtain ⟨e, he, rfl⟩ := List.mem_map.mp hr
    exact List.mem_append_left _
      (List.mem_map_of_mem (List.mem_cons_of_mem _ (List.mem_map_of_mem he)))
  · obtain ⟨k, hk, rfl⟩ := List.mem_map.mp hr
    rw [List.mem_range] at hk
    exact List.mem_append_right _ (List.mem_map.mpr ⟨_, List.mem_range.mpr (hext k hk), rfl⟩)

/-! ## Beyond them -/

/-- Bus error unit 32 reads its port as 0, the error slave's. -/
theorem busErr_port_lost (cfg : CheshireCfg) :
    (genRegOut cfg).port (.busErr 32) = (genRegOut cfg).port .err := by
  have herr : RegDev.err ∈ regDevs cfg := List.mem_cons_self ..
  rw [regPort_lost cfg rfl, regPort_eq cfg herr rfl]
  rfl

/-- With 31 cores the last bus error unit shares a port. -/
theorem not_distinct_of_cores (hbus : cfg.busErr = true) (hcores : 30 < cfg.numCores.toNat) :
    ¬(regPorts cfg).Nodup := by
  intro hnd
  have hdev : RegDev.busErr 32 ∈ regDevs cfg := by
    rw [mem_regDevs]
    refine decide_eq_true ?_
    unfold numBusErr
    rw [if_pos hbus]
    omega
  have herr : RegDev.err ∈ regDevs cfg := List.mem_cons_self ..
  have heq := List.inj_on_of_nodup_map (List.Nodup.of_append_left hnd) hdev herr
    (busErr_port_lost cfg)
  cases heq

/-- **The index space, exactly.** With the external rules naming external slaves, the
port numbers are sound if and only if the counters fit and there are at most 30
cores under `BusErr`. -/
theorem regIndex_sound_iff (cfg : CheshireCfg)
    (hext : ∀ k < cfg.regExtNumRules.toNat,
      (cfg.regExtRegionIdx k).toNat < cfg.regExtNumSlv.toNat) :
    RegIndexSound cfg ↔
      RegFits cfg ∧ (cfg.busErr = true → cfg.numCores.toNat ≤ 30) := by
  constructor
  · intro h
    have hout := h.numOut
    have hrules := h.numRules
    rw [genRegOut_numOut, BitVec.toNat_ofNat, regDevs_length] at hout
    rw [genRegOut_numRules, BitVec.toNat_ofNat, regEntries_length] at hrules
    refine ⟨⟨by omega, by omega⟩, fun hbus => ?_⟩
    by_contra hcores
    exact not_distinct_of_cores hbus (Nat.lt_of_not_le hcores) h.distinct
  · intro h
    obtain ⟨hfits, hbus⟩ := h
    have hfit := hfits
    unfold RegFits at hfit
    refine ⟨regPorts_nodup hbus hfits, fun p hp => (mem_regPorts hbus hfits).mp hp, ?_, ?_, ?_,
      fun d hd => inBlock_of_mem hd, fun k hk => ?_⟩
    · rw [genRegOut_numOut, BitVec.toNat_ofNat, regDevs_length]
      omega
    · rw [genRegOut_numRules, BitVec.toNat_ofNat, regEntries_length]
      omega
    · rw [regRules_eq cfg hfits, regRules_dev hbus]
      rfl
    · unfold regPorts
      exact List.mem_append_right _ (List.mem_map_of_mem (List.mem_range.mpr (hext k hk)))

/-- 31 cores and bus error units, and nothing else. -/
def manyCoresCfg (cores : BitVec 5) : CheshireCfg where
  numCores := cores
  bootrom := false
  uart := false
  i2c := false
  spiHost := false
  gpio := false
  serialLink := false
  vga := false
  llcNotBypass := false

theorem regIndex_sound_30 : RegIndexSound (manyCoresCfg 30) :=
  (regIndex_sound_iff _ (by decide)).mpr (by decide)

theorem regIndex_unsound_31 : ¬RegIndexSound (manyCoresCfg 31) := by
  intro h
  exact not_distinct_of_cores rfl (by decide) h.distinct

end Cheshire.Hw
