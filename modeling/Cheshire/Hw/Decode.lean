import Cheshire.Hw.AxiMap
import Cheshire.Hw.RegIndex

/-!
# Two-level decode: crossbar, then reg demux

A register access is decoded twice, by the crossbar map and by the reg demux
map, which two functions generate separately. They agree if the crossbar sends
every address of an internal register device to the reg demux, and the reg demux
sends it on to the port that the device is connected to.

The crossbar has one rule for that, `[0x0200_0000, 0x0800_0000)`. It covers every
device but the CLICs, which start right behind it (`span_in_demux`). The reg demux
connects the device at the port its field of `reg_out_t` holds, and with 31 cores
the last bus error unit has no field (`busErr_not_selected`). So `decode_sound_iff`
is exact: every device is reached unless the configuration has CLICs, or bus error
units for 31 cores.
-/

namespace Cheshire.Hw

open AddrMap

/-- The regions a configuration places: LLC out, serial link, external AXI and reg. -/
def extRegions (cfg : CheshireCfg) : List (Window Addr) :=
  (if cfg.llcOutConnect then [⟨cfg.llcOutRegionStart, cfg.llcOutRegionEnd⟩] else [])
    ++ (if cfg.serialLink then [⟨cfg.slinkRegionStart, cfg.slinkRegionEnd⟩] else [])
    ++ (List.range cfg.axiExtNumRules.toNat).map
      (fun k => ⟨cfg.axiExtRegionStart k, cfg.axiExtRegionEnd k⟩)
    ++ (List.range cfg.regExtNumRules.toNat).map
      (fun j => ⟨cfg.regExtRegionStart j, cfg.regExtRegionEnd j⟩)

/-- The documented ranges of the parameters the maps depend on. -/
structure Documented (cfg : CheshireCfg) : Prop where
  cores : 1 ≤ cfg.numCores.toNat
  llc : cfg.llcNotBypass = true → cfg.llcOutConnect = true
  llcSize : (getLlcSize cfg).toNat ≤ 0x04000000
  apart : (extRegions cfg).Pairwise fun v v' => ∀ a, ¬(v.Covers a ∧ v'.Covers a)
  above : ∀ v ∈ extRegions cfg, 0x20000000 ≤ v.start
  fits : RegFits cfg

/-- At most one crossbar rule covers an address. An address of an internal reg rule has
only that one and is routed to the reg demux. An address in the window of an enabled
device selects, in the reg demux, the port that the device is connected to. -/
def DecodeSound (cfg : CheshireCfg) : Prop :=
  ∀ a : Addr, hits (windows (genAxiOut cfg).rules) a ≤ 1 ∧
    (∀ r ∈ (genRegInternal cfg).rules, r.window.Covers a →
      hits (windows (genRegInternal cfg).rules) a = 1 ∧
      Selects (genAxiOut cfg).rules a ((genAxiOut cfg).port .regDemux) ∧
      Selects (genRegOut cfg).rules a r.idx) ∧
    ∀ e ∈ regEntries cfg, e.window.Covers a →
      Selects (genRegOut cfg).rules a ((genRegOut cfg).port e.dev)

variable {cfg : CheshireCfg} {a : Addr}

/-! ## The crossbar -/

/-- The crossbar's own windows, whatever is enabled: debug, reg demux, SPM, DMA. -/
def axiFixed (cfg : CheshireCfg) : List (Window Addr) :=
  windows axiStart.rules ++ (if cfg.llcNotBypass then spmWindows cfg else [])
    ++ (if cfg.dma then [axiDmaEntry.window] else [])

theorem axi_hits_eq (cfg : CheshireCfg) (a : Addr) :
    hits (windows (genAxiOut cfg).rules) a = hits (axiFixed cfg) a + hits (extRegions cfg) a := by
  have hspm : windows (spmRules cfg) = if cfg.llcNotBypass then spmWindows cfg else [] := by
    unfold spmRules windows
    split
    · exact List.map_map.trans (List.map_id _)
    · rfl
  have hopt : ∀ (c : Bool) (e : Entry AxiDev Addr),
      (if c then [e] else []).map Entry.window = if c then [e.window] else [] := by
    intro c e
    cases c <;> rfl
  have happ : ∀ l m : List ARul, windows (l ++ m) = windows l ++ windows m :=
    fun l m => List.map_append
  rw [genAxiOut_rules]
  simp only [happ, windows_numbered, hspm, hits_append, axiFixed, extRegions, axiLlcEntries,
    axiLateEntries, List.map_append, hopt]
  have hext : windows (axiExtRules cfg (genAxiOut cfg).extBase)
      = (List.range cfg.axiExtNumRules.toNat).map
        (fun k => ⟨cfg.axiExtRegionStart k, cfg.axiExtRegionEnd k⟩) := List.map_map
  have hreg : windows (axiRegExtRules cfg)
      = (List.range cfg.regExtNumRules.toNat).map
        (fun j => ⟨cfg.regExtRegionStart j, cfg.regExtRegionEnd j⟩) := List.map_map
  rw [hext, hreg]
  show _ + hits (if cfg.llcOutConnect then [⟨cfg.llcOutRegionStart, cfg.llcOutRegionEnd⟩] else []) a
    + _ + (_ + hits (if cfg.serialLink then [⟨cfg.slinkRegionStart, cfg.slinkRegionEnd⟩] else []) a)
    + _ = _
  omega

theorem covers_toNat (v : Window Addr) (a : Addr) :
    v.Covers a ↔ v.start.toNat ≤ a.toNat ∧ a.toNat < v.pte.toNat := by
  unfold Window.Covers
  rw [BitVec.le_def, BitVec.lt_def]

/-- All five fixed windows in numbers. -/
theorem axiFixed_sublist (hsize : (getLlcSize cfg).toNat ≤ 0x04000000) :
    ∃ s, s ≤ 0x04000000 ∧ ((axiFixed cfg).map fun v => (v.start.toNat, v.pte.toNat)).Sublist
      [(0, 0x40000), (0x02000000, 0x08000000), (0x10000000, 0x10000000 + s),
        (0x14000000, 0x14000000 + s), (0x01000000, 0x01001000)] := by
  refine ⟨(getLlcSize cfg).toNat, hsize, ?_⟩
  have hspm := spmWindows_toNat hsize
  unfold axiFixed
  rw [axiStart_rules, List.map_append, List.map_append]
  show List.Sublist _ ([(0, 0x40000), (0x02000000, 0x08000000), _, _] ++ [_])
  refine List.Sublist.append (List.Sublist.append (List.Sublist.refl _) ?_) ?_
  · split
    · exact hspm ▸ List.Sublist.refl _
    · exact List.nil_sublist _
  · split
    · exact List.Sublist.refl _
    · exact List.nil_sublist _

/-- The fixed windows do not overlap, and stay below the placed regions. -/
theorem axiFixed_hits (hsize : (getLlcSize cfg).toNat ≤ 0x04000000) (a : Addr) :
    hits (axiFixed cfg) a ≤ 1 ∧ (0x20000000 ≤ a.toNat → hits (axiFixed cfg) a = 0) := by
  obtain ⟨s, hs, hsub⟩ := axiFixed_sublist hsize
  constructor
  · refine hits_le_one ?_
    have hpair : ((axiFixed cfg).map fun v => (v.start.toNat, v.pte.toNat)).Pairwise
        fun p q => ¬((p.1 ≤ a.toNat ∧ a.toNat < p.2) ∧ q.1 ≤ a.toNat ∧ a.toNat < q.2) := by
      refine List.Pairwise.sublist hsub ?_
      simp only [List.pairwise_cons, List.mem_cons, List.not_mem_nil, or_false, false_implies,
        implies_true, List.Pairwise.nil, and_true, forall_eq_or_imp, forall_eq]
      omega
    rw [List.pairwise_map] at hpair
    refine hpair.imp ?_
    intro v v' h hboth
    rw [covers_toNat, covers_toNat] at hboth
    exact h hboth
  · intro ha
    rw [hits_eq_zero]
    intro v hv hc
    have hmem := hsub.subset (List.mem_map_of_mem hv)
    rw [covers_toNat] at hc
    simp only [List.mem_cons, List.not_mem_nil, or_false, Prod.mk.injEq] at hmem
    omega

theorem extRegions_hits (h : Documented cfg) (a : Addr) :
    hits (extRegions cfg) a ≤ 1 ∧ (a.toNat < 0x20000000 → hits (extRegions cfg) a = 0) := by
  constructor
  · exact hits_le_one (h.apart.imp (fun hno => hno a))
  · intro ha
    rw [hits_eq_zero]
    intro v hv hc
    have hlo := h.above v hv
    rw [covers_toNat] at hc
    rw [BitVec.le_def] at hlo
    have h20 : (0x20000000 : Addr).toNat = 0x20000000 := rfl
    omega

theorem axi_hits_le_one (h : Documented cfg) (a : Addr) :
    hits (windows (genAxiOut cfg).rules) a ≤ 1 := by
  have hfix := axiFixed_hits h.llcSize a
  have hext := extRegions_hits h a
  rw [axi_hits_eq]
  -- the crossbar's own windows end where the placed regions may begin
  by_cases ha : a.toNat < 0x20000000
  · rw [hext.2 ha]
    exact hfix.1
  · rw [hfix.2 (by omega)]
    omega

/-! ## The reg demux behind it -/

/-- Every internal device but the CLICs lies in the window of the reg demux. -/
theorem span_in_demux {d : RegDev} (hd : d.InBlock) (herr : d ≠ .err) (hclic : ∀ j, d ≠ .clic j) :
    0x02000000 ≤ d.span.start ∧ d.span.pte ≤ 0x08000000 := by
  obtain ⟨hlo, hhi⟩ := hd
  cases d with
  | err => exact absurd rfl herr
  | clic j => exact absurd rfl (hclic j)
  | _ =>
    simp only [RegDev.span, RegDev.block] at hlo hhi ⊢
    omega

/-- Every internal rule of the register demux covers exactly the window of some device. -/
theorem internal_rule (hfits : RegFits cfg) {r : Rule (BitVec 6) Addr}
    (hr : r ∈ (genRegInternal cfg).rules) :
    ∃ d ∈ (regEntries cfg).map Entry.dev, r.window = d.window := by
  have hw : r.window ∈ (regEntries cfg).map Entry.window := by
    rw [genRegInternal_rules cfg hfits] at hr
    rw [← windows_numbered (regEntries cfg) 1 (w := 6)]
    exact List.mem_map_of_mem hr
  obtain ⟨e, he, hew⟩ := List.mem_map.mp hw
  exact ⟨e.dev, List.mem_map_of_mem he, hew.symm.trans (regEntries_window he)⟩

/-- The whole demux map is hit at most once below the placed regions. -/
theorem reg_hits_le_one (h : Documented cfg) (ha : a.toNat < 0x20000000) :
    hits (windows (genRegOut cfg).rules) a ≤ 1 := by
  have hint := regEntries_hits cfg a
  have hext : hits (windows (regExtRules cfg (genRegOut cfg).extBase)) a = 0 := by
    have hzero := (extRegions_hits h a).2 ha
    unfold extRegions at hzero
    rw [hits_append] at hzero
    have hw : windows (regExtRules cfg (genRegOut cfg).extBase)
        = (List.range cfg.regExtNumRules.toNat).map
          (fun j => ⟨cfg.regExtRegionStart j, cfg.regExtRegionEnd j⟩) := List.map_map
    rw [hw]
    omega
  rw [regRules_eq cfg h.fits]
  unfold windows at hext ⊢
  rw [List.map_append, hits_append, hext]
  rw [← windows_numbered (regEntries cfg) 1 (w := 6)] at hint
  exact hint

/-- Without CLICs, an address of an internal reg rule reaches that rule's device. -/
theorem decode_internal (h : Documented cfg) (hclic : cfg.clic = false)
    {r : Rule (BitVec 6) Addr} (hr : r ∈ (genRegInternal cfg).rules) (hc : r.window.Covers a) :
    hits (windows (genRegInternal cfg).rules) a = 1 ∧
      Selects (genAxiOut cfg).rules a ((genAxiOut cfg).port .regDemux) ∧
      Selects (genRegOut cfg).rules a r.idx := by
  obtain ⟨d, hd, hw⟩ := internal_rule h.fits hr
  have hmem : d ∈ regDevs cfg := List.mem_cons_of_mem _ hd
  have hin := inBlock_of_mem hmem
  have herr : d ≠ .err := by
    intro he
    exact (List.nodup_cons.mp (regDevs_nodup cfg)).1 (he ▸ hd)
  have hnoclic : ∀ j, d ≠ .clic j := by
    intro j hj
    rw [hj, mem_regDevs] at hmem
    have hlt : j < numClic cfg := of_decide_eq_true hmem
    unfold numClic at hlt
    rw [hclic] at hlt
    exact absurd hlt (Nat.not_lt_zero j)
  have hspan : d.span.Covers a.toNat := (window_covers hin a).mp (hw ▸ hc)
  have hdemux := span_in_demux hin herr hnoclic
  have hlo : 0x02000000 ≤ a.toNat := Nat.le_trans hdemux.1 hspan.1
  have hhi : a.toNat < 0x08000000 := Nat.lt_of_lt_of_le hspan.2 hdemux.2
  refine ⟨?_, ?_, ?_⟩
  · have hle := regEntries_hits cfg a
    rw [← windows_numbered (regEntries cfg) 1 (w := 6), ← genRegInternal_rules cfg h.fits] at hle
    have hpos : 0 < hits (windows (genRegInternal cfg).rules) a :=
      hits_pos.mpr ⟨r.window, List.mem_map_of_mem hr, hc⟩
    omega
  · rw [genAxiOut_port_regDemux]
    have hrule : (⟨1, 0x02000000, 0x08000000⟩ : ARul) ∈ (genAxiOut cfg).rules := by
      rw [genAxiOut_rules, axiStart_rules]
      simp only [List.cons_append, List.mem_cons, true_or, or_true]
    have hcov : (⟨0x02000000, 0x08000000⟩ : Window Addr).Covers a := by
      rw [covers_toNat]
      exact ⟨hlo, hhi⟩
    exact selects_of_hits hrule hcov (axi_hits_le_one h a)
  · have hrule : r ∈ (genRegOut cfg).rules := by
      rw [regRules_eq cfg h.fits, ← genRegInternal_rules cfg h.fits]
      exact List.mem_append_left _ hr
    exact selects_of_hits hrule hc (reg_hits_le_one h (by omega))

/-- The rule of an entry, numbered by its place behind the error slave. -/
theorem entry_rule (hfits : RegFits cfg) {k : Nat} (hk : k < (regEntries cfg).length) :
    (⟨BitVec.ofNat 6 (1 + k), (regEntries cfg)[k].window⟩ : Rule (BitVec 6) Addr)
      ∈ (genRegInternal cfg).rules := by
  have hlen : k < (numbered 6 1 (regEntries cfg)).length := by
    rw [numbered_length]
    exact hk
  rw [genRegInternal_rules cfg hfits, ← numbered_getElem _ _ _ hlen hk]
  exact List.getElem_mem hlen

/-- With at most 30 cores under `BusErr`, an address of a device selects its port. -/
theorem decode_device (h : Documented cfg) (hclic : cfg.clic = false)
    (hbus : cfg.busErr = true → cfg.numCores.toNat ≤ 30) {e : RegEntry} (he : e ∈ regEntries cfg)
    (hc : e.window.Covers a) :
    Selects (genRegOut cfg).rules a ((genRegOut cfg).port e.dev) := by
  have hmem : (⟨(genRegOut cfg).port e.dev, e.dev.window⟩ : Rule (BitVec 6) Addr)
      ∈ (genRegInternal cfg).rules := by
    rw [genRegInternal_rules cfg h.fits, regRules_dev hbus]
    exact List.mem_map_of_mem he
  rw [regEntries_window he] at hc
  exact (decode_internal h hclic hmem hc).2.2

/-- With 31 cores, the last bus error unit is connected to the error slave's port, and the
rule of its window names another. -/
theorem busErr_not_selected (hfits : RegFits cfg) (hbus : cfg.busErr = true)
    (hcores : 30 < cfg.numCores.toNat) : ¬DecodeSound cfg := by
  intro hsound
  have hlt := cfg.numCores.isLt
  have hdev : RegDev.busErr 32 ∈ regDevs cfg := by
    rw [mem_regDevs]
    refine decide_eq_true ?_
    unfold numBusErr
    rw [if_pos hbus]
    omega
  have hdev : RegDev.busErr 32 ∈ (regEntries cfg).map Entry.dev :=
    (List.mem_cons.mp hdev).resolve_left (by simp)
  obtain ⟨e, he, hed⟩ := List.mem_map.mp hdev
  obtain ⟨k, hk, rfl⟩ := List.getElem_of_mem he
  have hwindow := regEntries_window he
  rw [hed] at hwindow
  have hcov : (regEntries cfg)[k].window.Covers 0x03008800 := by
    rw [hwindow]
    decide
  have hport := ((hsound 0x03008800).2.2 _ he hcov).2 _
    (by rw [regRules_eq cfg hfits, ← genRegInternal_rules cfg hfits]
        exact List.mem_append_left _ (entry_rule hfits hk)) hcov
  rw [hed, regPort_lost cfg rfl] at hport
  -- the rule's number is between 1 and 63
  have hnat := congrArg BitVec.toNat hport
  have hfit := hfits.1
  have hlen := regEntries_length cfg
  rw [BitVec.toNat_ofNat, Nat.mod_eq_of_lt (by omega)] at hnat
  have hzero : 1 + k = 0 := hnat
  omega

/-- The base address of the first CLIC lies in the window of no rule of the crossbar. -/
theorem clic_not_routed (h : Documented cfg) : hits (windows (genAxiOut cfg).rules) amClic = 0 := by
  have hext := (extRegions_hits h amClic).2 (by decide)
  obtain ⟨s, hs, hsub⟩ := axiFixed_sublist h.llcSize
  have hfix : hits (axiFixed cfg) amClic = 0 := by
    rw [hits_eq_zero]
    intro v hv hc
    have hmem := hsub.subset (List.mem_map_of_mem hv)
    rw [covers_toNat] at hc
    have ha : amClic.toNat = 0x08000000 := rfl
    simp only [List.mem_cons, List.not_mem_nil, or_false, Prod.mk.injEq] at hmem
    omega
  rw [axi_hits_eq, hext, hfix]

/-- With CLICs, the first one's base address has a reg rule and no route to it. -/
theorem decode_unsound_of_clic (h : Documented cfg) (hclic : cfg.clic = true) :
    ¬DecodeSound cfg := by
  intro hsound
  have hdev : RegDev.clic 0 ∈ regDevs cfg := by
    rw [mem_regDevs]
    unfold RegDev.enabled numClic
    rw [if_pos hclic]
    exact decide_eq_true h.cores
  have hdev : RegDev.clic 0 ∈ (regEntries cfg).map Entry.dev :=
    (List.mem_cons.mp hdev).resolve_left (by simp)
  obtain ⟨e, he, hed⟩ := List.mem_map.mp hdev
  have hw : (RegDev.clic 0).window ∈ windows (genRegInternal cfg).rules := by
    rw [genRegInternal_rules cfg h.fits, windows_numbered, ← hed, ← regEntries_window he]
    exact List.mem_map_of_mem he
  obtain ⟨r, hr, hrw⟩ := List.mem_map.mp hw
  have hcov : r.window.Covers amClic := by
    rw [hrw]
    decide
  obtain ⟨⟨r', hr', hc'⟩, _⟩ := ((hsound amClic).2.1 r hr hcov).2.1
  have hpos : 0 < hits (windows (genAxiOut cfg).rules) amClic :=
    hits_pos.mpr ⟨r'.window, List.mem_map_of_mem hr', hc'⟩
  rw [clic_not_routed h] at hpos
  exact absurd hpos (Nat.lt_irrefl 0)

/-- **The two levels agree, exactly.** Over the documented parameter ranges, every
address decodes soundly if and only if the configuration has no CLICs, and at most 30
cores if it has bus error units. -/
theorem decode_sound_iff (cfg : CheshireCfg) (h : Documented cfg) :
    DecodeSound cfg ↔
      cfg.clic = false ∧ (cfg.busErr = true → cfg.numCores.toNat ≤ 30) := by
  constructor
  · intro hsound
    refine ⟨?_, fun hbus => ?_⟩
    · cases hclic : cfg.clic with
      | false => rfl
      | true => exact absurd hsound (decode_unsound_of_clic h hclic)
    · by_contra hcores
      exact busErr_not_selected h.fits hbus (Nat.lt_of_not_le hcores) hsound
  · intro ⟨hclic, hbus⟩ a
    exact ⟨axi_hits_le_one h a, fun r hr hc => decode_internal h hclic hr hc,
      fun e he hc => decode_device h hclic hbus he hc⟩

/-- The default configuration, with CLICs or without them. -/
def clicCfg (clic : Bool) : CheshireCfg := { clic := clic }

theorem documented_clicCfg (clic : Bool) : Documented (clicCfg clic) where
  cores := by cases clic <;> decide
  llc := fun _ => rfl
  llcSize := by cases clic <;> decide
  apart := by
    show List.Pairwise _ [(⟨0x80000000, 0x100000000⟩ : Window Addr), ⟨0x100000000, 0x200000000⟩]
    refine List.pairwise_pair.mpr ?_
    intro a h
    rw [covers_toNat, covers_toNat] at h
    exact absurd (Nat.lt_of_lt_of_le h.1.2 h.2.1) (Nat.lt_irrefl _)
  above := by cases clic <;> decide
  fits := by cases clic <;> decide

theorem decode_sound_default : DecodeSound (clicCfg false) :=
  (decode_sound_iff (clicCfg false) (documented_clicCfg false)).mpr ⟨rfl, by decide⟩

theorem decode_unsound_clic : Documented (clicCfg true) ∧ ¬DecodeSound (clicCfg true) :=
  ⟨documented_clicCfg true, decode_unsound_of_clic (documented_clicCfg true) rfl⟩

end Cheshire.Hw
