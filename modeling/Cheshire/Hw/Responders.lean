import Cheshire.Hw.RegIndex

/-!
# Who answers at each port of the reg demux

Ports are numbered by `gen_reg_out`; the instances that drive `reg_out_rsp` sit in
generate blocks all over `cheshire_soc`, each under its own conditions. The
instances are listed here as the source has them, the ones in the core loop
apart.

The two sides differ in one place. `gen_reg_out` gives the bus error units of the
VGA and of the DMA a port under `BusErr`, while the units are instantiated inside
`gen_vga` and `gen_dma`. So `all_answer_iff`: every port has its one responder
unless `BusErr` comes without VGA or without DMA.
-/

namespace Cheshire.Hw

open AddrMap

variable {cfg : CheshireCfg}

/-- One instance under a generate condition, as a list of none or one. -/
def genIf (c : Bool) (d : RegDev) : List RegDev := if c then [d] else []

/-- The instances outside the core loop that drive a `reg_out_rsp`. -/
def socInstances (cfg : CheshireCfg) : List RegDev :=
  [.err] ++ genIf (cfg.llcOutConnect && cfg.llcNotBypass) .llc
    ++ [.regs] ++ genIf cfg.irqRouter .irqRouter ++ [.plic] ++ [.clint]
    ++ genIf cfg.axiRt .axirt ++ genIf cfg.bootrom .bootrom ++ genIf cfg.uart .uart
    ++ genIf cfg.i2c .i2c ++ genIf cfg.spiHost .spiHost ++ genIf cfg.gpio .gpio
    -- inside `gen_dma`
    ++ genIf (cfg.dma && cfg.busErr) (.busErr regBusErrDma)
    ++ genIf cfg.serialLink .slink ++ genIf cfg.vga .vga
    -- inside `gen_vga`
    ++ genIf (cfg.vga && cfg.busErr) (.busErr regBusErrVga)

/-- The instances that core `i` has: its bus error unit and its CLIC. -/
def coreInstances (cfg : CheshireCfg) (i : Nat) : List RegDev :=
  genIf cfg.busErr (.busErr (regBusErrCoresBase + i)) ++ genIf cfg.clic (.clic i)

def instances (cfg : CheshireCfg) : List RegDev :=
  socInstances cfg ++ (List.range cfg.numCores.toNat).flatMap (coreInstances cfg)

/-- `reg_out_rsp[num_out-1:ext_base]`, driven from outside. -/
def extResponders (cfg : CheshireCfg) : List (BitVec 6) :=
  if 0 < cfg.regExtNumSlv then
    (List.range ((genRegOut cfg).numOut.toNat - (genRegOut cfg).extBase.toNat)).map
      (regExtPort cfg)
  else []

/-- The ports that are driven, once for each driver, so that a clash shows as a repetition. -/
def responders (cfg : CheshireCfg) : List (BitVec 6) :=
  (instances cfg).map (genRegOut cfg).port ++ extResponders cfg

/-- Each port of the demux has exactly one responder. -/
def AllAnswer (cfg : CheshireCfg) : Prop :=
  ∀ p : BitVec 6, p < (genRegOut cfg).numOut → (responders cfg).count p = 1

/-! ## Devices and instances -/

/-- Whether the generate blocks of `cheshire_soc` make an instance of a device. -/
def RegDev.instantiated (cfg : CheshireCfg) : RegDev → Bool
  | .err | .clint | .plic | .regs => true
  | .bootrom => cfg.bootrom
  | .llc => cfg.llcOutConnect && cfg.llcNotBypass
  | .uart => cfg.uart
  | .i2c => cfg.i2c
  | .spiHost => cfg.spiHost
  | .gpio => cfg.gpio
  | .slink => cfg.serialLink
  | .vga => cfg.vga
  | .axirt => cfg.axiRt
  | .irqRouter => cfg.irqRouter
  | .clic j => cfg.clic && decide (j < cfg.numCores.toNat)
  | .busErr 0 => cfg.vga && cfg.busErr
  | .busErr 1 => cfg.dma && cfg.busErr
  | .busErr (j + 2) => cfg.busErr && decide (j < cfg.numCores.toNat)

theorem mem_genIf {c : Bool} {d d' : RegDev} : d' ∈ genIf c d ↔ c = true ∧ d' = d := by
  cases c <;> simp [genIf]

theorem mem_coreInstances {i : Nat} {d : RegDev} : d ∈ coreInstances cfg i ↔
    (cfg.busErr = true ∧ d = .busErr (2 + i)) ∨ (cfg.clic = true ∧ d = .clic i) := by
  unfold coreInstances
  rw [List.mem_append, mem_genIf, mem_genIf]
  rfl

theorem mem_instances {d : RegDev} : d ∈ instances cfg ↔ d.instantiated cfg = true := by
  unfold instances socInstances
  simp only [List.mem_append, List.mem_flatMap, List.mem_range, List.mem_singleton, mem_genIf,
    mem_coreInstances, regBusErrDma, regBusErrVga]
  cases d with
  | busErr j =>
    match j with
    | 0 =>
      have hidx : ∀ i, ¬0 = 2 + i := by
        intro i
        omega
      simp [RegDev.instantiated, and_comm, hidx]
    | 1 =>
      have hidx : ∀ i, ¬1 = 2 + i := by
        intro i
        omega
      simp [RegDev.instantiated, and_comm, hidx]
    | j + 2 =>
      have hidx : ∀ i, j + 2 = 2 + i ↔ i = j := by
        intro i
        omega
      simp [RegDev.instantiated, and_comm, hidx]
  | clic j => simp [RegDev.instantiated, and_comm]
  | _ => simp [RegDev.instantiated]

/-- No device is instantiated twice. -/
theorem instances_nodup (cfg : CheshireCfg) : (instances cfg).Nodup := by
  have hif : ∀ (c : Bool) (d : RegDev), (genIf c d).Sublist [d] := by
    intro c d
    cases c
    · exact List.nil_sublist _
    · exact List.Sublist.refl _
  have hone : ∀ d : RegDev, [d].Sublist [d] := fun d => List.Sublist.refl _
  have hsoc : (socInstances cfg).Sublist [.err, .llc, .regs, .irqRouter, .plic, .clint, .axirt,
      .bootrom, .uart, .i2c, .spiHost, .gpio, .busErr 1, .slink, .vga, .busErr 0] :=
    ((((((((((((((hone _).append (hif _ _)).append (hone _)).append (hif _ _)).append
      (hone _)).append (hone _)).append (hif _ _)).append (hif _ _)).append (hif _ _)).append
      (hif _ _)).append (hif _ _)).append (hif _ _)).append (hif _ _)).append (hif _ _)).append
      (hif _ _) |>.append (hif _ _)
  refine (hsoc.nodup (by decide)).append ?_ ?_
  · refine List.nodup_flatMap.mpr ⟨fun i _ => ?_, ?_⟩
    · refine List.Nodup.sublist ((hif _ _).append (hif _ _)) ?_
      simp
    · refine List.nodup_range.imp ?_
      intro i j hij d hi hj
      rw [mem_coreInstances] at hi hj
      rcases hi with ⟨_, rfl⟩ | ⟨_, rfl⟩
      · rcases hj with ⟨_, h⟩ | ⟨_, h⟩
        · have hidx := RegDev.busErr.inj h
          omega
        · cases h
      · rcases hj with ⟨_, h⟩ | ⟨_, h⟩
        · cases h
        · exact hij (RegDev.clic.inj h)
  · intro d hd hcore
    have hd := hsoc.subset hd
    obtain ⟨i, _, hi⟩ := List.mem_flatMap.mp hcore
    rw [mem_coreInstances] at hi
    rcases hi with ⟨_, rfl⟩ | ⟨_, rfl⟩
    · simp only [List.mem_cons, List.not_mem_nil, reduceCtorEq, RegDev.busErr.injEq, or_false,
        false_or] at hd
      omega
    · simp at hd

/-- Every instance belongs to a device that has a port. -/
theorem enabled_of_instance {d : RegDev} (hd : d ∈ instances cfg) : d ∈ regDevs cfg := by
  rw [mem_instances] at hd
  rw [mem_regDevs]
  cases d with
  | llc =>
    simp only [RegDev.instantiated, Bool.and_eq_true] at hd
    exact hd.2
  | clic j =>
    simp only [RegDev.instantiated, Bool.and_eq_true, decide_eq_true_eq] at hd
    refine decide_eq_true ?_
    unfold numClic
    rw [if_pos hd.1]
    exact hd.2
  | busErr j =>
    have hbus : cfg.busErr = true ∧ j < 2 + cfg.numCores.toNat := by
      match j with
      | 0 | 1 =>
        simp only [RegDev.instantiated, Bool.and_eq_true] at hd
        exact ⟨hd.2, by omega⟩
      | j + 2 =>
        simp only [RegDev.instantiated, Bool.and_eq_true, decide_eq_true_eq] at hd
        exact ⟨hd.1, by omega⟩
    refine decide_eq_true ?_
    unfold numBusErr
    rw [if_pos hbus.1]
    exact hbus.2
  | _ => exact hd

/-- Every device with a port has an instance, but for two bus error units. -/
theorem instance_of_enabled_iff (hllc : cfg.llcNotBypass = true → cfg.llcOutConnect = true) :
    (∀ d ∈ regDevs cfg, d ∈ instances cfg) ↔
      (cfg.busErr = true → cfg.vga = true ∧ cfg.dma = true) := by
  constructor
  · intro h hbus
    have hunit : ∀ j, j < 2 → (RegDev.busErr j).instantiated cfg = true := by
      intro j hj
      refine mem_instances.mp (h _ ?_)
      rw [mem_regDevs]
      refine decide_eq_true ?_
      unfold numBusErr
      rw [if_pos hbus]
      omega
    have hvga := hunit 0 (by omega)
    have hdma := hunit 1 (by omega)
    simp only [RegDev.instantiated, Bool.and_eq_true] at hvga hdma
    exact ⟨hvga.1, hdma.1⟩
  · intro h d hd
    rw [mem_regDevs] at hd
    rw [mem_instances]
    cases d with
    | llc => exact Bool.and_eq_true_iff.mpr ⟨hllc hd, hd⟩
    | clic j =>
      have hj : j < numClic cfg := of_decide_eq_true hd
      unfold numClic at hj
      split at hj
      next hclic => exact Bool.and_eq_true_iff.mpr ⟨hclic, decide_eq_true hj⟩
      next => exact absurd hj (Nat.not_lt_zero j)
    | busErr j =>
      have hj : j < numBusErr cfg := of_decide_eq_true hd
      unfold numBusErr at hj
      split at hj
      next hbus =>
        match j with
        | 0 => exact Bool.and_eq_true_iff.mpr ⟨(h hbus).1, hbus⟩
        | 1 => exact Bool.and_eq_true_iff.mpr ⟨(h hbus).2, hbus⟩
        | j + 2 => exact Bool.and_eq_true_iff.mpr ⟨hbus, decide_eq_true (by omega)⟩
      next => exact absurd hj (Nat.not_lt_zero j)
    | _ => exact hd

/-! ## Ports and responders -/

theorem extResponders_eq (hfits : RegFits cfg) :
    extResponders cfg = (List.range cfg.regExtNumSlv.toNat).map (regExtPort cfg) := by
  have hfit := hfits.1
  have hlen : (genRegOut cfg).numOut.toNat - (genRegOut cfg).extBase.toNat
      = cfg.regExtNumSlv.toNat := by
    rw [genRegOut_numOut, genRegOut_extBase, BitVec.toNat_ofNat, BitVec.toNat_ofNat]
    omega
  unfold extResponders
  rw [hlen]
  split
  next => rfl
  next h =>
    rw [BitVec.lt_def] at h
    have hzero : cfg.regExtNumSlv.toNat = 0 := Nat.eq_zero_of_not_pos h
    rw [hzero]
    rfl

/-- If the register map fits and there are at most 30 cores, no port of the demux is driven
twice. -/
theorem responders_count_le (hcores : cfg.numCores.toNat ≤ 30) (hfits : RegFits cfg)
    (p : BitVec 6) : (responders cfg).count p ≤ 1 := by
  -- the instances are some of the devices, in another order
  obtain ⟨l, hperm, hsub⟩ :=
    List.subperm_of_subset (instances_nodup cfg) (fun _ hd => enabled_of_instance hd)
  have hdrive : (responders cfg).Perm
      (l.map (genRegOut cfg).port
        ++ (List.range cfg.regExtNumSlv.toNat).map (regExtPort cfg)) := by
    unfold responders
    rw [extResponders_eq hfits]
    exact (hperm.symm.map _).append_right _
  have hle := List.nodup_iff_count_le_one.mp (regPorts_nodup (fun _ => hcores) hfits) p
  rw [hdrive.count_eq]
  exact Nat.le_trans (((hsub.map _).append_right _).count_le p) hle

/-- A device's port is driven exactly when the device has an instance. -/
theorem port_mem_responders (hcores : cfg.numCores.toNat ≤ 30) (hfits : RegFits cfg) {d : RegDev}
    (hd : d ∈ regDevs cfg) : (genRegOut cfg).port d ∈ responders cfg ↔ d ∈ instances cfg := by
  have hnd := regPorts_nodup (fun _ => hcores) hfits
  have hmem : (genRegOut cfg).port d ∈ (regDevs cfg).map (genRegOut cfg).port :=
    List.mem_map_of_mem hd
  unfold responders
  rw [extResponders_eq hfits, List.mem_append]
  constructor
  · intro h
    rcases h with h | h
    · obtain ⟨d', hd', heq⟩ := List.mem_map.mp h
      have hdd := List.inj_on_of_nodup_map (List.Nodup.of_append_left hnd)
        (enabled_of_instance hd') hd heq
      rw [← hdd]
      exact hd'
    · exact absurd h (List.disjoint_of_nodup_append hnd hmem)
  · intro h
    exact Or.inl (List.mem_map_of_mem h)

/-- A configuration answers everywhere exactly when each device has its instance. -/
theorem all_answer_iff_instances (hcores : cfg.numCores.toNat ≤ 30) (hfits : RegFits cfg) :
    AllAnswer cfg ↔ ∀ d ∈ regDevs cfg, d ∈ instances cfg := by
  have hone : AllAnswer cfg ↔ ∀ p ∈ regPorts cfg, p ∈ responders cfg := by
    refine forall_congr' (fun p => ?_)
    rw [mem_regPorts (fun _ => hcores) hfits]
    refine imp_congr_right (fun _ => ?_)
    have hle := responders_count_le hcores hfits p
    rw [← List.count_pos_iff]
    omega
  rw [hone]
  constructor
  · intro h d hd
    exact (port_mem_responders hcores hfits hd).mp
      (h _ (List.mem_append_left _ (List.mem_map_of_mem hd)))
  · intro h p hp
    rcases List.mem_append.mp hp with hp | hp
    · obtain ⟨d, hd, rfl⟩ := List.mem_map.mp hp
      exact (port_mem_responders hcores hfits hd).mpr (h d hd)
    · unfold responders
      rw [extResponders_eq hfits]
      exact List.mem_append_right _ hp

/-- Where every port answers, so does every port a rule selects. -/
theorem selected_port_answers (hcores : cfg.numCores.toNat ≤ 30) (hfits : RegFits cfg)
    (hext : ∀ k < cfg.regExtNumRules.toNat,
      (cfg.regExtRegionIdx k).toNat < cfg.regExtNumSlv.toNat)
    (h : AllAnswer cfg) {a : Addr} {p : BitVec 6} (hsel : Selects (genRegOut cfg).rules a p) :
    (responders cfg).count p = 1 := by
  obtain ⟨⟨r, hr, hc⟩, hall⟩ := hsel
  have hmem := rule_idx_mem (fun _ => hcores) hfits hext hr
  rw [hall r hr hc] at hmem
  exact h p ((mem_regPorts (fun _ => hcores) hfits).mp hmem)

/-- **Every port answers, exactly.** With the counters in range, each port has one
responder if and only if `BusErr` comes with both VGA and DMA. -/
theorem all_answer_iff (cfg : CheshireCfg)
    (hllc : cfg.llcNotBypass = true → cfg.llcOutConnect = true)
    (hcores : cfg.numCores.toNat ≤ 30) (hfits : RegFits cfg) :
    AllAnswer cfg ↔ (cfg.busErr = true → cfg.vga = true ∧ cfg.dma = true) :=
  (all_answer_iff_instances hcores hfits).trans (instance_of_enabled_iff hllc)

theorem all_answer_default : AllAnswer {} :=
  (all_answer_iff {} (fun _ => rfl) (by decide) (by decide)).mpr (fun _ => ⟨rfl, rfl⟩)

/-- Without VGA the unit at `bus_err[0]` is mapped and missing. -/
theorem not_all_answer_no_vga : ¬AllAnswer { vga := false } := by
  intro h
  have hinst := (all_answer_iff_instances (by decide) (by decide)).mp h (.busErr 0) (by decide)
  rw [mem_instances] at hinst
  exact absurd hinst (by decide)

end Cheshire.Hw
