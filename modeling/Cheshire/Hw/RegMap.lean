import Cheshire.Lib.AddrMap
import Cheshire.Hw.Config

/-!
# `gen_reg_out`: the reg demux map

Behind the crossbar's reg port sits a demux with one port for each register
device: an error slave and three fixed devices first, then the optional ones,
one CLIC for each core, one bus error unit for each AXI manager, and the
external slaves.

The code keeps the numbers in six-bit fields, the rules in 64 slots and the
per-core numbers in arrays of 32. Away from those limits it does one thing
(`regRules_eq`, `regPort_eq`): list the enabled devices, number them from 0, and
give each its window of the memory map. `RegFits` is the limit of the counters.
-/

namespace Cheshire.Hw

open AddrMap

/-- The devices behind the reg demux, with the fields of `reg_out_t` that hold
their ports. -/
inductive RegDev where
  | err
  | clint
  | plic
  | regs
  | bootrom
  | llc
  | uart
  | i2c
  | spiHost
  | gpio
  | slink
  | vga
  | axirt
  | irqRouter
  | clic (j : Nat)
  | busErr (j : Nat)
  deriving DecidableEq, Repr

/-- `clic` and `bus_err` are arrays of `2 ** MaxCoresWidth` entries. -/
def RegDev.stored : RegDev → Bool
  | .clic j => decide (j < 32)
  | .busErr j => decide (j < 32)
  | _ => true

abbrev RegEntry := Entry RegDev Addr

/-- `'{err: 0, clint: 1, plic: 2, regs: 3, default: '0}`, the counters and the first
three rules. -/
def regStart : Gen RegDev 6 Addr where
  i := 3
  r := 2
  port
    | .clint => 1
    | .plic => 2
    | .regs => 3
    | _ => 0
  map := store (2 ^ 6) (store (2 ^ 6) (store (2 ^ 6) (fun _ => ⟨0, 0, 0⟩)
    0 ⟨1, 0x02040000, 0x02080000⟩)
    1 ⟨2, 0x04000000, 0x08000000⟩)
    2 ⟨3, amRegs, amRegs + 0x1000⟩

def bootromEntry : RegEntry := ⟨.bootrom, amBrom, amBrom + 0x40000⟩
def llcEntry : RegEntry := ⟨.llc, amLlc, amLlc + 0x1000⟩
def uartEntry : RegEntry := ⟨.uart, 0x03002000, 0x03003000⟩
def i2cEntry : RegEntry := ⟨.i2c, 0x03003000, 0x03004000⟩
def spiHostEntry : RegEntry := ⟨.spiHost, 0x03004000, 0x03005000⟩
def gpioEntry : RegEntry := ⟨.gpio, 0x03005000, 0x03006000⟩
def slinkEntry : RegEntry := ⟨.slink, amSlink, amSlink + 0x1000⟩
def vgaEntry : RegEntry := ⟨.vga, 0x03007000, 0x03008000⟩
def irqRouterEntry : RegEntry := ⟨.irqRouter, 0x02080000, 0x020c0000⟩
def axirtEntry : RegEntry := ⟨.axirt, 0x020c0000, 0x02100000⟩

def clicEntry (j : Nat) : RegEntry :=
  ⟨.clic j, amClic + BitVec.ofNat 64 j * 0x40000, amClic + BitVec.ofNat 64 (j + 1) * 0x40000⟩

def busErrEntry (j : Nat) : RegEntry :=
  ⟨.busErr j, amBusErr + BitVec.ofNat 64 j * 0x40, amBusErr + BitVec.ofNat 64 (j + 1) * 0x40⟩

def regAdd : Gen RegDev 6 Addr → RegEntry → Gen RegDev 6 Addr := Gen.add RegDev.stored

/-- `gen_reg_out` up to the external ports, statement by statement. -/
def genRegInternal (cfg : CheshireCfg) : Gen RegDev 6 Addr :=
  let g := regStart
  let g := if cfg.bootrom then regAdd g bootromEntry else g
  let g := if cfg.llcNotBypass then regAdd g llcEntry else g
  let g := if cfg.uart then regAdd g uartEntry else g
  let g := if cfg.i2c then regAdd g i2cEntry else g
  let g := if cfg.spiHost then regAdd g spiHostEntry else g
  let g := if cfg.gpio then regAdd g gpioEntry else g
  let g := if cfg.serialLink then regAdd g slinkEntry else g
  let g := if cfg.vga then regAdd g vgaEntry else g
  let g := if cfg.irqRouter then regAdd g irqRouterEntry else g
  let g := if cfg.axiRt then regAdd g axirtEntry else g
  let g :=
    if cfg.clic then (List.range cfg.numCores.toNat).foldl (fun g j => regAdd g (clicEntry j)) g
    else g
  if cfg.busErr then
    (List.range (2 + cfg.numCores.toNat)).foldl (fun g j => regAdd g (busErrEntry j)) g
  else g

/-- The external reg rules; `ret.ext_base + cfg.RegExtRegionIdx[k]` is cut to an `aw_bt`. -/
def regExtRules (cfg : CheshireCfg) (extBase : BitVec 6) : List (Rule (BitVec 6) Addr) :=
  (List.range cfg.regExtNumRules.toNat).map fun k =>
    ⟨extBase + (cfg.regExtRegionIdx k).setWidth 6, cfg.regExtRegionStart k, cfg.regExtRegionEnd k⟩

def genRegOut (cfg : CheshireCfg) : Out RegDev 6 Addr :=
  (genRegInternal cfg).finish cfg.regExtNumSlv.toNat (regExtRules cfg)

/-! ## The enabled devices -/

/-- The optional devices of the configuration, in port order. -/
def regOptional (cfg : CheshireCfg) : List RegEntry :=
  (if cfg.bootrom then [bootromEntry] else []) ++ (if cfg.llcNotBypass then [llcEntry] else [])
    ++ (if cfg.uart then [uartEntry] else []) ++ (if cfg.i2c then [i2cEntry] else [])
    ++ (if cfg.spiHost then [spiHostEntry] else []) ++ (if cfg.gpio then [gpioEntry] else [])
    ++ (if cfg.serialLink then [slinkEntry] else []) ++ (if cfg.vga then [vgaEntry] else [])
    ++ (if cfg.irqRouter then [irqRouterEntry] else []) ++ (if cfg.axiRt then [axirtEntry] else [])

/-- How many CLICs and how many bus error units there are. -/
def numClic (cfg : CheshireCfg) : Nat := if cfg.clic then cfg.numCores.toNat else 0

def numBusErr (cfg : CheshireCfg) : Nat := if cfg.busErr then 2 + cfg.numCores.toNat else 0

/-- The devices that are there in every configuration, with their windows. -/
def regFixed : List RegEntry :=
  [⟨.clint, 0x02040000, 0x02080000⟩, ⟨.plic, 0x04000000, 0x08000000⟩,
    ⟨.regs, amRegs, amRegs + 0x1000⟩]

/-- The devices behind `regFixed` that a configuration has, in port order. -/
def regAdded (cfg : CheshireCfg) : List RegEntry :=
  regOptional cfg ++ (List.range (numClic cfg)).map clicEntry
    ++ (List.range (numBusErr cfg)).map busErrEntry

/-- All devices with a rule, in port order from port 1. -/
def regEntries (cfg : CheshireCfg) : List RegEntry := regFixed ++ regAdded cfg

/-- All ports' devices, in port order from port 0, the error slave's. -/
def regDevs (cfg : CheshireCfg) : List RegDev := .err :: (regEntries cfg).map Entry.dev

/-- How many of the one-off optional devices are enabled. -/
def optionalCount (cfg : CheshireCfg) : Nat :=
  cfg.bootrom.toNat + cfg.llcNotBypass.toNat + cfg.uart.toNat + cfg.i2c.toNat + cfg.spiHost.toNat
    + cfg.gpio.toNat + cfg.serialLink.toNat + cfg.vga.toNat + cfg.irqRouter.toNat + cfg.axiRt.toNat

/-- The number of ports up to the external ones. -/
def regPortCount (cfg : CheshireCfg) : Nat :=
  4 + optionalCount cfg + numClic cfg + numBusErr cfg

/-- No counter and no slot number runs past 63. -/
def RegFits (cfg : CheshireCfg) : Prop :=
  regPortCount cfg + cfg.regExtNumSlv.toNat < 64 ∧
    regPortCount cfg - 1 + cfg.regExtNumRules.toNat < 64

instance (cfg : CheshireCfg) : Decidable (RegFits cfg) := inferInstanceAs (Decidable (_ ∧ _))

theorem regOptional_length (cfg : CheshireCfg) :
    (regOptional cfg).length = optionalCount cfg := by
  have hopt : ∀ (c : Bool) (e : RegEntry), (if c then [e] else []).length = c.toNat := by
    intro c e
    cases c <;> rfl
  unfold regOptional optionalCount
  simp only [List.length_append, hopt]

theorem regEntries_length (cfg : CheshireCfg) : (regEntries cfg).length = regPortCount cfg - 1 := by
  have h := regOptional_length cfg
  simp only [regEntries, regAdded, regFixed, regPortCount, List.length_append, List.length_map,
    List.length_range, List.length_cons, List.length_nil]
  omega

theorem regDevs_length (cfg : CheshireCfg) : (regDevs cfg).length = regPortCount cfg := by
  unfold regDevs
  rw [List.length_cons, List.length_map, regEntries_length]
  unfold regPortCount
  omega

theorem genRegInternal_eq (cfg : CheshireCfg) :
    genRegInternal cfg = regStart.addAll RegDev.stored (regAdded cfg) := by
  have hloop : ∀ (c : Bool) (n : Nat) (e : Nat → RegEntry) (g : Gen RegDev 6 Addr),
      (if c then (List.range n).foldl (fun g j => g.add RegDev.stored (e j)) g else g)
        = g.addAll RegDev.stored ((List.range (if c then n else 0)).map e) := by
    intro c n e g
    cases c
    · rfl
    · exact Gen.foldl_add e _
  unfold genRegInternal regAdded regOptional numClic numBusErr regAdd
  simp only [Gen.addAll_append, Gen.ite_add, hloop]

/-! ## Ports and rules -/

/-- `i` and `r` are plain counters: they are right whatever fits. -/
theorem genRegInternal_i (cfg : CheshireCfg) : (genRegInternal cfg).i + 1 = regPortCount cfg := by
  have h := regEntries_length cfg
  rw [genRegInternal_eq, Gen.addAll_i]
  unfold regEntries at h
  rw [List.length_append] at h
  show 3 + (regAdded cfg).length + 1 = _
  have h3 : regFixed.length = 3 := rfl
  have h4 : 4 ≤ regPortCount cfg := by unfold regPortCount; omega
  omega

theorem genRegInternal_r (cfg : CheshireCfg) : (genRegInternal cfg).r + 2 = regPortCount cfg := by
  have h := genRegInternal_i cfg
  rw [genRegInternal_eq, Gen.addAll_i] at h
  rw [genRegInternal_eq, Gen.addAll_r]
  have hi : regStart.i = 3 := rfl
  have hr : regStart.r = 2 := rfl
  omega

theorem genRegOut_numOut (cfg : CheshireCfg) :
    (genRegOut cfg).numOut = BitVec.ofNat 6 (regPortCount cfg + cfg.regExtNumSlv.toNat) := by
  rw [← genRegInternal_i]
  rfl

theorem genRegOut_extBase (cfg : CheshireCfg) :
    (genRegOut cfg).extBase = BitVec.ofNat 6 (regPortCount cfg) := by
  rw [← genRegInternal_i]
  rfl

theorem genRegOut_numRules (cfg : CheshireCfg) :
    (genRegOut cfg).numRules
      = BitVec.ofNat 6 (regPortCount cfg - 1 + cfg.regExtNumRules.toNat) := by
  have h := genRegInternal_r cfg
  unfold genRegOut Gen.finish regExtRules
  dsimp only
  rw [List.length_map, List.length_range]
  congr 2
  omega

/-- The internal rules: one for each device, numbered from port 1. -/
theorem genRegInternal_rules (cfg : CheshireCfg) (h : RegFits cfg) :
    (genRegInternal cfg).rules = numbered 6 1 (regEntries cfg) := by
  have hr := genRegInternal_r cfg
  have hfit := h.2
  rw [genRegInternal_eq, Gen.addAll_r] at hr
  rw [genRegInternal_eq, Gen.rules_addAll _ _ (by show _ < 64; omega)]
  unfold regEntries
  rw [numbered_append]
  congr 1

theorem regRules_eq (cfg : CheshireCfg) (h : RegFits cfg) :
    (genRegOut cfg).rules
      = numbered 6 1 (regEntries cfg) ++ regExtRules cfg (genRegOut cfg).extBase := by
  have hr := genRegInternal_r cfg
  have hfit := h.2
  unfold genRegOut
  rw [Gen.rules_finish, genRegInternal_rules cfg h]
  · rfl
  · show _ < 64
    unfold regExtRules
    rw [List.length_map, List.length_range]
    omega

/-! ## Every enabled device once -/

def RegDev.enabled (cfg : CheshireCfg) : RegDev → Bool
  | .err | .clint | .plic | .regs => true
  | .bootrom => cfg.bootrom
  | .llc => cfg.llcNotBypass
  | .uart => cfg.uart
  | .i2c => cfg.i2c
  | .spiHost => cfg.spiHost
  | .gpio => cfg.gpio
  | .slink => cfg.serialLink
  | .vga => cfg.vga
  | .axirt => cfg.axiRt
  | .irqRouter => cfg.irqRouter
  | .clic j => decide (j < numClic cfg)
  | .busErr j => decide (j < numBusErr cfg)

theorem mem_regDevs (cfg : CheshireCfg) (d : RegDev) : d ∈ regDevs cfg ↔ d.enabled cfg = true := by
  have hopt : ∀ (c : Bool) (e : RegEntry),
      d ∈ (if c then [e] else []).map Entry.dev ↔ c = true ∧ d = e.dev := by
    intro c e
    cases c <;> simp
  unfold regDevs regEntries regAdded regOptional
  simp only [List.map_append, List.mem_cons, List.mem_append, hopt, List.map_map]
  cases d <;> simp [RegDev.enabled, regFixed, bootromEntry, llcEntry, uartEntry, i2cEntry,
    spiHostEntry, gpioEntry, slinkEntry, vgaEntry, irqRouterEntry, axirtEntry, clicEntry,
    busErrEntry]

/-- The devices up to the per-core ones, with the error slave at port 0. -/
def regHead (cfg : CheshireCfg) : List RegDev :=
  .err :: (regFixed ++ regOptional cfg).map Entry.dev

theorem regDevs_eq (cfg : CheshireCfg) : regDevs cfg = regHead cfg
    ++ ((List.range (numClic cfg)).map RegDev.clic
      ++ (List.range (numBusErr cfg)).map RegDev.busErr) := by
  unfold regDevs regEntries regAdded regHead
  simp only [List.map_append, List.map_map, List.append_assoc, List.cons_append]
  rfl

/-- With every option enabled the head is this list; otherwise it is part of it. -/
theorem regHead_sublist (cfg : CheshireCfg) : (regHead cfg).Sublist
    [.err, .clint, .plic, .regs, .bootrom, .llc, .uart, .i2c, .spiHost, .gpio, .slink, .vga,
      .irqRouter, .axirt] := by
  have hopt : ∀ (c : Bool) (e : RegEntry), (if c then [e] else []).Sublist [e] := by
    intro c e
    cases c
    · exact List.nil_sublist _
    · exact List.Sublist.refl _
  have h := ((((((((((hopt cfg.bootrom bootromEntry).append (hopt cfg.llcNotBypass llcEntry)).append
    (hopt cfg.uart uartEntry)).append (hopt cfg.i2c i2cEntry)).append
    (hopt cfg.spiHost spiHostEntry)).append (hopt cfg.gpio gpioEntry)).append
    (hopt cfg.serialLink slinkEntry)).append (hopt cfg.vga vgaEntry)).append
    (hopt cfg.irqRouter irqRouterEntry)).append (hopt cfg.axiRt axirtEntry))
  exact (((List.Sublist.refl regFixed).append h).map Entry.dev).cons_cons _

theorem regDevs_nodup (cfg : CheshireCfg) : (regDevs cfg).Nodup := by
  have hsub := regHead_sublist cfg
  have hclic : ((List.range (numClic cfg)).map RegDev.clic).Nodup :=
    List.nodup_range.map (fun _ _ h => RegDev.clic.inj h)
  have hbus : ((List.range (numBusErr cfg)).map RegDev.busErr).Nodup :=
    List.nodup_range.map (fun _ _ h => RegDev.busErr.inj h)
  rw [regDevs_eq]
  refine (hsub.nodup (by decide)).append (hclic.append hbus ?_) ?_
  · intro d h1 h2
    obtain ⟨j, _, rfl⟩ := List.mem_map.mp h1
    obtain ⟨k, _, h⟩ := List.mem_map.mp h2
    cases h
  · intro d h1 h2
    have h1 := hsub.subset h1
    rcases List.mem_append.mp h2 with h2 | h2
    · obtain ⟨j, _, rfl⟩ := List.mem_map.mp h2
      simp at h1
    · obtain ⟨j, _, rfl⟩ := List.mem_map.mp h2
      simp at h1

theorem genRegOut_port (cfg : CheshireCfg) (d : RegDev) :
    (genRegOut cfg).port d = (regStart.addAll RegDev.stored (regAdded cfg)).port d := by
  rw [← genRegInternal_eq]
  rfl

/-- The port of an enabled device is its position in the list of all enabled devices. -/
theorem regPort_eq (cfg : CheshireCfg) {d : RegDev} (hd : d ∈ regDevs cfg)
    (hs : d.stored = true) :
    (genRegOut cfg).port d = BitVec.ofNat 6 ((regDevs cfg).idxOf d) := by
  have hnd := regDevs_nodup cfg
  unfold regDevs regEntries at hnd hd ⊢
  rw [List.map_append] at hnd hd ⊢
  rw [genRegOut_port]
  by_cases hadd : d ∈ (regAdded cfg).map Entry.dev
  · -- the port was handed out by the counter, behind those of `regFixed`
    rw [← List.cons_append] at hnd ⊢
    have hout : d ∉ RegDev.err :: regFixed.map Entry.dev :=
      fun h => List.disjoint_of_nodup_append hnd h hadd
    rw [Gen.port_addAll _ _ (List.Nodup.of_append_right hnd) hadd hs,
      List.idxOf_append_of_notMem hout]
    rfl
  · -- one of the four ports that `regStart` sets
    rw [Gen.port_addAll_of_not_mem _ _ (Or.inl hadd)]
    rw [← List.cons_append] at hd ⊢
    have hfix := (List.mem_append.mp hd).resolve_right hadd
    rw [List.idxOf_append_of_mem hfix]
    revert hfix
    simp only [regFixed, List.map_cons, List.map_nil, List.mem_cons, List.not_mem_nil, or_false]
    rintro (rfl | rfl | rfl | rfl) <;> rfl

/-- The array of 32 has no place for a 33rd bus error unit. -/
theorem regPort_lost (cfg : CheshireCfg) {d : RegDev} (hs : d.stored = false) :
    (genRegOut cfg).port d = 0 := by
  rw [genRegOut_port, Gen.port_addAll_of_not_mem _ _ (Or.inr hs)]
  cases d <;> first | rfl | cases hs

end Cheshire.Hw
