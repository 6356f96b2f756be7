import Cheshire.Hw.RegMap

/-!
# The register part of the memory map

The documented map gives each register device a block of fixed location and
size; the CLICs and the bus error units share one block each, one unit after
another. `devAt` reads the map the other way, from an address to its device, so
no address belongs to two of them (`devAt_of_span`). The rules of `gen_reg_out`
hold exactly these windows (`regEntries_window`), hence cover an address at most
once (`regEntries_hits`).
-/

namespace Cheshire.Hw

open AddrMap

/-- The block of a device, `start` and end. The error slave has none. -/
def RegDev.block : RegDev → Window Nat
  | .err => ⟨0, 0⟩
  | .bootrom => ⟨0x02000000, 0x02040000⟩
  | .clint => ⟨0x02040000, 0x02080000⟩
  | .irqRouter => ⟨0x02080000, 0x020C0000⟩
  | .axirt => ⟨0x020C0000, 0x02100000⟩
  | .regs => ⟨0x03000000, 0x03001000⟩
  | .llc => ⟨0x03001000, 0x03002000⟩
  | .uart => ⟨0x03002000, 0x03003000⟩
  | .i2c => ⟨0x03003000, 0x03004000⟩
  | .spiHost => ⟨0x03004000, 0x03005000⟩
  | .gpio => ⟨0x03005000, 0x03006000⟩
  | .slink => ⟨0x03006000, 0x03007000⟩
  | .vga => ⟨0x03007000, 0x03008000⟩
  | .busErr _ => ⟨0x03008000, 0x03009000⟩
  | .plic => ⟨0x04000000, 0x08000000⟩
  | .clic _ => ⟨0x08000000, 0x0C000000⟩

/-- The part of its block a device occupies: all of it, or one unit's share. -/
def RegDev.span : RegDev → Window Nat
  | .clic j => ⟨0x08000000 + j * 0x40000, 0x08000000 + (j + 1) * 0x40000⟩
  | .busErr j => ⟨0x03008000 + j * 0x40, 0x03008000 + (j + 1) * 0x40⟩
  | d => d.block

def RegDev.window (d : RegDev) : Window Addr :=
  ⟨BitVec.ofNat 64 d.span.start, BitVec.ofNat 64 d.span.pte⟩

/-- The unit lies in the block of its kind. -/
def RegDev.InBlock (d : RegDev) : Prop :=
  d.block.start ≤ d.span.start ∧ d.span.pte ≤ d.block.pte

/-- The device an address of the register blocks belongs to. -/
def devAt (a : Nat) : RegDev :=
  if a < 0x02040000 then .bootrom
  else if a < 0x02080000 then .clint
  else if a < 0x020C0000 then .irqRouter
  else if a < 0x03000000 then .axirt
  else if a < 0x03001000 then .regs
  else if a < 0x03002000 then .llc
  else if a < 0x03003000 then .uart
  else if a < 0x03004000 then .i2c
  else if a < 0x03005000 then .spiHost
  else if a < 0x03006000 then .gpio
  else if a < 0x03007000 then .slink
  else if a < 0x03008000 then .vga
  else if a < 0x04000000 then .busErr ((a - 0x03008000) / 0x40)
  else if a < 0x08000000 then .plic
  else .clic ((a - 0x08000000) / 0x40000)

theorem devAt_of_span {d : RegDev} {a : Nat} (hd : d.InBlock) (ha : d.span.Covers a) :
    devAt a = d := by
  obtain ⟨_, hend⟩ := hd
  obtain ⟨hlo, hhi⟩ := ha
  cases d with
  | err => exact absurd hhi (Nat.not_lt_zero a)
  | busErr j =>
    simp only [RegDev.span, RegDev.block] at hlo hhi hend
    unfold devAt
    repeat rw [if_neg (by omega)]
    rw [if_pos (by omega)]
    congr 1
    omega
  | clic j =>
    simp only [RegDev.span, RegDev.block] at hlo hhi hend
    unfold devAt
    repeat rw [if_neg (by omega)]
    congr 1
    omega
  | _ =>
    simp only [RegDev.span, RegDev.block] at hlo hhi
    unfold devAt
    repeat rw [if_neg (by omega)]
    rw [if_pos (by omega)]

/-- An enabled unit lies in its block: 31 CLICs and 33 bus error units fit. -/
theorem inBlock_of_mem {cfg : CheshireCfg} {d : RegDev} (hd : d ∈ regDevs cfg) : d.InBlock := by
  have hcores := cfg.numCores.isLt
  rw [mem_regDevs] at hd
  cases d with
  | clic j =>
    have hj : j < numClic cfg := of_decide_eq_true hd
    unfold numClic at hj
    simp only [RegDev.InBlock, RegDev.span, RegDev.block]
    split at hj <;> omega
  | busErr j =>
    have hj : j < numBusErr cfg := of_decide_eq_true hd
    unfold numBusErr at hj
    simp only [RegDev.InBlock, RegDev.span, RegDev.block]
    split at hj <;> omega
  | _ => exact ⟨Nat.le_refl _, Nat.le_refl _⟩

theorem clicEntry_window (j : Nat) : (clicEntry j).window = (RegDev.clic j).window := by
  simp only [clicEntry, RegDev.window, RegDev.span, BitVec.ofNat_add, BitVec.ofNat_mul]
  rfl

theorem busErrEntry_window (j : Nat) : (busErrEntry j).window = (RegDev.busErr j).window := by
  simp only [busErrEntry, RegDev.window, RegDev.span, BitVec.ofNat_add, BitVec.ofNat_mul]
  rfl

/-- Each rule of the code holds its device's window of the documented map. -/
theorem regEntries_window {cfg : CheshireCfg} {e : RegEntry} (he : e ∈ regEntries cfg) :
    e.window = e.dev.window := by
  have hopt : ∀ (c : Bool) (e' : RegEntry), e'.window = e'.dev.window →
      e ∈ (if c then [e'] else []) → e.window = e.dev.window := by
    intro c e' hw he
    cases c
    · exact absurd he List.not_mem_nil
    · rw [List.mem_singleton.mp he]
      exact hw
  simp only [regEntries, regAdded, regOptional, List.mem_append] at he
  rcases he with he | (he | he) | he
  · simp only [regFixed, List.mem_cons, List.not_mem_nil, or_false] at he
    rcases he with rfl | rfl | rfl <;> rfl
  · rcases he with ((((((((he | he) | he) | he) | he) | he) | he) | he) | he) | he
      <;> exact hopt _ _ rfl he
  · obtain ⟨j, _, rfl⟩ := List.mem_map.mp he
    exact clicEntry_window j
  · obtain ⟨j, _, rfl⟩ := List.mem_map.mp he
    exact busErrEntry_window j

theorem span_lt {d : RegDev} (hd : d.InBlock) : d.span.start < 2 ^ 28 ∧ d.span.pte ≤ 2 ^ 28 := by
  obtain ⟨_, hend⟩ := hd
  cases d <;> simp only [RegDev.span, RegDev.block] at hend ⊢ <;> omega

theorem window_covers {d : RegDev} (hd : d.InBlock) (a : Addr) :
    d.window.Covers a ↔ d.span.Covers a.toNat := by
  obtain ⟨hs, hp⟩ := span_lt hd
  unfold RegDev.window Window.Covers
  rw [BitVec.le_def, BitVec.lt_def, BitVec.toNat_ofNat, BitVec.toNat_ofNat,
    Nat.mod_eq_of_lt (by omega), Nat.mod_eq_of_lt (by omega)]

/-- No address lies in the windows of two register devices at once. -/
theorem regEntries_hits (cfg : CheshireCfg) (a : Addr) :
    hits ((regEntries cfg).map Entry.window) a ≤ 1 := by
  refine hits_le_one ?_
  rw [List.pairwise_map]
  have hnd : ((regEntries cfg).map Entry.dev).Nodup := (List.nodup_cons.mp (regDevs_nodup cfg)).2
  rw [List.Nodup, List.pairwise_map] at hnd
  refine hnd.imp_of_mem ?_
  intro e e' he he' hne hboth
  have hmem : ∀ e ∈ regEntries cfg, e.dev.InBlock := fun e he =>
    inBlock_of_mem (List.mem_cons_of_mem _ (List.mem_map_of_mem he))
  rw [regEntries_window he, regEntries_window he', window_covers (hmem e he),
    window_covers (hmem e' he')] at hboth
  -- a shared address would make them one device
  apply hne
  rw [← devAt_of_span (hmem e he) hboth.1, ← devAt_of_span (hmem e' he') hboth.2]

end Cheshire.Hw
