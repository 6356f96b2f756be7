import Mathlib.Data.Nat.Find
import Cheshire.Lib.Rv64

/-!
# `cheshire_bootrom.S`: from `_start` to `main`

The boot ROM's assembly, line by line. Hart 0 resets its registers, waits for the
LLC if there is one, gives all of it to the SPM, calls the platform ROM if there is
one, and should then get to `main`.

A platform ROM called with `jalr` returns to the line behind the call. That line is
the first of `boot_next_stage`, not of `_boot`: the hart boots whatever the platform
ROM left in `a0` (`prom_falls_through`). Only without a platform ROM, where a branch
skips the call, does it get to `main`.
-/

namespace Cheshire.Boot

open Transition Rv64

/-! ## The program -/

/-- Labels `1` to `3` are those of `smp_resume`; `loop` is the `1` behind `_exit`. -/
inductive RomLabel where
  | start
  | waitLlcBist
  | promCheckRun
  | bootNextStage
  | smp1
  | smp2
  | smp3
  | boot
  | exit
  | loop
  | main
  deriving DecidableEq

/-- `__base_regs` of the linker script, the register file. -/
def baseRegs : Word := 0x0300_0000

/-- `__base_llc` of the linker script, the LLC's configuration. -/
def baseLlc : Word := 0x0300_1000

/-- `__base_spm` of the linker script, the scratchpad memory. -/
def baseSpm : Word := 0x1000_0000

/-- `__base_clint` of the linker script, the CLINT. -/
def baseClint : Word := 0x0204_0000

/-- `__stack_pointer$`: the end of the first 64 KiB of SPM, less 8. -/
def stackPointer : Word := baseSpm + 0x1_0000 - 8

/-- `smp_pause(reg1, reg2)`. Its `2f` is the label 2 of `smp_resume`. -/
def smpPause (reg1 reg2 : Reg) : Program RomLabel :=
  [ .ins (.li reg2 0x8),
    .ins (.csrw .mie reg2),
    .ins (.li reg1 0),
    .ins (.csrr reg2 .mhartid),
    .ins (.bne reg1 reg2 .smp2) ]

/-- `smp_resume(reg1, reg2, reg3)`, which wakes all harts, hart 0 itself included, and waits
until each has cleared its interrupt. -/
def smpResume (reg1 reg2 reg3 : Reg) : Program RomLabel :=
  [ .ins (.li reg1 baseClint),
    .ins (.li reg3 baseRegs),
    .ins (.lw reg3 76 reg3),
    .ins (.slli reg3 reg3 2),
    .ins (.add reg3 reg1 reg3),
    .lab .smp1,
    .ins (.li reg2 1),
    .ins (.sw reg2 0 reg1),
    .ins (.addi reg1 reg1 4),
    .ins (.blt reg1 reg3 .smp1),
    .lab .smp2,
    .ins .wfi,
    .ins (.csrr reg2 .mip),
    .ins (.andi reg2 reg2 0x8),
    .ins (.beqz reg2 .smp2),
    .ins (.li reg1 baseClint),
    .ins (.csrr reg2 .mhartid),
    .ins (.slli reg2 reg2 2),
    .ins (.add reg2 reg2 reg1),
    .ins (.sw 0 0 reg2),
    .ins (.li reg3 baseRegs),
    .ins (.lw reg3 76 reg3),
    .ins (.slli reg3 reg3 2),
    .ins (.add reg3 reg1 reg3),
    .lab .smp3,
    .ins (.lw reg2 0 reg1),
    .ins (.bnez reg2 .smp3),
    .ins (.addi reg1 reg1 4),
    .ins (.blt reg1 reg3 .smp3) ]

/-- `_start` up to the branch on `HW_FEATURES.llc`. `glob` is the linked
`__global_pointer$`. -/
def startLines (glob : Word) : Program RomLabel :=
  [.lab .start] ++
  (1 :: List.range' 4 28).map (fun k => .ins (.li k 0)) ++
  smpPause t0 t1 ++
  [ .ins (.li sp stackPointer),
    .ins (.li gp glob),
    .ins (.li t0 baseRegs),
    .ins (.lw t0 80 t0),
    .ins (.andi t0 t0 2),
    .ins (.beqz t0 .promCheckRun),
    .ins (.li t0 baseLlc) ]

def llcLines : Program RomLabel :=
  [ .lab .waitLlcBist,
    .ins (.lw t1 72 t0),
    .ins (.beqz t1 .waitLlcBist),
    .ins (.li t1 (-1)),
    .ins (.sw t1 0 t0),
    .ins (.sw t1 4 t0),
    .ins (.li t1 1),
    .ins (.sw t1 16 t0),
    .ins (.li t0 baseRegs),
    .ins (.li sp baseSpm),
    .ins (.lw t0 84 t0),
    .ins (.add sp sp t0),
    .ins (.addi sp sp (-8)) ]

def promLines : Program RomLabel :=
  [ .lab .promCheckRun,
    .ins (.li t0 baseRegs),
    .ins (.lw t0 72 t0),
    .ins (.beqz t0 .boot),
    .ins (.jalr t0) ]

def nextStageLines : Program RomLabel :=
  [ .lab .bootNextStage,
    .ins (.li t0 baseRegs),
    .ins (.sw a0 16 t0),
    .ins (.srli a0 a0 32),
    .ins (.sw a0 20 t0),
    .ins .fence ] ++
  smpResume t0 t1 t2 ++
  [ .ins (.li t0 baseRegs),
    .ins (.lwu t1 20 t0),
    .ins (.slli t1 t1 32),
    .ins (.lwu t0 16 t0),
    .ins (.or t0 t0 t1),
    .ins (.csrr a0 .mhartid),
    .ins (.jalr t0),
    .ins .ret ]

/-- `_boot` and `_exit`. The compiled `main` stands elsewhere. -/
def bootLines : Program RomLabel :=
  [ .lab .boot,
    .ins (.li t0 0),
    .ins (.li t1 0),
    .ins .fence,
    .ins .fence,
    .ins (.call .main),
    .lab .exit,
    .ins (.slli a0 a0 1),
    .ins (.ori a0 a0 1),
    .ins (.li t0 baseRegs),
    .ins (.sw a0 8 t0),
    .lab .loop,
    .ins .wfi,
    .ins (.j .loop),
    .lab .main ]

def bootrom (glob : Word) : Program RomLabel :=
  startLines glob ++ llcLines ++ promLines ++ nextStageLines ++ bootLines

/-! ## What hart 0 finds -/

abbrev RomLog := Log RomLabel

/-- The register of the LLC's `BIST_STATUS_DONE_BIT`, which the ROM waits for. -/
def bistDone : Word := baseLlc + 72

def isBistRead : Rv64.Event RomLabel → Bool
  | .load a _ => a == bistDone
  | _ => false

/-- What the boot ROM does to the LLC, its calls, and entries of `boot_next_stage`. -/
def isObserved : Rv64.Event RomLabel → Bool
  | .load a _ => a == bistDone
  | .store a _ => a == baseLlc || a == baseLlc + 4 || a == baseLlc + 16
  | .call _ => true
  | .enter l _ => l == .bootNextStage
  | .ret _ => false

def view (log : RomLog) : RomLog := log.filter isObserved

/-- The hardware and the platform ROM, as hart 0 sees them. -/
structure BootHw where
  platformRom : BitVec 32
  hwFeatures : BitVec 32
  llcSize : BitVec 32
  /-- The BIST status at each read of it. -/
  bist : Nat → BitVec 32
  bist_ends : ∃ k, bist k ≠ 0
  /-- All other registers. -/
  read : RomLog → Word → BitVec 32
  mip : RomLog → Word
  globalPointer : Word
  /-- The registers when a called routine returns. -/
  callee : RomLog → Word → Regs → Regs
  callee_sp : ∀ log t r, callee log t r sp = r sp

def BootHw.world (hw : BootHw) : World RomLabel where
  read log a :=
    if a = baseRegs + 72 then hw.platformRom
    else if a = baseRegs + 80 then hw.hwFeatures
    else if a = baseRegs + 84 then hw.llcSize
    else if a = bistDone then hw.bist (log.countP isBistRead)
    else hw.read log a
  csr log
    | .mhartid => 0
    | .mip => hw.mip log
    | .mie => 8
  callee := hw.callee

def BootHw.step (hw : BootHw) : St RomLabel → Option (St RomLabel) :=
  Rv64.step (bootrom hw.globalPointer) hw.world

/-- Out of reset, with any contents of the integer registers. -/
def BootHw.reset (_ : BootHw) (r : Regs) : St RomLabel := ⟨0, r, []⟩

def BootHw.hasLlc (hw : BootHw) : Bool := hw.hwFeatures &&& 2 != 0

/-- The LLC accesses of a start with `k` waiting reads, newest first. -/
def llcAccesses (hw : BootHw) (k : Nat) : RomLog :=
  [ .store (baseLlc + 16) 1, .store (baseLlc + 4) (-1), .store baseLlc (-1),
    .load bistDone (hw.bist k) ] ++ List.replicate k (.load bistDone 0)

def promCalls (hw : BootHw) : RomLog :=
  if hw.platformRom = 0 then [] else [.call (hw.platformRom.setWidth 64 &&& ~~~1)]

/-- From reset hart 0 gets to `main`. On the way it has waited for the LLC's BIST and
committed the SPM configuration if there is an LLC and left the LLC alone if not, then
called the platform ROM, if there is one, at its zero-extended address, and nothing else:
it has not entered `boot_next_stage`. -/
def StartSound (hw : BootHw) : Prop :=
  ∀ r, ∃ s k, Reaches hw.step (hw.reset r) s ∧ s.pc = find (bootrom hw.globalPointer) .main ∧
    (hw.hasLlc → hw.bist k ≠ 0) ∧
    view s.log = promCalls hw ++ if hw.hasLlc then llcAccesses hw k else []

/-! ## Blocks -/

variable (hw : BootHw)

def BootHw.lines (ls : Program RomLabel) (s : St RomLabel) : St RomLabel :=
  Rv64.lines (bootrom hw.globalPointer) hw.world ls s

/-- From line `k` on stand the straight lines `ls`. -/
theorem reaches_block {k : Nat} {s : St RomLabel} (hs : s.pc = k) (ls : Program RomLabel)
    (hP : ls <+: (bootrom hw.globalPointer).drop k) (hls : ls.all Line.straight) :
    Reaches hw.step s (hw.lines ls s) ∧ (hw.lines ls s).pc = k + ls.length := by
  subst hs
  exact reaches_lines hP hls

/-- Line `k` is `l`, which leads from `s` to `s'`. -/
theorem reaches_branch {k : Nat} {s s' : St RomLabel} (hs : s.pc = k) (l : Line RomLabel)
    (hP : [l] <+: (bootrom hw.globalPointer).drop k)
    (hl : line (bootrom hw.globalPointer) hw.world s l = s') : Reaches hw.step s s' := by
  subst hs hl
  obtain ⟨rest, hrest⟩ := hP
  exact reaches_line hrest.symm

theorem start_resets (r : Regs) :
    ∃ s, Reaches hw.step (hw.reset r) s ∧ s.pc = 30 ∧ view s.log = [] := by
  obtain ⟨hlab, hpc⟩ := reaches_block hw (s := hw.reset r) rfl [.lab .start] ⟨_, rfl⟩ rfl
  obtain ⟨hli, hpc'⟩ := reaches_block hw hpc
    ((1 :: List.range' 4 28).map fun k => .ins (.li k 0)) ⟨_, rfl⟩ rfl
  refine ⟨_, hlab.trans hli, hpc', ?_⟩
  unfold BootHw.lines
  rw [lines_li_log]
  rfl

/-- Hart 0 skips the `wfi` loop that the other harts pause in, and makes no access on the way. -/
theorem start_pause {s : St RomLabel} (hs : s.pc = 30) :
    ∃ s', Reaches hw.step s s' ∧ s'.pc = 35 ∧ view s'.log = view s.log := by
  obtain ⟨hreach, hpc⟩ := reaches_block hw hs
    [.ins (.li t1 0x8), .ins (.csrw .mie t1), .ins (.li t0 0), .ins (.csrr t1 .mhartid)]
    ⟨_, rfl⟩ rfl
  have hbne := reaches_branch hw hpc (.ins (.bne t0 t1 .smp2)) ⟨_, rfl⟩ (line_bne_not rfl)
  exact ⟨_, hreach.trans hbne, congrArg (· + 1) hpc, rfl⟩

theorem start_features {s : St RomLabel} (hs : s.pc = 35) :
    ∃ s', Reaches hw.step s s' ∧ s'.pc = 40 ∧ view s'.log = view s.log ∧
      get s'.regs t0 = hw.hwFeatures.signExtend 64 &&& 2 := by
  obtain ⟨hreach, hpc⟩ := reaches_block hw hs
    [.ins (.li sp stackPointer), .ins (.li gp hw.globalPointer), .ins (.li t0 baseRegs),
      .ins (.lw t0 80 t0), .ins (.andi t0 t0 2)] ⟨_, rfl⟩ rfl
  exact ⟨_, hreach, hpc, rfl, rfl⟩

/-- The sign extension of `lw` does not reach the LLC bit. -/
theorem llcBit_eq_zero_iff :
    hw.hwFeatures.signExtend 64 &&& 2 = (0 : Word) ↔ hw.hasLlc = false := by
  have h64 : (2 : Word) = BitVec.twoPow 64 1 := rfl
  have h32 : (2 : BitVec 32) = BitVec.twoPow 32 1 := rfl
  have hbit : (hw.hwFeatures.signExtend 64).getLsbD 1 = hw.hwFeatures.getLsbD 1 := by
    rw [BitVec.getLsbD_signExtend]
    rfl
  unfold BootHw.hasLlc
  rw [h64, h32, BitVec.and_twoPow, BitVec.and_twoPow, hbit]
  cases hw.hwFeatures.getLsbD 1
  · exact ⟨fun _ => rfl, fun _ => rfl⟩
  · exact ⟨fun h => absurd h (by decide), fun h => absurd h (by decide)⟩

/-- On a platform without an LLC the whole LLC part is skipped, with no access to its registers. -/
theorem start_noLlc {s : St RomLabel} (hs : s.pc = 35) (hllc : hw.hasLlc = false) :
    ∃ s', Reaches hw.step s s' ∧ s'.pc = 55 ∧ view s'.log = view s.log := by
  obtain ⟨s₁, hreach, hpc, hview, ht0⟩ := start_features hw hs
  have hzero : get s₁.regs t0 = 0 := ht0.trans ((llcBit_eq_zero_iff hw).mpr hllc)
  have hbeqz := reaches_branch hw hpc (.ins (.beqz t0 .promCheckRun)) ⟨_, rfl⟩
    (line_beqz_taken hzero)
  exact ⟨_, hreach.trans hbeqz, rfl, hview⟩

theorem start_llc {s : St RomLabel} (hs : s.pc = 35) (hllc : hw.hasLlc) :
    ∃ s', Reaches hw.step s s' ∧ s'.pc = 42 ∧ view s'.log = view s.log ∧
      get s'.regs t0 = baseLlc := by
  obtain ⟨s₁, hreach, hpc, hview, ht0⟩ := start_features hw hs
  have hone : get s₁.regs t0 ≠ 0 := by
    rw [ht0, Ne, llcBit_eq_zero_iff, hllc]
    exact Bool.noConfusion
  have hbeqz := reaches_branch hw hpc (.ins (.beqz t0 .promCheckRun)) ⟨_, rfl⟩
    (line_beqz_not hone)
  obtain ⟨hla, hpc'⟩ := reaches_block hw (s := s₁.next) (congrArg (· + 1) hpc)
    [.ins (.li t0 baseLlc)] ⟨_, rfl⟩ rfl
  exact ⟨_, (hreach.trans hbeqz).trans hla, hpc', hview, rfl⟩

theorem read_bistDone (log : RomLog) :
    hw.world.read log bistDone = hw.bist (log.countP isBistRead) := rfl

/-- One round of `wait_llc_bist` reads the next value of the BIST status into `t1` and records the
read. -/
theorem bist_read {s : St RomLabel} (hs : s.pc = 42) (ht0 : get s.regs t0 = baseLlc) :
    ∃ s', Reaches hw.step s s' ∧ s'.pc = 44 ∧ get s'.regs t0 = baseLlc ∧
      get s'.regs t1 = (hw.bist (s.log.countP isBistRead)).signExtend 64 ∧
      s'.log = .load bistDone (hw.bist (s.log.countP isBistRead)) ::
        .enter .waitLlcBist (get s.regs a0) :: s.log := by
  obtain ⟨hreach, hpc⟩ := reaches_block hw hs
    [.lab .waitLlcBist, .ins (.lw t1 72 t0)] ⟨_, rfl⟩ rfl
  have haddr : get s.regs t0 + 72 = bistDone := by
    rw [ht0]
    rfl
  have hread : hw.world.read (.enter .waitLlcBist (get s.regs a0) :: s.log)
      (get s.regs t0 + 72) = hw.bist (s.log.countP isBistRead) := by
    rw [haddr, read_bistDone, List.countP_cons_of_neg Bool.noConfusion]
  refine ⟨_, hreach, hpc, ht0, congrArg (·.signExtend 64) hread, ?_⟩
  rw [← hread, ← haddr]
  rfl

/-- `lw` extends the sign of a status, which is zero after that exactly if it was zero before. -/
theorem signExtend_eq_zero_iff (v : BitVec 32) : v.signExtend 64 = (0 : Word) ↔ v = 0 := by
  refine ⟨fun h => ?_, fun h => ?_⟩
  · have hint : (v.signExtend 64).toInt = 0 := congrArg BitVec.toInt h
    rw [BitVec.toInt_signExtend_of_le (by omega)] at hint
    exact BitVec.eq_of_toInt_eq hint
  · subst h
    rfl

/-- The LLC is polled until the first status that is not 0. -/
theorem bist_wait : ∀ (k m : Nat) {s : St RomLabel}, s.pc = 42 → get s.regs t0 = baseLlc →
    s.log.countP isBistRead = m → (∀ j < k, hw.bist (m + j) = 0) → hw.bist (m + k) ≠ 0 →
    ∃ s', Reaches hw.step s s' ∧ s'.pc = 45 ∧ get s'.regs t0 = baseLlc ∧
      view s'.log = .load bistDone (hw.bist (m + k)) ::
        (List.replicate k (.load bistDone 0) ++ view s.log) := by
  intro k
  induction k with
  | zero =>
    intro m s hs ht0 hcount _ hdone
    obtain ⟨s₁, hreach, hpc, ht0', ht1, hlog⟩ := bist_read hw hs ht0
    rw [hcount] at ht1 hlog
    have hnext := reaches_branch hw hpc (.ins (.beqz t1 .waitLlcBist)) ⟨_, rfl⟩
      (line_beqz_not (by rw [ht1, Ne, signExtend_eq_zero_iff]; exact hdone))
    refine ⟨_, hreach.trans hnext, congrArg (· + 1) hpc, ht0', ?_⟩
    show view s₁.log = _
    rw [hlog]
    rfl
  | succ k ih =>
    intro m s hs ht0 hcount hwait hdone
    obtain ⟨s₁, hreach, hpc, ht0', ht1, hlog⟩ := bist_read hw hs ht0
    rw [hcount] at ht1 hlog
    have hzero : hw.bist m = 0 := hwait 0 (Nat.succ_pos k)
    rw [hzero] at ht1 hlog
    have hloop := reaches_branch hw hpc (.ins (.beqz t1 .waitLlcBist)) ⟨_, rfl⟩
      (line_beqz_taken ht1)
    have hcount' : s₁.log.countP isBistRead = m + 1 := by
      rw [hlog, ← hcount]
      rw [List.countP_cons_of_pos rfl, List.countP_cons_of_neg Bool.noConfusion]
    -- one status less to wait for, read from the same line
    obtain ⟨s₂, hrest, hpc₂, ht0₂, hview₂⟩ := ih (m + 1) (s := { s₁ with pc := 42 })
      rfl ht0' hcount' (fun j hj => by rw [Nat.succ_add_eq_add_succ]; exact hwait (j + 1) (by omega))
      (by rw [Nat.succ_add_eq_add_succ]; exact hdone)
    refine ⟨s₂, (hreach.trans hloop).trans hrest, hpc₂, ht0₂, ?_⟩
    rw [hview₂, Nat.succ_add_eq_add_succ, hlog, List.replicate_succ']
    rw [List.append_assoc]
    rfl

/-- The writes behind the BIST give all ways of the LLC to the scratchpad memory and commit that. -/
theorem spm_commit {s : St RomLabel} (hs : s.pc = 45) (ht0 : get s.regs t0 = baseLlc) :
    ∃ s', Reaches hw.step s s' ∧ s'.pc = 55 ∧
      view s'.log = .store (baseLlc + 16) 1 :: .store (baseLlc + 4) (-1) :: .store baseLlc (-1) ::
        view s.log := by
  obtain ⟨hstores, hpc⟩ := reaches_block hw hs
    [.ins (.li t1 (-1)), .ins (.sw t1 0 t0), .ins (.sw t1 4 t0), .ins (.li t1 1),
      .ins (.sw t1 16 t0)] ⟨_, rfl⟩ rfl
  have hlog : (hw.lines [.ins (.li t1 (-1)), .ins (.sw t1 0 t0), .ins (.sw t1 4 t0),
      .ins (.li t1 1), .ins (.sw t1 16 t0)] s).log =
      .store (baseLlc + 16) 1 :: .store (baseLlc + 4) (-1) :: .store baseLlc (-1) :: s.log := by
    simp [BootHw.lines, Rv64.lines, line, exec, St.set, St.note, St.next, get_set_ne, t0, t1,
      ← ht0]
  obtain ⟨hstack, hpc'⟩ := reaches_block hw hpc
    [.ins (.li t0 baseRegs), .ins (.li sp baseSpm), .ins (.lw t0 84 t0), .ins (.add sp sp t0),
      .ins (.addi sp sp (-8))] ⟨_, rfl⟩ rfl
  refine ⟨_, hstores.trans hstack, hpc', ?_⟩
  show view (.load (baseRegs + 84) hw.llcSize :: (hw.lines _ s).log) = _
  rw [hlog]
  rfl

theorem bistReads_of_view {log : RomLog} (h : view log = []) : log.countP isBistRead = 0 := by
  rw [List.countP_eq_zero]
  intro e he hread
  have hobs : isObserved e := by
    cases e with
    | load a v => exact hread
    | _ => cases hread
  have hmem : e ∈ view log := List.mem_filter.mpr ⟨he, hobs⟩
  rw [h] at hmem
  cases hmem

/-- From reset the ROM reaches its check for a platform ROM, having done with the LLC what its
presence asks for. -/
theorem start_prom (r : Regs) : ∃ s k, Reaches hw.step (hw.reset r) s ∧ s.pc = 55 ∧
    (hw.hasLlc → hw.bist k ≠ 0) ∧
    view s.log = if hw.hasLlc then llcAccesses hw k else [] := by
  obtain ⟨s₁, h₁, hpc₁, hview₁⟩ := start_resets hw r
  obtain ⟨s₂, h₂, hpc₂, hview₂⟩ := start_pause hw hpc₁
  have hview : view s₂.log = [] := hview₂.trans hview₁
  rcases Bool.eq_false_or_eq_true hw.hasLlc with hllc | hllc
  · obtain ⟨s₃, h₃, hpc₃, hview₃, ht0₃⟩ := start_llc hw hpc₂ hllc
    have hnil : view s₃.log = [] := hview₃.trans hview
    obtain ⟨k, hdone, hwait⟩ : ∃ k, hw.bist k ≠ 0 ∧ ∀ j < k, hw.bist j = 0 :=
      ⟨Nat.find hw.bist_ends, Nat.find_spec hw.bist_ends,
        fun j hj => Decidable.not_not.mp (Nat.find_min hw.bist_ends hj)⟩
    obtain ⟨s₄, h₄, hpc₄, ht0₄, hview₄⟩ := bist_wait hw k 0 hpc₃ ht0₃ (bistReads_of_view hnil)
      (by simpa only [Nat.zero_add] using hwait) (by rwa [Nat.zero_add])
    obtain ⟨s₅, h₅, hpc₅, hview₅⟩ := spm_commit hw hpc₄ ht0₄
    refine ⟨s₅, k, (((h₁.trans h₂).trans h₃).trans h₄).trans h₅, hpc₅, fun _ => hdone, ?_⟩
    rw [hview₅, hview₄, hnil, if_pos hllc, List.append_nil, Nat.zero_add]
    rfl
  · obtain ⟨s₃, h₃, hpc₃, hview₃⟩ := start_noLlc hw hpc₂ hllc
    refine ⟨s₃, 0, (h₁.trans h₂).trans h₃, hpc₃, ?_, ?_⟩
    · rw [hllc]
      exact Bool.noConfusion
    · rw [hview₃, hview, hllc]
      rfl

theorem prom_check {s : St RomLabel} (hs : s.pc = 55) :
    ∃ s', Reaches hw.step s s' ∧ s'.pc = 58 ∧ view s'.log = view s.log ∧
      get s'.regs t0 = hw.platformRom.signExtend 64 := by
  obtain ⟨hreach, hpc⟩ := reaches_block hw hs
    [.lab .promCheckRun, .ins (.li t0 baseRegs), .ins (.lw t0 72 t0)] ⟨_, rfl⟩ rfl
  exact ⟨_, hreach, hpc, rfl, rfl⟩

set_option maxRecDepth 1000 in
/-- Without a platform ROM the branch goes to `_boot`, and on to `main`. -/
theorem noProm_main {s : St RomLabel} (hs : s.pc = 55) (hrom : hw.platformRom = 0) :
    ∃ s', Reaches hw.step s s' ∧ s'.pc = find (bootrom hw.globalPointer) .main ∧
      view s'.log = view s.log := by
  obtain ⟨s₁, hreach, hpc, hview, ht0⟩ := prom_check hw hs
  have hzero : get s₁.regs t0 = 0 := ht0.trans ((signExtend_eq_zero_iff _).mpr hrom)
  have hbeqz := reaches_branch hw hpc (.ins (.beqz t0 .boot)) ⟨_, rfl⟩ (line_beqz_taken hzero)
  obtain ⟨hboot, hpc'⟩ := reaches_block hw (k := 103)
    (s := { s₁ with pc := find (bootrom hw.globalPointer) .boot }) rfl
    [.lab .boot, .ins (.li t0 0), .ins (.li t1 0), .ins .fence, .ins .fence] ⟨_, rfl⟩ rfl
  have hcall := reaches_branch hw hpc' (.ins (.call .main)) ⟨_, rfl⟩ rfl
  exact ⟨_, ((hreach.trans hbeqz).trans hboot).trans hcall, rfl, hview⟩

/-- A platform ROM returns into `boot_next_stage`, with its own `a0`. -/
theorem prom_falls_through {s : St RomLabel} (hs : s.pc = 55) (hrom : hw.platformRom ≠ 0) :
    ∃ s', Reaches hw.step s s' ∧ s'.pc = find (bootrom hw.globalPointer) .bootNextStage + 1 ∧
      ∃ log r, s'.log = .enter .bootNextStage
        (get (hw.callee log (hw.platformRom.signExtend 64 &&& ~~~1) r) a0) :: log := by
  obtain ⟨s₁, hreach, hpc, -, ht0⟩ := prom_check hw hs
  have hne : get s₁.regs t0 ≠ 0 := by
    rw [ht0, Ne, signExtend_eq_zero_iff]
    exact hrom
  have hbeqz := reaches_branch hw hpc (.ins (.beqz t0 .boot)) ⟨_, rfl⟩ (line_beqz_not hne)
  -- the callee returns to the line behind the call, a label
  obtain ⟨hcall, hpc'⟩ := reaches_block hw (s := s₁.next) (congrArg (· + 1) hpc)
    [.ins (.jalr t0), .lab .bootNextStage] ⟨_, rfl⟩ rfl
  rw [← ht0]
  exact ⟨_, (hreach.trans hbeqz).trans hcall, hpc', .call (get s₁.regs t0 &&& ~~~1) :: s₁.log,
    set s₁.regs ra (lineAddr (s₁.pc + 2)), rfl⟩

theorem not_mem_expected (arg : Word) (k : Nat) : .enter .bootNextStage arg ∉
    promCalls hw ++ if hw.hasLlc then llcAccesses hw k else [] := by
  unfold promCalls llcAccesses
  intro hmem
  rcases List.mem_append.mp hmem with h | h
  · split at h
    · cases h
    · cases List.mem_singleton.mp h
  · split at h
    · simp at h
    · cases h

set_option maxRecDepth 1000 in
/-- `main` is the last line of the ROM: what runs from there never goes back before it. -/
theorem reaches_from_main {s s' : St RomLabel}
    (hs : s.pc = find (bootrom hw.globalPointer) .main) (h : Reaches hw.step s s') :
    117 ≤ s'.pc := by
  have hmain : find (bootrom hw.globalPointer) .main = 117 := rfl
  refine Reaches.invariant (I := fun s => 117 ≤ s.pc) ?_ (Nat.le_of_eq (hs.trans hmain).symm) h
  intro s₁ s₂ h₁ hstep
  obtain ⟨l, hl, rfl⟩ := Option.map_eq_some_iff.mp hstep
  have hlt : s₁.pc < 118 := (List.getElem?_eq_some_iff.mp hl).1
  have hpc : s₁.pc = 117 := by omega
  rw [hpc] at hl
  cases hl
  show 117 ≤ s₁.pc + 1
  omega

theorem not_startSound (hrom : hw.platformRom ≠ 0) : ¬StartSound hw := by
  intro hsound
  obtain ⟨s₁, -, hstart, hpc₁, -, -⟩ := start_prom hw fun _ => 0
  obtain ⟨s₂, hprom, hpc₂, log, r, hlog⟩ := prom_falls_through hw hpc₁ hrom
  obtain ⟨s, k, hmain, hpc, -, hview⟩ := hsound fun _ => 0
  -- the fall-through is passed before `main`, or `main` before it
  rcases (hstart.trans hprom).total hmain with h | h
  · have hmem := reaches_log h (hlog ▸ List.mem_cons_self ..)
    have hseen : _ ∈ view s.log := List.mem_filter.mpr ⟨hmem, rfl⟩
    rw [hview] at hseen
    exact not_mem_expected hw _ k hseen
  · have hend := reaches_from_main hw hpc h
    have hnext : find (bootrom hw.globalPointer) .bootNextStage = 60 := rfl
    omega

/-- Exactly without a platform ROM does hart 0 start as it should. -/
theorem start_sound_iff : StartSound hw ↔ hw.platformRom = 0 := by
  refine ⟨fun h => Decidable.by_contra fun hrom => not_startSound hw hrom h, fun hrom r => ?_⟩
  obtain ⟨s₁, k, hstart, hpc₁, hdone, hview₁⟩ := start_prom hw r
  obtain ⟨s₂, hmain, hpc₂, hview₂⟩ := noProm_main hw hpc₁ hrom
  refine ⟨s₂, k, hstart.trans hmain, hpc₂, hdone, ?_⟩
  unfold promCalls
  rw [hview₂, hview₁, if_pos hrom, List.nil_append]

/-- An LLC that is done at once, and a platform ROM at the start of the external region
that changes nothing. -/
def romHw : BootHw where
  platformRom := 0x2000_0000
  hwFeatures := 2
  llcSize := 0x2_0000
  bist _ := 1
  bist_ends := ⟨0, by decide⟩
  read _ _ := 0
  mip _ := 8
  globalPointer := 0x0200_1000
  callee _ _ r := r
  callee_sp _ _ _ := rfl

theorem start_unsound_romHw : ¬StartSound romHw :=
  not_startSound romHw (by decide)

end Cheshire.Boot
