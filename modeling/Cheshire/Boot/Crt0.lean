import Cheshire.Boot.Rom
import Cheshire.Lib.Rv64Mem

/-!
# `crt0.S`: around `main`

The start-up code of a bare-metal program, line by line. Hart 0 keeps its caller's
stack pointer in `t1`, takes the linked stack and global pointers where they are not
zero, and stores three pointers on the new stack: the caller's stack pointer, `gp` and
`ra`. It clears `.bss` and the FP registers and calls `main`, and `_exit` loads the
three pointers back.

The `gp` that is stored is the one just taken. So `_exit` gives the caller its stack
pointer and its return address back in every case, but its global pointer only where
the program was linked without one or with the caller's own (`restores_iff`).

`.bss` is cleared 32 bytes at a time and then byte by byte. `Clearing` ties the pointer to
what is left, a pass of either loop keeps it, and `zero_bss_exact` is the run: exactly the
bytes between the two symbols, with stores that are all aligned.
-/

namespace Cheshire.Boot

open Transition Rv64Mem
open Rv64 (Word Reg ra sp gp t0 t1 t2 a0)

/-! ## The program -/

/-- `park` and `init` are the labels `1` and `2` of the hart check, `stackDone` and
`globalDone` the two further labels `1`. -/
inductive CrtLabel where
  | start
  | park
  | init
  | stackDone
  | globalDone
  | zeroBssLoop
  | zeroBssRem
  | fpInit
  | exit
  deriving DecidableEq

inductive CrtSym where
  | main
  deriving DecidableEq

/-- What the linker gives the symbols of `crt0.S`. -/
structure CrtLink where
  stackPointer : Word
  globalPointer : Word
  trapHandlerWrap : Word
  bssStart : Word
  bssEnd : Word

abbrev CrtProgram := Program CrtLabel CrtSym

/-- Up to the numbered label 2: only hart 0 goes on. -/
def parkLines : CrtProgram :=
  [ .lab .start,
    .ins (.csrci .mstatus 10),
    .ins (.csrr t0 .mhartid),
    .ins (.beqz t0 .init),
    .lab .park,
    .ins .wfi,
    .ins (.j .park) ]

def pointerLines (k : CrtLink) : CrtProgram :=
  [ .lab .init,
    .ins (.mv t1 sp),
    .ins (.li t0 k.stackPointer),
    .ins (.beqz t0 .stackDone),
    .ins (.mv sp t0),
    .lab .stackDone,
    .ins (.li t0 k.globalPointer),
    .ins (.beqz t0 .globalDone),
    .ins (.mv gp t0),
    .lab .globalDone ]

def saveLines (k : CrtLink) : CrtProgram :=
  [ .ins (.addi sp sp (-24)),
    .ins (.sd t1 0 sp),
    .ins (.sd gp 8 sp),
    .ins (.sd ra 16 sp),
    .ins (.li t0 k.trapHandlerWrap),
    .ins (.csrw .mtvec t0),
    .ins (.li t0 k.bssStart),
    .ins (.li t1 k.bssEnd),
    .ins (.sub t2 t1 t0),
    .ins (.li a0 0) ]

def bssLines : CrtProgram :=
  [ .lab .zeroBssLoop,
    .ins (.addi t4 t2 (-32)),
    .ins (.blez t2 .fpInit),
    .ins (.blt t4 0 .zeroBssRem),
    .ins (.sd a0 0 t0),
    .ins (.sd a0 8 t0),
    .ins (.sd a0 16 t0),
    .ins (.sd a0 24 t0),
    .ins (.addi t2 t2 (-32)),
    .ins (.addi t0 t0 32),
    .ins (.bgt t2 0 .zeroBssLoop),
    .ins (.j .fpInit),
    .lab .zeroBssRem,
    .ins (.sb a0 0 t0),
    .ins (.addi t2 t2 (-1)),
    .ins (.addi t0 t0 1),
    .ins (.bgt t2 0 .zeroBssRem) ]

def fpLines : CrtProgram :=
  [ .lab .fpInit,
    .ins (.li t1 1),
    .ins (.slli t1 t1 13),
    .ins (.csrs .mstatus t1),
    .ins (.fcvtZero 0) ] ++
  (List.range' 1 31).map (fun k => .ins (.fmv k 0)) ++
  [ .ins (.csrc .mstatus t1),
    .ins .fence ]

def exitLines : CrtProgram :=
  [ .lab .exit,
    .ins (.ld ra 16 sp),
    .ins (.ld gp 8 sp),
    .ins (.ld sp 0 sp),
    .ins (.slli t0 a0 1),
    .ins (.ori t0 t0 1),
    .ins (.li t1 baseRegs),
    .ins (.sw t0 8 t1),
    .ins .ret ]

def crt0 (k : CrtLink) : CrtProgram :=
  parkLines ++ pointerLines k ++ saveLines k ++ bssLines ++ fpLines ++
    [.ins (.call .main)] ++ exitLines

/-! ## The caller's context -/

variable (k : CrtLink) (W : World CrtSym)

def crtStep : St → Option St := Rv64Mem.step (crt0 k) W

/-- Hart 0 stands at `_start`, where the boot ROM or a loader has jumped to. -/
def Entered (s : St) : Prop := s.At 0 ∧ s.hart.csr .mhartid = 0

/-- Where the three pointers are stored, of a program entered in `s`. -/
def frame (s : St) : Word := (if k.stackPointer = 0 then s.get sp else k.stackPointer) + -24

/-- The `gp` that is stored: the line before the stores has already replaced a nonzero
`__global_pointer$`. -/
def savedGp (s : St) : Word := if k.globalPointer = 0 then s.get gp else k.globalPointer

/-- The number of bytes that are cleared, as the code counts them. -/
def bssSize : Nat := (k.bssEnd - k.bssStart).toInt.toNat

/-- What the lines in front of `_zero_bss_loop` leave to it. -/
structure BssReady (s : St) : Prop where
  here : s.At (find (crt0 k) .zeroBssLoop)
  start : s.get t0 = k.bssStart
  size : s.get t2 = k.bssEnd - k.bssStart
  value : s.get a0 = 0

/-- `.bss` has no byte in common with the 24 bytes of the three pointers. -/
def BssDisjoint (s : St) : Prop :=
  ∀ j < 24, ¬Span.Within k.bssStart (bssSize k) (Span.nth (frame k s) j)

/-- The hart when `main`, called in state `c`, has returned. -/
def afterMain (c : St) : St := exec (crt0 k) W c (.call .main)

/-- Called from the line in front of `_exit`, `main` returns with `sp`, `gp` and the stored
pointers as they were. -/
def MainKeeps (s : St) : Prop :=
  ∀ c, Reaches (crtStep k W) s c → c.pc + 1 = find (crt0 k) .exit →
    (afterMain k W c).get sp = c.get sp ∧ (afterMain k W c).get gp = c.get gp ∧
      ∀ j < 24, (afterMain k W c).hart.mem (Span.nth (c.get sp) j)
        = c.hart.mem (Span.nth (c.get sp) j)

/-- `main` returns, and then control leaves for the caller, with the caller's `sp` and
`gp` and the value `main` left in `a0`. -/
def Restores (s : St) : Prop :=
  ∃ m s', Reaches (crtStep k W) s m ∧ m.At (find (crt0 k) .exit) ∧
    Reaches (crtStep k W) m s' ∧ s'.left = some (s.get ra &&& ~~~1) ∧
    s'.get sp = s.get sp ∧ s'.get gp = s.get gp ∧ s'.get a0 = m.get a0

/-! ## Up to `.bss` -/

theorem crt_block {n : Nat} {s : St} (hs : s.At n) (ls : CrtProgram)
    (hP : ls <+: (crt0 k).drop n) (hls : ls.all Line.straight) :
    Reaches (crtStep k W) s (lines (crt0 k) W ls s) ∧
      (lines (crt0 k) W ls s).At (n + ls.length) :=
  reaches_lines ls hs hP hls

/-- A branch at line `n` whose condition holds leads to its label, with the hart's registers and
memory unchanged. -/
theorem crt_taken {n : Nat} {s : St} {c : St → Bool} {l : CrtLabel} (i : Instr CrtLabel CrtSym)
    (hs : s.At n) (hP : [.ins i] <+: (crt0 k).drop n)
    (hi : exec (crt0 k) W s i = s.jump (crt0 k) (c s) l) (hc : c s = true) :
    ∃ s', Reaches (crtStep k W) s s' ∧ s'.At (find (crt0 k) l) ∧ s'.hart = s.hart :=
  ⟨_, reaches_line hs (.ins i) hP (hi.trans (jump_taken hc)), ⟨rfl, hs.2⟩, rfl⟩

/-- A branch at line `n` whose condition fails goes on at the next line, with the hart unchanged. -/
theorem crt_not {n : Nat} {s : St} {c : St → Bool} {l : CrtLabel} (i : Instr CrtLabel CrtSym)
    (hs : s.At n) (hP : [.ins i] <+: (crt0 k).drop n)
    (hi : exec (crt0 k) W s i = s.jump (crt0 k) (c s) l) (hc : c s = false) :
    ∃ s', Reaches (crtStep k W) s s' ∧ s'.At (n + 1) ∧ s'.hart = s.hart :=
  ⟨_, reaches_line hs (.ins i) hP (hi.trans (jump_not hc)), ⟨congrArg (· + 1) hs.1, hs.2⟩, rfl⟩

theorem get_congr {s s' : St} (h : s'.hart = s.hart) (r : Reg) : s'.get r = s.get r := by
  unfold St.get
  rw [h]

theorem park_hart0 {s : St} (hs : Entered s) :
    ∃ s', Reaches (crtStep k W) s s' ∧ s'.At 7 ∧ s'.get sp = s.get sp ∧ s'.get gp = s.get gp ∧
      s'.get ra = s.get ra := by
  obtain ⟨hat, hhart⟩ := hs
  obtain ⟨hreach, hat₁⟩ := crt_block k W hat
    [.lab .start, .ins (.csrci .mstatus 10), .ins (.csrr t0 .mhartid)] ⟨_, rfl⟩ rfl
  obtain ⟨s', hreach', hat', hsame⟩ := crt_taken k W
    (c := fun s => s.get t0 == 0) (l := .init) (.beqz t0 .init) hat₁ ⟨_, rfl⟩ rfl
    (beq_iff_eq.mpr hhart)
  exact ⟨s', hreach.trans hreach', hat', get_congr hsame sp, get_congr hsame gp,
    get_congr hsame ra⟩

/-- The caller's stack pointer goes to `t1`, the linked one to `sp` unless it is 0. -/
theorem pointer_stack {s : St} (hs : s.At 7) :
    ∃ s', Reaches (crtStep k W) s s' ∧ s'.At 12 ∧ s'.get t1 = s.get sp ∧
      s'.get sp = (if k.stackPointer = 0 then s.get sp else k.stackPointer) ∧
      s'.get gp = s.get gp ∧ s'.get ra = s.get ra := by
  obtain ⟨hreach, hat⟩ := crt_block k W hs
    [.lab .init, .ins (.mv t1 sp), .ins (.li t0 k.stackPointer)] ⟨_, rfl⟩ rfl
  by_cases hzero : k.stackPointer = 0
  · obtain ⟨s', hreach', hat', hsame⟩ := crt_taken k W
      (c := fun s => s.get t0 == 0) (l := .stackDone) (.beqz t0 .stackDone) hat ⟨_, rfl⟩ rfl
      (beq_iff_eq.mpr hzero)
    rw [if_pos hzero]
    exact ⟨s', hreach.trans hreach', hat', get_congr hsame t1, get_congr hsame sp,
      get_congr hsame gp, get_congr hsame ra⟩
  · obtain ⟨s', hreach', hat', hsame⟩ := crt_not k W
      (c := fun s => s.get t0 == 0) (l := .stackDone) (.beqz t0 .stackDone) hat ⟨_, rfl⟩ rfl
      (beq_eq_false_iff_ne.mpr hzero)
    obtain ⟨hmv, hat''⟩ := crt_block k W hat' [.ins (.mv sp t0)] ⟨_, rfl⟩ rfl
    rw [if_neg hzero]
    exact ⟨_, (hreach.trans hreach').trans hmv, hat'', get_congr hsame t1, get_congr hsame t0,
      get_congr hsame gp, get_congr hsame ra⟩

/-- The linked global pointer goes to `gp` unless it is 0. -/
theorem pointer_global {s : St} (hs : s.At 12) :
    ∃ s', Reaches (crtStep k W) s s' ∧ s'.At 16 ∧ s'.get t1 = s.get t1 ∧
      s'.get sp = s.get sp ∧
      s'.get gp = (if k.globalPointer = 0 then s.get gp else k.globalPointer) ∧
      s'.get ra = s.get ra := by
  obtain ⟨hreach, hat⟩ := crt_block k W hs
    [.lab .stackDone, .ins (.li t0 k.globalPointer)] ⟨_, rfl⟩ rfl
  by_cases hzero : k.globalPointer = 0
  · obtain ⟨s', hreach', hat', hsame⟩ := crt_taken k W
      (c := fun s => s.get t0 == 0) (l := .globalDone) (.beqz t0 .globalDone) hat ⟨_, rfl⟩ rfl
      (beq_iff_eq.mpr hzero)
    rw [if_pos hzero]
    exact ⟨s', hreach.trans hreach', hat', get_congr hsame t1, get_congr hsame sp,
      get_congr hsame gp, get_congr hsame ra⟩
  · obtain ⟨s', hreach', hat', hsame⟩ := crt_not k W
      (c := fun s => s.get t0 == 0) (l := .globalDone) (.beqz t0 .globalDone) hat ⟨_, rfl⟩ rfl
      (beq_eq_false_iff_ne.mpr hzero)
    obtain ⟨hmv, hat''⟩ := crt_block k W hat' [.ins (.mv gp t0)] ⟨_, rfl⟩ rfl
    rw [if_neg hzero]
    exact ⟨_, (hreach.trans hreach').trans hmv, hat'', get_congr hsame t1, get_congr hsame sp,
      get_congr hsame t0, get_congr hsame ra⟩

/-- What the three stored pointers hold, between their store and their load. -/
structure Framed (k : CrtLink) (s₀ s : St) : Prop where
  sp : s.get sp = frame k s₀
  callerSp : loadD s.hart.mem (Span.nth (frame k s₀) 0) = s₀.get Rv64.sp
  callerGp : loadD s.hart.mem (Span.nth (frame k s₀) 8) = savedGp k s₀
  callerRa : loadD s.hart.mem (Span.nth (frame k s₀) 16) = s₀.get ra

theorem loadD_slot {m m' : Span.Memory} {a : Word} {i : Nat} (hi : i + 8 ≤ 24)
    (h : ∀ j < 24, m (Span.nth a j) = m' (Span.nth a j)) :
    loadD m (Span.nth a i) = loadD m' (Span.nth a i) := by
  refine loadD_congr fun j hj => ?_
  rw [Span.nth_nth]
  exact h (i + j) (by omega)

variable {k} in
/-- Other memory, and the same 24 bytes. -/
theorem Framed.congr {s₀ s s' : St} (h : Framed k s₀ s) (hsp : s'.get Rv64.sp = s.get Rv64.sp)
    (hmem : ∀ j < 24, s'.hart.mem (Span.nth (frame k s₀) j)
      = s.hart.mem (Span.nth (frame k s₀) j)) : Framed k s₀ s' where
  sp := hsp.trans h.sp
  callerSp := (loadD_slot (by omega) hmem).trans h.callerSp
  callerGp := (loadD_slot (by omega) hmem).trans h.callerGp
  callerRa := (loadD_slot (by omega) hmem).trans h.callerRa

/-- A doubleword stored at least 8 bytes from another does not change what is loaded from there. -/
theorem loadD_store_apart {m : Span.Memory} {a v : Word} {i j : Nat} (hi : i < 64) (hj : j < 64)
    (h : i + 8 ≤ j ∨ j + 8 ≤ i) :
    loadD (storeLe m (Span.nth a j) v 8) (Span.nth a i) = loadD m (Span.nth a i) := by
  refine loadD_congr fun n hn => storeLe_outside m v ?_
  rw [Span.within_iff]
  rintro ⟨b, hb, -, heq⟩
  rw [Span.nth_nth, Span.nth_nth] at heq
  have := Span.nth_inj (by omega) (by omega) heq
  omega

theorem save_pointers {s₀ s : St} (hs : s.At 16) (ht1 : s.get t1 = s₀.get sp)
    (hsp : s.get sp = if k.stackPointer = 0 then s₀.get sp else k.stackPointer)
    (hgp : s.get gp = savedGp k s₀) (hra : s.get ra = s₀.get ra) :
    ∃ s', Reaches (crtStep k W) s s' ∧ BssReady k s' ∧ Framed k s₀ s' := by
  obtain ⟨hreach, hat⟩ := crt_block k W hs ([.lab .globalDone] ++ saveLines k)
    ⟨_, rfl⟩ rfl
  have hframe : s.get sp + -24 = frame k s₀ := by
    rw [hsp]
    rfl
  refine ⟨_, hreach, ⟨hat, rfl, rfl, rfl⟩, ?_⟩
  have hmem : (lines (crt0 k) W ([.lab .globalDone] ++ saveLines k) s).hart.mem =
      storeLe (storeLe (storeLe s.hart.mem (Span.nth (frame k s₀) 0) (s₀.get sp) 8)
        (Span.nth (frame k s₀) 8) (savedGp k s₀) 8) (Span.nth (frame k s₀) 16) (s₀.get ra) 8 := by
    rw [← hframe, ← ht1, ← hgp, ← hra]
    rfl
  refine ⟨hframe, ?_, ?_, ?_⟩
  · rw [hmem, loadD_store_apart (by omega) (by omega) (by omega),
      loadD_store_apart (by omega) (by omega) (by omega), loadD_storeLe]
  · rw [hmem, loadD_store_apart (by omega) (by omega) (by omega), loadD_storeLe]
  · rw [hmem]
    exact loadD_storeLe _ _ _

/-! ## `.bss` -/

theorem toInt_size {n : Nat} (hn : n < 2 ^ 63) : (BitVec.ofNat 64 n).toInt = n := by
  rw [BitVec.toInt_eq_toNat_of_lt, BitVec.toNat_ofNat, Nat.mod_eq_of_lt (by omega)]
  rw [BitVec.toNat_ofNat, Nat.mod_eq_of_lt (by omega)]
  omega

theorem size_blez {n : Nat} (hn : n < 2 ^ 63) :
    (BitVec.ofNat 64 n).sle 0 = true ↔ n = 0 := by
  rw [BitVec.sle_iff_toInt_le, toInt_size hn]
  show (n : Int) ≤ 0 ↔ n = 0
  omega

theorem size_bgt {n : Nat} (hn : n < 2 ^ 63) :
    (0 : Word).slt (BitVec.ofNat 64 n) = true ↔ 0 < n := by
  rw [BitVec.slt_iff_toInt_lt, toInt_size hn]
  show (0 : Int) < n ↔ 0 < n
  omega

theorem size_sub {n j : Nat} (hj : j ≤ n) (hn : n < 2 ^ 63) :
    BitVec.ofNat 64 n + -BitVec.ofNat 64 j = BitVec.ofNat 64 (n - j) := by
  rw [← BitVec.sub_eq_add_neg, ← BitVec.ofNat_sub_ofNat_of_le _ _ (by omega) hj]

theorem size_blt {n : Nat} (hn : n < 2 ^ 63) :
    (BitVec.ofNat 64 n + -32).slt 0 = true ↔ n < 32 := by
  have hneg : (-32 : Word).toNat = 2 ^ 64 - 32 := rfl
  have hmsb : (BitVec.ofNat 64 n + -32).slt 0 = (BitVec.ofNat 64 n + -32).msb :=
    BitVec.slt_zero_eq_msb
  rw [hmsb, BitVec.msb_eq_decide, decide_eq_true_iff, BitVec.toNat_add, BitVec.toNat_ofNat, hneg]
  omega

/-- `n` bytes are left to clear, from `a` on. -/
structure Clearing (s : St) (a : Word) (n : Nat) : Prop where
  start : s.get t0 = a
  left : s.get t2 = BitVec.ofNat 64 n
  value : s.get a0 = 0

def zeros : Nat → Span.Byte := fun _ => 0

theorem storeLe_zero (m : Span.Memory) (a : Word) (n : Nat) :
    storeLe m a 0 n = Span.store m a zeros n := by
  refine Span.store_congr m a fun j _ => ?_
  unfold byteOf
  exact BitVec.extractLsb'_zero

/-- Cleared, and then cleared right behind it. -/
theorem store_zeros (m : Span.Memory) (a : Word) {n n' : Nat} (h : n + n' ≤ 2 ^ 64) :
    Span.store (Span.store m a zeros n) (Span.nth a n) zeros n' = Span.store m a zeros (n + n') :=
  Span.store_append m a zeros h

theorem Clearing.congr {s s' : St} {a : Word} {n : Nat} (h : Clearing s a n)
    (hsame : s'.hart = s.hart) : Clearing s' a n :=
  ⟨(get_congr hsame t0).trans h.start, (get_congr hsame t2).trans h.left,
    (get_congr hsame a0).trans h.value⟩

/-- `R` allows the stores that clear `n` bytes from `a` on: doublewords at distances of 8, and
single bytes. -/
structure Clears (R : Word → Nat → Prop) (a : Word) (n : Nat) : Prop where
  word : ∀ j, 8 ∣ j → j + 8 ≤ n → R (Span.nth a j) 8
  byte : ∀ j < n, R (Span.nth a j) 1

variable {R : Word → Nat → Prop}

/-- The bytes behind the first 32 of them. -/
theorem Clears.behind {a : Word} {n : Nat} (h : Clears R a n) :
    Clears R (Span.nth a 32) (n - 32) where
  word j hj hn := by
    rw [Span.nth_nth]
    exact h.word (32 + j) (by omega) (by omega)
  byte j hj := by
    rw [Span.nth_nth]
    exact h.byte (32 + j) (by omega)

/-- Straight lines from line `n` on run through to the line behind them, and every store on the way
stays in `R`. -/
theorem bss_block {n : Nat} {s : St} (hs : s.At n) (ls : CrtProgram)
    (hP : ls <+: (crt0 k).drop n) (hls : ls.all Line.straight)
    (hst : LinesStore (crt0 k) W R ls s) :
    Through (crtStep k W) (Storing (crt0 k) R) s (lines (crt0 k) W ls s) ∧
      (lines (crt0 k) W ls s).At (n + ls.length) :=
  through_lines ls hs hP hls hst

/-- The form of `crt_taken` that keeps account of the stores: a branch taken makes none outside
`R`. -/
theorem bss_taken {n : Nat} {s : St} {c : St → Bool} {l : CrtLabel} (i : Instr CrtLabel CrtSym)
    (hs : s.At n) (hP : [.ins i] <+: (crt0 k).drop n) (hst : (Line.ins i).Stores R s)
    (hi : exec (crt0 k) W s i = s.jump (crt0 k) (c s) l) (hc : c s = true) :
    ∃ s', Through (crtStep k W) (Storing (crt0 k) R) s s' ∧ s'.At (find (crt0 k) l) ∧
      s'.hart = s.hart :=
  ⟨_, through_line hs (.ins i) hP (hi.trans (jump_taken hc)) hst, ⟨rfl, hs.2⟩, rfl⟩

/-- The form of `crt_not` that keeps account of the stores: a branch not taken makes none outside
`R`. -/
theorem bss_not {n : Nat} {s : St} {c : St → Bool} {l : CrtLabel} (i : Instr CrtLabel CrtSym)
    (hs : s.At n) (hP : [.ins i] <+: (crt0 k).drop n) (hst : (Line.ins i).Stores R s)
    (hi : exec (crt0 k) W s i = s.jump (crt0 k) (c s) l) (hc : c s = false) :
    ∃ s', Through (crtStep k W) (Storing (crt0 k) R) s s' ∧ s'.At (n + 1) ∧ s'.hart = s.hart :=
  ⟨_, through_line hs (.ins i) hP (hi.trans (jump_not hc)) hst,
    ⟨congrArg (· + 1) hs.1, hs.2⟩, rfl⟩

theorem clear_byte {s : St} {a : Word} {n : Nat} (hs : s.At 39) (hc : Clearing s a (n + 1))
    (hn : n + 1 < 2 ^ 63) (hR : R a 1) :
    ∃ s', Through (crtStep k W) (Storing (crt0 k) R) s s' ∧ s'.At 43 ∧ s'.get sp = s.get sp ∧
      Clearing s' (Span.nth a 1) n ∧ s'.hart.mem = Span.store s.hart.mem a zeros 1 := by
  have hstart : s.get t0 + 0 = a := by
    rw [hc.start]
    exact BitVec.add_zero a
  obtain ⟨hthrough, hat⟩ := bss_block k W hs [.lab .zeroBssRem, .ins (.sb a0 0 t0),
    .ins (.addi t2 t2 (-1)), .ins (.addi t0 t0 1)] ⟨_, rfl⟩ rfl
    ⟨trivial, hstart.symm ▸ hR, trivial, trivial, trivial⟩
  refine ⟨_, hthrough, hat, rfl, ⟨?_, ?_, hc.value⟩, ?_⟩
  · show s.get t0 + 1 = Span.nth a 1
    rw [hc.start]
    rfl
  · show s.get t2 + -1 = BitVec.ofNat 64 n
    rw [hc.left]
    exact size_sub (Nat.le_add_left 1 n) hn
  · show storeLe s.hart.mem (s.get t0 + 0) (s.get a0) 1 = _
    rw [hstart, hc.value, storeLe_zero]

/-- The second loop zeroes the `n + 1` bytes that are left one at a time, in `R`, and ends behind
the loop. -/
theorem clear_rem : ∀ (n : Nat) {s : St} {a : Word}, s.At 39 → Clearing s a (n + 1) →
    n + 1 < 2 ^ 63 → (∀ j < n + 1, R (Span.nth a j) 1) →
    ∃ s', Through (crtStep k W) (Storing (crt0 k) R) s s' ∧ s'.At 44 ∧ s'.get sp = s.get sp ∧
      s'.hart.mem = Span.store s.hart.mem a zeros (n + 1) := by
  intro n
  induction n with
  | zero =>
    intro s a hs hc hn hR
    have hfirst : R a 1 := Span.nth_zero a ▸ hR 0 (by omega)
    obtain ⟨s₁, hbyte, hat, hsp, hc₁, hmem⟩ := clear_byte k W hs hc hn hfirst
    have hdone : (0 : Word).slt (s₁.get t2) = false := by
      rw [hc₁.left, Bool.eq_false_iff, Ne, size_bgt (by omega)]
      omega
    obtain ⟨s₂, hend, hat₂, hsame⟩ := bss_not k W
      (c := fun s => (0 : Word).slt (s.get t2)) (l := .zeroBssRem) (.bgt t2 0 .zeroBssRem)
      hat ⟨_, rfl⟩ trivial rfl hdone
    refine ⟨s₂, hbyte.trans hend, hat₂, (get_congr hsame sp).trans hsp, ?_⟩
    rw [hsame, hmem]
  | succ n ih =>
    intro s a hs hc hn hR
    have hfirst : R a 1 := Span.nth_zero a ▸ hR 0 (by omega)
    have hrest : ∀ j < n + 1, R (Span.nth (Span.nth a 1) j) 1 := by
      intro j hj
      rw [Span.nth_nth]
      exact hR (1 + j) (by omega)
    obtain ⟨s₁, hbyte, hat, hsp, hc₁, hmem⟩ := clear_byte k W hs hc hn hfirst
    have hmore : (0 : Word).slt (s₁.get t2) = true := by
      rw [hc₁.left, size_bgt (by omega)]
      omega
    obtain ⟨s₂, hloop, hat₂, hsame⟩ := bss_taken k W
      (c := fun s => (0 : Word).slt (s.get t2)) (l := .zeroBssRem) (.bgt t2 0 .zeroBssRem)
      hat ⟨_, rfl⟩ trivial rfl hmore
    obtain ⟨s₃, hend, hat₃, hsp₃, hmem₃⟩ := ih hat₂ (hc₁.congr hsame) (by omega) hrest
    refine ⟨s₃, (hbyte.trans hloop).trans hend, hat₃,
      hsp₃.trans ((get_congr hsame sp).trans hsp), ?_⟩
    rw [hmem₃, hsame, hmem, store_zeros _ _ (by omega), Nat.add_comm 1 (n + 1)]

/-- One round of the first loop zeroes four doublewords and leaves 32 bytes less to be cleared. -/
theorem clear_words {s : St} {a : Word} {n : Nat} (hs : s.At 31) (hc : Clearing s a n)
    (hlo : 32 ≤ n) (hn : n < 2 ^ 63) (hR : Clears R a n) :
    ∃ s', Through (crtStep k W) (Storing (crt0 k) R) s s' ∧ s'.At 37 ∧ s'.get sp = s.get sp ∧
      Clearing s' (Span.nth a 32) (n - 32) ∧ s'.hart.mem = Span.store s.hart.mem a zeros 32 := by
  have hword : ∀ j, 8 ∣ j → j + 8 ≤ n → R (s.get t0 + BitVec.ofNat 64 j) 8 := by
    rw [hc.start]
    exact hR.word
  obtain ⟨hthrough, hat⟩ := bss_block k W hs
    [.ins (.sd a0 0 t0), .ins (.sd a0 8 t0), .ins (.sd a0 16 t0), .ins (.sd a0 24 t0),
      .ins (.addi t2 t2 (-32)), .ins (.addi t0 t0 32)] ⟨_, rfl⟩ rfl
    ⟨hword 0 (by omega) (by omega), hword 8 (by omega) (by omega), hword 16 (by omega) (by omega),
      hword 24 (by omega) (by omega), trivial, trivial, trivial⟩
  refine ⟨_, hthrough, hat, rfl, ⟨?_, ?_, hc.value⟩, ?_⟩
  · show s.get t0 + 32 = Span.nth a 32
    rw [hc.start]
    rfl
  · show s.get t2 + -32 = BitVec.ofNat 64 (n - 32)
    rw [hc.left]
    exact size_sub hlo hn
  · show storeLe (storeLe (storeLe (storeLe s.hart.mem (s.get t0 + 0) (s.get a0) 8)
      (s.get t0 + 8) (s.get a0) 8) (s.get t0 + 16) (s.get a0) 8) (s.get t0 + 24) (s.get a0) 8 = _
    have hzero : a + 0 = a := BitVec.add_zero a
    rw [hc.start, hc.value, storeLe_zero, storeLe_zero, storeLe_zero, storeLe_zero, hzero]
    exact (congrArg (fun m => Span.store (Span.store m _ zeros 8) _ zeros 8)
      (store_zeros _ a (by omega))).trans ((congrArg (fun m => Span.store m _ zeros 8)
        (store_zeros _ a (by omega))).trans (store_zeros _ a (by omega)))

/-- The head of the loop, with bytes left to clear: four doublewords or single bytes. -/
theorem clear_head (R : Word → Nat → Prop) {s : St} {a : Word} {n : Nat} (hs : s.At 27)
    (hc : Clearing s a n) (hn : n < 2 ^ 63) (hpos : 0 < n) :
    ∃ s', Through (crtStep k W) (Storing (crt0 k) R) s s' ∧ s'.At (if n < 32 then 39 else 31) ∧
      s'.get sp = s.get sp ∧ Clearing s' a n ∧ s'.hart.mem = s.hart.mem := by
  obtain ⟨hthrough, hat⟩ := bss_block (R := R) k W hs
    [.lab .zeroBssLoop, .ins (.addi t4 t2 (-32))] ⟨_, rfl⟩ rfl ⟨trivial, trivial, trivial⟩
  have hsome : (s.get t2).sle 0 = false := by
    rw [hc.left, Bool.eq_false_iff, Ne, size_blez hn]
    omega
  obtain ⟨s₂, hgo, hat₂, hsame₂⟩ := bss_not (R := R) k W (c := fun s => (s.get t2).sle 0)
    (l := .fpInit) (.blez t2 .fpInit) hat ⟨_, rfl⟩ trivial rfl hsome
  have ht4 : s₂.get t4 = BitVec.ofNat 64 n + -32 := by
    rw [get_congr hsame₂, ← hc.left]
    rfl
  have hc₂ : Clearing s₂ a n :=
    ⟨(get_congr hsame₂ t0).trans hc.start, (get_congr hsame₂ t2).trans hc.left,
      (get_congr hsame₂ a0).trans hc.value⟩
  rcases Nat.lt_or_ge n 32 with hfew | hmany
  · obtain ⟨s₃, hrem, hat₃, hsame₃⟩ := bss_taken (R := R) k W
      (c := fun s => (s.get t4).slt 0) (l := .zeroBssRem) (.blt t4 0 .zeroBssRem) hat₂ ⟨_, rfl⟩
      trivial rfl (by rw [ht4, size_blt hn]; exact hfew)
    rw [if_pos hfew]
    exact ⟨s₃, (hthrough.trans hgo).trans hrem, hat₃,
      (get_congr hsame₃ sp).trans (get_congr hsame₂ sp), hc₂.congr hsame₃,
      by rw [hsame₃, hsame₂]; rfl⟩
  · obtain ⟨s₃, hwords, hat₃, hsame₃⟩ := bss_not (R := R) k W
      (c := fun s => (s.get t4).slt 0) (l := .zeroBssRem) (.blt t4 0 .zeroBssRem) hat₂ ⟨_, rfl⟩
      trivial rfl (by rw [ht4, Bool.eq_false_iff, Ne, size_blt hn]; exact Nat.not_lt.mpr hmany)
    rw [if_neg (Nat.not_lt.mpr hmany)]
    exact ⟨s₃, (hthrough.trans hgo).trans hwords, hat₃,
      (get_congr hsame₃ sp).trans (get_congr hsame₂ sp), hc₂.congr hsame₃,
      by rw [hsame₃, hsame₂]; rfl⟩

/-- Nothing to clear, also where the linker gives the symbols in the other order. -/
theorem clear_none (R : Word → Nat → Prop) {s : St} (hs : s.At 27)
    (hnone : (s.get t2).toInt ≤ 0) :
    ∃ s', Through (crtStep k W) (Storing (crt0 k) R) s s' ∧ s'.At 44 ∧ s'.get sp = s.get sp ∧
      s'.hart.mem = s.hart.mem := by
  obtain ⟨hthrough, hat⟩ := bss_block (R := R) k W hs
    [.lab .zeroBssLoop, .ins (.addi t4 t2 (-32))] ⟨_, rfl⟩ rfl ⟨trivial, trivial, trivial⟩
  obtain ⟨s₂, hdone, hat₂, hsame⟩ := bss_taken (R := R) k W (c := fun s => (s.get t2).sle 0)
    (l := .fpInit) (.blez t2 .fpInit) hat ⟨_, rfl⟩ trivial rfl
    (BitVec.sle_iff_toInt_le.mpr hnone)
  exact ⟨s₂, hthrough.trans hdone, hat₂, get_congr hsame sp, by rw [hsame]; rfl⟩

/-- A pass of the loop over four doublewords: back to its head with the rest, or out of it. -/
theorem clear_pass {s : St} {a : Word} {n : Nat} (hs : s.At 27) (hc : Clearing s a n)
    (hlo : 32 ≤ n) (hn : n < 2 ^ 63) (hR : Clears R a n) :
    ∃ s', Through (crtStep k W) (Storing (crt0 k) R) s s' ∧ s'.At (if n = 32 then 44 else 27) ∧
      s'.get sp = s.get sp ∧ Clearing s' (Span.nth a 32) (n - 32) ∧
      s'.hart.mem = Span.store s.hart.mem a zeros 32 := by
  obtain ⟨s₁, hhead, hat, hsp, hc₁, hmem⟩ := clear_head k W R hs hc hn (by omega)
  rw [if_neg (Nat.not_lt.mpr hlo)] at hat
  obtain ⟨s₂, hwords, hat₂, hsp₂, hc₂, hmem₂⟩ := clear_words k W hat hc₁ hlo hn hR
  rw [hmem] at hmem₂
  rcases Nat.eq_or_lt_of_le hlo with hlast | hmore
  · have hdone : (0 : Word).slt (s₂.get t2) = false := by
      rw [hc₂.left, Bool.eq_false_iff, Ne, size_bgt (by omega)]
      omega
    obtain ⟨s₃, hgo, hat₃, hsame₃⟩ := bss_not (R := R) k W
      (c := fun s => (0 : Word).slt (s.get t2)) (l := .zeroBssLoop) (.bgt t2 0 .zeroBssLoop)
      hat₂ ⟨_, rfl⟩ trivial rfl hdone
    obtain ⟨s₄, hj, hat₄, hsame₄⟩ := bss_taken (R := R) k W (c := fun _ => true)
      (l := .fpInit) (.j .fpInit) hat₃ ⟨_, rfl⟩ trivial rfl rfl
    have hsame : s₄.hart = s₂.hart := hsame₄.trans hsame₃
    rw [if_pos hlast.symm]
    exact ⟨s₄, ((hhead.trans hwords).trans hgo).trans hj, hat₄,
      (get_congr hsame sp).trans (hsp₂.trans hsp), hc₂.congr hsame, by rw [hsame, hmem₂]⟩
  · have hloop : (0 : Word).slt (s₂.get t2) = true := by
      rw [hc₂.left, size_bgt (by omega)]
      omega
    obtain ⟨s₃, hback, hat₃, hsame⟩ := bss_taken (R := R) k W
      (c := fun s => (0 : Word).slt (s.get t2)) (l := .zeroBssLoop) (.bgt t2 0 .zeroBssLoop)
      hat₂ ⟨_, rfl⟩ trivial rfl hloop
    rw [if_neg (Nat.ne_of_gt hmore)]
    exact ⟨s₃, (hhead.trans hwords).trans hback, hat₃,
      (get_congr hsame sp).trans (hsp₂.trans hsp), hc₂.congr hsame, by rw [hsame, hmem₂]⟩

/-- From the head of the loop, whatever is left to clear. -/
theorem clear_bss : ∀ (n : Nat) {s : St} {a : Word}, s.At 27 → Clearing s a n → n < 2 ^ 63 →
    Clears R a n →
    ∃ s', Through (crtStep k W) (Storing (crt0 k) R) s s' ∧ s'.At 44 ∧ s'.get sp = s.get sp ∧
      s'.hart.mem = Span.store s.hart.mem a zeros n := by
  intro n
  induction n using Nat.strong_induction_on with
  | _ n ih =>
    intro s a hs hc hn hR
    rcases Nat.lt_or_ge n 32 with hfew | hmany
    · cases n with
      | zero =>
        rw [Span.store_zero]
        refine clear_none k W R hs ?_
        rw [hc.left, toInt_size hn]
        exact Int.le_refl 0
      | succ n =>
        obtain ⟨s₁, hhead, hat, hsp, hc₁, hmem⟩ := clear_head k W R hs hc hn (by omega)
        rw [if_pos hfew] at hat
        obtain ⟨s₂, hrem, hat₂, hsp₂, hmem₂⟩ := clear_rem k W n hat hc₁ hn hR.byte
        exact ⟨s₂, hhead.trans hrem, hat₂, hsp₂.trans hsp, by rw [hmem₂, hmem]⟩
    · obtain ⟨s₁, hpass, hat, hsp, hc₁, hmem⟩ := clear_pass k W hs hc hmany hn hR
      by_cases hlast : n = 32
      · rw [if_pos hlast] at hat
        exact ⟨s₁, hpass, hat, hsp, by rw [hmem, hlast]⟩
      · rw [if_neg hlast] at hat
        obtain ⟨s₂, hrest, hat₂, hsp₂, hmem₂⟩ := ih (n - 32) (by omega) hat hc₁ (by omega) hR.behind
        refine ⟨s₂, hpass.trans hrest, hat₂, hsp₂.trans hsp, ?_⟩
        rw [hmem₂, hmem, store_zeros _ _ (by omega), Nat.add_sub_cancel' (by omega)]

theorem bssSize_lt (k : CrtLink) : bssSize k < 2 ^ 63 := by
  have hlt : (k.bssEnd - k.bssStart).toInt < 2 ^ 63 := BitVec.toInt_lt
  unfold bssSize
  omega

theorem bss_cleared {s : St} (hs : BssReady k s) (hR : Clears R k.bssStart (bssSize k)) :
    ∃ s', Through (crtStep k W) (Storing (crt0 k) R) s s' ∧ s'.At (find (crt0 k) .fpInit) ∧
      s'.get sp = s.get sp ∧
      s'.hart.mem = Span.store s.hart.mem k.bssStart zeros (bssSize k) := by
  rcases Int.lt_or_le 0 (k.bssEnd - k.bssStart).toInt with hsome | hnone
  · have hpos : ((bssSize k : Nat) : Int) = (k.bssEnd - k.bssStart).toInt :=
      Int.toNat_of_nonneg (by omega)
    refine clear_bss k W (bssSize k) hs.here ⟨hs.start, ?_, hs.value⟩ (bssSize_lt k) hR
    rw [hs.size]
    exact BitVec.eq_of_toInt_eq ((toInt_size (bssSize_lt k)).trans hpos).symm
  · have hsize : bssSize k = 0 := Int.toNat_of_nonpos hnone
    rw [hsize, Span.store_zero]
    exact clear_none k W R hs.here (hs.size ▸ hnone)

/-- Address `x` is in `[__bss_start, __bss_end)`, as a distance that may wrap. -/
def InBss (x : Word) : Prop := x - k.bssStart < k.bssEnd - k.bssStart

instance (x : Word) : Decidable (InBss k x) := inferInstanceAs (Decidable (_ < _))

/-- What may be stored: at a multiple of its size, and in `.bss`. -/
def BssStore (a : Word) (n : Nat) : Prop := n ∣ a.toNat ∧ ∀ j < n, InBss k (Span.nth a j)

variable {k} in
/-- Between the symbols, where they stand in this order. -/
theorem inBss_iff {x : Word} (h : k.bssStart ≤ k.bssEnd) :
    InBss k x ↔ k.bssStart ≤ x ∧ x < k.bssEnd := by
  have hx := x.isLt
  rw [BitVec.le_def] at h
  unfold InBss
  rw [BitVec.lt_def, BitVec.lt_def, BitVec.le_def, BitVec.toNat_sub_of_le h, BitVec.toNat_sub]
  omega

variable {k} in
/-- If the signed distance of the section's end from its start is positive, that distance is its
size. -/
theorem bssSize_pos (h : 0 < (k.bssEnd - k.bssStart).toInt) :
    bssSize k = (k.bssEnd - k.bssStart).toNat := by
  have hcond := BitVec.toInt_eq_toNat_cond (k.bssEnd - k.bssStart)
  have hlt := (k.bssEnd - k.bssStart).isLt
  unfold bssSize
  split at hcond <;> omega

variable {k} in
theorem inBss_within (h : 0 < (k.bssEnd - k.bssStart).toInt) (x : Word) :
    InBss k x ↔ Span.Within k.bssStart (bssSize k) x := by
  unfold InBss Span.Within
  rw [bssSize_pos h, BitVec.lt_def]

variable {k} in
/-- The loops store to `.bss` only, and doublewords at multiples of 8. -/
theorem clears_bss (h : 0 < (k.bssEnd - k.bssStart).toInt) (halign : 8 ∣ k.bssStart.toNat) :
    Clears (BssStore k) k.bssStart (bssSize k) where
  word j hj hn := by
    have hlt := bssSize_lt k
    refine ⟨?_, fun i hi => ?_⟩
    · have hnat : (Span.nth k.bssStart j).toNat = (k.bssStart.toNat + j) % 2 ^ 64 := by
        unfold Span.nth
        rw [BitVec.toNat_add, BitVec.toNat_ofNat, Nat.mod_eq_of_lt (by omega : j < 2 ^ 64)]
      omega
    · rw [inBss_within h, Span.nth_nth, Span.within_nth (by omega)]
      omega
  byte j hj := by
    have hlt := bssSize_lt k
    refine ⟨Nat.one_dvd _, fun i hi => ?_⟩
    rw [inBss_within h, Span.nth_nth, Span.within_nth (by omega)]
    omega

/-- From `_zero_bss_loop` control gets to `_fp_init`. With a positive size all that is stored
on the way goes to `.bss`, and in the end `.bss` is zero and no other byte has changed. Else
nothing is stored. -/
theorem zero_bss_exact (k : CrtLink) (W : World CrtSym) (s : St) (hs : BssReady k s)
    (halign : 8 ∣ k.bssStart.toNat) :
    (0 < (k.bssEnd - k.bssStart).toInt →
      ∃ s', Through (crtStep k W) (Storing (crt0 k) (BssStore k)) s s' ∧
        s'.At (find (crt0 k) .fpInit) ∧
        ∀ x, s'.hart.mem x = if InBss k x then 0 else s.hart.mem x) ∧
    ((k.bssEnd - k.bssStart).toInt ≤ 0 →
      ∃ s', Through (crtStep k W) (Storing (crt0 k) fun _ _ => False) s s' ∧
        s'.At (find (crt0 k) .fpInit) ∧ s'.hart.mem = s.hart.mem) := by
  constructor
  · intro hpos
    obtain ⟨s', hthrough, hat, -, hmem⟩ := bss_cleared k W hs (clears_bss hpos halign)
    refine ⟨s', hthrough, hat, fun x => ?_⟩
    rw [hmem]
    unfold Span.store
    simp only [inBss_within hpos]
    rfl
  · intro hnone
    obtain ⟨s', hthrough, hat, -, hmem⟩ := clear_none k W (fun _ _ => False) hs.here
      (hs.size ▸ hnone)
    exact ⟨s', hthrough, hat, hmem⟩

/-- 51 bytes: four doublewords, and 19 bytes one at a time. -/
def oddLink : CrtLink where
  stackPointer := 0
  globalPointer := 0
  trapHandlerWrap := 0x1000_0200
  bssStart := 0x1000_1000
  bssEnd := 0x1000_1033

/-- In front of the loop, with memory full of ones. -/
def oddReady : St where
  pc := 27
  hart :=
    { regs := fun r => if r = t0 then 0x1000_1000 else if r = t2 then 51 else 0
      fregs := fun _ => 0
      csr := fun _ => 0
      mem := fun _ => 0xff }
  left := none

theorem zero_bss_exact_odd :
    ∃ s', Through (crtStep oddLink fun _ h => h) (Storing (crt0 oddLink) (BssStore oddLink))
        oddReady s' ∧
      s'.At (find (crt0 oddLink) .fpInit) ∧
      ∀ x, s'.hart.mem x = if InBss oddLink x then 0 else 0xff :=
  (zero_bss_exact oddLink (fun _ h => h) oddReady ⟨⟨rfl, rfl⟩, rfl, rfl, rfl⟩ (by decide)).1
    (by decide)

/-! ## From `_start` to the caller -/

theorem fp_cleared {s : St} (hs : s.At 44) :
    ∃ s', Reaches (crtStep k W) s s' ∧ s'.At 82 ∧ s'.get sp = s.get sp ∧
      s'.hart.mem = s.hart.mem := by
  obtain ⟨hreach, hat⟩ := crt_block k W hs fpLines ⟨_, rfl⟩ rfl
  exact ⟨_, hreach, hat, rfl, rfl⟩

/-- A hart 0 that enters gets to `_zero_bss_loop`, and has the three pointers stored. -/
theorem reaches_bss {s : St} (hs : Entered s) :
    ∃ c, Reaches (crtStep k W) s c ∧ BssReady k c ∧ Framed k s c := by
  obtain ⟨s₁, h₁, hat₁, hsp₁, hgp₁, hra₁⟩ := park_hart0 k W hs
  obtain ⟨s₂, h₂, hat₂, ht1₂, hsp₂, hgp₂, hra₂⟩ := pointer_stack k W hat₁
  obtain ⟨s₃, h₃, hat₃, ht1₃, hsp₃, hgp₃, hra₃⟩ := pointer_global k W hat₂
  rw [hsp₁] at ht1₂ hsp₂
  rw [hgp₂, hgp₁] at hgp₃
  obtain ⟨s₄, h₄, hready, hframed⟩ := save_pointers k W hat₃
    (ht1₃.trans ht1₂) (hsp₃.trans hsp₂) hgp₃ (hra₃.trans (hra₂.trans hra₁))
  exact ⟨s₄, ((h₁.trans h₂).trans h₃).trans h₄, hready, hframed⟩

/-- The hart that `_start` calls `main` with has the three pointers stored. -/
theorem reaches_main {s : St} (hs : Entered s) (hbss : BssDisjoint k s) :
    ∃ c, Reaches (crtStep k W) s c ∧ c.At 82 ∧ Framed k s c := by
  obtain ⟨s₁, h₁, hready, hframed⟩ := reaches_bss k W hs
  obtain ⟨s₂, h₂, hat₂, hsp₂, hmem₂⟩ := bss_cleared (R := fun _ _ => True) k W hready
    ⟨fun _ _ _ => trivial, fun _ _ => trivial⟩
  obtain ⟨s₃, h₃, hat₃, hsp₃, hmem₃⟩ := fp_cleared k W hat₂
  refine ⟨s₃, (h₁.trans h₂.reaches).trans h₃, hat₃,
    hframed.congr (hsp₃.trans hsp₂) fun j hj => ?_⟩
  rw [hmem₃, hmem₂]
  exact Span.store_outside _ _ (hbss j hj)

/-- `_exit` loads the three saved pointers back, leaves `a0` alone and jumps to the return
address. -/
theorem exit_loads {s₀ m : St} (hm : m.At 83) (hframed : Framed k s₀ m) :
    ∃ s', Reaches (crtStep k W) m s' ∧ s'.left = some (s₀.get ra &&& ~~~1) ∧
      s'.get sp = s₀.get sp ∧ s'.get gp = savedGp k s₀ ∧ s'.get a0 = m.get a0 := by
  obtain ⟨hreach, hat⟩ := crt_block k W hm
    [.lab .exit, .ins (.ld ra 16 sp), .ins (.ld gp 8 sp), .ins (.ld sp 0 sp),
      .ins (.slli t0 a0 1), .ins (.ori t0 t0 1), .ins (.li t1 baseRegs), .ins (.sw t0 8 t1)]
    ⟨_, rfl⟩ rfl
  have hret := reaches_line (P := crt0 k) (W := W) hat (.ins .ret) ⟨_, rfl⟩ rfl
  refine ⟨_, hreach.trans hret, ?_, ?_, ?_, rfl⟩
  · show some (loadD m.hart.mem (m.get sp + 16) &&& ~~~1) = _
    rw [hframed.sp]
    exact congrArg (fun a => some (a &&& ~~~1)) hframed.callerRa
  · show loadD m.hart.mem (m.get sp + 0) = _
    rw [hframed.sp]
    exact hframed.callerSp
  · show loadD m.hart.mem (m.get sp + 8) = _
    rw [hframed.sp]
    exact hframed.callerGp

variable {k W}

/-- Where every run ends whose `main` returns: the caller gets `savedGp`. -/
theorem leaves {s : St} (hs : Entered s) (hbss : BssDisjoint k s) (hmain : MainKeeps k W s) :
    ∃ m s', Reaches (crtStep k W) s m ∧ m.At (find (crt0 k) .exit) ∧
      Reaches (crtStep k W) m s' ∧ s'.left = some (s.get ra &&& ~~~1) ∧
      s'.get sp = s.get sp ∧ s'.get gp = savedGp k s ∧ s'.get a0 = m.get a0 := by
  obtain ⟨c, hc, hat, hframed⟩ := reaches_main k W hs hbss
  have hstep : crtStep k W c = some (afterMain k W c) := by
    have hdrop : (crt0 k).drop c.pc = .ins (.call .main) :: exitLines := by
      rw [hat.1]
      rfl
    exact step_at hat.2 hdrop
  have hm : (afterMain k W c).At 83 := ⟨congrArg (· + 1) hat.1, hat.2⟩
  obtain ⟨hsp, -, hmem⟩ := hmain c hc (congrArg (· + 1) hat.1)
  rw [hframed.sp] at hmem
  obtain ⟨s', hexit, hend⟩ := exit_loads k W hm (hframed.congr hsp hmem)
  exact ⟨_, s', hc.trans (Reaches.head hstep (Reaches.refl _ _)), hm, hexit, hend⟩

/-- The caller's `gp` afterwards is the stored one, so it has to be the caller's. -/
theorem savedGp_of_restores {s : St} (hs : Entered s) (hbss : BssDisjoint k s)
    (hmain : MainKeeps k W s) (h : Restores k W s) : savedGp k s = s.get gp := by
  obtain ⟨m, s', hm, -, hexit, hleft, -, hgp, -⟩ := leaves hs hbss hmain
  obtain ⟨m₁, s₁, hm₁, -, hexit₁, hleft₁, -, hgp₁, -⟩ := h
  have hsame : s₁ = s' := eq_of_left (hm₁.trans hexit₁) (hm.trans hexit) (by rw [hleft₁]; rfl)
    (by rw [hleft]; rfl)
  rw [← hgp, ← hsame, hgp₁]

/-- The caller gets its context back exactly where the program has no global pointer of
its own, or the caller's. -/
theorem restores_iff (k : CrtLink) (W : World CrtSym) (s : St) (hs : Entered s)
    (hbss : BssDisjoint k s) (hmain : MainKeeps k W s) :
    Restores k W s ↔ k.globalPointer = 0 ∨ k.globalPointer = s.get gp := by
  constructor
  · intro h
    have hgp := savedGp_of_restores hs hbss hmain h
    unfold savedGp at hgp
    by_cases hzero : k.globalPointer = 0
    · exact Or.inl hzero
    · rw [if_neg hzero] at hgp
      exact Or.inr hgp
  · intro hglobal
    obtain ⟨m, s', hm, hat, hexit, hleft, hsp, hgp, ha0⟩ := leaves hs hbss hmain
    refine ⟨m, s', hm, hat, hexit, hleft, hsp, hgp.trans ?_, ha0⟩
    unfold savedGp
    rcases hglobal with hzero | hsame
    · exact if_pos hzero
    · rw [hsame, ite_self]

/-- A program in the scratchpad, entered from the boot ROM: `glob` is its global pointer. -/
def spmLink (glob : Word) : CrtLink where
  stackPointer := 0
  globalPointer := glob
  trapHandlerWrap := 0x1000_0200
  bssStart := 0x1000_1000
  bssEnd := 0x1000_1020

/-- A program whose `main` returns 0 and changes no other register. -/
def returnZero : World CrtSym := fun _ h => { h with regs := Rv64.set h.regs a0 0 }

/-- The boot ROM calls, with its own stack, global pointer and return address. -/
def fromBootRom : St where
  pc := 0
  hart :=
    { regs := fun r => if r = sp then 0x1000_fff0 else if r = gp then 0x0200_0800
        else if r = ra then 0x0200_0124 else 0
      fregs := fun _ => 0
      csr := fun _ => 0
      mem := fun _ => 0 }
  left := none

theorem fromBootRom_keeps (glob : Word) : MainKeeps (spmLink glob) returnZero fromBootRom :=
  fun _ _ _ => ⟨rfl, rfl, fun _ _ => rfl⟩

theorem fromBootRom_disjoint (glob : Word) : BssDisjoint (spmLink glob) fromBootRom := by
  show ∀ j < 24, ¬Span.Within 0x1000_1000 (0x1000_1020 - 0x1000_1000 : Word).toInt.toNat
    (Span.nth (0x1000_fff0 + -24) j)
  decide +kernel

theorem restores_without_gp : Restores (spmLink 0) returnZero fromBootRom :=
  (restores_iff (spmLink 0) returnZero fromBootRom ⟨⟨rfl, rfl⟩, rfl⟩ (fromBootRom_disjoint 0)
    (fromBootRom_keeps 0)).mpr (Or.inl rfl)

/-- With its own global pointer, as `common.ldh` gives every program one, the boot ROM goes
on with the program's. -/
theorem not_restores_gp : Entered fromBootRom ∧ (fromBootRom.get sp).toNat % 8 = 0 ∧
    BssDisjoint (spmLink 0x1000_0800) fromBootRom ∧
    MainKeeps (spmLink 0x1000_0800) returnZero fromBootRom ∧
    ¬Restores (spmLink 0x1000_0800) returnZero fromBootRom := by
  have hs : Entered fromBootRom := ⟨⟨rfl, rfl⟩, rfl⟩
  refine ⟨hs, rfl, fromBootRom_disjoint _, fromBootRom_keeps _, fun h => ?_⟩
  have hgp := savedGp_of_restores hs (fromBootRom_disjoint _) (fromBootRom_keeps _) h
  exact absurd hgp (by decide)

end Cheshire.Boot
