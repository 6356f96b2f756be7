import Mathlib.Logic.Relation
import Cheshire.Boot.Crt0
import Cheshire.Lib.Rv64Frame

/-!
# `crt0.S`: traps

`_trap_handler_wrap` saves the caller-saved integer registers on the stack of the program
that was trapped, calls the C handler, loads them back and returns with `mret`. It does
not have to know what the program was doing: traps may come between any two of its
instructions, any number of them, and the program cannot tell (`trap_transparent`), if
it has no use for what is below its stack pointer.

The hardware's share of a trap is `trapEntry` and `mret`; the FP registers are not saved,
so the handler has to leave them alone.
-/

namespace Cheshire.Boot

open Relation Transition Rv64Mem
open Rv64 (Word Reg ra sp gp t0 t1 t2 a0)

/-! ## The wrapper -/

def tp : Reg := 4

/-- The register `s0` to `s11` of index `i`, which a call has to keep. -/
def savedReg (i : Nat) : Reg := if i < 2 then 8 + i else 16 + i

/-- The register `a0` to `a7` of index `i`, which a call may change. -/
def argReg (i : Nat) : Reg := 10 + i

def t3 : Reg := 28
def t5 : Reg := 30
def t6 : Reg := 31

inductive TrapLabel where
  | trapHandlerWrap
  deriving DecidableEq

inductive TrapSym where
  | trapVector

abbrev Handler := World TrapSym

/-- The frame of 128 bytes: which register is saved at which offset. -/
def trapSlots : Slots :=
  [(ra, 120), (t0, 112), (t1, 104), (t2, 96), (argReg 0, 88), (argReg 1, 80), (argReg 2, 72),
    (argReg 3, 64), (argReg 4, 56), (argReg 5, 48), (argReg 6, 40), (argReg 7, 32), (t3, 24),
    (t4, 16), (t5, 8), (t6, 0)]

/-- The lines of `_trap_handler_wrap`, up to its `mret`. -/
def trapHandlerWrap : Program TrapLabel TrapSym :=
  [.lab .trapHandlerWrap, .ins (.addi sp sp (-128))] ++ saves sp trapSlots ++
    [.ins (.call .trapVector)] ++ restores sp trapSlots ++ [.ins (.addi sp sp 128)]

/-! ## Traps -/

/-- A hart in the middle of a program. -/
structure Cpu where
  pc : Word
  hart : Hart

def Cpu.get (c : Cpu) (r : Reg) : Word := Rv64.get c.hart.regs r

/-- `mstatus` when a trap is taken: `MPIE` is `MIE`, `MIE` is 0 and `MPP` is machine mode. -/
def trapStatus (m : Word) : Word :=
  m &&& ~~~0x1888 ||| (if m.getLsbD 3 then 0x80 else 0) ||| 0x1800

/-- `mstatus` behind `mret`: `MIE` is `MPIE`, `MPIE` is 1 and `MPP` is user mode. -/
def mretStatus (m : Word) : Word := m &&& ~~~0x1888 ||| (if m.getLsbD 7 then 0x8 else 0) ||| 0x80

/-- The hart as the trap has left it, in front of the wrapper's first line. -/
def trapEntry (c : Cpu) : St :=
  St.setCsr ⟨0, c.hart, none⟩ .mstatus (trapStatus (c.hart.csr .mstatus))

/-- `mret` gives the interrupt enable back and goes on at `mepc`. -/
def mret (mepc : Word) (s : St) : Cpu where
  pc := mepc
  hart := (s.setCsr .mstatus (mretStatus (s.hart.csr .mstatus))).hart

/-- A trap is taken in `c`, and the handler returns to `d`. -/
def Trapped (k : CrtLink) (W : Handler) (c d : Cpu) : Prop :=
  c.hart.csr .mtvec = k.trapHandlerWrap ∧
    ∃ s, Reaches (Rv64Mem.step trapHandlerWrap W) (trapEntry c) s ∧ s.At trapHandlerWrap.length ∧
      d = mret c.pc s

/-- The next instruction of the program, or a trap. -/
inductive Interrupted (k : CrtLink) (W : Handler) (p : Cpu → Option Cpu) : Cpu → Cpu → Prop where
  | step {c d : Cpu} : p c = some d → Interrupted k W p c d
  | trap {c d : Cpu} : Trapped k W c d → Interrupted k W p c d

/-! ## What is to hold -/

/-- What a routine has to leave as it was. -/
def calleeSaved : List Reg := [sp, gp, tp] ++ (List.range 12).map savedReg

/-- Address `x` is among the `n` bytes below `a`. -/
def Below (a : Word) (n : Nat) (x : Word) : Prop := Span.Within (a - BitVec.ofNat 64 n) n x

instance (a : Word) (n : Nat) (x : Word) : Decidable (Below a n x) :=
  inferInstanceAs (Decidable (Span.Within _ _ _))

/-- A handler that returns, keeps to the integer calling convention with `depth` bytes of stack
and the memory `own` of its own, and leaves more alone than that convention asks for: the
wrapper saves no floating-point register and no CSR, so the handler may change none. -/
structure HandlerAbi (W : Handler) (own : Word → Prop) (depth : Nat) : Prop where
  saved : ∀ h, ∀ r ∈ calleeSaved, Rv64.get (W .trapVector h).regs r = Rv64.get h.regs r
  mem : ∀ h x, ¬own x → ¬Below (Rv64.get h.regs sp) depth x → (W .trapVector h).mem x = h.mem x
  fregs : ∀ h, (W .trapVector h).fregs = h.fregs
  csr : ∀ h, (W .trapVector h).csr = h.csr

/-- The frame of a trap has nothing in common with the handler's memory. -/
def Clear (own : Word → Prop) (c : Cpu) : Prop := ∀ k < 128, ¬own (Span.nth (c.get sp + -128) k)

/-- All that a trap may change between two states of the interrupted program. -/
structure Unseen (own : Word → Prop) (depth : Nat) (c d : Cpu) : Prop where
  pc : d.pc = c.pc
  regs : ∀ r < 32, d.get r = c.get r
  fregs : d.hart.fregs = c.hart.fregs
  csr : ∀ r, r ≠ .mstatus → d.hart.csr r = c.hart.csr r
  /-- `MPIE` and `MPP` are those of `mret`. -/
  status : ∀ i, i ≠ 7 → i ≠ 11 → i ≠ 12 →
    (d.hart.csr .mstatus).getLsbD i = (c.hart.csr .mstatus).getLsbD i
  mem : ∀ x, ¬own x → ¬Below (c.get sp) (depth + 128) x → d.hart.mem x = c.hart.mem x

/-- A program that goes on in the same way, as `R` has it, whatever a trap has changed: it reads
neither the handler's memory nor what is below its stack pointer, and neither `MPIE` nor
`MPP`. -/
structure Blind (p : Cpu → Option Cpu) (R : Cpu → Cpu → Prop) (own : Word → Prop) (depth : Nat) :
    Prop where
  trans : ∀ {c₁ c₂ c₃}, R c₁ c₂ → R c₂ c₃ → R c₁ c₃
  unseen : ∀ {c d}, Unseen own depth c d → R c d
  stack : ∀ {c d}, R c d → d.get sp = c.get sp
  step : ∀ {c d c'}, R c d → p c = some c' → ∃ d', p d = some d' ∧ R c' d'
  stop : ∀ {c d}, R c d → p c = none → p d = none

variable {k : CrtLink} {W : Handler} {own : Word → Prop} {depth : Nat} {c d : Cpu}

/-! ## One trap -/

theorem trapSlots_inFrame : trapSlots.InFrame sp 128 where
  apart := by decide
  inside := by decide
  regs := by decide
  other := by decide
  size := by decide

/-- A register is saved by the wrapper or by the handler. -/
theorem saved_or_kept : ∀ r < 32, r = 0 ∨ r = sp ∨ (∃ x ∈ trapSlots, x.1 = r) ∨
    r ∈ calleeSaved ∧ r ≠ ra ∧ ∀ x ∈ trapSlots, x.1 ≠ r := by
  decide

theorem mask_bits : ∀ i < 64, (0x1888 : Word).getLsbD i = decide (i = 3 ∨ i = 7 ∨ i = 11 ∨ i = 12) ∧
    (0x80 : Word).getLsbD i = decide (i = 7) ∧ (0x8 : Word).getLsbD i = decide (i = 3) ∧
    (0x1800 : Word).getLsbD i = decide (i = 11 ∨ i = 12) := by
  decide +kernel

theorem getLsbD_ite (b : Bool) (v : Word) (i : Nat) :
    (if b then v else 0).getLsbD i = (b && v.getLsbD i) := by
  cases b with
  | true => rfl
  | false => exact BitVec.getLsbD_zero

theorem trapStatus_bit (m : Word) {i : Nat} (hi : i < 64) : (trapStatus m).getLsbD i
    = ((m.getLsbD i && !decide (i = 3 ∨ i = 7 ∨ i = 11 ∨ i = 12) || m.getLsbD 3 && decide (i = 7))
      || decide (i = 11 ∨ i = 12)) := by
  obtain ⟨hmask, hmpie, -, hmpp⟩ := mask_bits i hi
  unfold trapStatus
  rw [BitVec.getLsbD_or, BitVec.getLsbD_or, BitVec.getLsbD_and, BitVec.getLsbD_not, getLsbD_ite,
    hmask, hmpie, hmpp, decide_eq_true hi, Bool.true_and]

theorem mretStatus_bit (m : Word) {i : Nat} (hi : i < 64) : (mretStatus m).getLsbD i
    = ((m.getLsbD i && !decide (i = 3 ∨ i = 7 ∨ i = 11 ∨ i = 12) || m.getLsbD 7 && decide (i = 3))
      || decide (i = 7)) := by
  obtain ⟨hmask, hmpie, hmie, -⟩ := mask_bits i hi
  unfold mretStatus
  rw [BitVec.getLsbD_or, BitVec.getLsbD_or, BitVec.getLsbD_and, BitVec.getLsbD_not, getLsbD_ite,
    hmask, hmpie, hmie, decide_eq_true hi, Bool.true_and]

/-- A trap and the `mret` behind it change no bit of `mstatus` other than MPIE and MPP. -/
theorem status_back (m : Word) {i : Nat} (h₇ : i ≠ 7) (h₁₁ : i ≠ 11) (h₁₂ : i ≠ 12) :
    (mretStatus (trapStatus m)).getLsbD i = m.getLsbD i := by
  rcases Nat.lt_or_ge i 64 with hi | hi
  · rw [mretStatus_bit _ hi, trapStatus_bit _ hi, trapStatus_bit _ (show 7 < 64 by decide)]
    by_cases h₃ : i = 3
    · rw [h₃]
      simp
    · simp [h₃, h₇, h₁₁, h₁₂]
  · rw [BitVec.getLsbD_of_ge _ _ hi, BitVec.getLsbD_of_ge _ _ hi]

theorem below_sub (a : Word) (n : Nat) :
    a + -128 - BitVec.ofNat 64 n = a - BitVec.ofNat 64 (n + 128) := by
  rw [BitVec.ofNat_add]
  generalize BitVec.ofNat 64 n = x
  show a + -128 - x = a - (x + 128)
  grind

/-- The frame, counted from the lowest byte the handler may use. -/
theorem nth_frame (a : Word) (n j : Nat) :
    Span.nth (a + -128) j = Span.nth (a - BitVec.ofNat 64 (n + 128)) (n + j) := by
  have hframe : Span.nth (a - BitVec.ofNat 64 (n + 128)) n = a + -128 := by
    rw [← below_sub]
    exact BitVec.sub_add_cancel _ _
  rw [← Span.nth_nth, hframe]

/-- What is outside the frame and the handler's stack taken together is outside each of the two. -/
theorem below_frame {a x : Word} {n : Nat} (hn : n + 128 < 2 ^ 64)
    (hx : ¬Below a (n + 128) x) : ¬Below (a + -128) n x ∧ ¬Span.Within (a + -128) 128 x := by
  refine ⟨fun hin => hx ?_, fun hin => hx ?_⟩
  · unfold Below at hin ⊢
    rw [below_sub] at hin
    exact Nat.lt_of_lt_of_le hin (Nat.le_add_right n 128)
  · obtain ⟨j, hj, -, rfl⟩ := Span.within_iff.mp hin
    unfold Below
    rw [nth_frame a n, Span.within_nth (by omega)]
    omega

/-- The wrapper's frame of 128 bytes is not in the stack that the handler may use below it. -/
theorem frame_above {a : Word} {n j : Nat} (hn : n + 128 < 2 ^ 64) (hj : j < 128) :
    ¬Below (a + -128) n (Span.nth (a + -128) j) := by
  unfold Below
  rw [below_sub, nth_frame a n, Span.within_nth (by omega)]
  omega

/-- The lines in front of the stores, which make room for the frame. -/
def wrapHead : Program TrapLabel TrapSym := [.lab .trapHandlerWrap, .ins (.addi sp sp (-128))]

/-- The state in front of the stores. -/
theorem wrap_head (W : Handler) (c : Cpu) :
    ∃ s, Reaches (Rv64Mem.step trapHandlerWrap W) (trapEntry c) s ∧ s.At 2 ∧
      s.get sp = c.get sp + -128 ∧ (∀ r, r ≠ sp → s.get r = c.get r) ∧
      s.hart.fregs = c.hart.fregs ∧ s.hart.csr = (trapEntry c).hart.csr ∧
      s.hart.mem = c.hart.mem := by
  obtain ⟨hreach, hat⟩ := reaches_lines (P := trapHandlerWrap) (W := W) wrapHead
    (s := trapEntry c) (k := 0) ⟨rfl, rfl⟩ ⟨_, rfl⟩ rfl
  exact ⟨_, hreach, hat, rfl, fun r hr => Rv64.get_set_ne hr, rfl, rfl, rfl⟩

/-- Up to the call: all that the wrapper saves is in the frame. -/
theorem wrap_saves {s : St} (hs : s.At 2) :
    ∃ s', Reaches (Rv64Mem.step trapHandlerWrap W) s s' ∧ s'.At 18 ∧
      s'.hart = { s.hart with mem := savedAt (s.get sp) s.get trapSlots s.hart.mem } := by
  obtain ⟨hreach, hat⟩ := reaches_lines (P := trapHandlerWrap) (W := W) (saves sp trapSlots) hs
    ⟨_, rfl⟩ rfl
  refine ⟨_, hreach, hat, ?_⟩
  rw [lines_saves]

/-- The wrapper's call of `trap_vector` returns to the line behind it, with the hart as the handler
leaves it. -/
theorem wrap_call {s : St} (hs : s.At 18) :
    ∃ s', Reaches (Rv64Mem.step trapHandlerWrap W) s s' ∧ s'.At 19 ∧
      s'.hart = W .trapVector
        { s.hart with regs := Rv64.set s.hart.regs ra (Rv64.lineAddr 19) } := by
  obtain ⟨hreach, hat⟩ := reaches_lines (P := trapHandlerWrap) (W := W)
    [.ins (.call .trapVector)] hs ⟨_, rfl⟩ rfl
  refine ⟨_, hreach, hat, ?_⟩
  show W .trapVector { s.hart with regs := Rv64.set s.hart.regs ra (Rv64.lineAddr (s.pc + 1)) } = _
  rw [hs.1]

/-- From the loads on the wrapper gives every saved register its value back from the frame and frees
the frame. -/
theorem wrap_restores {s t : St} (ht : t.At 19) (hsp : t.get sp = s.get sp)
    (hmem : ∀ k < 128, t.hart.mem (Span.nth (s.get sp) k)
      = savedAt (s.get sp) s.get trapSlots s.hart.mem (Span.nth (s.get sp) k)) :
    ∃ t', Reaches (Rv64Mem.step trapHandlerWrap W) t t' ∧ t'.At 36 ∧
      t'.get sp = t.get sp + 128 ∧ (∀ x ∈ trapSlots, t'.get x.1 = s.get x.1) ∧
      (∀ r, r ≠ sp → (∀ x ∈ trapSlots, x.1 ≠ r) → t'.get r = t.get r) ∧
      t'.hart.fregs = t.hart.fregs ∧ t'.hart.csr = t.hart.csr ∧ t'.hart.mem = t.hart.mem := by
  obtain ⟨hreach₁, hat₁⟩ := reaches_lines (P := trapHandlerWrap) (W := W) (restores sp trapSlots) ht
    ⟨_, rfl⟩ rfl
  obtain ⟨regs, hlines, hsaved, hother⟩ := restores_saves (P := trapHandlerWrap) (W := W)
    trapSlots_inFrame hsp hmem
  rw [hlines] at hreach₁ hat₁
  obtain ⟨hreach₂, hat₂⟩ := reaches_lines (P := trapHandlerWrap) (W := W) [.ins (.addi sp sp 128)]
    hat₁ ⟨_, rfl⟩ rfl
  have hspFree : ∀ x ∈ trapSlots, x.1 ≠ sp := fun x hx => (trapSlots_inFrame.other x hx).1
  refine ⟨_, hreach₁.trans hreach₂, hat₂, ?_, fun x hx => ?_, fun r hr hx => ?_, rfl, rfl, rfl⟩
  · show Rv64.get regs sp + 128 = _
    rw [hother sp hspFree]
  · refine Eq.trans (Rv64.get_set_ne (hspFree x hx)) (hsaved x hx)
  · exact Eq.trans (Rv64.get_set_ne hr) (hother r hx)

/-- The wrapper gets to its `mret`, and nobody sees it. -/
theorem wrap_unseen (hW : HandlerAbi W own depth) (hdepth : depth + 128 < 2 ^ 64)
    (hc : Clear own c) :
    ∃ s, Reaches (Rv64Mem.step trapHandlerWrap W) (trapEntry c) s ∧ s.At trapHandlerWrap.length ∧
      Unseen own depth c (mret c.pc s) := by
  obtain ⟨s₁, h₁, hat₁, hsp₁, hregs₁, hfregs₁, hcsr₁, hmem₁⟩ := wrap_head W c
  obtain ⟨s₂, h₂, hat₂, hhart₂⟩ := wrap_saves (W := W) hat₁
  obtain ⟨s₃, h₃, hat₃, hhart₃⟩ := wrap_call (W := W) hat₂
  -- the call itself changes `ra` only
  have hregs₂ : ∀ r, r ≠ ra →
      Rv64.get (Rv64.set s₂.hart.regs ra (Rv64.lineAddr 19)) r = s₁.get r := by
    intro r hr
    rw [hhart₂]
    exact Rv64.get_set_ne hr
  have hkept : ∀ r ∈ calleeSaved, r ≠ ra → s₃.get r = s₁.get r := by
    intro r hr hra
    unfold St.get
    rw [hhart₃, hW.saved _ r hr]
    exact hregs₂ r hra
  have hsp₃ : s₃.get sp = s₁.get sp := hkept sp (by decide) (by decide)
  -- memory behind the handler
  have hmem₃ : ∀ x, ¬own x → ¬Below (c.get sp + -128) depth x →
      s₃.hart.mem x = savedAt (s₁.get sp) s₁.get trapSlots s₁.hart.mem x := by
    intro x hown hbelow
    rw [hhart₃, hW.mem _ x hown, hhart₂]
    rw [hregs₂ sp (by decide), hsp₁]
    exact hbelow
  obtain ⟨s₄, h₄, hat₄, hsp₄, hsaved₄, hother₄, hfregs₄, hcsr₄, hmem₄⟩ :=
    wrap_restores (W := W) hat₃ hsp₃ fun j hj => by
      rw [hsp₁] at *
      exact hmem₃ _ (hc j hj) (frame_above hdepth hj)
  have hcsr₄' : s₄.hart.csr = (trapEntry c).hart.csr := by
    rw [hcsr₄, hhart₃, hW.csr, hhart₂, ← hcsr₁]
  refine ⟨s₄, ((h₁.trans h₂).trans h₃).trans h₄, hat₄, rfl, fun r hr => ?_, ?_, fun i hi => ?_,
    fun i h₇ h₁₁ h₁₂ => ?_, fun x hown hx => ?_⟩
  · show s₄.get r = c.get r
    rcases saved_or_kept r hr with rfl | rfl | ⟨x, hx, rfl⟩ | ⟨hcallee, hra, hfree⟩
    · rfl
    · rw [hsp₄, hsp₃, hsp₁, BitVec.add_assoc]
      exact BitVec.add_zero _
    · rw [hsaved₄ x hx, hregs₁ _ (trapSlots_inFrame.other x hx).1]
    · by_cases hsp : r = sp
      · rw [hsp, hsp₄, hsp₃, hsp₁, BitVec.add_assoc]
        exact BitVec.add_zero _
      · rw [hother₄ r hsp hfree, hkept r hcallee hra, hregs₁ r hsp]
  · show s₄.hart.fregs = c.hart.fregs
    rw [hfregs₄, hhart₃, hW.fregs, hhart₂, ← hfregs₁]
  · show (if i = .mstatus then _ else s₄.hart.csr i) = _
    rw [if_neg hi, hcsr₄']
    exact if_neg hi
  · show (mretStatus (s₄.hart.csr .mstatus)).getLsbD i = _
    rw [hcsr₄']
    exact status_back _ h₇ h₁₁ h₁₂
  · obtain ⟨hbelow, hframe⟩ := below_frame hdepth hx
    show s₄.hart.mem x = c.hart.mem x
    rw [hmem₄, hmem₃ x hown hbelow, hsp₁, savedAt_frame trapSlots_inFrame hframe, hmem₁]

/-- From a trap the wrapper has exactly one outcome, in which the interrupted program sees no
change. -/
theorem trapped_iff (hW : HandlerAbi W own depth) (hdepth : depth + 128 < 2 ^ 64)
    (hc : Clear own c) (hvec : c.hart.csr .mtvec = k.trapHandlerWrap) :
    ∃ d, Unseen own depth c d ∧ ∀ d', Trapped k W c d' ↔ d' = d := by
  obtain ⟨s, hreach, hat, hunseen⟩ := wrap_unseen hW hdepth hc
  have hend : ∀ t : St, t.At trapHandlerWrap.length → Rv64Mem.step trapHandlerWrap W t = none := by
    rintro t ⟨hpc, hleft⟩
    unfold Rv64Mem.step
    rw [hleft, hpc]
    rfl
  refine ⟨_, hunseen, fun d' => ⟨?_, ?_⟩⟩
  · rintro ⟨-, t, htreach, htat, rfl⟩
    -- both are where the lines stop, so neither is in front of the other
    have hsame : t = s := by
      rcases htreach.total hreach with ⟨n, h⟩ | ⟨n, h⟩
      · rw [iter_of_stopped (hend t htat)] at h
        exact h
      · rw [iter_of_stopped (hend s hat)] at h
        exact h.symm
    rw [hsame]
  · rintro rfl
    exact ⟨hvec, s, hreach, hat, rfl⟩

/-! ## Any number of traps -/

theorem Clear.congr (h : Clear own c) (hsp : d.get sp = c.get sp) : Clear own d := by
  intro j hj
  rw [hsp]
  exact h j hj

/-- A step or a trap, where the program without traps has got to a state like it. -/
theorem interrupted_step {p : Cpu → Option Cpu} {R : Cpu → Cpu → Prop} {c d d' : Cpu}
    (hW : HandlerAbi W own depth) (hdepth : depth + 128 < 2 ^ 64) (hp : Blind p R own depth)
    (hclear : Clear own c) (hR : R c d) (h : Interrupted k W p d d') :
    ∃ c', Reaches p c c' ∧ R c' d' := by
  cases h with
  | step hstep =>
    cases hc : p c with
    | none => exact absurd ((hp.stop hR hc).symm.trans hstep) nofun
    | some c' =>
      obtain ⟨d'', hd'', hR'⟩ := hp.step hR hc
      obtain rfl : d'' = d' := Option.some.inj (hd''.symm.trans hstep)
      exact ⟨c', Reaches.head hc (Reaches.refl _ _), hR'⟩
  | trap htrap =>
    obtain ⟨e, hunseen, honly⟩ := trapped_iff hW hdepth (hclear.congr (hp.stack hR)) htrap.1
    obtain rfl := (honly d').mp htrap
    exact ⟨c, Reaches.refl _ _, hp.trans hR (hp.unseen hunseen)⟩

/-- With traps at any points a program does what it does without: to every state of a run with
traps there is one of the run without that the program cannot tell from it, and every trap
returns. -/
theorem trap_transparent (k : CrtLink) (W : Handler) (own : Word → Prop) (depth : Nat)
    (p : Cpu → Option Cpu) (R : Cpu → Cpu → Prop) (c₀ : Cpu) (hW : HandlerAbi W own depth)
    (hdepth : depth + 128 < 2 ^ 64) (hp : Blind p R own depth)
    (hclear : ∀ c, Reaches p c₀ c → Clear own c) :
    ∀ d, ReflTransGen (Interrupted k W p) c₀ d →
      (∃ c, Reaches p c₀ c ∧ R c d ∧ (p d = none ↔ p c = none)) ∧
      (d.hart.csr .mtvec = k.trapHandlerWrap → ∃ d', Trapped k W d d') := by
  intro d hrun
  have hrel : ∃ c, Reaches p c₀ c ∧ R c d := by
    induction hrun with
    | refl =>
      exact ⟨c₀, Reaches.refl _ _, hp.unseen
        ⟨rfl, fun _ _ => rfl, rfl, fun _ _ => rfl, fun _ _ _ _ => rfl, fun _ _ _ => rfl⟩⟩
    | tail _ hstep ih =>
      obtain ⟨c, hc, hR⟩ := ih
      obtain ⟨c', hc', hR'⟩ := interrupted_step hW hdepth hp (hclear c hc) hR hstep
      exact ⟨c', hc.trans hc', hR'⟩
  obtain ⟨c, hc, hR⟩ := hrel
  refine ⟨⟨c, hc, hR, fun hd => ?_, hp.stop hR⟩, fun hvec => ?_⟩
  · cases hpc : p c with
    | none => rfl
    | some c' =>
      obtain ⟨d', hd', -⟩ := hp.step hR hpc
      exact absurd (hd.symm.trans hd') nofun
  · obtain ⟨d', -, honly⟩ := trapped_iff hW hdepth ((hclear c hc).congr (hp.stack hR)) hvec
    exact ⟨d', (honly d').mpr rfl⟩

/-- A handler that counts its traps, and otherwise leaves as much behind as it may. -/
def tickHandler : Handler := fun _ h =>
  { h with
    regs := fun r => if r ∈ calleeSaved then h.regs r else 0xdead
    mem := fun x => if x = 0x1000_2000 then h.mem x + 1
      else if Below (Rv64.get h.regs sp) 16 x then 0xee else h.mem x }

theorem tickHandler_abi : HandlerAbi tickHandler (fun x => x = 0x1000_2000) 16 where
  saved h r hr := by
    unfold Rv64.get tickHandler
    simp only [if_pos hr]
  mem h x hown hbelow := by
    unfold tickHandler
    simp only [if_neg hown, if_neg hbelow]
  fregs _ := rfl
  csr _ := rfl

/-- A program of `addi a0, a0, 1`, four times, that then leaves. -/
def countUp (c : Cpu) : Option Cpu :=
  if c.pc < 0x1000_0010 then
    some ⟨c.pc + 4, { c.hart with regs := Rv64.set c.hart.regs a0 (c.get a0 + 1) }⟩
  else none

theorem get_set (r : Rv64.Regs) (v : Word) (i : Reg) :
    Rv64.get (Rv64.set r a0 v) i = if i = a0 then v else Rv64.get r i := by
  by_cases hi : i = a0
  · rw [if_pos hi, hi]
    exact Rv64.get_set_self (by decide)
  · rw [if_neg hi]
    exact Rv64.get_set_ne hi

theorem countUp_blind : Blind countUp (Unseen own depth) own depth where
  trans h h' :=
    { pc := h'.pc.trans h.pc
      regs := fun r hr => (h'.regs r hr).trans (h.regs r hr)
      fregs := h'.fregs.trans h.fregs
      csr := fun r hr => (h'.csr r hr).trans (h.csr r hr)
      status := fun i h₇ h₁₁ h₁₂ => (h'.status i h₇ h₁₁ h₁₂).trans (h.status i h₇ h₁₁ h₁₂)
      mem := fun x hown hx => (h'.mem x hown (by rw [h.regs sp (by decide)]; exact hx)).trans
        (h.mem x hown hx) }
  unseen h := h
  stack h := h.regs sp (by decide)
  step := by
    intro c d c' h hstep
    unfold countUp at hstep ⊢
    rw [h.pc]
    split at hstep
    · next hpc =>
      cases hstep
      refine ⟨_, if_pos hpc, ⟨rfl, fun r hr => ?_, h.fregs, h.csr, h.status, fun x hown hx => ?_⟩⟩
      · unfold Cpu.get
        rw [get_set, get_set]
        have ha0 := h.regs a0 (by decide)
        have hr' := h.regs r hr
        unfold Cpu.get at ha0 hr'
        rw [ha0, hr']
      · refine h.mem x hown fun hbelow => hx ?_
        unfold Cpu.get
        rw [get_set, if_neg (show sp ≠ a0 by decide)]
        exact hbelow
    · cases hstep
  stop h hstep := by
    unfold countUp at hstep ⊢
    rw [h.pc]
    split at hstep
    · cases hstep
    · next hpc => exact if_neg hpc

/-- At the start of the program, with the trap vector set. -/
def countStart : Cpu where
  pc := 0x1000_0000
  hart :=
    { regs := fun r => if r = sp then 0x1001_0000 else 0
      fregs := fun _ => 0
      csr := fun r => if r = .mtvec then 0x1000_0200 else 0
      mem := fun _ => 0 }

theorem countUp_sp (c c' : Cpu) (h : countUp c = some c') : c'.get sp = c.get sp := by
  unfold countUp at h
  split at h
  · cases h
    exact get_set c.hart.regs _ sp
  · cases h

/-- A trap in front of the first instruction. -/
theorem trap_transparent_countUp : ∃ c d, Trapped (spmLink 0) tickHandler countStart d ∧
    Reaches countUp countStart c ∧ Unseen (fun x => x = 0x1000_2000) 16 c d := by
  have hclear : ∀ c, Reaches countUp countStart c → Clear (fun x => x = 0x1000_2000) c := by
    intro c hc
    have hsp : c.get sp = 0x1001_0000 := Reaches.invariant (I := fun c => c.get sp = 0x1001_0000)
      (fun c c' h hstep => (countUp_sp c c' hstep).trans h) rfl hc
    unfold Clear
    rw [hsp]
    decide
  have htransparent := trap_transparent (spmLink 0) tickHandler (fun x => x = 0x1000_2000) 16
    countUp _ countStart tickHandler_abi (by decide) countUp_blind hclear
  obtain ⟨d, hd⟩ := (htransparent countStart .refl).2 rfl
  obtain ⟨⟨c, hc, hR, -⟩, -⟩ := htransparent d (.single (.trap hd))
  exact ⟨c, d, hd, hc, hR⟩

end Cheshire.Boot
