import Cheshire.Lib.Rv64
import Cheshire.Lib.Span

/-!
# RISC-V assembly with memory

The assembly of `Rv64`, line by line, for code that keeps data in memory: a hart is
its registers, its CSRs and the bytes of a 64-bit address space, which its loads and
stores go to, little-endian and at any alignment.

A routine outside the program is called by its symbol; the `World` says what it does
to the hart, and it returns to the line behind the call. `ret` leaves the program for
the address in `ra`, and the machine stops there.

`Storing` says of the line control is at what it may store, so that a way `Through` such
lines stores nothing else.
-/

namespace Rv64Mem

open Transition Rv64

/-! ## Doublewords in memory -/

/-- Byte `k` of `v`, the lowest first, as it is stored in memory. -/
def byteOf (v : Word) (k : Nat) : Span.Byte := v.extractLsb' (8 * k) 8

/-- The low `n` bytes of `v`, at `a`. -/
def storeLe (m : Span.Memory) (a v : Word) (n : Nat) : Span.Memory := Span.store m a (byteOf v) n

def loadD (m : Span.Memory) (a : Word) : Word :=
  m (Span.nth a 7) ++ m (Span.nth a 6) ++ m (Span.nth a 5) ++ m (Span.nth a 4) ++
    m (Span.nth a 3) ++ m (Span.nth a 2) ++ m (Span.nth a 1) ++ m (Span.nth a 0)

theorem extract_append (v : Word) (k n : Nat) :
    v.extractLsb' (8 * (k + 1)) n ++ byteOf v k = v.extractLsb' (8 * k) (n + 8) :=
  BitVec.extractLsb'_append_extractLsb'_eq_extractLsb' (by omega)

/-- A doubleword is its bytes. -/
theorem bytes_append (v : Word) :
    byteOf v 7 ++ byteOf v 6 ++ byteOf v 5 ++ byteOf v 4 ++ byteOf v 3 ++ byteOf v 2 ++
      byteOf v 1 ++ byteOf v 0 = v := by
  show v.extractLsb' (8 * (6 + 1)) 8 ++ byteOf v 6 ++ byteOf v 5 ++ byteOf v 4 ++ byteOf v 3 ++
    byteOf v 2 ++ byteOf v 1 ++ byteOf v 0 = v
  rw [extract_append v 6, extract_append v 5, extract_append v 4, extract_append v 3,
    extract_append v 2, extract_append v 1, extract_append v 0]
  exact BitVec.extractLsb'_eq_self

theorem loadD_congr {m m' : Span.Memory} {a : Word}
    (h : ∀ k < 8, m (Span.nth a k) = m' (Span.nth a k)) : loadD m a = loadD m' a := by
  unfold loadD
  rw [h 7 (by omega), h 6 (by omega), h 5 (by omega), h 4 (by omega), h 3 (by omega),
    h 2 (by omega), h 1 (by omega), h 0 (by omega)]

theorem loadD_storeLe (m : Span.Memory) (a v : Word) : loadD (storeLe m a v 8) a = v := by
  have hbyte : ∀ k < 8, storeLe m a v 8 (Span.nth a k) = byteOf v k := by
    intro k hk
    exact Span.store_nth m (byteOf v) hk (by omega)
  unfold loadD
  rw [hbyte 7 (by omega), hbyte 6 (by omega), hbyte 5 (by omega), hbyte 4 (by omega),
    hbyte 3 (by omega), hbyte 2 (by omega), hbyte 1 (by omega), hbyte 0 (by omega)]
  exact bytes_append v

/-- A store leaves every byte outside the `n` bytes at its address as it was. -/
theorem storeLe_outside (m : Span.Memory) {a x : Word} (v : Word) {n : Nat}
    (h : ¬Span.Within a n x) : storeLe m a v n x = m x := Span.store_outside m _ h

/-! ## The machine -/

def t4 : Reg := 29

inductive Csr where
  | mstatus
  | mhartid
  | mtvec
  deriving DecidableEq, Repr

/-- `S` are the symbols called outside the program. -/
inductive Instr (L S : Type) where
  /-- `li` and `la`: a constant. -/
  | li (rd : Reg) (v : Word)
  | mv (rd rs : Reg)
  | addi (rd rs : Reg) (v : Word)
  | ori (rd rs : Reg) (v : Word)
  | slli (rd rs : Reg) (n : Nat)
  | sub (rd rs rs2 : Reg)
  | ld (rd : Reg) (off : Word) (rs : Reg)
  | sd (rs2 : Reg) (off : Word) (rs : Reg)
  | sw (rs2 : Reg) (off : Word) (rs : Reg)
  | sb (rs2 : Reg) (off : Word) (rs : Reg)
  | csrr (rd : Reg) (c : Csr)
  /-- `csrrw x0`. -/
  | csrw (c : Csr) (rs : Reg)
  | csrs (c : Csr) (rs : Reg)
  /-- `csrrc x0` with a register. -/
  | csrc (c : Csr) (rs : Reg)
  /-- `csrrc x0` with an immediate. -/
  | csrci (c : Csr) (v : Word)
  /-- `fcvt.d.l fd, x0`: positive zero, all bits clear. -/
  | fcvtZero (fd : Nat)
  /-- `fmv.d`. -/
  | fmv (fd fs : Nat)
  | beqz (rs : Reg) (l : L)
  | blez (rs : Reg) (l : L)
  | blt (rs rs2 : Reg) (l : L)
  | bgt (rs rs2 : Reg) (l : L)
  | j (l : L)
  /-- `call` of a symbol outside the program. -/
  | call (f : S)
  | ret
  | wfi
  | fence

inductive Line (L S : Type) where
  | lab (l : L)
  | ins (i : Instr L S)

abbrev Program (L S : Type) := List (Line L S)

structure Hart where
  regs : Regs
  fregs : Nat → Word
  csr : Csr → Word
  mem : Span.Memory

/-- What each outside routine leaves when it returns. -/
abbrev World (S : Type) := S → Hart → Hart

structure St where
  pc : Nat
  hart : Hart
  /-- Where control went when it left the program. -/
  left : Option Word

variable {L S : Type}

def St.next (s : St) : St := { s with pc := s.pc + 1 }

def St.set (s : St) (rd : Reg) (v : Word) : St :=
  { s with hart.regs := Rv64.set s.hart.regs rd v }

def St.get (s : St) (k : Reg) : Word := Rv64.get s.hart.regs k

def St.store (s : St) (a v : Word) (n : Nat) : St :=
  { s with hart.mem := storeLe s.hart.mem a v n }

def St.setCsr (s : St) (c : Csr) (v : Word) : St :=
  { s with hart.csr := fun c' => if c' = c then v else s.hart.csr c' }

def St.setF (s : St) (fd : Nat) (v : Word) : St :=
  { s with hart.fregs := upd s.hart.fregs fd v }

variable [DecidableEq L]

/-- The line of label `l`, where a jump to it goes on. -/
def find (P : Program L S) (l : L) : Nat :=
  P.findIdx fun
    | .lab l' => l' == l
    | .ins _ => false

def St.jump (P : Program L S) (s : St) (c : Bool) (l : L) : St :=
  if c then { s with pc := find P l } else s.next

def exec (P : Program L S) (W : World S) (s : St) : Instr L S → St
  | .li rd v => (s.set rd v).next
  | .mv rd rs => (s.set rd (s.get rs)).next
  | .addi rd rs v => (s.set rd (s.get rs + v)).next
  | .ori rd rs v => (s.set rd (s.get rs ||| v)).next
  | .slli rd rs n => (s.set rd (s.get rs <<< n)).next
  | .sub rd rs rs2 => (s.set rd (s.get rs - s.get rs2)).next
  | .ld rd off rs => (s.set rd (loadD s.hart.mem (s.get rs + off))).next
  | .sd rs2 off rs => (s.store (s.get rs + off) (s.get rs2) 8).next
  | .sw rs2 off rs => (s.store (s.get rs + off) (s.get rs2) 4).next
  | .sb rs2 off rs => (s.store (s.get rs + off) (s.get rs2) 1).next
  | .csrr rd c => (s.set rd (s.hart.csr c)).next
  | .csrw c rs => (s.setCsr c (s.get rs)).next
  | .csrs c rs => (s.setCsr c (s.hart.csr c ||| s.get rs)).next
  | .csrc c rs => (s.setCsr c (s.hart.csr c &&& ~~~s.get rs)).next
  | .csrci c v => (s.setCsr c (s.hart.csr c &&& ~~~v)).next
  | .fcvtZero fd => (s.setF fd 0).next
  | .fmv fd fs => (s.setF fd (s.hart.fregs fs)).next
  | .beqz rs l => s.jump P (s.get rs == 0) l
  | .blez rs l => s.jump P ((s.get rs).sle 0) l
  | .blt rs rs2 l => s.jump P ((s.get rs).slt (s.get rs2)) l
  | .bgt rs rs2 l => s.jump P ((s.get rs2).slt (s.get rs)) l
  | .j l => s.jump P true l
  | .call f =>
    let s := s.set ra (lineAddr (s.pc + 1))
    { s with hart := W f s.hart }.next
  | .ret => { s with left := some (s.get ra &&& ~~~1) }
  | .wfi => s.next
  | .fence => s.next

/-- The state after one line: a label does nothing, an instruction is executed. -/
def line (P : Program L S) (W : World S) (s : St) : Line L S → St
  | .lab _ => s.next
  | .ins i => exec P W s i

/-- `none` once control has left, and past the last line. -/
def step (P : Program L S) (W : World S) (s : St) : Option St :=
  if s.left.isSome then none else P[s.pc]?.map (line P W s)

/-! ## Straight lines -/

/-- The line does not jump: control is at the next line afterwards. -/
def Line.straight : Line L S → Bool
  | .lab _ => true
  | .ins (.beqz ..) | .ins (.blez ..) | .ins (.blt ..) | .ins (.bgt ..) => false
  | .ins (.j _) | .ins .ret => false
  | .ins _ => true

theorem line_straight {P : Program L S} {W : World S} {s : St} {l : Line L S}
    (h : l.straight) : (line P W s l).pc = s.pc + 1 ∧ (line P W s l).left = s.left := by
  cases l with
  | lab l => exact ⟨rfl, rfl⟩
  | ins i =>
    cases i with
    | beqz | blez | blt | bgt | j | ret => cases h
    | _ => exact ⟨rfl, rfl⟩

theorem step_at {P : Program L S} {W : World S} {s : St} {l : Line L S}
    {ls : List (Line L S)} (hs : s.left = none) (h : P.drop s.pc = l :: ls) :
    step P W s = some (line P W s l) := by
  have hl : P[s.pc]? = some l := by
    rw [← List.head?_drop, h]
    rfl
  unfold step
  rw [hs, hl]
  rfl

/-- The state after lines that control runs through. -/
def lines (P : Program L S) (W : World S) (ls : List (Line L S)) (s : St) : St :=
  ls.foldl (line P W) s

/-- Control is at line `k` of the program. -/
def St.At (s : St) (k : Nat) : Prop := s.pc = k ∧ s.left = none

/-! ## What is stored on the way -/

/-- `R` allows what a line stores, by its address and its number of bytes. An outside routine
may store anything. -/
def Line.Stores (R : Word → Nat → Prop) (s : St) : Line L S → Prop
  | .ins (.sd _ off rs) => R (s.get rs + off) 8
  | .ins (.sw _ off rs) => R (s.get rs + off) 4
  | .ins (.sb _ off rs) => R (s.get rs + off) 1
  | .ins (.call _) => ∀ a n, R a n
  | _ => True

/-- The line that control is at stores nothing that `R` does not allow. -/
def Storing (P : Program L S) (R : Word → Nat → Prop) (s : St) : Prop :=
  ∀ l, P[s.pc]? = some l → l.Stores R s

/-- The lines `ls` run from `s`, each storing what `R` allows. -/
def LinesStore (P : Program L S) (W : World S) (R : Word → Nat → Prop) :
    List (Line L S) → St → Prop
  | [], _ => True
  | l :: ls, s => l.Stores R s ∧ LinesStore P W R ls (line P W s l)

variable {R : Word → Nat → Prop}

omit [DecidableEq L] in
theorem storing_at {P : Program L S} {s : St} {l : Line L S} {ls : List (Line L S)}
    (h : P.drop s.pc = l :: ls) (hl : l.Stores R s) : Storing P R s := by
  intro l' hl'
  rw [← List.head?_drop, h] at hl'
  obtain rfl : l = l' := Option.some.inj hl'
  exact hl

/-- Line `k` is `l`, which leads from `s` to `s'`. -/
theorem through_line {P : Program L S} {W : World S} {k : Nat} {s s' : St} (hs : s.At k)
    (l : Line L S) (hP : [l] <+: P.drop k) (hl : line P W s l = s') (hst : l.Stores R s) :
    Through (step P W) (Storing P R) s s' := by
  obtain ⟨rfl, hleft⟩ := hs
  obtain ⟨rest, hrest⟩ := hP
  exact Through.head (storing_at hrest.symm hst) (step_at hleft hrest.symm)
    (hl ▸ Through.refl _ _ _)

/-- From line `k` on stand the straight lines `ls`; they run one after the other. -/
theorem through_lines {P : Program L S} {W : World S} :
    ∀ (ls : List (Line L S)) {k : Nat} {s : St}, s.At k → ls <+: P.drop k →
      ls.all Line.straight → LinesStore P W R ls s →
      Through (step P W) (Storing P R) s (lines P W ls s) ∧
        (lines P W ls s).At (k + ls.length) := by
  intro ls
  induction ls with
  | nil =>
    intro k s hs _ _ _
    exact ⟨Through.refl _ _ s, hs⟩
  | cons l ls ih =>
    intro k s hs hP hls hst
    obtain ⟨rest, hrest⟩ := hP
    obtain ⟨hl, hls⟩ := Bool.and_eq_true_iff.mp hls
    obtain ⟨hpc, hleft⟩ := @line_straight L S _ P W s l hl
    have hat : (line P W s l).At (k + 1) := ⟨hpc.trans (by rw [hs.1]), hleft.trans hs.2⟩
    have hnext : ls <+: P.drop (k + 1) := by
      refine ⟨rest, ?_⟩
      rw [← List.tail_drop, ← hrest]
      rfl
    obtain ⟨hthrough, hend⟩ := ih hat hnext hls hst.2
    have hdrop : P.drop s.pc = l :: (ls ++ rest) := by
      rw [hs.1]
      exact hrest.symm
    refine ⟨Through.head (storing_at hdrop hst.1) (step_at hs.2 hdrop) hthrough, ?_⟩
    rw [List.length_cons, Nat.add_comm ls.length, ← Nat.add_assoc]
    exact hend

/-- Where any store is allowed, any lines run with only stores that are allowed. -/
theorem linesStore_any {P : Program L S} {W : World S} (ls : List (Line L S)) (s : St) :
    LinesStore P W (fun _ _ => True) ls s := by
  induction ls generalizing s with
  | nil => trivial
  | cons l ls ih =>
    refine ⟨?_, ih _⟩
    unfold Line.Stores
    split <;> simp

theorem reaches_line {P : Program L S} {W : World S} {k : Nat} {s s' : St} (hs : s.At k)
    (l : Line L S) (hP : [l] <+: P.drop k) (hl : line P W s l = s') :
    Reaches (step P W) s s' :=
  (through_line hs l hP hl (linesStore_any (P := P) (W := W) [l] s).1).reaches

theorem reaches_lines {P : Program L S} {W : World S} (ls : List (Line L S)) {k : Nat} {s : St}
    (hs : s.At k) (hP : ls <+: P.drop k) (hls : ls.all Line.straight) :
    Reaches (step P W) s (lines P W ls s) ∧ (lines P W ls s).At (k + ls.length) := by
  obtain ⟨hthrough, hat⟩ := through_lines ls hs hP hls (linesStore_any ls s)
  exact ⟨hthrough.reaches, hat⟩

theorem jump_taken {P : Program L S} {s : St} {c : Bool} {l : L} (h : c = true) :
    s.jump P c l = { s with pc := find P l } := if_pos h

theorem jump_not {P : Program L S} {s : St} {c : Bool} {l : L} (h : c = false) :
    s.jump P c l = s.next := if_neg (Bool.eq_false_iff.mp h)

/-- Once control has left, the machine stays where it is. -/
theorem eq_of_left {P : Program L S} {W : World S} {s s₁ s₂ : St} (h₁ : Reaches (step P W) s s₁)
    (h₂ : Reaches (step P W) s s₂) (hl₁ : s₁.left.isSome) (hl₂ : s₂.left.isSome) : s₁ = s₂ := by
  have hstop : ∀ {t : St}, t.left.isSome → step P W t = none := fun ht => if_pos ht
  rcases h₁.total h₂ with ⟨n, h⟩ | ⟨n, h⟩
  · rw [iter_of_stopped (hstop hl₁)] at h
    exact h
  · rw [iter_of_stopped (hstop hl₂)] at h
    exact h.symm

end Rv64Mem
