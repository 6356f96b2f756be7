import Cheshire.Lib.Trans

/-!
# RISC-V assembly, one source line at a time

A program is a list of lines: labels and instructions. Control falls from a line
to the next, also past a label, so where a called routine returns to depends on
what stands behind the call. Addresses are 64 bits; `lw` sign-extends, `lwu` does
not.

What is outside the program is a `World`: the value each device register read
gives, the CSRs, and what a routine called through a register leaves in the
registers when it returns. The accesses made, the calls and the labels passed are
kept in a log, newest first.
-/

namespace Rv64

open Transition

abbrev Word := BitVec 64

abbrev Reg := Nat

def ra : Reg := 1
def sp : Reg := 2
def gp : Reg := 3
def t0 : Reg := 5
def t1 : Reg := 6
def t2 : Reg := 7
def a0 : Reg := 10

inductive Csr where
  | mie
  | mhartid
  | mip
  deriving DecidableEq, Repr

inductive Instr (L : Type) where
  /-- `li` and `la`: a constant. -/
  | li (rd : Reg) (v : Word)
  | lw (rd : Reg) (off : Word) (rs : Reg)
  | lwu (rd : Reg) (off : Word) (rs : Reg)
  | sw (rs2 : Reg) (off : Word) (rs : Reg)
  | addi (rd rs : Reg) (v : Word)
  | andi (rd rs : Reg) (v : Word)
  | ori (rd rs : Reg) (v : Word)
  | slli (rd rs : Reg) (n : Nat)
  | srli (rd rs : Reg) (n : Nat)
  | add (rd rs rs2 : Reg)
  | or (rd rs rs2 : Reg)
  | csrr (rd : Reg) (c : Csr)
  | csrw (c : Csr) (rs : Reg)
  | beqz (rs : Reg) (l : L)
  | bnez (rs : Reg) (l : L)
  | bne (rs rs2 : Reg) (l : L)
  | blt (rs rs2 : Reg) (l : L)
  | j (l : L)
  /-- `call` of a label of the program. -/
  | call (l : L)
  /-- `jalr ra, 0(rs)`: a call of code outside the program. -/
  | jalr (rs : Reg)
  | ret
  | wfi
  | fence

inductive Line (L : Type) where
  | lab (l : L)
  | ins (i : Instr L)

abbrev Program (L : Type) := List (Line L)

inductive Event (L : Type) where
  | load (a : Word) (v : BitVec 32)
  | store (a : Word) (v : BitVec 32)
  | call (t : Word)
  /-- Control passes a label, with this value in `a0`. -/
  | enter (l : L) (arg : Word)
  | ret (t : Word)
  deriving DecidableEq

abbrev Log (L : Type) := List (Event L)

abbrev Regs := Reg → Word

structure World (L : Type) where
  read : Log L → Word → BitVec 32
  csr : Log L → Csr → Word
  callee : Log L → Word → Regs → Regs

structure St (L : Type) where
  pc : Nat
  regs : Regs
  log : Log L

variable {L : Type}

/-- The value of a register, where `x0` reads as 0. -/
def get (r : Regs) (k : Reg) : Word := if k = 0 then 0 else r k

/-- The registers after a write, where one to `x0` is lost. -/
def set (r : Regs) (k : Reg) (v : Word) : Regs := if k = 0 then r else upd r k v

/-- The code address of line `k`; it only has to tell lines apart. -/
def lineAddr (k : Nat) : Word := BitVec.ofNat 64 (4 * k)

def lineOf (a : Word) : Nat := a.toNat / 4

def St.next (s : St L) : St L := { s with pc := s.pc + 1 }

def St.set (s : St L) (rd : Reg) (v : Word) : St L := { s with regs := Rv64.set s.regs rd v }

def St.note (s : St L) (e : Event L) : St L := { s with log := e :: s.log }

variable [DecidableEq L]

/-- The line of label `l`, where a jump to it goes on. -/
def find (P : Program L) (l : L) : Nat :=
  P.findIdx fun
    | .lab l' => l' == l
    | .ins _ => false

def St.jump (P : Program L) (s : St L) (c : Bool) (l : L) : St L :=
  if c then { s with pc := find P l } else s.next

/-- A 32-bit load whose value goes through `ext` into `rd`. -/
def St.load (W : World L) (s : St L) (rd : Reg) (a : Word) (ext : BitVec 32 → Word) : St L :=
  ((s.note (.load a (W.read s.log a))).set rd (ext (W.read s.log a))).next

def exec (P : Program L) (W : World L) (s : St L) : Instr L → St L
  | .li rd v => (s.set rd v).next
  | .lw rd off rs => s.load W rd (get s.regs rs + off) (·.signExtend 64)
  | .lwu rd off rs => s.load W rd (get s.regs rs + off) (·.setWidth 64)
  | .sw rs2 off rs => (s.note (.store (get s.regs rs + off) ((get s.regs rs2).setWidth 32))).next
  | .addi rd rs v => (s.set rd (get s.regs rs + v)).next
  | .andi rd rs v => (s.set rd (get s.regs rs &&& v)).next
  | .ori rd rs v => (s.set rd (get s.regs rs ||| v)).next
  | .slli rd rs n => (s.set rd (get s.regs rs <<< n)).next
  | .srli rd rs n => (s.set rd (get s.regs rs >>> n)).next
  | .add rd rs rs2 => (s.set rd (get s.regs rs + get s.regs rs2)).next
  | .or rd rs rs2 => (s.set rd (get s.regs rs ||| get s.regs rs2)).next
  | .csrr rd c => (s.set rd (W.csr s.log c)).next
  | .csrw _ _ => s.next
  | .beqz rs l => s.jump P (get s.regs rs == 0) l
  | .bnez rs l => s.jump P (get s.regs rs != 0) l
  | .bne rs rs2 l => s.jump P (get s.regs rs != get s.regs rs2) l
  | .blt rs rs2 l => s.jump P ((get s.regs rs).slt (get s.regs rs2)) l
  | .j l => s.jump P true l
  | .call l => (s.set ra (lineAddr (s.pc + 1))).jump P true l
  | .jalr rs =>
    let t := get s.regs rs &&& ~~~1
    let s := (s.set ra (lineAddr (s.pc + 1))).note (.call t)
    { s with regs := W.callee s.log t s.regs }.next
  | .ret => { s.note (.ret (get s.regs ra)) with pc := lineOf (get s.regs ra) }
  | .wfi => s.next
  | .fence => s.next

/-- The state after one line: a label is noted, an instruction executed. -/
def line (P : Program L) (W : World L) (s : St L) : Line L → St L
  | .lab l => (s.note (.enter l (get s.regs a0))).next
  | .ins i => exec P W s i

/-- One step of a program, with none past its last line. -/
def step (P : Program L) (W : World L) (s : St L) : Option (St L) := P[s.pc]?.map (line P W s)

/-! ## Registers -/

@[simp] theorem get_set_self {r : Regs} {k : Reg} {v : Word} (hk : k ≠ 0) :
    get (set r k v) k = v := by
  unfold get set
  rw [if_neg hk, if_neg hk, upd_self]

theorem get_set_ne {r : Regs} {j k : Reg} {v : Word} (h : j ≠ k) :
    get (set r k v) j = get r j := by
  unfold get set
  split
  · rfl
  · split
    · rfl
    · exact upd_ne r v h

/-! ## The log -/

/-- A line only adds to the log: what was recorded before it is recorded after it. -/
theorem line_log {P : Program L} {W : World L} {s : St L} (l : Line L) {e : Event L}
    (he : e ∈ s.log) : e ∈ (line P W s l).log := by
  cases l with
  | lab l => exact List.mem_cons_of_mem _ he
  | ins i =>
    cases i with
    | lw | lwu | sw | jalr | ret => exact List.mem_cons_of_mem _ he
    | beqz rs l | bnez rs l | bne rs rs2 l | blt rs rs2 l | j l | call l =>
      simp only [line, exec, St.jump]
      split
      · exact he
      · exact he
    | _ => exact he

theorem reaches_log {P : Program L} {W : World L} {s s' : St L} {e : Event L}
    (h : Reaches (step P W) s s') (he : e ∈ s.log) : e ∈ s'.log := by
  refine Reaches.invariant (I := fun s => e ∈ s.log) ?_ he h
  intro s₁ s₂ h₁ hs
  obtain ⟨l, -, rfl⟩ := Option.map_eq_some_iff.mp hs
  exact line_log l h₁

/-! ## Straight lines -/

/-- The line does not jump: control is at the next line afterwards. -/
def Line.straight : Line L → Bool
  | .lab _ => true
  | .ins (.beqz ..) | .ins (.bnez ..) | .ins (.bne ..) | .ins (.blt ..) => false
  | .ins (.j _) | .ins (.call _) | .ins .ret => false
  | .ins _ => true

theorem line_pc {P : Program L} {W : World L} {s : St L} {l : Line L} (h : l.straight) :
    (line P W s l).pc = s.pc + 1 := by
  cases l with
  | lab l => rfl
  | ins i =>
    cases i with
    | beqz | bnez | bne | blt | j | call | ret => cases h
    | _ => rfl

theorem step_at {P : Program L} {W : World L} {s : St L} {l : Line L} {ls : List (Line L)}
    (h : P.drop s.pc = l :: ls) : step P W s = some (line P W s l) := by
  have hl : P[s.pc]? = some l := by
    rw [← List.head?_drop, h]
    rfl
  unfold step
  rw [hl]
  rfl

theorem reaches_line {P : Program L} {W : World L} {s : St L} {l : Line L} {ls : List (Line L)}
    (h : P.drop s.pc = l :: ls) : Reaches (step P W) s (line P W s l) :=
  Reaches.head (step_at h) (Reaches.refl _ _)

/-- The state after lines that control runs through. -/
def lines (P : Program L) (W : World L) (ls : List (Line L)) (s : St L) : St L :=
  ls.foldl (line P W) s

/-- Straight lines run one after the other. -/
theorem reaches_lines {P : Program L} {W : World L} :
    ∀ {ls : List (Line L)} {s : St L}, ls <+: P.drop s.pc → ls.all Line.straight →
      Reaches (step P W) s (lines P W ls s) ∧ (lines P W ls s).pc = s.pc + ls.length := by
  intro ls
  induction ls with
  | nil =>
    intro s _ _
    exact ⟨Reaches.refl _ s, rfl⟩
  | cons l ls ih =>
    intro s hP hls
    obtain ⟨rest, hrest⟩ := hP
    obtain ⟨hl, hls⟩ := Bool.and_eq_true_iff.mp hls
    have hpc : (line P W s l).pc = s.pc + 1 := line_pc hl
    have hnext : ls <+: P.drop (line P W s l).pc := by
      refine ⟨rest, ?_⟩
      rw [hpc, ← List.tail_drop, ← hrest]
      rfl
    obtain ⟨hreach, hend⟩ := ih hnext hls
    refine ⟨Reaches.head (step_at hrest.symm) hreach, ?_⟩
    show (lines P W ls (line P W s l)).pc = s.pc + (ls.length + 1)
    omega

theorem line_beqz_taken {P : Program L} {W : World L} {s : St L} {rs : Reg} {l : L}
    (h : get s.regs rs = 0) : line P W s (.ins (.beqz rs l)) = { s with pc := find P l } := by
  simp only [line, exec, St.jump, h, BEq.rfl, if_true]

theorem line_beqz_not {P : Program L} {W : World L} {s : St L} {rs : Reg} {l : L}
    (h : get s.regs rs ≠ 0) : line P W s (.ins (.beqz rs l)) = s.next := by
  simp only [line, exec, St.jump, beq_iff_eq, if_neg h]

theorem line_bne_not {P : Program L} {W : World L} {s : St L} {rs rs2 : Reg} {l : L}
    (h : get s.regs rs = get s.regs rs2) : line P W s (.ins (.bne rs rs2 l)) = s.next := by
  simp only [line, exec, St.jump, h, bne_self_eq_false, Bool.false_eq_true, if_false]

/-- Constants written to registers are not seen in the log. -/
theorem lines_li_log {P : Program L} {W : World L} (v : Word) :
    ∀ (ks : List Reg) (s : St L), (lines P W (ks.map fun k => .ins (.li k v)) s).log = s.log := by
  intro ks
  induction ks with
  | nil =>
    intro s
    rfl
  | cons k ks ih =>
    intro s
    exact ih (line P W s (.ins (.li k v)))

end Rv64
