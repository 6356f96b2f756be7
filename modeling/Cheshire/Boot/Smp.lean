import Cheshire.Lib.Trans

/-!
# `smp.h`: the barrier of `boot_next_stage`

Every hart but hart 0 parks in a `wfi` loop until its MSIP flag is set. Hart 0
boots, writes the boot address to two scratch registers, sets all flags, and
joins the others at the `wfi`. From there all harts run the same code: clear the
own flag, wait until every flag is 0, read the address, jump.

A step is one register access of one hart, in any order. What makes this a
barrier is the order of hart 0's accesses: it sets its own flag *first* and clears
it only after it has set all others. A hart that is awake has seen a flag, so flag
0 was set before; once it reads flag 0 as 0, all flags have been set, and each one
it then reads as 0 has been cleared by its hart. `Inv` says this for every
combination of phases.

The address is safe only until the first hart is gone: its next stage may use the
scratch registers while the others still have to read them.
-/

namespace Cheshire.Boot

open Transition

/-- `NONSMP_HART`, the hart that runs the ROM while the others sleep. -/
def nonsmpHart : Nat := 0

/-- Where a hart is: the register access it does next, with the registers that are
live there. `i` and `n` stand for the pointers `CLINT + 4 * i` and `CLINT + 4 * n`. -/
inductive Pc where
  /-- `smp_pause`. -/
  | pause
  /-- `boot_next_stage`: `sw a0, 16(t0)`. -/
  | swLo
  | swHi
  /-- The first `lw` of `NUM_INT_HARTS`. -/
  | loadN
  /-- Label 1: `sw reg2, 0(reg1)`. -/
  | setFlag (i n : Nat)
  /-- Label 2. -/
  | wfi
  | readMip
  | clearFlag
  /-- The second `lw` of `NUM_INT_HARTS`. -/
  | loadNAgain
  /-- Label 3: `lw reg2, 0(reg1)`. -/
  | poll (i n : Nat)
  | loadHi
  | loadLo (hi : BitVec 32)
  | jalr (t : BitVec 64)
  /-- Gone: the next stage runs. -/
  | nextStage
  deriving DecidableEq, Repr

/-- The accesses that are recorded, with the hart that does them. -/
inductive Event where
  | scratch (i k : Nat) (v : BitVec 32)
  | msip (i j : Nat) (v : Bool)
  | jump (i : Nat) (t : BitVec 64)
  deriving DecidableEq, Repr

structure Sys where
  pc : Nat → Pc
  msip : Nat → Bool
  scratch : Nat → BitVec 32
  /-- Newest first. -/
  log : List Event

/-- One access of one hart, or a write to a scratch register by the next stage. -/
inductive Act where
  | hart (i : Nat)
  | next (i k : Nat) (v : BitVec 32)
  deriving DecidableEq, Repr

def Sys.goto (s : Sys) (i : Nat) (p : Pc) : Sys := { s with pc := upd s.pc i p }

/-- `sw v, (16 + 4 * (k - 4))(regs)`. -/
def Sys.putScratch (s : Sys) (i k : Nat) (v : BitVec 32) : Sys :=
  { s with scratch := upd s.scratch k v, log := .scratch i k v :: s.log }

/-- `sw v, (4 * j)(clint)` of hart `i`: the software interrupt of hart `j`. -/
def Sys.putMsip (s : Sys) (i j : Nat) (v : Bool) : Sys :=
  { s with msip := upd s.msip j v, log := .msip i j v :: s.log }

def bootLo (a : BitVec 64) : BitVec 32 := a.setWidth 32

/-- `srli a0, a0, 32`: the upper half of the address that is stored for the other harts. -/
def bootHi (a : BitVec 64) : BitVec 32 := (a >>> 32).setWidth 32

/-- The next access of hart `i`; `N` is `NUM_INT_HARTS`, `a` hart 0's `a0`. -/
def hartStep (N : Nat) (a : BitVec 64) (s : Sys) (i : Nat) : Sys :=
  match s.pc i with
  | .pause => s.goto i (if i = nonsmpHart then .swLo else .wfi)
  | .swLo => (s.putScratch i 4 (bootLo a)).goto i .swHi
  | .swHi => (s.putScratch i 5 (bootHi a)).goto i .loadN
  | .loadN => s.goto i (.setFlag 0 N)
  | .setFlag j n =>
    (s.putMsip i j true).goto i (if j + 1 < n then .setFlag (j + 1) n else .wfi)
  -- `wfi` may return at any time
  | .wfi => s.goto i .readMip
  | .readMip => s.goto i (if s.msip i then .clearFlag else .wfi)
  | .clearFlag => (s.putMsip i i false).goto i .loadNAgain
  | .loadNAgain => s.goto i (.poll 0 N)
  | .poll j n =>
    s.goto i (if s.msip j then .poll j n else if j + 1 < n then .poll (j + 1) n else .loadHi)
  | .loadHi => s.goto i (.loadLo (s.scratch 5))
  | .loadLo hi => s.goto i (.jalr (hi ++ s.scratch 4))
  -- `jalr` clears bit 0 of its target
  | .jalr t => { s with log := .jump i (t &&& ~~~1) :: s.log }.goto i .nextStage
  | .nextStage => s

/-- The harts are `0 .. N-1`; the next stage of a hart runs once it has jumped. -/
def step (N : Nat) (a : BitVec 64) (s : Sys) : Act → Option Sys
  | .hart i => if i < N ∧ s.pc i ≠ .nextStage then some (hartStep N a s i) else none
  | .next i k v => if i < N ∧ s.pc i = .nextStage then some (s.putScratch i k v) else none

/-- Reset: all harts at `smp_pause`, all flags 0, the scratch registers anything. -/
def reset (scratch : Nat → BitVec 32) : Sys := ⟨fun _ => .pause, fun _ => false, scratch, []⟩

/-! ## What is to hold -/

/-- Hart 0 has written both halves of the address, and each hart has left its `wfi`
loop and cleared its flag. -/
def Released (N : Nat) (a : BitVec 64) (log : List Event) : Prop :=
  .scratch 0 4 (bootLo a) ∈ log ∧ .scratch 0 5 (bootHi a) ∈ log ∧
    ∀ j, j < N → .msip j j false ∈ log

/-- Each jump in the log comes after the release of the harts, with the log newest first. -/
def Barrier (N : Nat) (a : BitVec 64) : List Event → Prop
  | [] => True
  | .jump _ _ :: log => Released N a log ∧ Barrier N a log
  | _ :: log => Barrier N a log

/-- Each jump goes to `a`, bit 0 cleared. -/
def JumpsTo (a : BitVec 64) (log : List Event) : Prop :=
  ∀ i t, .jump i t ∈ log → t = a &&& ~~~1

/-! ## The invariant -/

/-- Program order, the `wfi` loop being one place. -/
def Pc.rank : Pc → Nat
  | .pause => 0
  | .swLo => 1
  | .swHi => 2
  | .loadN => 3
  | .setFlag _ _ => 4
  | .wfi | .readMip => 5
  | .clearFlag => 6
  | .loadNAgain => 7
  | .poll _ _ => 8
  | .loadHi => 9
  | .loadLo _ => 10
  | .jalr _ => 11
  | .nextStage => 12

/-- Some hart still has to read a half of the address. -/
def Sys.Reading (N : Nat) (s : Sys) : Prop := ∃ i, i < N ∧ (s.pc i).rank ≤ 10

/-- The next stage leaves the two address registers alone until the last hart has read
both of them. -/
def Sys.KeepsAddress (N : Nat) (s : Sys) : Act → Prop
  | .hart _ => True
  | .next _ k _ => s.Reading N → k ≠ 4 ∧ k ≠ 5

/-- With hart 0 at `p`, flag `j` has been set. -/
def Pc.hasSet (p : Pc) (j : Nat) : Prop :=
  match p with
  | .setFlag i _ => j < i
  | p => 5 ≤ p.rank

/-- A hart at `p` has cleared its flag. -/
def Pc.hasCleared (p : Pc) : Prop := 7 ≤ p.rank

structure Inv (N : Nat) (a : BitVec 64) (s : Sys) : Prop where
  /-- Only hart 0 is ever in the part that writes and sets. -/
  parked : ∀ i, i ≠ nonsmpHart → (s.pc i).rank = 0 ∨ 5 ≤ (s.pc i).rank
  /-- A flag is 1 between hart 0 setting it and its hart clearing it. -/
  flags : ∀ j, j < N → (s.msip j = true ↔ (s.pc 0).hasSet j ∧ ¬(s.pc j).hasCleared)
  /-- A hart past the `wfi` loop has had its flag set. -/
  woken : ∀ j, j < N → 6 ≤ (s.pc j).rank → (s.pc 0).hasSet j
  setting : ∀ i n, s.pc 0 = .setFlag i n → n = N
  /-- Polling has passed over cleared flags only. -/
  polled : ∀ i, i < N → ∀ k n, s.pc i = .poll k n →
    n = N ∧ ∀ l, l < k → l < N → (s.pc l).hasCleared
  passed : ∀ i, i < N → 9 ≤ (s.pc i).rank → ∀ l, l < N → (s.pc l).hasCleared
  wroteLo : 2 ≤ (s.pc 0).rank → .scratch 0 4 (bootLo a) ∈ s.log
  wroteHi : 3 ≤ (s.pc 0).rank → .scratch 0 5 (bootHi a) ∈ s.log
  cleared : ∀ j, j < N → (s.pc j).hasCleared → .msip j j false ∈ s.log
  barrier : Barrier N a s.log

variable {N : Nat} {a : BitVec 64} {s : Sys}

theorem hasSet_of_rank {p : Pc} (hp : 5 ≤ p.rank) (j : Nat) : p.hasSet j := by
  cases p with
  | setFlag i n => exact absurd hp (by simp only [Pc.rank]; omega)
  | _ => exact hp

/-- The own flag is set first. -/
theorem hasSet_zero {p : Pc} {j : Nat} (h : p.hasSet j) : p.hasSet 0 := by
  cases p with
  | setFlag i n => exact Nat.lt_of_le_of_lt (Nat.zero_le j) h
  | _ => exact h

theorem rank_eq {i : Nat} {p : Pc} (h : s.pc i = p) : (s.pc i).rank = p.rank := by
  rw [h]

theorem goto_self (s : Sys) (i : Nat) (p : Pc) : (s.goto i p).pc i = p := upd_self _ _ _

theorem goto_ne (s : Sys) {i j : Nat} (p : Pc) (h : j ≠ i) : (s.goto i p).pc j = s.pc j :=
  upd_ne _ _ h

/-! ## One step -/

/-- Hart `i` moves on to `p`. What was set or cleared stays so, and what `p` claims
holds in the new state. -/
theorem Inv.advance (h : Inv N a s) {s' : Sys} {i : Nat} {p : Pc} (hpc : s'.pc = upd s.pc i p)
    (hlog : ∀ e ∈ s.log, e ∈ s'.log)
    (hpark : i ≠ nonsmpHart → p.rank = 0 ∨ 5 ≤ p.rank)
    (hclear : (s.pc i).hasCleared → p.hasCleared)
    (hset : i = 0 → ∀ j, j < N → (s.pc 0).hasSet j → p.hasSet j)
    (hflags : ∀ j, j < N → (s'.msip j = true ↔ (s'.pc 0).hasSet j ∧ ¬(s'.pc j).hasCleared))
    (hwoken : 6 ≤ p.rank → (s'.pc 0).hasSet i)
    (hsetting : i = 0 → ∀ k n, p = .setFlag k n → n = N)
    (hpolled : ∀ k n, p = .poll k n → n = N ∧ ∀ l, l < k → l < N → (s'.pc l).hasCleared)
    (hpassed : 9 ≤ p.rank → ∀ l, l < N → (s'.pc l).hasCleared)
    (hlo : i = 0 → 2 ≤ p.rank → .scratch 0 4 (bootLo a) ∈ s'.log)
    (hhi : i = 0 → 3 ≤ p.rank → .scratch 0 5 (bootHi a) ∈ s'.log)
    (hcleared : p.hasCleared → .msip i i false ∈ s'.log)
    (hbarrier : Barrier N a s'.log) : Inv N a s' := by
  -- each hart is where it was, or is the one that moved
  have hat : ∀ l, (l = i ∧ s'.pc l = p) ∨ (l ≠ i ∧ s'.pc l = s.pc l) := by
    intro l
    rw [hpc]
    by_cases hl : l = i
    · exact Or.inl ⟨hl, by rw [hl, upd_self]⟩
    · exact Or.inr ⟨hl, upd_ne _ _ hl⟩
  have hcl : ∀ l, (s.pc l).hasCleared → (s'.pc l).hasCleared := by
    intro l hl
    rcases hat l with ⟨rfl, hp⟩ | ⟨_, hp⟩
    · rw [hp]
      exact hclear hl
    · rw [hp]
      exact hl
  refine ⟨?_, hflags, ?_, ?_, ?_, ?_, ?_, ?_, ?_, hbarrier⟩
  · intro l hl
    rcases hat l with ⟨rfl, hp⟩ | ⟨_, hp⟩
    · rw [hp]
      exact hpark hl
    · rw [hp]
      exact h.parked l hl
  · intro l hl hrank
    rcases hat l with ⟨rfl, hp⟩ | ⟨_, hp⟩
    · exact hwoken (hp ▸ hrank)
    · have hold := h.woken l hl (hp ▸ hrank)
      rcases hat 0 with ⟨h0, hp0⟩ | ⟨_, hp0⟩
      · rw [hp0]
        exact hset h0.symm l hl hold
      · rw [hp0]
        exact hold
  · intro k n hk
    rcases hat 0 with ⟨h0, hp⟩ | ⟨_, hp⟩
    · exact hsetting h0.symm k n (hp ▸ hk)
    · exact h.setting k n (hp ▸ hk)
  · intro l hl k n hk
    rcases hat l with ⟨rfl, hp⟩ | ⟨_, hp⟩
    · exact hpolled k n (hp ▸ hk)
    · obtain ⟨hn, hbelow⟩ := h.polled l hl k n (hp ▸ hk)
      exact ⟨hn, fun l' hk' hl' => hcl l' (hbelow l' hk' hl')⟩
  · intro l hl hrank l' hl'
    rcases hat l with ⟨rfl, hp⟩ | ⟨_, hp⟩
    · exact hpassed (hp ▸ hrank) l' hl'
    · exact hcl l' (h.passed l hl (hp ▸ hrank) l' hl')
  · intro hrank
    rcases hat 0 with ⟨h0, hp⟩ | ⟨_, hp⟩
    · exact hlo h0.symm (hp ▸ hrank)
    · exact hlog _ (h.wroteLo (hp ▸ hrank))
  · intro hrank
    rcases hat 0 with ⟨h0, hp⟩ | ⟨_, hp⟩
    · exact hhi h0.symm (hp ▸ hrank)
    · exact hlog _ (h.wroteHi (hp ▸ hrank))
  · intro l hl hc
    rcases hat l with ⟨rfl, hp⟩ | ⟨_, hp⟩
    · exact hcleared (hp ▸ hc)
    · exact hlog _ (h.cleared l hl (hp ▸ hc))

/-- A hart that moves and changes nothing else keeps the invariant if its new place agrees with the
flags. -/
theorem Inv.move (h : Inv N a s) {i : Nat} (hi : i < N) {p : Pc}
    (hpark : i ≠ nonsmpHart → p.rank = 0 ∨ 5 ≤ p.rank)
    (hclear : p.hasCleared ↔ (s.pc i).hasCleared)
    (hset : i = 0 → ∀ j, j < N → (p.hasSet j ↔ (s.pc 0).hasSet j))
    (hwoken : 6 ≤ p.rank → (s.pc 0).hasSet i)
    (hsetting : i = 0 → ∀ k n, p = .setFlag k n → n = N)
    (hpolled : ∀ k n, p = .poll k n → n = N ∧ ∀ l, l < k → l < N → (s.pc l).hasCleared)
    (hpassed : 9 ≤ p.rank → ∀ l, l < N → (s.pc l).hasCleared)
    (hlo : i = 0 → 2 ≤ p.rank → .scratch 0 4 (bootLo a) ∈ s.log)
    (hhi : i = 0 → 3 ≤ p.rank → .scratch 0 5 (bootHi a) ∈ s.log) : Inv N a (s.goto i p) := by
  have hcl : ∀ l, ((s.goto i p).pc l).hasCleared ↔ (s.pc l).hasCleared := by
    intro l
    by_cases hl : l = i
    · rw [hl, goto_self]
      exact hclear
    · rw [goto_ne s p hl]
  have hst : ∀ j, j < N → (((s.goto i p).pc 0).hasSet j ↔ (s.pc 0).hasSet j) := by
    intro j hj
    by_cases h0 : i = 0
    · rw [h0, goto_self]
      exact hset h0 j hj
    · rw [goto_ne s p (fun he => h0 he.symm)]
  refine h.advance rfl (fun _ he => he) hpark hclear.mpr (fun h0 j hj => (hset h0 j hj).mpr) ?_ ?_
    hsetting ?_ ?_ hlo hhi ?_ h.barrier
  · intro j hj
    rw [hst j hj, hcl j]
    exact h.flags j hj
  · intro hrank
    rw [hst i hi]
    exact hwoken hrank
  · intro k n hk
    obtain ⟨hn, hbelow⟩ := hpolled k n hk
    exact ⟨hn, fun l hl hlN => (hcl l).mpr (hbelow l hl hlN)⟩
  · intro hrank l hl
    exact (hcl l).mpr (hpassed hrank l hl)
  · intro hc
    exact h.cleared i hi (hclear.mp hc)

/-- If no hart moves and no flag changes, the invariant only has to be checked for the longer
log. -/
theorem Inv.extend (h : Inv N a s) {s' : Sys} (hpc : s'.pc = s.pc) (hmsip : s'.msip = s.msip)
    (hlog : ∀ e ∈ s.log, e ∈ s'.log) (hbarrier : Barrier N a s'.log) : Inv N a s' := by
  refine ⟨?_, ?_, ?_, ?_, ?_, ?_, ?_, ?_, ?_, hbarrier⟩ <;> rw [hpc]
  · exact h.parked
  · rw [hmsip]
    exact h.flags
  · exact h.woken
  · exact h.setting
  · exact h.polled
  · exact h.passed
  · exact fun hr => hlog _ (h.wroteLo hr)
  · exact fun hr => hlog _ (h.wroteHi hr)
  · exact fun j hj hc => hlog _ (h.cleared j hj hc)

/-- A write to a scratch register, by hart 0 or by a next stage. -/
theorem Inv.putScratch (h : Inv N a s) (i k : Nat) (v : BitVec 32) :
    Inv N a (s.putScratch i k v) :=
  h.extend rfl rfl (fun _ he => List.mem_cons_of_mem _ he) h.barrier

/-- Hart 0 sets flag `k`. Its hart is still parked, for it has not been woken. -/
theorem Inv.setFlag (h : Inv N a s) {k n : Nat} (hpc : s.pc 0 = .setFlag k n) :
    Inv N a ((s.putMsip 0 k true).goto 0 (if k + 1 < n then .setFlag (k + 1) n else .wfi)) := by
  have hn := h.setting k n hpc
  generalize hp : (if k + 1 < n then Pc.setFlag (k + 1) n else .wfi) = p
  have hrank : 4 ≤ p.rank ∧ p.rank ≤ 5 := by
    rw [← hp]
    split
    · exact ⟨Nat.le_refl 4, Nat.le_succ 4⟩
    · exact ⟨Nat.le_succ 4, Nat.le_refl 5⟩
  have hsetp : ∀ j, j < N → (p.hasSet j ↔ j < k ∨ j = k) := by
    intro j hj
    rw [← hp]
    split
    · show j < k + 1 ↔ _
      omega
    · show 5 ≤ 5 ↔ _
      omega
  have hold : ∀ j, (s.pc 0).hasSet j ↔ j < k := by
    intro j
    rw [hpc]
    exact Iff.rfl
  have hr0 : (s.pc 0).rank = 4 := rank_eq hpc
  have hself : ((s.putMsip 0 k true).goto 0 p).pc 0 = p := goto_self _ _ _
  have hcl : ∀ l, (((s.putMsip 0 k true).goto 0 p).pc l).hasCleared ↔ (s.pc l).hasCleared := by
    intro l
    by_cases hl : l = 0
    · rw [hl, hself]
      unfold Pc.hasCleared
      omega
    · rw [goto_ne _ p hl]
      exact Iff.rfl
  refine h.advance rfl (fun _ he => List.mem_cons_of_mem _ he) (fun h0 => absurd rfl h0) ?_ ?_ ?_ ?_
    ?_ ?_ ?_ ?_ ?_ ?_ h.barrier
  · unfold Pc.hasCleared
    omega
  · intro _ j hj hj'
    exact (hsetp j hj).mpr (Or.inl ((hold j).mp hj'))
  · intro j hj
    have hflag := h.flags j hj
    have hwoken := h.woken j hj
    rw [hold j] at hflag hwoken
    rw [hcl j, hself, hsetp j hj]
    show upd s.msip k true j = true ↔ _
    by_cases hjk : j = k
    · rw [hjk, upd_self]
      rw [hjk] at hwoken
      have hparked : ¬6 ≤ (s.pc k).rank := fun hr => Nat.lt_irrefl k (hwoken hr)
      unfold Pc.hasCleared
      simp only [or_true, true_and, true_iff]
      omega
    · rw [upd_ne _ _ hjk, hflag]
      simp only [hjk, or_false]
  · omega
  · intro _ k' n' hk'
    rw [← hp] at hk'
    split at hk'
    · cases hk'
      exact hn
    · cases hk'
  · intro k' n' hk'
    rw [hk'] at hrank
    exact absurd hrank.2 (by simp only [Pc.rank]; omega)
  · omega
  · intro _ _
    exact List.mem_cons_of_mem _ (h.wroteLo (by omega))
  · intro _ _
    exact List.mem_cons_of_mem _ (h.wroteHi (by omega))
  · unfold Pc.hasCleared
    omega

/-- A woken hart that clears its own software interrupt keeps the invariant. -/
theorem Inv.clearFlag (h : Inv N a s) {i : Nat} (hi : i < N) (hpc : s.pc i = .clearFlag) :
    Inv N a ((s.putMsip i i false).goto i .loadNAgain) := by
  have hrank : (s.pc i).rank = 6 := rank_eq hpc
  have hself : ((s.putMsip i i false).goto i .loadNAgain).pc i = .loadNAgain := goto_self _ _ _
  have hst : ∀ j, (((s.putMsip i i false).goto i .loadNAgain).pc 0).hasSet j
      ↔ (s.pc 0).hasSet j := by
    intro j
    by_cases h0 : i = 0
    · subst h0
      rw [hself]
      exact ⟨fun _ => hasSet_of_rank (by omega) j, fun _ => hasSet_of_rank (by decide) j⟩
    · rw [goto_ne _ _ (fun he => h0 he.symm)]
      exact Iff.rfl
  refine h.advance rfl (fun _ he => List.mem_cons_of_mem _ he) (fun _ => Or.inr (by decide)) ?_ ?_
    ?_ ?_ ?_ ?_ ?_ ?_ ?_ (fun _ => List.mem_cons_self ..) h.barrier
  · intro _
    exact Nat.le_refl 7
  · intro _ j _ _
    exact hasSet_of_rank (by decide) j
  · intro j hj
    rw [hst j]
    show upd s.msip i false j = true ↔ _
    by_cases hji : j = i
    · rw [hji, upd_self, hself]
      simp [Pc.hasCleared, Pc.rank]
    · rw [upd_ne _ _ hji, goto_ne _ _ hji]
      exact h.flags j hj
  · intro _
    rw [hst i]
    exact h.woken i hi (by omega)
  · intro _ k n hk
    cases hk
  · intro k n hk
    cases hk
  · intro hr
    exact absurd hr (by decide)
  · intro h0 _
    subst h0
    exact List.mem_cons_of_mem _ (h.wroteLo (by omega))
  · intro h0 _
    subst h0
    exact List.mem_cons_of_mem _ (h.wroteHi (by omega))

/-- A hart that has polled all flags may go: everything is released. -/
theorem Inv.released (h : Inv N a s) {i : Nat} (hi : i < N) (hr : 9 ≤ (s.pc i).rank) :
    Released N a s.log := by
  have hall := h.passed i hi hr
  have h0 : 7 ≤ (s.pc 0).rank := hall 0 (by omega)
  exact ⟨h.wroteLo (by omega), h.wroteHi (by omega), fun j hj => h.cleared j hj (hall j hj)⟩

/-- A poll that reads flag `k` as 0 finds it cleared: it was set, since the poller is
awake and, past flag 0, hart 0 has left the setting loop. -/
theorem Inv.poll_zero (h : Inv N a s) {i k n : Nat} (hi : i < N) (hpc : s.pc i = .poll k n)
    (hk : k < N) (hmsip : ¬s.msip k = true) : (s.pc k).hasCleared := by
  have hrank : (s.pc i).rank = 8 := rank_eq hpc
  have hself : (s.pc 0).hasSet i := h.woken i hi (by omega)
  have hset : (s.pc 0).hasSet k := by
    by_cases hk0 : k = 0
    · rw [hk0]
      exact hasSet_zero hself
    · -- flag 0 was passed: hart 0 is out of the loop that sets them
      obtain ⟨_, hbelow⟩ := h.polled i hi k n hpc
      have hcl0 : 7 ≤ (s.pc 0).rank := hbelow 0 (Nat.pos_of_ne_zero hk0) (by omega)
      exact hasSet_of_rank (by omega) k
  by_cases hc : (s.pc k).hasCleared
  · exact hc
  · exact absurd ((h.flags k hk).mpr ⟨hset, hc⟩) hmsip

/-- A hart that is not hart 0 is at no place that writes or sets. -/
theorem Inv.is_zero (h : Inv N a s) {i : Nat} (h1 : 1 ≤ (s.pc i).rank) (h4 : (s.pc i).rank ≤ 4) :
    i = nonsmpHart := by
  by_cases hi : i = nonsmpHart
  · exact hi
  · have hpark := h.parked i hi
    omega

/-- Hart 0 moves on before it sets the first flag. -/
theorem Inv.moveLow (h : Inv N a s) (hi : 0 < N) {p : Pc} (hold : (s.pc 0).rank ≤ 3)
    (hp : p.rank ≤ 4) (hset : ∀ j, ¬p.hasSet j) (hsetting : ∀ k n, p = .setFlag k n → n = N)
    (hlo : 2 ≤ p.rank → .scratch 0 4 (bootLo a) ∈ s.log)
    (hhi : 3 ≤ p.rank → .scratch 0 5 (bootHi a) ∈ s.log) : Inv N a (s.goto 0 p) := by
  have hold0 : ∀ j, ¬(s.pc 0).hasSet j := by
    intro j hj
    cases hpc : s.pc 0 with
    | setFlag k n =>
      rw [hpc] at hold
      exact absurd hold (by show ¬4 ≤ 3; omega)
    | _ =>
      rw [hpc] at hj hold
      exact absurd (Nat.le_trans hj hold) (by omega)
  refine h.move hi (fun hne => absurd rfl hne) ?_ (fun _ j _ => ?_) (by omega) (fun _ => hsetting)
    ?_ (by omega) (fun _ => hlo) (fun _ => hhi)
  · unfold Pc.hasCleared
    omega
  · exact ⟨fun hj => absurd hj (hset j), fun hj => absurd hj (hold0 j)⟩
  · intro k n hk
    rw [hk] at hp
    exact absurd hp (by show ¬8 ≤ 4; omega)

/-- A hart in the part all harts share moves on without clearing its flag. -/
theorem Inv.moveHigh (h : Inv N a s) {i : Nat} (hi : i < N) {p : Pc} (hold : 5 ≤ (s.pc i).rank)
    (hp : 5 ≤ p.rank) (hclear : p.hasCleared ↔ (s.pc i).hasCleared)
    (hwoken : 6 ≤ p.rank → (s.pc 0).hasSet i)
    (hpolled : ∀ k n, p = .poll k n → n = N ∧ ∀ l, l < k → l < N → (s.pc l).hasCleared)
    (hpassed : 9 ≤ p.rank → ∀ l, l < N → (s.pc l).hasCleared) : Inv N a (s.goto i p) := by
  refine h.move hi (fun _ => Or.inr hp) hclear ?_ hwoken ?_ hpolled hpassed ?_ ?_
  · intro h0 j _
    subst h0
    exact ⟨fun _ => hasSet_of_rank hold j, fun _ => hasSet_of_rank hp j⟩
  · intro _ k n hk
    rw [hk] at hp
    exact absurd hp (by show ¬5 ≤ 4; omega)
  · intro h0 _
    subst h0
    exact h.wroteLo (by omega)
  · intro h0 _
    subst h0
    exact h.wroteHi (by omega)

/-- A hart other than 0 goes from `smp_pause` to the `wfi` loop. -/
theorem Inv.park (h : Inv N a s) {i : Nat} (hi : i < N) (h0 : i ≠ nonsmpHart)
    (hpc : s.pc i = .pause) : Inv N a (s.goto i .wfi) := by
  refine h.move hi (fun _ => Or.inr (Nat.le_refl 5)) ?_ (fun he => absurd he h0)
    (fun hr => absurd hr (by decide)) (fun he => absurd he h0) (fun _ _ hk => by cases hk)
    (fun hr => absurd hr (by decide)) (fun he => absurd he h0) (fun he => absurd he h0)
  rw [hpc]
  unfold Pc.hasCleared
  exact ⟨fun hc => absurd hc (by decide), fun hc => absurd hc (by decide)⟩

/-- A hart that may go can jump to whatever target it has read, and the invariant is kept. -/
theorem Inv.jump (h : Inv N a s) {i : Nat} (hi : i < N) {t : BitVec 64}
    (hpc : s.pc i = .jalr t) (t' : BitVec 64) :
    Inv N a ({ s with log := .jump i t' :: s.log }.goto i .nextStage) := by
  have hrank : (s.pc i).rank = 11 := rank_eq hpc
  have hrel := h.released hi (by omega)
  have hlog : Inv N a { s with log := .jump i t' :: s.log } :=
    h.extend rfl rfl (fun _ he => List.mem_cons_of_mem _ he) ⟨hrel, h.barrier⟩
  refine hlog.moveHigh hi (by show 5 ≤ (s.pc i).rank; omega) (by decide) ?_ ?_
    (fun _ _ hk => by cases hk) ?_
  · show 7 ≤ 12 ↔ 7 ≤ (s.pc i).rank
    omega
  · exact fun _ => h.woken i hi (by omega)
  · exact fun _ => h.passed i hi (by omega)

/-- A poll: the same flag again, the next one, or on to the boot address. -/
theorem Inv.poll (h : Inv N a s) {i k n : Nat} (hi : i < N) (hpc : s.pc i = .poll k n) :
    Inv N a (s.goto i
      (if s.msip k then .poll k n else if k + 1 < n then .poll (k + 1) n else .loadHi)) := by
  have hrank : (s.pc i).rank = 8 := rank_eq hpc
  obtain ⟨hn, hbelow⟩ := h.polled i hi k n hpc
  have hwoken := h.woken i hi (by omega)
  have hstay : ∀ p : Pc, 8 ≤ p.rank → (p.hasCleared ↔ (s.pc i).hasCleared) := by
    intro p hp
    unfold Pc.hasCleared
    omega
  have hzero : ¬s.msip k = true → ∀ l, l < k + 1 → l < N → (s.pc l).hasCleared := by
    intro hmsip l hlk hlN
    by_cases hl : l = k
    · subst hl
      exact h.poll_zero hi hpc hlN hmsip
    · exact hbelow l (by omega) hlN
  split
  next =>
    refine h.moveHigh hi (by omega) (by show 5 ≤ 8; omega) (hstay _ (Nat.le_refl 8))
      (fun _ => hwoken) (fun k' n' hk => ?_) (fun hr => absurd hr (by show ¬9 ≤ 8; omega))
    cases hk
    exact ⟨hn, hbelow⟩
  next hmsip =>
    split
    next =>
      refine h.moveHigh hi (by omega) (by show 5 ≤ 8; omega) (hstay _ (Nat.le_refl 8))
        (fun _ => hwoken) (fun k' n' hk => ?_) (fun hr => absurd hr (by show ¬9 ≤ 8; omega))
      cases hk
      exact ⟨hn, hzero hmsip⟩
    next hlast =>
      refine h.moveHigh hi (by omega) (by decide) (hstay _ (by decide)) (fun _ => hwoken)
        (fun _ _ hk => by cases hk) (fun _ l hl => hzero hmsip l (by omega) hl)

/-- The step lemma: every access of every hart keeps the invariant. -/
theorem Inv.hartStep (h : Inv N a s) {i : Nat} (hi : i < N) : Inv N a (hartStep N a s i) := by
  have hN : 0 < N := Nat.lt_of_le_of_lt (Nat.zero_le i) hi
  unfold Boot.hartStep
  cases hpc : s.pc i with
  | pause =>
    dsimp only
    by_cases h0 : i = nonsmpHart
    · rw [if_pos h0]
      subst h0
      have hrank : (s.pc 0).rank = 0 := rank_eq hpc
      exact h.moveLow hN (by omega) (by decide) (fun _ hj => absurd hj (by show ¬5 ≤ 1; omega))
        (fun _ _ hk => by cases hk) (fun hr => absurd hr (by decide))
        (fun hr => absurd hr (by decide))
    · rw [if_neg h0]
      exact h.park hi h0 hpc
  | swLo =>
    have hrank : (s.pc i).rank = 1 := rank_eq hpc
    have h0 : i = 0 := h.is_zero (by omega) (by omega)
    subst h0
    exact (h.putScratch 0 4 (bootLo a)).moveLow hN (by show (s.pc 0).rank ≤ 3; omega) (by decide)
      (fun _ hj => absurd hj (by show ¬5 ≤ 2; omega)) (fun _ _ hk => by cases hk)
      (fun _ => List.mem_cons_self ..) (fun hr => absurd hr (by decide))
  | swHi =>
    have hrank : (s.pc i).rank = 2 := rank_eq hpc
    have h0 : i = 0 := h.is_zero (by omega) (by omega)
    subst h0
    exact (h.putScratch 0 5 (bootHi a)).moveLow hN (by show (s.pc 0).rank ≤ 3; omega) (by decide)
      (fun _ hj => absurd hj (by show ¬5 ≤ 3; omega)) (fun _ _ hk => by cases hk)
      (fun _ => List.mem_cons_of_mem _ (h.wroteLo (by omega))) (fun _ => List.mem_cons_self ..)
  | loadN =>
    have hrank : (s.pc i).rank = 3 := rank_eq hpc
    have h0 : i = 0 := h.is_zero (by omega) (by omega)
    subst h0
    refine h.moveLow hN (by omega) (Nat.le_refl 4) (fun j hj => Nat.not_lt_zero j hj)
      (fun k n hk => ?_) (fun _ => h.wroteLo (by omega)) (fun _ => h.wroteHi (by omega))
    cases hk
    rfl
  | setFlag k n =>
    have hrank : (s.pc i).rank = 4 := rank_eq hpc
    have h0 : i = 0 := h.is_zero (by omega) (by omega)
    subst h0
    exact h.setFlag hpc
  | wfi =>
    refine h.moveHigh hi (by rw [hpc]; decide) (by decide) ?_ (fun hr => absurd hr (by decide))
      (fun _ _ hk => by cases hk) (fun hr => absurd hr (by decide))
    rw [hpc]
    exact Iff.rfl
  | readMip =>
    dsimp only
    have hrank : (s.pc i).rank = 5 := rank_eq hpc
    split
    next hmsip =>
      -- the flag it reads as 1 was set by hart 0
      refine h.moveHigh hi (by omega) (by decide) ?_ (fun _ => ((h.flags i hi).mp hmsip).1)
        (fun _ _ hk => by cases hk) (fun hr => absurd hr (by decide))
      show 7 ≤ 6 ↔ 7 ≤ (s.pc i).rank
      omega
    next =>
      refine h.moveHigh hi (by omega) (by decide) ?_ (fun hr => absurd hr (by decide))
        (fun _ _ hk => by cases hk) (fun hr => absurd hr (by decide))
      show 7 ≤ 5 ↔ 7 ≤ (s.pc i).rank
      omega
  | clearFlag => exact h.clearFlag hi hpc
  | loadNAgain =>
    have hrank : (s.pc i).rank = 7 := rank_eq hpc
    refine h.moveHigh hi (by omega) (by show 5 ≤ 8; omega) ?_ (fun _ => h.woken i hi (by omega))
      (fun k n hk => ?_) (fun hr => absurd hr (by show ¬9 ≤ 8; omega))
    · show 7 ≤ 8 ↔ 7 ≤ (s.pc i).rank
      omega
    · cases hk
      exact ⟨rfl, fun l hl => absurd hl (Nat.not_lt_zero l)⟩
  | poll k n => exact h.poll hi hpc
  | loadHi =>
    have hrank : (s.pc i).rank = 9 := rank_eq hpc
    refine h.moveHigh hi (by omega) (by show 5 ≤ 10; omega) ?_ (fun _ => h.woken i hi (by omega))
      (fun _ _ hk => by cases hk) (fun _ => h.passed i hi (by omega))
    show 7 ≤ 10 ↔ 7 ≤ (s.pc i).rank
    omega
  | loadLo hiWord =>
    have hrank : (s.pc i).rank = 10 := rank_eq hpc
    refine h.moveHigh hi (by omega) (by show 5 ≤ 11; omega) ?_ (fun _ => h.woken i hi (by omega))
      (fun _ _ hk => by cases hk) (fun _ => h.passed i hi (by omega))
    show 7 ≤ 11 ↔ 7 ≤ (s.pc i).rank
    omega
  | jalr t => exact h.jump hi hpc _
  | nextStage => exact h

theorem reset_inv (scratch : Nat → BitVec 32) : Inv N a (reset scratch) where
  parked := fun _ _ => Or.inl rfl
  flags := fun _ _ => ⟨fun hf => absurd hf Bool.false_ne_true,
    fun hs => absurd hs.1 (by show ¬5 ≤ 0; omega)⟩
  woken := fun _ _ hr => absurd hr (by show ¬6 ≤ 0; omega)
  setting := fun _ _ hk => by cases hk
  polled := fun _ _ _ _ hk => by cases hk
  passed := fun _ _ hr => absurd hr (by show ¬9 ≤ 0; omega)
  wroteLo := fun hr => absurd hr (by show ¬2 ≤ 0; omega)
  wroteHi := fun hr => absurd hr (by show ¬3 ≤ 0; omega)
  cleared := fun _ _ hc => absurd hc (by show ¬7 ≤ 0; omega)
  barrier := trivial

theorem Inv.step (h : Inv N a s) {act : Act} {s' : Sys} (hs : step N a s act = some s') :
    Inv N a s' := by
  cases act with
  | hart i =>
    simp only [Boot.step] at hs
    split at hs
    next hi =>
      cases hs
      exact h.hartStep hi.1
    next => cases hs
  | next i k v =>
    simp only [Boot.step] at hs
    split at hs
    next =>
      cases hs
      exact h.putScratch i k v
    next => cases hs

/-! ## The boot address -/

theorem bootHi_append_bootLo (a : BitVec 64) : bootHi a ++ bootLo a = a := by
  unfold bootHi bootLo
  ext k hk
  simp only [BitVec.getElem_append, BitVec.getElem_setWidth, BitVec.getLsbD_ushiftRight]
  split
  · exact BitVec.getLsbD_eq_getElem hk
  · rw [show 32 + (k - 32) = k by omega]
    exact BitVec.getLsbD_eq_getElem hk

/-- Where the address is on its way from hart 0's `a0` to the jumps. The registers
matter while a hart still reads them. -/
structure AddrInv (N : Nat) (a : BitVec 64) (s : Sys) : Prop where
  lo : s.Reading N → 2 ≤ (s.pc 0).rank → s.scratch 4 = bootLo a
  hi : s.Reading N → 3 ≤ (s.pc 0).rank → s.scratch 5 = bootHi a
  loadLo : ∀ i w, s.pc i = .loadLo w → w = bootHi a
  jalr : ∀ i t, s.pc i = .jalr t → t = a
  jumps : JumpsTo a s.log

/-- A hart that has read the address does not read it again: who is reading after a
step was reading before it. -/
theorem Sys.Reading.of_step {s' : Sys} (hr : s'.Reading N) {i : Nat} {p : Pc}
    (hpc : s'.pc = upd s.pc i p) (hread : 11 ≤ (s.pc i).rank → 11 ≤ p.rank) : s.Reading N := by
  obtain ⟨j, hj, hrank⟩ := hr
  refine ⟨j, hj, ?_⟩
  rw [hpc] at hrank
  by_cases hji : j = i
  · subst hji
    rw [upd_self] at hrank
    omega
  · rwa [upd_ne _ _ hji] at hrank

/-- Hart `i` moves on to `p` and the address registers are right for where hart 0 is. -/
theorem AddrInv.advance (h : AddrInv N a s) {s' : Sys} {i : Nat} {p : Pc}
    (hpc : s'.pc = upd s.pc i p)
    (hlo : s'.Reading N → 2 ≤ (s'.pc 0).rank → s'.scratch 4 = bootLo a)
    (hhi : s'.Reading N → 3 ≤ (s'.pc 0).rank → s'.scratch 5 = bootHi a)
    (hload : ∀ w, p = .loadLo w → w = bootHi a) (hjalr : ∀ t, p = .jalr t → t = a)
    (hjumps : JumpsTo a s'.log) : AddrInv N a s' := by
  refine ⟨hlo, hhi, ?_, ?_, hjumps⟩
  · intro j w hj
    rw [hpc] at hj
    by_cases hji : j = i
    · rw [hji, upd_self] at hj
      exact hload w hj
    · rw [upd_ne _ _ hji] at hj
      exact h.loadLo j w hj
  · intro j t hj
    rw [hpc] at hj
    by_cases hji : j = i
    · rw [hji, upd_self] at hj
      exact hjalr t hj
    · rw [upd_ne _ _ hji] at hj
      exact h.jalr j t hj

/-- A move that writes no scratch register and jumps nowhere. -/
theorem AddrInv.move (h : AddrInv N a s) {s' : Sys} {i : Nat} {p : Pc}
    (hpc : s'.pc = upd s.pc i p) (hsc : s'.scratch = s.scratch)
    (hread : 11 ≤ (s.pc i).rank → 11 ≤ p.rank)
    (hrank : i = 0 → 2 ≤ p.rank → 3 ≤ (s.pc i).rank)
    (hload : ∀ w, p = .loadLo w → w = bootHi a) (hjalr : ∀ t, p = .jalr t → t = a)
    (hjumps : JumpsTo a s'.log) : AddrInv N a s' := by
  have hmono : 2 ≤ (s'.pc 0).rank →
      2 ≤ (s.pc 0).rank ∧ (3 ≤ (s'.pc 0).rank → 3 ≤ (s.pc 0).rank) := by
    intro h2
    rw [hpc] at h2 ⊢
    by_cases h0 : 0 = i
    · subst h0
      rw [upd_self] at h2
      have h3 := hrank rfl h2
      exact ⟨by omega, fun _ => h3⟩
    · rw [upd_ne _ _ h0] at h2 ⊢
      exact ⟨h2, id⟩
  refine h.advance hpc (fun hr h2 => ?_) (fun hr h3 => ?_) hload hjalr hjumps
  · rw [hsc]
    exact h.lo (hr.of_step hpc hread) (hmono h2).1
  · rw [hsc]
    exact h.hi (hr.of_step hpc hread) ((hmono (by omega)).2 h3)

theorem JumpsTo.cons {log : List Event} (h : JumpsTo a log) {e : Event}
    (he : ∀ i t, e ≠ .jump i t) : JumpsTo a (e :: log) := by
  intro i t hmem
  rcases List.mem_cons.mp hmem with heq | hmem
  · exact absurd heq.symm (he i t)
  · exact h i t hmem

theorem AddrInv.hartStep (h : AddrInv N a s) (hinv : Inv N a s) {i : Nat} (hi : i < N) :
    AddrInv N a (hartStep N a s i) := by
  unfold Boot.hartStep
  cases hpc : s.pc i with
  | pause =>
    have hr : (s.pc i).rank = 0 := rank_eq hpc
    dsimp only
    by_cases h0 : i = nonsmpHart
    · rw [if_pos h0]
      exact h.move rfl rfl (fun _ => by omega) (fun _ hr => absurd hr (by decide)) (fun _ hk => by cases hk)
        (fun _ hk => by cases hk) h.jumps
    · rw [if_neg h0]
      exact h.move rfl rfl (fun _ => by omega) (fun he => absurd he h0) (fun _ hk => by cases hk)
        (fun _ hk => by cases hk) h.jumps
  | swLo =>
    have hr : (s.pc i).rank = 1 := rank_eq hpc
    have h0 : i = 0 := hinv.is_zero (by omega) (by omega)
    subst h0
    dsimp only
    refine h.advance rfl (fun _ _ => upd_self s.scratch 4 _) (fun _ h3 => ?_)
      (fun _ hk => by cases hk) (fun _ hk => by cases hk) (h.jumps.cons (fun _ _ he => by cases he))
    rw [goto_self] at h3
    exact absurd h3 (by decide)
  | swHi =>
    have hr : (s.pc i).rank = 2 := rank_eq hpc
    have h0 : i = 0 := hinv.is_zero (by omega) (by omega)
    subst h0
    have h45 : (4 : Nat) ≠ 5 := by omega
    have hread : s.Reading N := ⟨0, hi, by omega⟩
    dsimp only
    exact h.advance rfl (fun _ _ => (upd_ne s.scratch (bootHi a) h45).trans (h.lo hread (by omega)))
      (fun _ _ => upd_self s.scratch 5 _) (fun _ hk => by cases hk) (fun _ hk => by cases hk)
      (h.jumps.cons (fun _ _ he => by cases he))
  | loadN =>
    have hr : (s.pc i).rank = 3 := rank_eq hpc
    exact h.move rfl rfl (fun _ => by omega) (fun _ _ => by omega) (fun _ hk => by cases hk) (fun _ hk => by cases hk)
      h.jumps
  | setFlag k n =>
    have hr : (s.pc i).rank = 4 := rank_eq hpc
    refine h.move rfl rfl (fun _ => by omega) (fun _ _ => by omega) (fun _ hk => ?_) (fun _ hk => ?_)
      (h.jumps.cons (fun _ _ he => by cases he))
    · split at hk <;> cases hk
    · split at hk <;> cases hk
  | wfi =>
    have hr : (s.pc i).rank = 5 := rank_eq hpc
    exact h.move rfl rfl (fun _ => by omega) (fun _ _ => by omega) (fun _ hk => by cases hk) (fun _ hk => by cases hk)
      h.jumps
  | readMip =>
    have hr : (s.pc i).rank = 5 := rank_eq hpc
    refine h.move rfl rfl (fun _ => by omega) (fun _ _ => by omega) (fun _ hk => ?_) (fun _ hk => ?_) h.jumps
    · split at hk <;> cases hk
    · split at hk <;> cases hk
  | clearFlag =>
    have hr : (s.pc i).rank = 6 := rank_eq hpc
    exact h.move rfl rfl (fun _ => by omega) (fun _ _ => by omega) (fun _ hk => by cases hk) (fun _ hk => by cases hk)
      (h.jumps.cons (fun _ _ he => by cases he))
  | loadNAgain =>
    have hr : (s.pc i).rank = 7 := rank_eq hpc
    exact h.move rfl rfl (fun _ => by omega) (fun _ _ => by omega) (fun _ hk => by cases hk) (fun _ hk => by cases hk)
      h.jumps
  | poll k n =>
    have hr : (s.pc i).rank = 8 := rank_eq hpc
    refine h.move rfl rfl (fun _ => by omega) (fun _ _ => by omega) (fun _ hk => ?_) (fun _ hk => ?_) h.jumps
    · split at hk
      · cases hk
      · split at hk <;> cases hk
    · split at hk
      · cases hk
      · split at hk <;> cases hk
  | loadHi =>
    have hr : (s.pc i).rank = 9 := rank_eq hpc
    have h0 : 7 ≤ (s.pc 0).rank := hinv.passed i hi (by omega) 0 (by omega)
    refine h.move rfl rfl (fun _ => by omega) (fun _ _ => by omega) (fun w hk => ?_) (fun _ hk => by cases hk) h.jumps
    cases hk
    exact h.hi ⟨i, hi, by omega⟩ (by omega)
  | loadLo w =>
    have hr : (s.pc i).rank = 10 := rank_eq hpc
    have h0 : 7 ≤ (s.pc 0).rank := hinv.passed i hi (by omega) 0 (by omega)
    refine h.move rfl rfl (fun _ => by omega) (fun _ _ => by omega) (fun _ hk => by cases hk) (fun t hk => ?_) h.jumps
    cases hk
    rw [h.loadLo i w hpc, h.lo ⟨i, hi, by omega⟩ (by omega)]
    exact bootHi_append_bootLo a
  | jalr t =>
    have hr : (s.pc i).rank = 11 := rank_eq hpc
    refine h.move rfl rfl (fun _ => by decide) (fun _ _ => by omega) (fun _ hk => by cases hk)
      (fun _ hk => by cases hk) ?_
    intro j t' hmem
    rcases List.mem_cons.mp hmem with heq | hmem
    · cases heq
      rw [h.jalr i t hpc]
    · exact h.jumps j t' hmem
  | nextStage => exact h

theorem reset_addrInv (scratch : Nat → BitVec 32) : AddrInv N a (reset scratch) where
  lo := fun _ hr => absurd hr (by show ¬2 ≤ 0; omega)
  hi := fun _ hr => absurd hr (by show ¬3 ≤ 0; omega)
  loadLo := fun _ _ hk => by cases hk
  jalr := fun _ _ hk => by cases hk
  jumps := fun _ _ hmem => absurd hmem List.not_mem_nil

theorem AddrInv.step (h : AddrInv N a s) (hinv : Inv N a s) {act : Act}
    (hkeep : s.KeepsAddress N act) {s' : Sys} (hs : step N a s act = some s') : AddrInv N a s' := by
  cases act with
  | hart i =>
    simp only [Boot.step] at hs
    split at hs
    next hi =>
      cases hs
      exact h.hartStep hinv hi.1
    next => cases hs
  | next i k v =>
    simp only [Boot.step] at hs
    split at hs
    next =>
      cases hs
      -- where it writes one of the two, no hart reads them any more
      refine ⟨fun hread hr => ?_, fun hread hr => ?_, h.loadLo, h.jalr,
        h.jumps.cons (fun _ _ he => by cases he)⟩
      · exact (upd_ne _ _ (fun he => (hkeep hread).1 he.symm)).trans (h.lo hread hr)
      · exact (upd_ne _ _ (fun he => (hkeep hread).2 he.symm)).trans (h.hi hread hr)
    next => cases hs

/-! ## Runs -/

theorem run_inv {scratch : Nat → BitVec 32} {acts : List Act}
    (hrun : run (step N a) (reset scratch) acts = some s) : Inv N a s :=
  run_invariant (P := fun _ => True) (fun _ _ _ _ h hs => h.step hs) acts (reset_inv scratch)
    (fun _ _ => trivial) hrun

theorem run_addrInv {scratch : Nat → BitVec 32} {acts : List Act}
    (hkeep : Along (step N a) (Sys.KeepsAddress N) (reset scratch) acts)
    (hrun : run (step N a) (reset scratch) acts = some s) : AddrInv N a s := by
  have hstep : ∀ s act s', s.KeepsAddress N act → Inv N a s ∧ AddrInv N a s →
      step N a s act = some s' → Inv N a s' ∧ AddrInv N a s' := by
    intro s act s' hk h hs
    exact ⟨h.1.step hs, h.2.step h.1 hk hs⟩
  exact (run_invariant_along hstep acts ⟨reset_inv scratch, reset_addrInv scratch⟩ hkeep hrun).2

/-- **The barrier, and the address.** Whatever the number of harts and the order of
their accesses, no hart jumps before the release; and where no next stage writes the
two address registers before the last hart has read both, every hart jumps to hart 0's
address, bit 0 cleared. -/
theorem smp_resume_barrier (N : Nat) (a : BitVec 64) (scratch : Nat → BitVec 32)
    (acts : List Act) (s : Sys) (hrun : run (step N a) (reset scratch) acts = some s) :
    Barrier N a s.log ∧
      (Along (step N a) (Sys.KeepsAddress N) (reset scratch) acts → JumpsTo a s.log) :=
  ⟨(run_inv hrun).barrier, fun hkeep => (run_addrInv hkeep hrun).jumps⟩

/-- The jumps of a run, newest first, each with its hart and its target. -/
def jumpsOf (log : List Event) : List (Nat × BitVec 64) :=
  log.filterMap fun e => match e with
    | .jump i t => some (i, t)
    | _ => none

theorem exists_run {acts : List Act} {s₀ : Sys} {P : Sys → Prop} [DecidablePred P]
    (h : (run (step N a) s₀ acts).map (fun s => decide (P s)) = some true) :
    ∃ s, run (step N a) s₀ acts = some s ∧ P s := by
  cases hr : run (step N a) s₀ acts with
  | none =>
    rw [hr] at h
    cases h
  | some s =>
    rw [hr] at h
    exact ⟨s, rfl, of_decide_eq_true (Option.some.inj h)⟩

theorem along_harts (is : List Nat) (s : Sys) :
    Along (step N a) (Sys.KeepsAddress N) s (is.map Act.hart) := by
  refine Along.of_forall (fun act hact s' => ?_) s
  obtain ⟨i, -, rfl⟩ := List.mem_map.mp hact
  trivial

/-- The accesses of a run of two harts up to the point where both have read the address:
hart 0 has jumped, hart 1 is about to. -/
def twoHartsRead : List Nat :=
  List.replicate 10 0 ++ List.replicate 7 1 ++ List.replicate 5 0 ++ List.replicate 2 1

/-- Two harts: hart 1 polls while hart 0 is done. Hart 0's next stage reuses a scratch
register as soon as hart 1 has read the address, and hart 1 jumps. -/
def twoHarts : List Act := twoHartsRead.map Act.hart ++ [.next 0 4 0, .hart 1]

/-- The same, but hart 0's next stage reuses scratch register 4 before hart 1 reads it. -/
def twoHartsReuse : List Act :=
  List.replicate 10 (.hart 0) ++ List.replicate 7 (.hart 1) ++ List.replicate 5 (.hart 0)
    ++ [.next 0 4 0] ++ List.replicate 3 (.hart 1)

theorem twoHarts_keepsAddress :
    Along (step 2 0x80000000) (Sys.KeepsAddress 2) (reset fun _ => 0) twoHarts := by
  refine (along_harts twoHartsRead _).append fun s hs => ⟨?_, fun _ _ => ⟨trivial, ?_⟩⟩
  · have hread : (run (step 2 0x80000000) (reset fun _ => 0) (twoHartsRead.map Act.hart)).map
        (fun s => decide (11 ≤ (s.pc 0).rank ∧ 11 ≤ (s.pc 1).rank)) = some true := by decide
    rw [hs] at hread
    obtain ⟨h0, h1⟩ := of_decide_eq_true (Option.some.inj hread)
    rintro ⟨i, hi, hrank⟩
    obtain rfl | rfl : i = 0 ∨ i = 1 := by omega
    · omega
    · omega
  · exact fun _ _ => trivial

theorem smp_resume_two_harts :
    ∃ s, run (step 2 0x80000000) (reset fun _ => 0) twoHarts = some s ∧
      jumpsOf s.log = [(1, 0x80000000), (0, 0x80000000)] ∧ s.scratch 4 = 0 ∧
      Barrier 2 0x80000000 s.log ∧ JumpsTo 0x80000000 s.log := by
  obtain ⟨s, hrun, hjumps, hscratch⟩ :
      ∃ s, run (step 2 0x80000000) (reset fun _ => 0) twoHarts = some s ∧
        jumpsOf s.log = [(1, 0x80000000), (0, 0x80000000)] ∧ s.scratch 4 = 0 :=
    exists_run (by decide)
  have h := smp_resume_barrier 2 0x80000000 (fun _ => 0) twoHarts s hrun
  exact ⟨s, hrun, hjumps, hscratch, h.1, h.2 twoHarts_keepsAddress⟩

/-- No next stage writes a flag, and yet a hart jumps elsewhere: to 0 after a reused
scratch register, and to an even address when called with an odd one. -/
theorem smp_resume_other_address :
    (∃ s, run (step 2 0x80000000) (reset fun _ => 0) twoHartsReuse = some s ∧
      jumpsOf s.log = [(1, 0), (0, 0x80000000)]) ∧
    ∃ s, run (step 2 0x80000001) (reset fun _ => 0) twoHarts = some s ∧
      jumpsOf s.log = [(1, 0x80000000), (0, 0x80000000)] :=
  ⟨exists_run (by decide), exists_run (by decide)⟩

end Cheshire.Boot
