import Cheshire.Boot.Smp
import Cheshire.Sim.SlinkReg

/-!
# Passive boot over the scratch registers

`slink_elf_run` writes the entry point to scratch registers 1 and 0 and then 2 to
scratch register 2. The boot ROM waits for that bit, clears the register, and jumps.
When the program's `main` returns, `_exit` puts the return value, shifted left by
one, and a set bit 0 into scratch register 2, for which `slink_wait_for_eoc` polls.

One register is start flag, busy flag and return value, and `Inv` says what is in it
for every combination of phases. The handshake is in order for every interleaving.
The shift into 32 bits is not: it drops bit 31 of the return value, so that the
smallest `int` is reported as success (`passive_sound_iff`).
-/

namespace Cheshire.Boot.Passive

open Transition Cheshire.Sim
open Span (Byte)

/-- `AmRegs`, the base address of the register file. -/
def amRegs : Nat := 0x0300_0000

/-- `CHESHIRE_SCRATCH_i_OFFSET`, behind the base of the register file. -/
def scratchAddr (i : Nat) : Nat := amRegs + 4 * i

/-- `kUartDebugAck`, the byte that the boot polls the UART for. -/
def uartDebugAck : Byte := 0x06

/-- The testbench, as the access it does next. -/
inductive Vip where
  /-- `slink_elf_run`: `entry[63:32]` to scratch 1. -/
  | writeHi
  | writeLo
  /-- 2 to scratch 2. -/
  | launch
  /-- `slink_wait_for_eoc`. -/
  | poll
  | done (exitCode : BitVec 32)
  deriving DecidableEq

/-- Hart 0: the access it does next, with what is live there. -/
inductive Hart where
  /-- In front of `boot_passive`. -/
  | reset
  /-- `scratch[2] & 2`. -/
  | test
  /-- `uart_debug_check`. -/
  | check
  /-- `uart_debug_serve`. -/
  | serve
  /-- `scratch[2] = 0`. -/
  | clear
  /-- `scratch[1]` and `scratch[0]`, in either order. -/
  | fetch (hi lo : Option (BitVec 32))
  /-- `boot_next_stage`: `sw a0, 16(t0)`. -/
  | swLo (a0 : BitVec 64)
  | swHi (a0 : BitVec 64)
  | loadHi
  | loadLo (hi : BitVec 32)
  | jalr (t : BitVec 64)
  /-- The program that was jumped to, up to the return of its `main`. -/
  | main (pc : BitVec 64)
  /-- `_exit` in front of its `sw`, with the return value. -/
  | exit (a0 : BitVec 64)
  /-- Back at the `ret` behind the jump, which returns to itself. -/
  | returned
  deriving DecidableEq

structure Sys where
  /-- The registers, as bytes on the bus. -/
  regs : Nat → Byte
  /-- What the UART has received. -/
  uart : List Byte
  vip : Vip
  hart : Hart

/-- A step of the testbench, a step of the hart, its read of one half of the entry point,
or a store of `main` to a scratch register. -/
inductive Act where
  | vip
  | hart
  | fetchHi
  | fetchLo
  | store (i : Nat) (v : BitVec 32)

def Sys.scratch (s : Sys) (i : Nat) : BitVec 32 := loadWord s.regs (scratchAddr i)

/-- `sw` of the hart to scratch register `i`. -/
def Sys.put (s : Sys) (i : Nat) (v : BitVec 32) : Sys :=
  { s with regs := storeWord s.regs (scratchAddr i) v }

/-- `slink_write_32` of the testbench to scratch register `i`, and on to its access `p`. -/
def Sys.slinkPut (s : Sys) (i : Nat) (v : BitVec 32) (p : Vip) : Option Sys :=
  (slinkWrite32 (scratchAddr i) v).map fun b =>
    { s with regs := b.apply axiStrbWidth s.regs, vip := p }

/-- One access of `slink_elf_run` from its writes on, or one poll of `slink_wait_for_eoc`. -/
def vipStep (entry : BitVec 64) (s : Sys) : Option Sys :=
  match s.vip with
  | .writeHi => s.slinkPut 1 (entry.extractLsb' 32 32) .writeLo
  -- `entry[32:0]`, cut to a `word_bt`
  | .writeLo => s.slinkPut 0 ((entry.extractLsb' 0 33).setWidth 32) .launch
  | .launch => s.slinkPut 2 2 .poll
  | .poll =>
    let data := slinkPollData s.regs (scratchAddr 2)
    some { s with vip := if data.getLsbD 0 then .done (data >>> 1) else .poll }
  | .done _ => none

/-- What `_exit` stores: `slli t0, a0, 1`, `ori t0, t0, 1`. -/
def exitWord (a0 : BitVec 64) : BitVec 32 := (a0 <<< 1 ||| 1).setWidth 32

/-- The next access of the hart; `r` is what `main` of the program at `entry` returns. `jalr`
clears bit 0 of its target. -/
def hartStep (entry : BitVec 64) (r : BitVec 32) (s : Sys) : Option Sys :=
  match s.hart with
  | .reset => some { s with hart := .test }
  | .test => some { s with hart := if s.scratch 2 &&& 2 ≠ 0 then .clear else .check }
  | .check =>
    match s.uart with
    | [] => some { s with hart := .test }
    | b :: bs => some { s with uart := bs, hart := if b = uartDebugAck then .serve else .test }
  | .serve => none
  | .clear => some { s.put 2 0 with hart := .fetch none none }
  | .fetch (some hi) (some lo) =>
    some { s with hart := .swLo (hi.setWidth 64 <<< 32 ||| lo.setWidth 64) }
  | .fetch _ _ => none
  | .swLo a0 => some { s.put 4 (bootLo a0) with hart := .swHi a0 }
  | .swHi a0 => some { s.put 5 (bootHi a0) with hart := .loadHi }
  | .loadHi => some { s with hart := .loadLo (s.scratch 5) }
  | .loadLo hi => some { s with hart := .jalr (hi ++ s.scratch 4) }
  | .jalr t => some { s with hart := .main (t &&& ~~~1) }
  | .main pc => if pc = entry &&& ~~~1 then some { s with hart := .exit (r.signExtend 64) } else none
  | .exit a0 => some { s.put 2 (exitWord a0) with hart := .returned }
  | .returned => none

/-- The actions in any order. `main` leaves scratch register 2 to `_exit`. -/
def step (entry : BitVec 64) (r : BitVec 32) (s : Sys) : Act → Option Sys
  | .vip => vipStep entry s
  | .hart => hartStep entry r s
  | .fetchHi =>
    match s.hart with
    | .fetch none lo => some { s with hart := .fetch (some (s.scratch 1)) lo }
    | _ => none
  | .fetchLo =>
    match s.hart with
    | .fetch hi none => some { s with hart := .fetch hi (some (s.scratch 0)) }
    | _ => none
  | .store i v =>
    match s.hart with
    | .main _ => if i ≠ 2 then some (s.put i v) else none
    | _ => none

/-- The state out of reset: all registers zero, and both sides at their start. -/
def reset : Sys where
  regs := fun _ => 0
  uart := []
  vip := .writeHi
  hart := .reset

/-! ## What is to hold -/

/-- The jump takes the complete entry point, both of its halves. -/
def JumpsTo (entry : BitVec 64) (s : Sys) : Prop :=
  (∀ t, s.hart = .jalr t → t = entry) ∧ ∀ pc, s.hart = .main pc → pc = entry &&& ~~~1

/-- The poll ends after `_exit`, and tells zero from nonzero. -/
def Reports (r : BitVec 32) (s : Sys) : Prop :=
  ∀ code, s.vip = .done code → s.hart = .returned ∧ (code ≠ 0 ↔ r ≠ 0)

/-- What the passive boot promises in every state of every run: the jump is right, and so is the
report. -/
def Sound (entry : BitVec 64) (r : BitVec 32) : Prop :=
  ∀ acts s, run (step entry r) reset acts = some s → JumpsTo entry s ∧ Reports r s

/-! ## The invariant -/

def Vip.rank : Vip → Nat
  | .writeHi => 0
  | .writeLo => 1
  | .launch => 2
  | .poll => 3
  | .done _ => 4

/-- The hart has not seen the launch yet, so it is still in the polling loop. -/
def Hart.Waits : Hart → Prop
  | .reset | .test | .check => True
  | _ => False

/-- The hart may still read the entry point. -/
def Hart.Unread : Hart → Prop
  | .reset | .test | .check | .clear | .fetch _ _ => True
  | _ => False

/-- What scratch register 2 holds after the launch, by where the hart is. -/
def Hart.flag (r : BitVec 32) : Hart → BitVec 32
  | .reset | .test | .check | .clear => 2
  | .returned => exitWord (r.signExtend 64)
  | _ => 0

/-- What is live in the hart belongs to the entry point, or to the return value. -/
def Hart.Holds (entry : BitVec 64) (r : BitVec 32) (scratch : Nat → BitVec 32) : Hart → Prop
  | .serve => False
  | .fetch hi lo => (∀ v, hi = some v → v = bootHi entry) ∧ ∀ v, lo = some v → v = bootLo entry
  | .swLo a0 => a0 = entry
  | .swHi a0 => a0 = entry ∧ scratch 4 = bootLo entry
  | .loadHi => scratch 4 = bootLo entry ∧ scratch 5 = bootHi entry
  | .loadLo hi => scratch 4 = bootLo entry ∧ hi = bootHi entry
  | .jalr t => t = entry
  | .main pc => pc = entry &&& ~~~1
  | .exit a0 => a0 = r.signExtend 64
  | _ => True

structure Inv (entry : BitVec 64) (r : BitVec 32) (s : Sys) : Prop where
  quiet : s.uart = []
  waiting : s.vip.rank < 3 → s.hart.Waits ∧ s.scratch 2 = 0
  flag : 3 ≤ s.vip.rank → s.scratch 2 = s.hart.flag r
  hi : 1 ≤ s.vip.rank → s.hart.Unread → s.scratch 1 = bootHi entry
  lo : 2 ≤ s.vip.rank → s.hart.Unread → s.scratch 0 = bootLo entry
  holds : s.hart.Holds entry r s.scratch
  done : ∀ code, s.vip = .done code →
    s.hart = .returned ∧ code = exitWord (r.signExtend 64) >>> 1

variable {entry : BitVec 64} {r : BitVec 32} {s s' : Sys}

/-! ## Accesses -/

@[simp] theorem scratch_put_self (s : Sys) (i : Nat) (v : BitVec 32) : (s.put i v).scratch i = v :=
  loadWord_storeWord _ _ _

theorem scratch_put_ne (s : Sys) {i j : Nat} (v : BitVec 32) (h : j ≠ i) :
    (s.put i v).scratch j = s.scratch j := by
  refine loadWord_storeWord_ne _ _ ?_
  unfold scratchAddr
  omega

theorem slinkPut_eq (s : Sys) (i : Nat) (v : BitVec 32) (p : Vip) :
    s.slinkPut i v p = some { s.put i v with vip := p } := by
  have haligned : 4 ∣ scratchAddr i := by
    unfold scratchAddr amRegs
    omega
  obtain ⟨b, hb, happly⟩ := slinkWrite32_apply haligned v
  unfold Sys.slinkPut Sys.put
  rw [hb, Option.map_some, happly]

theorem poll_eq (s : Sys) : slinkPollData s.regs (scratchAddr 2) = s.scratch 2 :=
  slinkPollData_eq s.regs (by decide)

theorem entry_hi (entry : BitVec 64) : entry.extractLsb' 32 32 = bootHi entry := by
  unfold bootHi
  rw [BitVec.setWidth_ushiftRight_eq_extractLsb]

theorem entry_lo (entry : BitVec 64) :
    (entry.extractLsb' 0 33).setWidth 32 = bootLo entry := by
  unfold bootLo
  apply BitVec.eq_of_getLsbD_eq
  intro i hi
  have hi' : i < 33 := by omega
  simp only [BitVec.getLsbD_setWidth, BitVec.getLsbD_extractLsb', hi, hi', decide_true,
    Bool.true_and, Nat.zero_add]

/-- The two words that the testbench writes, put together as `boot_passive` does, give the entry
point back. -/
theorem halves_or (entry : BitVec 64) :
    (bootHi entry).setWidth 64 <<< 32 ||| (bootLo entry).setWidth 64 = entry := by
  have happend : bootHi entry ++ bootLo entry
      = (bootHi entry).setWidth 64 <<< 32 ||| (bootLo entry).setWidth 64 := by
    rw [← BitVec.setWidth_append_eq_shiftLeft_setWidth_or, BitVec.setWidth_eq]
  rw [← happend, bootHi_append_bootLo]

/-! ## The return value -/

theorem exitWord_bit (a0 : BitVec 64) : (exitWord a0).getLsbD 0 = true := by
  unfold exitWord
  simp

theorem flag_bit (r : BitVec 32) (h : Hart) : (h.flag r).getLsbD 0 = true ↔ h = .returned := by
  have htwo : ¬(2 : BitVec 32).getLsbD 0 = true := by decide
  have hzero : ¬(0 : BitVec 32).getLsbD 0 = true := by decide
  cases h with
  | returned => exact iff_of_true (exitWord_bit _) rfl
  | reset | test | check | clear => exact iff_of_false htwo nofun
  | _ => exact iff_of_false hzero nofun

/-- The poll gets the return value without its bit 31. -/
theorem exitCode_eq (r : BitVec 32) :
    exitWord (r.signExtend 64) >>> 1 = (r.setWidth 31).setWidth 32 := by
  apply BitVec.eq_of_getLsbD_eq
  intro i hi
  have hone : (1 : BitVec 64).getLsbD (1 + i) = false := by simp
  unfold exitWord
  simp only [BitVec.getLsbD_ushiftRight, BitVec.getLsbD_setWidth, BitVec.getLsbD_or, hone,
    BitVec.getLsbD_shiftLeft, BitVec.getLsbD_signExtend, hi, decide_true, Bool.true_and,
    Bool.or_false]
  have hsub : 1 + i - 1 = i := by omega
  have hlow : ¬1 + i < 1 := by omega
  have hword : 1 + i < 64 := by omega
  have hin : i < 64 := by omega
  have hbit : (1 + i < 32) = (i < 31) := by
    apply propext
    omega
  simp only [hsub, hlow, hword, hin, hbit, hi, decide_true, decide_false, Bool.not_false,
    Bool.true_and, if_true]

theorem exitCode_ne_zero_iff (r : BitVec 32) :
    (exitWord (r.signExtend 64) >>> 1 ≠ 0 ↔ r ≠ 0) ↔ r ≠ BitVec.intMin 32 := by
  have hmin : (BitVec.intMin 32).toNat = 2 ^ 31 := rfl
  have hzero : (r.setWidth 31).setWidth 32 = 0 ↔ r = 0 ∨ r = BitVec.intMin 32 := by
    have hlt := r.isLt
    have hnone : (0 : BitVec 32).toNat = 0 := rfl
    simp only [← BitVec.toNat_inj, BitVec.toNat_setWidth, hmin, hnone]
    omega
  rw [exitCode_eq, ne_eq, hzero]
  by_cases h0 : r = 0
  · subst h0
    exact iff_of_true (by decide) (by decide)
  · rw [not_or]
    exact ⟨fun h => (h.mpr h0).2, fun h => ⟨fun _ => h0, fun _ => ⟨h0, h⟩⟩⟩

/-! ## One step -/

theorem Hart.Waits.flag {q : Hart} (h : q.Waits) (r : BitVec 32) : q.flag r = 2 := by
  cases q with
  | reset | test | check => rfl
  | _ => exact h.elim

theorem Hart.Waits.unread {q : Hart} (h : q.Waits) : q.Unread := by
  cases q with
  | reset | test | check => exact trivial
  | _ => exact h.elim

theorem Hart.Waits.holds {q : Hart} (h : q.Waits) (scratch : Nat → BitVec 32) :
    q.Holds entry r scratch := by
  cases q with
  | reset | test | check => exact trivial
  | _ => exact h.elim

/-- The testbench writes a register and moves on to `p`, up to the launch. -/
theorem Inv.slinkPut (h : Inv entry r s) (hrank : s.vip.rank < 3) {i : Nat} {v : BitVec 32}
    {p : Vip} (hwaiting : p.rank < 3 → i ≠ 2) (hflag : 3 ≤ p.rank → (s.put i v).scratch 2 = 2)
    (hhi : 1 ≤ p.rank → (s.put i v).scratch 1 = bootHi entry)
    (hlo : 2 ≤ p.rank → (s.put i v).scratch 0 = bootLo entry) (hdone : ∀ code, p ≠ .done code) :
    Inv entry r { s.put i v with vip := p } := by
  obtain ⟨hwaits, hzero⟩ := h.waiting hrank
  refine ⟨h.quiet, fun hp => ⟨hwaits, ?_⟩, fun hp => ?_, fun hp _ => hhi hp, fun hp _ => hlo hp,
    hwaits.holds _, fun code hcode => absurd hcode (hdone code)⟩
  · exact (scratch_put_ne s v (hwaiting hp).symm).trans hzero
  · exact (hflag hp).trans (hwaits.flag r).symm

/-- A poll of the testbench changes no register, so the invariant needs only what the VIP itself has
seen. -/
theorem Inv.polled (h : Inv entry r s) (hrank : 3 ≤ s.vip.rank) {p : Vip} (hp : 3 ≤ p.rank)
    (hdone : ∀ code, p = .done code →
      s.hart = .returned ∧ code = exitWord (r.signExtend 64) >>> 1) :
    Inv entry r { s with vip := p } where
  quiet := h.quiet
  waiting := fun hlow => absurd hp (Nat.not_le.mpr hlow)
  flag := fun _ => h.flag hrank
  hi := fun _ => h.hi (by omega)
  lo := fun _ => h.lo (by omega)
  holds := h.holds
  done := hdone

/-- A hart that does not wait has seen the launch. -/
theorem Inv.launched (h : Inv entry r s) {q : Hart} (hhart : s.hart = q) (hwaits : ¬q.Waits) :
    3 ≤ s.vip.rank := by
  subst hhart
  exact Nat.le_of_not_lt fun hrank => hwaits (h.waiting hrank).1

/-- The hart moves from `q` to `q'` and writes nothing. -/
theorem Inv.goto (h : Inv entry r s) {q q' : Hart} (hhart : s.hart = q)
    (hwaits : s.vip.rank < 3 → q'.Waits) (hflag : q'.flag r = q.flag r)
    (hunread : q'.Unread → q.Unread) (hholds : q'.Holds entry r s.scratch) (hleft : q ≠ .returned) :
    Inv entry r { s with hart := q' } := by
  subst hhart
  exact {
    quiet := h.quiet
    waiting := fun hrank => ⟨hwaits hrank, (h.waiting hrank).2⟩
    flag := fun hrank => (h.flag hrank).trans hflag.symm
    hi := fun hrank hq => h.hi hrank (hunread hq)
    lo := fun hrank hq => h.lo hrank (hunread hq)
    holds := hholds
    done := fun code hcode => absurd (h.done code hcode).1 hleft }

/-- A hart that moves on once it has seen the launch, and writes no register, keeps the
invariant. -/
theorem Inv.goOn (h : Inv entry r s) {q q' : Hart} (hhart : s.hart = q) (hwaits : ¬q.Waits)
    (hflag : q'.flag r = q.flag r) (hunread : q'.Unread → q.Unread)
    (hholds : q'.Holds entry r s.scratch) (hleft : q ≠ .returned) :
    Inv entry r { s with hart := q' } :=
  h.goto hhart (fun hlow => absurd (h.launched hhart hwaits) (Nat.not_le.mpr hlow)) hflag hunread
    hholds hleft

/-- The hart writes a register and moves from `q` to `q'`. -/
theorem Inv.put (h : Inv entry r s) {q q' : Hart} (hhart : s.hart = q) (hwaits : ¬q.Waits)
    (hleft : q ≠ .returned) {i : Nat} {v : BitVec 32} (hflag : (s.put i v).scratch 2 = q'.flag r)
    (hhi : q'.Unread → (s.put i v).scratch 1 = bootHi entry)
    (hlo : q'.Unread → (s.put i v).scratch 0 = bootLo entry)
    (hholds : q'.Holds entry r (s.put i v).scratch) :
    Inv entry r { s.put i v with hart := q' } where
  quiet := h.quiet
  waiting := fun hlow => absurd (h.launched hhart hwaits) (Nat.not_le.mpr hlow)
  flag := fun _ => hflag
  hi := fun _ hq => hhi hq
  lo := fun _ hq => hlo hq
  holds := hholds
  done := fun code hcode => absurd (hhart.symm.trans (h.done code hcode).1) hleft

/-- A write behind the reads of the entry point that leaves the flag alone. -/
theorem Inv.putOther (h : Inv entry r s) {q q' : Hart} (hhart : s.hart = q) (hwaits : ¬q.Waits)
    (hleft : q ≠ .returned) {i : Nat} {v : BitVec 32} (hi : i ≠ 2) (hflag : q'.flag r = q.flag r)
    (hunread : ¬q'.Unread) (hholds : q'.Holds entry r (s.put i v).scratch) :
    Inv entry r { s.put i v with hart := q' } := by
  refine h.put hhart hwaits hleft ?_ (absurd · hunread) (absurd · hunread) hholds
  rw [scratch_put_ne s v (Ne.symm hi), h.flag (h.launched hhart hwaits), hhart, hflag]

theorem rank_eq {p : Vip} (h : s.vip = p) : s.vip.rank = p.rank := by
  rw [h]

theorem Inv.vipStep (h : Inv entry r s) (hstep : vipStep entry s = some s') : Inv entry r s' := by
  unfold Passive.vipStep at hstep
  cases hvip : s.vip with
  | writeHi =>
    have hr : s.vip.rank = 0 := rank_eq hvip
    rw [hvip] at hstep
    simp only [slinkPut_eq] at hstep
    cases hstep
    refine h.slinkPut (by omega) (fun _ => by decide) (fun hp => absurd hp (by decide)) ?_
      (fun hp => absurd hp (by decide)) nofun
    intro _
    rw [scratch_put_self, entry_hi]
  | writeLo =>
    have hr : s.vip.rank = 1 := rank_eq hvip
    have hwaits := (h.waiting (by omega)).1
    rw [hvip] at hstep
    simp only [slinkPut_eq] at hstep
    cases hstep
    refine h.slinkPut (by omega) (fun _ => by decide) (fun hp => absurd hp (by decide)) ?_ ?_ nofun
    · intro _
      rw [scratch_put_ne s _ (by omega)]
      exact h.hi (by omega) hwaits.unread
    · intro _
      rw [scratch_put_self, entry_lo]
  | launch =>
    have hr : s.vip.rank = 2 := rank_eq hvip
    have hwaits := (h.waiting (by omega)).1
    rw [hvip] at hstep
    simp only [slinkPut_eq] at hstep
    cases hstep
    refine h.slinkPut (by omega) (fun hp => absurd hp (by decide)) ?_ ?_ ?_ nofun
    · intro _
      rw [scratch_put_self]
    · intro _
      rw [scratch_put_ne s _ (by omega)]
      exact h.hi (by omega) hwaits.unread
    · intro _
      rw [scratch_put_ne s _ (by omega)]
      exact h.lo (by omega) hwaits.unread
  | poll =>
    have hr : s.vip.rank = 3 := rank_eq hvip
    have hflag := h.flag (by omega)
    rw [hvip] at hstep
    simp only [poll_eq] at hstep
    cases hstep
    by_cases hbit : (s.scratch 2).getLsbD 0
    · -- only `_exit` sets bit 0
      have hreturned := (flag_bit r s.hart).mp (hflag ▸ hbit)
      rw [if_pos hbit]
      refine h.polled (by omega) (show 3 ≤ 4 by omega) fun code hcode => ⟨hreturned, ?_⟩
      cases hcode
      rw [hflag, hreturned]
      rfl
    · rw [if_neg hbit]
      exact h.polled (by omega) (show 3 ≤ 3 by omega) nofun
  | done code =>
    rw [hvip] at hstep
    cases hstep

theorem Inv.hartStep (h : Inv entry r s) (hstep : hartStep entry r s = some s') :
    Inv entry r s' := by
  have hholds := h.holds
  unfold Passive.hartStep at hstep
  cases hhart : s.hart with
  | reset =>
    rw [hhart] at hstep
    cases hstep
    exact h.goto hhart (fun _ => trivial) rfl (fun _ => trivial) trivial nofun
  | test =>
    rw [hhart] at hstep
    cases hstep
    by_cases hbit : s.scratch 2 &&& 2 ≠ 0
    · -- the launch: the testbench has written everything
      have hrank : 3 ≤ s.vip.rank := by
        by_contra hlow
        rw [(h.waiting (by omega)).2] at hbit
        exact hbit (by decide)
      rw [if_pos hbit]
      exact h.goto hhart (fun hlow => absurd hrank (by omega)) rfl (fun _ => trivial) trivial nofun
    · rw [if_neg hbit]
      exact h.goto hhart (fun _ => trivial) rfl (fun _ => trivial) trivial nofun
  | check =>
    have hquiet := h.quiet
    rw [hhart] at hstep
    simp only at hstep
    split at hstep
    next =>
      cases hstep
      exact h.goto hhart (fun _ => trivial) rfl (fun _ => trivial) trivial nofun
    next b bs heq =>
      rw [hquiet] at heq
      cases heq
  | serve =>
    rw [hhart] at hstep
    cases hstep
  | clear =>
    have hrank := h.launched hhart id
    have hunread : s.hart.Unread := by
      rw [hhart]
      trivial
    rw [hhart] at hstep
    cases hstep
    refine h.put hhart id nofun (scratch_put_self s 2 0) (fun _ => ?_) (fun _ => ?_) ⟨nofun, nofun⟩
    · rw [scratch_put_ne s _ (by omega)]
      exact h.hi (by omega) hunread
    · rw [scratch_put_ne s _ (by omega)]
      exact h.lo (by omega) hunread
  | fetch hi lo =>
    rw [hhart] at hstep hholds
    cases hi with
    | none => cases hstep
    | some hi =>
      cases lo with
      | none => cases hstep
      | some lo =>
        cases hstep
        refine h.goOn hhart id rfl nofun ?_ nofun
        show hi.setWidth 64 <<< 32 ||| lo.setWidth 64 = entry
        rw [hholds.1 hi rfl, hholds.2 lo rfl, halves_or]
  | swLo a0 =>
    rw [hhart] at hstep hholds
    cases hstep
    refine h.putOther hhart id nofun (by omega) rfl id ⟨hholds, ?_⟩
    rw [scratch_put_self, hholds]
  | swHi a0 =>
    rw [hhart] at hstep hholds
    cases hstep
    refine h.putOther hhart id nofun (by omega) rfl id ⟨?_, ?_⟩
    · rw [scratch_put_ne s _ (by omega)]
      exact hholds.2
    · rw [scratch_put_self, hholds.1]
  | loadHi =>
    rw [hhart] at hstep hholds
    cases hstep
    exact h.goOn hhart id rfl nofun hholds nofun
  | loadLo hi =>
    rw [hhart] at hstep hholds
    cases hstep
    refine h.goOn hhart id rfl nofun ?_ nofun
    show hi ++ s.scratch 4 = entry
    rw [hholds.1, hholds.2, bootHi_append_bootLo]
  | jalr t =>
    rw [hhart] at hstep hholds
    cases hstep
    refine h.goOn hhart id rfl nofun ?_ nofun
    show t &&& ~~~1 = entry &&& ~~~1
    rw [hholds]
  | main pc =>
    rw [hhart] at hstep hholds
    have hpc : pc = entry &&& ~~~1 := hholds
    simp only [if_pos hpc] at hstep
    cases hstep
    exact h.goOn hhart id rfl nofun rfl nofun
  | exit a0 =>
    rw [hhart] at hstep hholds
    cases hstep
    refine h.put hhart id nofun ?_ nofun nofun trivial
    rw [scratch_put_self, hholds]
    rfl
  | returned =>
    rw [hhart] at hstep
    cases hstep

theorem reset_inv : Inv entry r reset where
  quiet := rfl
  waiting := fun _ => ⟨trivial, rfl⟩
  flag := fun hrank => absurd hrank (by decide)
  hi := fun hrank => absurd hrank (by decide)
  lo := fun hrank => absurd hrank (by decide)
  holds := trivial
  done := nofun

theorem Inv.step {a : Act} (h : Inv entry r s) (hstep : step entry r s a = some s') :
    Inv entry r s' := by
  have hholds := h.holds
  unfold Passive.step at hstep
  cases a with
  | vip => exact h.vipStep hstep
  | hart => exact h.hartStep hstep
  | fetchHi =>
    simp only at hstep
    split at hstep
    next lo hhart =>
      have hrank := h.launched hhart id
      have hscratch := h.hi (by omega) (by rw [hhart]; trivial)
      rw [hhart] at hholds
      cases hstep
      refine h.goOn hhart id rfl (fun _ => trivial) ⟨?_, hholds.2⟩ nofun
      intro v hv
      rw [← Option.some.inj hv, hscratch]
    next => cases hstep
  | fetchLo =>
    simp only at hstep
    split at hstep
    next hi hhart =>
      have hrank := h.launched hhart id
      have hscratch := h.lo (by omega) (by rw [hhart]; trivial)
      rw [hhart] at hholds
      cases hstep
      refine h.goOn hhart id rfl (fun _ => trivial) ⟨hholds.1, ?_⟩ nofun
      intro v hv
      rw [← Option.some.inj hv, hscratch]
    next => cases hstep
  | store i v =>
    simp only at hstep
    split at hstep
    next pc hhart =>
      rw [hhart] at hholds
      split at hstep
      next hi =>
        cases hstep
        have hsame : s.put i v = { s.put i v with hart := .main pc } := by
          rw [← hhart]
          rfl
        rw [hsame]
        exact h.putOther hhart id nofun hi rfl id hholds
      next => cases hstep
    next => cases hstep

/-- The invariant holds in every state that any interleaving of the two sides reaches from reset. -/
theorem run_inv {acts : List Act} (hrun : run (step entry r) reset acts = some s) :
    Inv entry r s :=
  @run_invariant _ _ _ _ (fun _ => True) (fun _ _ _ _ h hstep => h.step hstep) acts _ _ reset_inv
    (fun _ _ => trivial) hrun

/-! ## The handshake comes to an end -/

/-- The accesses of the hart up to the end of `_exit`, once the testbench has launched. -/
def Hart.left : Hart → Nat
  | .reset | .check => 13
  | .test => 12
  | .clear => 11
  | .fetch none none => 10
  | .fetch none (some _) | .fetch (some _) none => 9
  | .fetch (some _) (some _) => 8
  | .swLo _ => 7
  | .swHi _ => 6
  | .loadHi => 5
  | .loadLo _ => 4
  | .jalr _ => 3
  | .main _ => 2
  | .exit _ => 1
  | .serve | .returned => 0

theorem Inv.advance (h : Inv entry r s) (hrank : 3 ≤ s.vip.rank) (hleft : s.hart ≠ .returned) :
    ∃ a s₁, Passive.step entry r s a = some s₁ ∧ s₁.vip = s.vip ∧ s₁.hart.left < s.hart.left := by
  have hholds := h.holds
  cases hhart : s.hart with
  | reset =>
    refine ⟨.hart, { s with hart := .test }, ?_, rfl, show 12 < 13 by omega⟩
    simp only [Passive.step, Passive.hartStep, hhart]
  | test =>
    have hbit : s.scratch 2 &&& 2 ≠ 0 := by
      rw [h.flag hrank, hhart]
      show (2 : BitVec 32) &&& 2 ≠ 0
      decide
    refine ⟨.hart, { s with hart := .clear }, ?_, rfl, show 11 < 12 by omega⟩
    simp only [Passive.step, Passive.hartStep, hhart, if_pos hbit]
  | check =>
    refine ⟨.hart, { s with hart := .test }, ?_, rfl, show 12 < 13 by omega⟩
    simp only [Passive.step, Passive.hartStep, hhart]
    split
    next => rfl
    next b bs heq => exact absurd (h.quiet.symm.trans heq) nofun
  | serve =>
    rw [hhart] at hholds
    exact hholds.elim
  | clear =>
    refine ⟨.hart, { s.put 2 0 with hart := .fetch none none }, ?_, rfl, show 10 < 11 by omega⟩
    simp only [Passive.step, Passive.hartStep, hhart]
  | fetch hi lo =>
    cases hi with
    | none =>
      refine ⟨.fetchHi, { s with hart := .fetch (some (s.scratch 1)) lo }, ?_, rfl, ?_⟩
      · simp only [Passive.step, hhart]
      · cases lo with
        | none => exact show 9 < 10 by omega
        | some lo => exact show 8 < 9 by omega
    | some hi =>
      cases lo with
      | none =>
        refine ⟨.fetchLo, { s with hart := .fetch (some hi) (some (s.scratch 0)) }, ?_, rfl,
          show 8 < 9 by omega⟩
        simp only [Passive.step, hhart]
      | some lo =>
        refine ⟨.hart, { s with hart := .swLo (hi.setWidth 64 <<< 32 ||| lo.setWidth 64) }, ?_, rfl,
          show 7 < 8 by omega⟩
        simp only [Passive.step, Passive.hartStep, hhart]
  | swLo a0 =>
    refine ⟨.hart, { s.put 4 (bootLo a0) with hart := .swHi a0 }, ?_, rfl, show 6 < 7 by omega⟩
    simp only [Passive.step, Passive.hartStep, hhart]
  | swHi a0 =>
    refine ⟨.hart, { s.put 5 (bootHi a0) with hart := .loadHi }, ?_, rfl, show 5 < 6 by omega⟩
    simp only [Passive.step, Passive.hartStep, hhart]
  | loadHi =>
    refine ⟨.hart, { s with hart := .loadLo (s.scratch 5) }, ?_, rfl, show 4 < 5 by omega⟩
    simp only [Passive.step, Passive.hartStep, hhart]
  | loadLo hi =>
    refine ⟨.hart, { s with hart := .jalr (hi ++ s.scratch 4) }, ?_, rfl, show 3 < 4 by omega⟩
    simp only [Passive.step, Passive.hartStep, hhart]
  | jalr t =>
    refine ⟨.hart, { s with hart := .main (t &&& ~~~1) }, ?_, rfl, show 2 < 3 by omega⟩
    simp only [Passive.step, Passive.hartStep, hhart]
  | main pc =>
    rw [hhart] at hholds
    have hpc : pc = entry &&& ~~~1 := hholds
    refine ⟨.hart, { s with hart := .exit (r.signExtend 64) }, ?_, rfl, show 1 < 2 by omega⟩
    simp only [Passive.step, Passive.hartStep, hhart, if_pos hpc]
  | exit a0 =>
    refine ⟨.hart, { s.put 2 (exitWord a0) with hart := .returned }, ?_, rfl, show 0 < 1 by omega⟩
    simp only [Passive.step, Passive.hartStep, hhart]
  | returned => exact absurd hhart hleft

/-- After the launch `_exit` is always within reach. -/
theorem Inv.returns : ∀ n, Inv entry r s → 3 ≤ s.vip.rank → s.hart.left ≤ n →
    ∃ s₁, Leads (Passive.step entry r) s s₁ ∧ s₁.hart = .returned ∧ s₁.vip = s.vip := by
  intro n
  induction n generalizing s with
  | zero =>
    intro h hrank hn
    by_cases hleft : s.hart = .returned
    · exact ⟨s, Leads.refl _ s, hleft, rfl⟩
    · obtain ⟨_, _, _, _, hlt⟩ := h.advance hrank hleft
      omega
  | succ n ih =>
    intro h hrank hn
    by_cases hleft : s.hart = .returned
    · exact ⟨s, Leads.refl _ s, hleft, rfl⟩
    · obtain ⟨a, s₁, hstep, hvip, hlt⟩ := h.advance hrank hleft
      obtain ⟨s₂, hleads, hreturned, hvip₂⟩ := ih (h.step hstep) (hvip ▸ hrank) (by omega)
      exact ⟨s₂, hleads.head hstep, hreturned, hvip₂.trans hvip⟩

/-- From reset the three writes of the testbench can be made, and after them it polls. -/
theorem reset_launched (entry : BitVec 64) (r : BitVec 32) :
    ∃ s, Leads (step entry r) reset s ∧ s.vip = .poll := by
  have hhi : step entry r reset .vip = _ := slinkPut_eq reset 1 (entry.extractLsb' 32 32) .writeLo
  have hlo : ∀ s, s.vip = .writeLo → step entry r s .vip
      = some { s.put 0 ((entry.extractLsb' 0 33).setWidth 32) with vip := .launch } := by
    intro s hvip
    simp only [step, vipStep, hvip, slinkPut_eq]
  have hlaunch : ∀ s, s.vip = .launch →
      step entry r s .vip = some { s.put 2 2 with vip := .poll } := by
    intro s hvip
    simp only [step, vipStep, hvip, slinkPut_eq]
  exact ⟨_, ((Leads.refl _ _).head (hlaunch _ rfl)).head (hlo _ rfl) |>.head hhi, rfl⟩

/-- From reset some interleaving leads to a state in which the testbench has its exit code. -/
theorem reset_done (entry : BitVec 64) (r : BitVec 32) :
    ∃ s code, Leads (step entry r) reset s ∧ s.vip = .done code := by
  obtain ⟨s₁, hlaunch, hvip₁⟩ := reset_launched entry r
  obtain ⟨acts, hacts⟩ := hlaunch
  have hrank : 3 ≤ s₁.vip.rank := Nat.le_of_eq (rank_eq hvip₁).symm
  obtain ⟨s₂, hreturns, hreturned, hvip₂⟩ := (run_inv hacts).returns _ hrank (Nat.le_refl _)
  obtain ⟨acts₂, hacts₂⟩ := (Leads.trans ⟨acts, hacts⟩ hreturns)
  -- the last poll
  have hflag := (run_inv hacts₂).flag (hvip₂ ▸ hrank)
  have hbit : (s₂.scratch 2).getLsbD 0 := by
    rw [hflag]
    exact (flag_bit r s₂.hart).mpr hreturned
  have hpoll : step entry r s₂ .vip = some { s₂ with vip := .done (s₂.scratch 2 >>> 1) } := by
    simp only [step, vipStep, hvip₂, hvip₁, poll_eq, if_pos hbit]
  exact ⟨_, _, Leads.trans ⟨acts₂, hacts₂⟩ ((Leads.refl _ _).head hpoll), rfl⟩

/-- Every run is in order, but for the one return value the shift makes 0. -/
theorem passive_sound_iff (entry : BitVec 64) (r : BitVec 32) :
    Sound entry r ↔ r ≠ BitVec.intMin 32 := by
  rw [← exitCode_ne_zero_iff]
  constructor
  · intro h
    obtain ⟨s, code, ⟨acts, hrun⟩, hdone⟩ := reset_done entry r
    rw [← ((run_inv hrun).done code hdone).2]
    exact ((h acts s hrun).2 code hdone).2
  · intro hcode acts s hrun
    have hinv := run_inv hrun
    have hholds := hinv.holds
    refine ⟨⟨fun t ht => ?_, fun pc hpc => ?_⟩, fun code hdone => ?_⟩
    · rw [ht] at hholds
      exact hholds
    · rw [hpc] at hholds
      exact hholds
    · obtain ⟨hreturned, heq⟩ := hinv.done code hdone
      exact ⟨hreturned, heq ▸ hcode⟩

/-- A `main` that returns the smallest `int` is reported as success. -/
theorem passive_unsound_intMin : ¬Sound 0x8000_0000 (BitVec.intMin 32) := by
  intro h
  obtain ⟨s, code, ⟨acts, hrun⟩, hdone⟩ := reset_done 0x8000_0000 (BitVec.intMin 32)
  have hcode := ((h acts s hrun).2 code hdone).2
  rw [((run_inv hrun).done code hdone).2] at hcode
  exact absurd hcode (by decide)

end Cheshire.Boot.Passive
