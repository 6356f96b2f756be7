import Mathlib.Order.Monotone.Basic
import Cheshire.Lib.Halves
import Cheshire.Lib.Prog

/-!
# `clint.c`: reading the timer

The timer and the cycle counter advance while the driver runs. A `Clock` says in which
core cycle each access of the driver takes place, and what the timer shows in each cycle;
it may be any schedule and any timer that does not go backwards. Everything else behind the
accesses, the compare registers and the interrupt enables, follows from the accesses made
before.

`clint_get_mtime` reads the high word and then the low word. It never returns too much, and
too little if there is a carry in between (`ReadWhole`). A target that
`clint_spin_ticks` computes from such a value is too early.
-/

namespace Cheshire.Sw

open Firmware Firmware.Prog Halves

/-! ## The hardware -/

/-- An access of the driver. Offsets are from `__base_clint`. -/
inductive ClintCall where
  | load (offs : BitVec 32)
  | store (offs v : BitVec 32)
  /-- `csrr mcycle`. -/
  | mcycle
  | fence
  | setMtie (on : Bool)
  | setMie (on : Bool)
  /-- The core looks whether an interrupt ends `wfi`. -/
  | wfi
  deriving DecidableEq, Repr

abbrev ClintTrace := Trace ClintCall

abbrev ClintSt := St ClintCall Unit

abbrev ClintProg := Prog ClintCall Unit

def mtimecmpLow0 : BitVec 32 := 0x4000

def mtimecmpHigh0 : BitVec 32 := 0x4004

def mtimeLow : BitVec 32 := 0xBFF8

def mtimeHigh : BitVec 32 := 0xBFFC

/-- The registers that only stores and control instructions change. -/
structure Clint where
  words : BitVec 32 → BitVec 32
  mtie : Bool
  mie : Bool

def Clint.next (d : Clint) : ClintCall → Clint
  | .store offs v => { d with words := fun o => if o = offs then v else d.words o }
  | .setMtie on => { d with mtie := on }
  | .setMie on => { d with mie := on }
  | _ => d

/-- The registers behind the accesses of a trace. -/
def Clint.after (d : Clint) (t : ClintTrace) : Clint := t.foldr (fun c d => d.next c.1) d

/-- `CLINT_MTIMECMP_HIGH0_REG_OFFSET + (timer_idx << 3)`, passed as an `int`. -/
def mtimecmpHighOffs (timerIdx : BitVec 64) : BitVec 32 :=
  mtimecmpHigh0 + (timerIdx <<< 3).setWidth 32

def mtimecmpLowOffs (timerIdx : BitVec 64) : BitVec 32 :=
  mtimecmpLow0 + (timerIdx <<< 3).setWidth 32

/-- The two halves of a compare register as currently written. -/
def Clint.mtimecmp (d : Clint) (timerIdx : BitVec 64) : BitVec 64 :=
  join (d.words (mtimecmpHighOffs timerIdx)) (d.words (mtimecmpLowOffs timerIdx))

/-- When the accesses take place, and what the timer shows. -/
structure Clock where
  /-- The core cycle of the `k`-th access. -/
  cycle : Nat → Nat
  /-- The timer in each core cycle. -/
  mtime : Nat → Nat
  cycle_mono : Monotone cycle
  mtime_mono : Monotone mtime

/-- The value of the timer at the `k`-th access. -/
def Clock.now (c : Clock) (k : Nat) : Nat := c.mtime (c.cycle k)

theorem Clock.now_mono (c : Clock) : Monotone c.now := fun _ _ h => c.mtime_mono (c.cycle_mono h)

def bytes32 (v : BitVec 32) : Nat → Byte := fun j => v.extractLsb' (8 * j) 8

def bytes64 (v : BitVec 64) : Nat → Byte := fun j => v.extractLsb' (8 * j) 8

/-- The answer to the `k`-th access; `timerIdx` is the timer of this hart. A core in `wfi`
goes on when the timer interrupt is enabled and pending. -/
def Clock.answer (c : Clock) (timerIdx : BitVec 64) (d : Clint) (k : Nat) : ClintCall → Reply
  | .load offs => ⟨0, bytes32 (
      if offs = mtimeLow then wordLo (c.now k)
      else if offs = mtimeHigh then wordHi (c.now k)
      else d.words offs)⟩
  | .mcycle => ⟨0, bytes64 (BitVec.ofNat 64 (c.cycle k))⟩
  | .wfi =>
    ⟨if d.mtie ∧ d.mtimecmp timerIdx ≤ BitVec.ofNat 64 (c.now k) then 1 else 0, fun _ => 0⟩
  | _ => ⟨0, fun _ => 0⟩

def Clock.env (c : Clock) (timerIdx : BitVec 64) (d : Clint) : Env ClintCall := fun t q =>
  c.answer timerIdx (d.after t) t.length q

/-! ## The driver -/

/-- `clint_get_mtime`; the operands of `|` from left to right. -/
def clintGetMtime : ClintProg (BitVec 64) := do
  let hi ← ask (.load mtimeHigh)
  let lo ← ask (.load mtimeLow)
  pure (join (le32 hi.out 0) (le32 lo.out 0))

/-- `clint_spin_until`, for at most `fuel` reads of the timer. -/
def clintSpinUntil (tgtMtime : BitVec 64) : (fuel : Nat) → ClintProg Unit
  | 0 => stop .spin
  | fuel + 1 => do
    let mtime ← clintGetMtime
    if mtime < tgtMtime then clintSpinUntil tgtMtime fuel else pure ()

/-- `clint_spin_ticks`: a spin until the timer's value now and `ticks` more. -/
def clintSpinTicks (ticks : BitVec 64) (fuel : Nat) : ClintProg Unit := do
  let mtime ← clintGetMtime
  clintSpinUntil (mtime + ticks) fuel

/-! ## One read -/

variable {c : Clock} {timerIdx : BitVec 64} {d : Clint} {s : ClintSt}

/-- From `s` to `s'` there were `n` accesses, and the registers are as before. -/
structure Passed (d : Clint) (n : Nat) (s s' : ClintSt) : Prop where
  length : s'.calls.length = s.calls.length + n
  after : d.after s'.calls = d.after s.calls

theorem wp_access {α : Type} {q : ClintCall} {f : Reply → ClintProg α}
    {R : α → ClintSt → Prop} {E : Stop → ClintSt → Prop}
    (h : ∀ s', s'.calls.length = s.calls.length + 1 →
      d.after s'.calls = (d.after s.calls).next q →
      wp (c.env timerIdx d) (f (c.answer timerIdx (d.after s.calls) s.calls.length q)) R E s') :
    wp (c.env timerIdx d) (ask q >>= f) R E s := by
  rw [wp_bind, wp_ask]
  exact h _ rfl rfl

/-- What `clint_get_mtime` returns if its first access is the `k`-th. -/
def Clock.read (c : Clock) (k : Nat) : BitVec 64 :=
  join (wordHi (c.now k)) (wordLo (c.now (k + 1)))

theorem wp_getMtime {R : BitVec 64 → ClintSt → Prop} {E : Stop → ClintSt → Prop}
    (h : ∀ s', Passed d 2 s s' → R (c.read s.calls.length) s') :
    wp (c.env timerIdx d) clintGetMtime R E s := by
  unfold clintGetMtime
  refine wp_access fun s₁ hlen₁ hafter₁ => wp_access fun s₂ hlen₂ hafter₂ => ?_
  have hhi : le32 (c.answer timerIdx (d.after s.calls) s.calls.length (.load mtimeHigh)).out 0 =
      wordHi (c.now s.calls.length) := le32_bytes _
  have hlo : le32 (c.answer timerIdx (d.after s₁.calls) s₁.calls.length (.load mtimeLow)).out 0 =
      wordLo (c.now s₁.calls.length) := le32_bytes _
  rw [wp_pure, hhi, hlo, hlen₁]
  exact h s₂ ⟨by rw [hlen₂, hlen₁], hafter₂.trans hafter₁⟩

theorem Clock.read_eq (c : Clock) (k : Nat) :
    c.read k = BitVec.ofNat 64 (torn (2 ^ 32) (c.now k) (c.now (k + 1))) := join_words _ _

theorem Clock.toNat_read {k : Nat} (hlt : c.now k < 2 ^ 64) :
    (c.read k).toNat = torn (2 ^ 32) (c.now k) (c.now (k + 1)) := toNat_join_words hlt

/-- A read does not come out too large. -/
theorem Clock.read_le (c : Clock) (k : Nat) : (c.read k).toNat ≤ c.now (k + 1) := by
  have htorn : torn (2 ^ 32) (c.now k) (c.now (k + 1)) ≤ c.now (k + 1) :=
    torn_le (c.now_mono (Nat.le_succ k))
  rw [read_eq, BitVec.toNat_ofNat]
  exact Nat.le_trans (Nat.mod_le _ _) htorn

/-! ## Reads and waits -/

/-- The value of the timer at the last access made. -/
def Clock.last (c : Clock) (s : ClintSt) : Nat := c.now (s.calls.length - 1)

theorem Passed.last {n : Nat} {s s' : ClintSt} (h : Passed d (n + 1) s s') :
    c.last s' = c.now (s.calls.length + n) := by
  unfold Clock.last
  rw [h.length]
  rfl

theorem clintSpinUntil_spec (tgtMtime : BitVec 64) : ∀ (fuel : Nat) (s : ClintSt),
    wp (c.env timerIdx d) (clintSpinUntil tgtMtime fuel)
      (fun _ s' => tgtMtime.toNat ≤ c.last s') (fun _ _ => True) s := by
  intro fuel
  induction fuel with
  | zero =>
    intro s
    exact trivial
  | succ fuel ih =>
    intro s
    unfold clintSpinUntil
    rw [wp_bind]
    refine wp_getMtime fun s₁ h₁ => ?_
    rw [wp_ite]
    by_cases hlt : c.read s.calls.length < tgtMtime
    · rw [if_pos hlt]
      exact ih s₁
    · rw [if_neg hlt, wp_pure, h₁.last]
      exact Nat.le_trans (BitVec.not_lt.mp hlt) (c.read_le s.calls.length)

/-- What callers take for granted when they enter at `t₀`: the value read is one that the
timer has during the call, and a wait for `ticks` lasts that long. -/
structure MtimeConsistent (c : Clock) (timerIdx : BitVec 64) (d : Clint) (s : ClintSt)
    (t₀ : Nat) : Prop where
  between : ∀ mtime s' t₃, clintGetMtime (c.env timerIdx d) s = (.ok mtime, s') →
    c.last s' ≤ t₃ → t₀ ≤ mtime.toNat ∧ mtime.toNat ≤ t₃
  spin : ∀ ticks fuel s', c.now (s.calls.length + 1) + ticks.toNat < 2 ^ 64 →
    clintSpinTicks ticks fuel (c.env timerIdx d) s = (.ok (), s') →
    t₀ + ticks.toNat ≤ c.last s'

/-- A read from the `k`-th access on, entered at `t₀`: no carry between its two accesses, or
there was one before them, or the low word has come past its value at `t₀` again. -/
def ReadWhole (c : Clock) (t₀ k : Nat) : Prop :=
  c.now k / 2 ^ 32 = c.now (k + 1) / 2 ^ 32 ∨ t₀ / 2 ^ 32 < c.now k / 2 ^ 32 ∨
    t₀ % 2 ^ 32 ≤ c.now (k + 1) % 2 ^ 32

instance (c : Clock) (t₀ k : Nat) : Decidable (ReadWhole c t₀ k) :=
  inferInstanceAs (Decidable (_ ∨ _))

theorem readWhole_iff {k t₀ : Nat} (hlt : c.now k < 2 ^ 64) (hentry : t₀ ≤ c.now k) :
    ReadWhole c t₀ k ↔ t₀ ≤ (c.read k).toNat := by
  rw [Clock.toNat_read hlt,
    le_torn_counter_iff (Nat.two_pow_pos 32) hentry (c.now_mono (Nat.le_succ k))]
  exact Iff.rfl

theorem clintGetMtime_run (c : Clock) (timerIdx : BitVec 64) (d : Clint) (s : ClintSt) :
    ∃ s', clintGetMtime (c.env timerIdx d) s = (.ok (c.read s.calls.length), s') ∧
      Passed d 2 s s' := by
  have hspec : wp (c.env timerIdx d) clintGetMtime
      (fun mtime s' => mtime = c.read s.calls.length ∧ Passed d 2 s s') (fun _ _ => False) s :=
    wp_getMtime fun s' h' => ⟨rfl, h'⟩
  obtain ⟨mtime, s', hrun, rfl, h'⟩ := wp_total hspec
  exact ⟨s', hrun, h'⟩

/-- A wait counts from what was read. -/
theorem clintSpinTicks_spec {ticks : BitVec 64} (fuel : Nat)
    (hsum : (c.read s.calls.length).toNat + ticks.toNat < 2 ^ 64) :
    wp (c.env timerIdx d) (clintSpinTicks ticks fuel)
      (fun _ s' => (c.read s.calls.length).toNat + ticks.toNat ≤ c.last s')
      (fun _ _ => True) s := by
  unfold clintSpinTicks
  rw [wp_bind]
  refine wp_getMtime fun s₁ _ => ?_
  have hspin := @clintSpinUntil_spec c timerIdx d (c.read s.calls.length + ticks) fuel s₁
  rwa [BitVec.toNat_add, Nat.mod_eq_of_lt hsum] at hspin

/-- A read is consistent, and a wait from it long enough, exactly if it is whole. -/
theorem clintGetMtime_consistent_iff (c : Clock) (timerIdx : BitVec 64) (d : Clint)
    {s : ClintSt} (hlt : c.now s.calls.length < 2 ^ 64) {t₀ : Nat}
    (hentry : t₀ ≤ c.now s.calls.length) :
    MtimeConsistent c timerIdx d s t₀ ↔ ReadWhole c t₀ s.calls.length := by
  obtain ⟨s₁, hrun, h₁⟩ := clintGetMtime_run c timerIdx d s
  rw [readWhole_iff hlt hentry]
  constructor
  · intro h
    exact (h.between _ _ _ hrun (Nat.le_refl _)).1
  · intro hread
    constructor
    · intro mtime s' t₃ hrun' hexit
      rw [hrun] at hrun'
      cases hrun'
      rw [h₁.last] at hexit
      exact ⟨hread, Nat.le_trans (c.read_le _) hexit⟩
    · intro ticks fuel s' hsum hrun'
      have hle := c.read_le s.calls.length
      have hspec : wp (c.env timerIdx d) (clintSpinTicks ticks fuel) _ _ s :=
        clintSpinTicks_spec fuel (by omega)
      have hlast := wp_ok hspec hrun'
      omega

/-- A clock with one access in each cycle and a tick in each, from `t` on. -/
def tickClock (t : Nat) : Clock :=
  ⟨id, fun j => t + j, monotone_id, fun _ _ h => Nat.add_le_add_left h t⟩

def clintReset : Clint := ⟨fun _ => 0, false, false⟩

def clintStart : ClintSt := ⟨[], ()⟩

/-- A carry three ticks after the call. -/
theorem clintGetMtime_consistent_whole :
    MtimeConsistent (tickClock 0xFFFFFFFC) 0 clintReset clintStart 0xFFFFFFFB :=
  (clintGetMtime_consistent_iff (tickClock 0xFFFFFFFC) 0 clintReset (by decide) (by decide)).mpr
    (by decide)

/-- The high word is read in the last tick before the carry: the value is 0, and a wait for a
thousand ticks is over after three. -/
theorem clintGetMtime_torn :
    (clintGetMtime ((tickClock 0xFFFFFFFF).env 0 clintReset) clintStart).1 = .ok 0 ∧
      (clintSpinTicks 1000 1 ((tickClock 0xFFFFFFFF).env 0 clintReset) clintStart).1 = .ok () ∧
      (tickClock 0xFFFFFFFF).last
        (clintSpinTicks 1000 1 ((tickClock 0xFFFFFFFF).env 0 clintReset) clintStart).2 =
          0xFFFFFFFF + 3 ∧
      ¬MtimeConsistent (tickClock 0xFFFFFFFF) 0 clintReset clintStart 0xFFFFFFFF := by
  have hread : (clintGetMtime ((tickClock 0xFFFFFFFF).env 0 clintReset) clintStart).1 = .ok 0 := by
    decide +kernel
  refine ⟨hread, by decide +kernel, by decide +kernel, fun h => ?_⟩
  have hle := (h.between 0 _ _ (run_eq hread) (Nat.le_refl _)).1
  exact absurd hle (by decide)

end Cheshire.Sw
