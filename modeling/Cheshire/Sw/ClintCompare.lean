import Cheshire.Sw.Clint

/-!
# `clint.c`: the compare register and sleeping

`clint_set_mtimecmpx` writes the high word first. Until the low word follows, the register
holds the new high word and the old low word, and the timer may have reached this mixture
although it has reached neither value (`clintSetMtimecmpx_quiet_iff`).

`clint_sleep_until` returns at once if its target is still ahead, and waits for a target
that is behind. So it returns behind its target exactly if the target was reached by the
time of the test (`clintSleepUntil_sound_iff`).
-/

namespace Cheshire.Sw

open Firmware Firmware.Prog Halves

/-! ## The driver -/

/-- `clint_set_mtimecmpx`, which stores the high word in front of the low one. -/
def clintSetMtimecmpx (timerIdx value : BitVec 64) : ClintProg Unit := do
  let vlo := value.setWidth 32
  let vhi := (value >>> 32).setWidth 32
  let _ ← ask (.store (mtimecmpHighOffs timerIdx) vhi)
  let _ ← ask (.store (mtimecmpLowOffs timerIdx) vlo)
  pure ()

/-- `wfi`, where the core looks at most `fuel` times for a pending interrupt. -/
def wfi : (fuel : Nat) → ClintProg Unit
  | 0 => stop .spin
  | fuel + 1 => do
    let r ← ask .wfi
    if r.ret = 0 then wfi fuel else pure ()

/-- `clint_sleep_until`, with the test for an early exit as it stands. -/
def clintSleepUntil (timerIdx tgtMtime : BitVec 64) (fuel : Nat) : ClintProg Unit := do
  let mtime ← clintGetMtime
  if mtime < tgtMtime then pure ()
  else do
    clintSetMtimecmpx timerIdx tgtMtime
    let _ ← ask .fence
    let _ ← ask (.setMtie true)
    let _ ← ask (.setMie true)
    wfi fuel

/-- `clint_sleep_ticks`: a sleep until the timer's value now and `ticks` more. -/
def clintSleepTicks (timerIdx ticks : BitVec 64) (fuel : Nat) : ClintProg Unit := do
  let mtime ← clintGetMtime
  clintSleepUntil timerIdx (mtime + ticks) fuel

/-! ## Writing the compare register -/

variable {c : Clock} {timerIdx : BitVec 64} {d : Clint} {s : ClintSt}

theorem mtimecmpOffs_ne (timerIdx : BitVec 64) :
    mtimecmpLowOffs timerIdx ≠ mtimecmpHighOffs timerIdx := by
  intro heq
  unfold mtimecmpLowOffs mtimecmpHighOffs at heq
  exact absurd ((BitVec.add_left_inj _).mp heq) (by decide)

theorem mtimecmp_storeHigh (d : Clint) (timerIdx : BitVec 64) (v : BitVec 32) :
    (d.next (.store (mtimecmpHighOffs timerIdx) v)).mtimecmp timerIdx =
      join v (d.words (mtimecmpLowOffs timerIdx)) := by
  unfold Clint.mtimecmp Clint.next
  dsimp only
  rw [if_pos rfl, if_neg (mtimecmpOffs_ne timerIdx)]

theorem mtimecmp_storeLow (d : Clint) (timerIdx : BitVec 64) (v : BitVec 32) :
    (d.next (.store (mtimecmpLowOffs timerIdx) v)).mtimecmp timerIdx =
      join (d.words (mtimecmpHighOffs timerIdx)) v := by
  unfold Clint.mtimecmp Clint.next
  dsimp only
  rw [if_pos rfl, if_neg (mtimecmpOffs_ne timerIdx).symm]

/-- Both stores, and what the register holds behind each. -/
theorem mtimecmp_between (d : Clint) (timerIdx value : BitVec 64) :
    ((d.next (.store (mtimecmpHighOffs timerIdx) ((value >>> 32).setWidth 32))).mtimecmp
      timerIdx).toNat = torn (2 ^ 32) value.toNat (d.mtimecmp timerIdx).toNat := by
  have hlo := (d.words (mtimecmpLowOffs timerIdx)).isLt
  rw [mtimecmp_storeHigh, toNat_join, hi_eq_wordHi]
  unfold Clint.mtimecmp torn wordHi
  rw [toNat_join, BitVec.toNat_ofNat]
  omega

theorem mtimecmp_written (d : Clint) (timerIdx value : BitVec 64) :
    ((d.next (.store (mtimecmpHighOffs timerIdx) ((value >>> 32).setWidth 32))).next
      (.store (mtimecmpLowOffs timerIdx) (value.setWidth 32))).mtimecmp timerIdx = value := by
  rw [mtimecmp_storeLow]
  unfold Clint.next
  dsimp only
  rw [if_pos rfl, join_halves]

/-! ## No spurious interrupt -/

/-- In cycle `j` of a call from `s` to `s'`, the accesses below `k` have been made and no
others. -/
structure MadeAt (c : Clock) (s s' : ClintSt) (k j : Nat) : Prop where
  ge : s.calls.length ≤ k
  le : k ≤ s'.calls.length
  past : ∀ i, s.calls.length ≤ i → i < k → c.cycle i ≤ j
  future : ∀ i, k ≤ i → i < s'.calls.length → j ≤ c.cycle i

/-- From cycle `e` to cycle `x` the timer is below the compare register as currently
written. -/
def Quiet (c : Clock) (d : Clint) (timerIdx : BitVec 64) (s s' : ClintSt) (e x : Nat) : Prop :=
  ∀ k j, e ≤ j → j ≤ x → MadeAt c s s' k j →
    c.mtime j < ((d.after (s'.calls.drop (s'.calls.length - k))).mtimecmp timerIdx).toNat

/-- The two stores of an update, and what the register holds behind each. -/
theorem clintSetMtimecmpx_run {env : Env ClintCall} (d : Clint) (timerIdx value : BitVec 64)
    {s s' : ClintSt} (hrun : clintSetMtimecmpx timerIdx value env s = (.ok (), s')) :
    ∃ c₁ c₂, s'.calls = c₂ :: c₁ :: s.calls ∧
      ((d.after (c₁ :: s.calls)).mtimecmp timerIdx).toNat =
        torn (2 ^ 32) value.toNat ((d.after s.calls).mtimecmp timerIdx).toNat ∧
      (d.after (c₂ :: c₁ :: s.calls)).mtimecmp timerIdx = value := by
  cases hrun
  exact ⟨_, _, rfl, mtimecmp_between (d.after s.calls) timerIdx value,
    mtimecmp_written (d.after s.calls) timerIdx value⟩

/-- An update between two values that are both ahead of the timer raises no interrupt
exactly if, when the low word is written, the timer's high word is below the new one or its
low word is below the old one. -/
theorem clintSetMtimecmpx_quiet_iff (c : Clock) (hartIdx timerIdx : BitVec 64) (d : Clint)
    (value : BitVec 64) {s s' : ClintSt} {e x : Nat}
    (hrun : clintSetMtimecmpx timerIdx value (c.env hartIdx d) s = (.ok (), s'))
    (hentry : e ≤ c.cycle s.calls.length) (hexit : c.cycle (s.calls.length + 1) ≤ x)
    (hold : c.mtime x < ((d.after s.calls).mtimecmp timerIdx).toNat)
    (hnew : c.mtime x < value.toNat) :
    Quiet c d timerIdx s s' e x ↔
      c.now (s.calls.length + 1) / 2 ^ 32 < value.toNat / 2 ^ 32 ∨
        c.now (s.calls.length + 1) % 2 ^ 32 <
          ((d.after s.calls).mtimecmp timerIdx).toNat % 2 ^ 32 := by
  obtain ⟨c₁, c₂, hcalls, hmid, hlast⟩ := clintSetMtimecmpx_run d timerIdx value hrun
  have hlen : s'.calls.length = s.calls.length + 2 := by rw [hcalls]; rfl
  have hnow : c.now (s.calls.length + 1) ≤ c.mtime x := c.mtime_mono hexit
  rw [← lt_torn_below_iff (Nat.two_pow_pos 32) (by omega), ← hmid]
  constructor
  · intro hquiet
    -- the cycle of the second store, before it has taken effect
    have hmade : MadeAt c s s' (s.calls.length + 1) (c.cycle (s.calls.length + 1)) :=
      ⟨Nat.le_succ _, by omega, fun i _ hi => c.cycle_mono (Nat.le_of_lt hi),
        fun i hi _ => c.cycle_mono hi⟩
    have hlt := hquiet _ _ (Nat.le_trans hentry (c.cycle_mono (Nat.le_succ _))) hexit hmade
    rw [hlen, Nat.add_sub_add_left, hcalls] at hlt
    exact hlt
  · intro hlt k j _ hj hmade
    have hle : c.mtime j ≤ c.mtime x := c.mtime_mono hj
    obtain ⟨hge, hk, -, hfuture⟩ := hmade
    obtain ⟨i, rfl⟩ := Nat.exists_eq_add_of_le hge
    rw [hlen, Nat.add_sub_add_left, hcalls]
    rcases show i = 0 ∨ i = 1 ∨ i = 2 by omega with rfl | rfl | rfl
    · exact Nat.lt_of_le_of_lt hle hold
    · have hbefore : c.mtime j ≤ c.now (s.calls.length + 1) :=
        c.mtime_mono (hfuture _ (Nat.le_refl _) (by omega))
      exact Nat.lt_of_le_of_lt hbefore hlt
    · refine Nat.lt_of_le_of_lt hle ?_
      show _ < ((d.after (c₂ :: c₁ :: s.calls)).mtimecmp timerIdx).toNat
      rw [hlast]
      exact hnew

/-- The registers where compare register 0 holds these two words. -/
def clintArmed (hi lo : BitVec 32) : Clint :=
  ⟨fun o => if o = mtimecmpHigh0 then hi else lo, false, false⟩

/-- An update forward within one high word. -/
theorem clintSetMtimecmpx_quiet_forward :
    Quiet (tickClock 5) (clintArmed 0 100) 0 clintStart
      (clintSetMtimecmpx 0 200 ((tickClock 5).env 0 (clintArmed 0 100)) clintStart).2 0 1 :=
  (clintSetMtimecmpx_quiet_iff (tickClock 5) 0 0 (clintArmed 0 100) 200 rfl (by decide)
    (by decide) (by decide) (by decide)).mpr (by decide)

/-- The timer is at `0x1_0000_0005`, the register goes from `0x2_0000_0003` to
`0x1_0000_0009`, and holds `0x1_0000_0003` in between. -/
theorem clintSetMtimecmpx_spurious :
    (tickClock 0x100000004).mtime 1 < ((clintArmed 2 3).mtimecmp 0).toNat ∧
      (tickClock 0x100000004).mtime 1 < (0x100000009 : BitVec 64).toNat ∧
      ¬Quiet (tickClock 0x100000004) (clintArmed 2 3) 0 clintStart
        (clintSetMtimecmpx 0 0x100000009 ((tickClock 0x100000004).env 0 (clintArmed 2 3))
          clintStart).2 0 1 := by
  refine ⟨by decide, by decide, fun hquiet => ?_⟩
  have hmade : MadeAt (tickClock 0x100000004) clintStart (clintSetMtimecmpx 0 0x100000009
      ((tickClock 0x100000004).env 0 (clintArmed 2 3)) clintStart).2 1 1 :=
    ⟨by decide, by decide, fun i _ hi => Nat.le_of_lt hi, fun i hi _ => hi⟩
  exact absurd (hquiet 1 1 (by decide) (by decide) hmade) (by decide)

/-! ## Sleeping -/

theorem wp_setMtimecmpx {hartIdx value : BitVec 64} {R : Unit → ClintSt → Prop}
    {E : Stop → ClintSt → Prop}
    (h : ∀ s', s'.calls.length = s.calls.length + 2 →
      (d.after s'.calls).mtimecmp timerIdx = value → R () s') :
    wp (c.env hartIdx d) (clintSetMtimecmpx timerIdx value) R E s := by
  unfold clintSetMtimecmpx
  refine wp_access fun s₁ hlen₁ hafter₁ => wp_access fun s₂ hlen₂ hafter₂ => ?_
  rw [hafter₁] at hafter₂
  refine h s₂ (by omega) ?_
  rw [hafter₂]
  exact mtimecmp_written _ _ _

/-- The core goes on only when the compare register is reached. -/
theorem wfi_spec : ∀ (fuel : Nat) (s : ClintSt),
    wp (c.env timerIdx d) (wfi fuel)
      (fun _ s' => s.calls.length < s'.calls.length ∧
        ((d.after s.calls).mtimecmp timerIdx).toNat ≤ c.last s')
      (fun _ _ => True) s := by
  intro fuel
  induction fuel with
  | zero =>
    intro s
    exact trivial
  | succ fuel ih =>
    intro s
    unfold wfi
    refine wp_access fun s₁ hlen₁ hafter₁ => ?_
    have hsame : d.after s₁.calls = d.after s.calls := hafter₁
    rw [wp_ite]
    by_cases hpending : (d.after s.calls).mtie ∧
        (d.after s.calls).mtimecmp timerIdx ≤ BitVec.ofNat 64 (c.now s.calls.length)
    · have hret : (c.answer timerIdx (d.after s.calls) s.calls.length .wfi).ret = 1 :=
        if_pos hpending
      rw [hret, if_neg (by decide), wp_pure]
      refine ⟨by omega, ?_⟩
      have hle := BitVec.le_def.mp hpending.2
      rw [BitVec.toNat_ofNat] at hle
      unfold Clock.last
      rw [hlen₁]
      exact Nat.le_trans hle (Nat.mod_le _ _)
    · have hret : (c.answer timerIdx (d.after s.calls) s.calls.length .wfi).ret = 0 :=
        if_neg hpending
      rw [if_pos hret]
      refine wp_mono (ih s₁) (fun _ s' h' => ?_) fun _ _ he => he
      rw [hsame] at h'
      exact ⟨by omega, h'.2⟩

/-- A target that is ahead of the test: the call is over. -/
theorem clintSleepUntil_ahead {tgtMtime : BitVec 64} (fuel : Nat)
    (hlt : c.read s.calls.length < tgtMtime) :
    wp (c.env timerIdx d) (clintSleepUntil timerIdx tgtMtime fuel) (fun _ s' => Passed d 2 s s')
      (fun _ _ => False) s := by
  unfold clintSleepUntil
  rw [wp_bind]
  refine wp_getMtime fun s₁ h₁ => ?_
  rw [wp_ite, if_pos hlt]
  exact h₁

/-- A target that is not: the core waits for it. -/
theorem clintSleepUntil_behind {tgtMtime : BitVec 64} (fuel : Nat)
    (hge : ¬c.read s.calls.length < tgtMtime) :
    wp (c.env timerIdx d) (clintSleepUntil timerIdx tgtMtime fuel)
      (fun _ s' => tgtMtime.toNat ≤ c.last s') (fun _ _ => True) s := by
  unfold clintSleepUntil
  rw [wp_bind]
  refine wp_getMtime fun s₁ h₁ => ?_
  rw [wp_ite, if_neg hge, wp_bind]
  refine wp_setMtimecmpx fun s₂ hlen₂ hcmp₂ => ?_
  refine wp_access fun s₃ hlen₃ hafter₃ => wp_access fun s₄ hlen₄ hafter₄ =>
    wp_access fun s₅ hlen₅ hafter₅ => ?_
  have hcmp₅ : (d.after s₅.calls).mtimecmp timerIdx = tgtMtime := by
    rw [hafter₅, hafter₄, hafter₃]
    exact hcmp₂
  refine wp_mono (wfi_spec fuel s₅) (fun _ s' h' => ?_) fun _ _ he => he
  rw [hcmp₅] at h'
  exact h'.2

/-- What callers rely on when they enter at `t₀`. -/
structure SleepSound (c : Clock) (timerIdx : BitVec 64) (d : Clint) (s : ClintSt) (t₀ : Nat)
    (tgtMtime ticks : BitVec 64) : Prop where
  sleepUntil : ∀ fuel s',
    clintSleepUntil timerIdx tgtMtime fuel (c.env timerIdx d) s = (.ok (), s') →
    tgtMtime.toNat ≤ c.last s'
  sleepTicks : ∀ fuel s',
    clintSleepTicks timerIdx ticks fuel (c.env timerIdx d) s = (.ok (), s') →
    t₀ + ticks.toNat ≤ c.last s'

theorem clintSleepTicks_ahead {ticks : BitVec 64} (fuel : Nat)
    (hlt : c.read (s.calls.length + 2) < c.read s.calls.length + ticks) :
    wp (c.env timerIdx d) (clintSleepTicks timerIdx ticks fuel)
      (fun _ s' => c.last s' = c.now (s.calls.length + 3)) (fun _ _ => False) s := by
  unfold clintSleepTicks
  rw [wp_bind]
  refine wp_getMtime fun s₁ h₁ => ?_
  rw [← h₁.length] at hlt
  refine wp_mono (clintSleepUntil_ahead fuel hlt) (fun _ s' h' => ?_) fun _ _ he => he
  rw [h'.last, h₁.length]

theorem clintSleepTicks_behind {ticks : BitVec 64} (fuel : Nat)
    (hge : ¬c.read (s.calls.length + 2) < c.read s.calls.length + ticks) :
    wp (c.env timerIdx d) (clintSleepTicks timerIdx ticks fuel)
      (fun _ s' => (c.read s.calls.length + ticks).toNat ≤ c.last s') (fun _ _ => True) s := by
  unfold clintSleepTicks
  rw [wp_bind]
  refine wp_getMtime fun s₁ h₁ => ?_
  rw [← h₁.length] at hge
  exact clintSleepUntil_behind fuel hge

theorem sleepUntil_iff (c : Clock) (timerIdx : BitVec 64) (d : Clint) (s : ClintSt)
    (tgtMtime : BitVec 64) :
    (∀ fuel s', clintSleepUntil timerIdx tgtMtime fuel (c.env timerIdx d) s = (.ok (), s') →
      tgtMtime.toNat ≤ c.last s') ↔ tgtMtime.toNat ≤ c.now (s.calls.length + 1) := by
  have hread := c.read_le s.calls.length
  by_cases hlt : c.read s.calls.length < tgtMtime
  · -- the call ends behind the test
    refine forall_ok_iff fun fuel => ?_
    refine wp_mono (clintSleepUntil_ahead fuel hlt) (fun _ s' h' => ?_) fun _ _ he => he
    rw [h'.last]
  · have hle : tgtMtime.toNat ≤ (c.read s.calls.length).toNat := BitVec.not_lt.mp hlt
    refine ⟨fun _ => Nat.le_trans hle hread, fun _ fuel s' hrun => ?_⟩
    exact wp_ok (clintSleepUntil_behind fuel hlt) hrun

theorem sleepTicks_iff (c : Clock) (timerIdx : BitVec 64) (d : Clint) {s : ClintSt} {t₀ : Nat}
    (ticks : BitVec 64) (hentry : t₀ ≤ (c.read s.calls.length).toNat)
    (hsum : (c.read s.calls.length).toNat + ticks.toNat < 2 ^ 64) :
    (∀ fuel s', clintSleepTicks timerIdx ticks fuel (c.env timerIdx d) s = (.ok (), s') →
      t₀ + ticks.toNat ≤ c.last s') ↔ t₀ + ticks.toNat ≤ c.now (s.calls.length + 3) := by
  have hread : (c.read (s.calls.length + 2)).toNat ≤ c.now (s.calls.length + 3) := c.read_le _
  have htgt : (c.read s.calls.length + ticks).toNat =
      (c.read s.calls.length).toNat + ticks.toNat := by
    rw [BitVec.toNat_add, Nat.mod_eq_of_lt hsum]
  by_cases hlt : c.read (s.calls.length + 2) < c.read s.calls.length + ticks
  · refine forall_ok_iff fun fuel => ?_
    refine wp_mono (clintSleepTicks_ahead fuel hlt) (fun _ s' h' => ?_) fun _ _ he => he
    rw [h']
  · have hle := BitVec.le_def.mp (BitVec.not_lt.mp hlt)
    refine ⟨fun _ => by omega, fun _ fuel s' hrun => ?_⟩
    have hlast := wp_ok (clintSleepTicks_behind fuel hlt) hrun
    omega

/-- Nothing returns too early exactly if both targets were reached by the time of the test. -/
theorem clintSleepUntil_sound_iff (c : Clock) (timerIdx : BitVec 64) (d : Clint) {s : ClintSt}
    {t₀ : Nat} (tgtMtime ticks : BitVec 64) (hentry : t₀ ≤ c.now s.calls.length)
    (hwhole : c.now s.calls.length / 2 ^ 32 = c.now (s.calls.length + 1) / 2 ^ 32)
    (hsum : c.now (s.calls.length + 1) + ticks.toNat < 2 ^ 64) :
    SleepSound c timerIdx d s t₀ tgtMtime ticks ↔
      tgtMtime.toNat ≤ c.now (s.calls.length + 1) ∧
        t₀ + ticks.toNat ≤ c.now (s.calls.length + 3) := by
  have hmono : c.now s.calls.length ≤ c.now (s.calls.length + 1) := c.now_mono (Nat.le_succ _)
  have hread : (c.read s.calls.length).toNat = c.now (s.calls.length + 1) := by
    rw [Clock.toNat_read (by omega), torn_eq hwhole]
  rw [← sleepUntil_iff c timerIdx d s tgtMtime,
    ← sleepTicks_iff c timerIdx d ticks (by omega) (by omega)]
  exact ⟨fun h => ⟨h.sleepUntil, h.sleepTicks⟩, fun h => ⟨h.1, h.2⟩⟩

/-- The timer is at 6 and 8 at the two tests: both targets are reached there, or one of them is
a tick further. -/
theorem clintSleepUntil_sound_reached :
    SleepSound (tickClock 5) 0 clintReset clintStart 5 6 3 ∧
      ¬SleepSound (tickClock 5) 0 clintReset clintStart 5 7 3 ∧
      ¬SleepSound (tickClock 5) 0 clintReset clintStart 5 6 4 := by
  refine ⟨?_, ?_, ?_⟩
  · exact (clintSleepUntil_sound_iff (tickClock 5) 0 clintReset 6 3 (by decide) (by decide)
      (by decide)).mpr (by decide)
  · exact mt (clintSleepUntil_sound_iff (tickClock 5) 0 clintReset 7 3 (by decide) (by decide)
      (by decide)).mp (by decide)
  · exact mt (clintSleepUntil_sound_iff (tickClock 5) 0 clintReset 6 4 (by decide) (by decide)
      (by decide)).mp (by decide)

/-- On a timer that stands at 5, a sleep until tick 1000 is over at tick 6, and one for 1000
ticks at tick 8. -/
theorem clintSleepUntil_early :
    (clintSleepUntil 0 1000 0 ((tickClock 5).env 0 clintReset) clintStart).1 = .ok () ∧
      (tickClock 5).last
        (clintSleepUntil 0 1000 0 ((tickClock 5).env 0 clintReset) clintStart).2 = 6 ∧
      (clintSleepTicks 0 1000 0 ((tickClock 5).env 0 clintReset) clintStart).1 = .ok () ∧
      (tickClock 5).last
        (clintSleepTicks 0 1000 0 ((tickClock 5).env 0 clintReset) clintStart).2 = 8 ∧
      ¬SleepSound (tickClock 5) 0 clintReset clintStart 5 1000 1000 := by
  have hrun : (clintSleepUntil 0 1000 0 ((tickClock 5).env 0 clintReset) clintStart).1 =
      .ok () := by decide +kernel
  refine ⟨hrun, by decide +kernel, by decide +kernel, by decide +kernel, fun h => ?_⟩
  exact absurd (h.sleepUntil 0 _ (run_eq hrun)) (by decide +kernel)

end Cheshire.Sw
