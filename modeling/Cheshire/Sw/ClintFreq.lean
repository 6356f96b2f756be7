import Cheshire.Lib.Ticks
import Cheshire.Sw.Clint

/-!
# `clint.c`: measuring the core frequency

`clint_get_core_freq` polls the timer until it changes, and again until `num_ticks` later,
and divides the cycles by the ticks in between. Round `i` of its loops takes the `i`-th
sample of the timer, and `Measured` says which two rounds end the loops.
-/

namespace Cheshire.Sw

open Firmware Firmware.Prog Halves Ticks

/-! ## The driver -/

/-- `get_mcycle`, which reads the counter of cycles. -/
def getMcycle : ClintProg (BitVec 64) := do
  let r ← ask .mcycle
  pure (le64 r.out 0)

/-- The loops of `clint_get_core_freq`, for at most `fuel` rounds: the cycle count and the
timer of the last round. -/
def capture (again : BitVec 64 → Prop) [DecidablePred again] :
    (fuel : Nat) → ClintProg (BitVec 64 × BitVec 64)
  | 0 => stop .spin
  | fuel + 1 => do
    let mcycle ← getMcycle
    let mtime ← clintGetMtime
    if again mtime then capture again fuel else pure (mcycle, mtime)

/-- The samples that the frequency is computed from. -/
structure CoreFreqSample where
  startMcycle : BitVec 64
  startMtime : BitVec 64
  endMcycle : BitVec 64
  endMtime : BitVec 64
  deriving DecidableEq, Repr

/-- `clint_get_core_freq` before its final division. -/
def clintSampleCoreFreq (numTicks : BitVec 64) (fuel : Nat) : ClintProg CoreFreqSample := do
  let endMtime ← clintGetMtime
  let start ← capture (· = endMtime) fuel
  let stop ← capture (· < start.2 + numTicks) fuel
  pure ⟨start.1, start.2, stop.1, stop.2⟩

/-- `clint_get_core_freq`; a division by zero is undefined, and yields 0 here. -/
def clintGetCoreFreq (refFreq refTimeInv : BitVec 64) (fuel : Nat) : ClintProg (BitVec 64) := do
  let m ← clintSampleCoreFreq (refFreq / refTimeInv) fuel
  pure ((m.endMcycle - m.startMcycle) * refFreq / (m.endMtime - m.startMtime))

/-! ## The two loops -/

variable {c : Clock} {timerIdx : BitVec 64} {d : Clint}

/-- The `i`-th sample of a call whose first access is the `n`-th. -/
def Clock.sample (c : Clock) (n i : Nat) : BitVec 64 := c.read (n + 3 * i)

theorem wp_getMcycle {s : ClintSt} {R : BitVec 64 → ClintSt → Prop} {E : Stop → ClintSt → Prop}
    (h : ∀ s', s'.calls.length = s.calls.length + 1 →
      R (BitVec.ofNat 64 (c.cycle s.calls.length)) s') :
    wp (c.env timerIdx d) getMcycle R E s := by
  unfold getMcycle
  refine wp_access fun s₁ hlen₁ _ => ?_
  have hmcycle : le64 (c.answer timerIdx (d.after s.calls) s.calls.length .mcycle).out 0 =
      BitVec.ofNat 64 (c.cycle s.calls.length) := le64_bytes _
  rw [wp_pure, hmcycle]
  exact h s₁ hlen₁

/-- The loop ends in the first round whose sample does not ask for another one. -/
theorem capture_spec (again : BitVec 64 → Prop) [DecidablePred again] (n : Nat) :
    ∀ (fuel i : Nat) (s : ClintSt), s.calls.length = n + 3 * i + 2 →
      wp (c.env timerIdx d) (capture again fuel)
        (fun r s' => ∃ b, FirstAfter (fun j => ¬again (c.sample n j)) i b ∧
          s'.calls.length = n + 3 * b + 2 ∧
          r = (BitVec.ofNat 64 (c.cycle (n + 3 * b - 1)), c.sample n b))
        (fun _ _ => True) s := by
  intro fuel
  induction fuel with
  | zero =>
    intro i s _
    exact trivial
  | succ fuel ih =>
    intro i s hlen
    unfold capture
    rw [wp_bind]
    refine wp_getMcycle fun s₁ hlen₁ => ?_
    rw [wp_bind]
    refine wp_getMtime fun s₂ h₂ => ?_
    have hsample : c.read s₁.calls.length = c.sample n (i + 1) := by
      unfold Clock.sample
      rw [hlen₁, hlen]
      rfl
    have hcycle : s.calls.length = n + 3 * (i + 1) - 1 := by omega
    have hlen₂ : s₂.calls.length = n + 3 * (i + 1) + 2 := by
      rw [h₂.length]
      omega
    rw [hsample, hcycle, wp_ite]
    by_cases hagain : again (c.sample n (i + 1))
    · rw [if_pos hagain]
      refine wp_mono (ih (i + 1) s₂ hlen₂) (fun r s' h' => ?_) fun _ _ he => he
      obtain ⟨b, hfirst, hlen', hr⟩ := h'
      exact ⟨b, hfirst.step fun hnot => hnot hagain, hlen', hr⟩
    · rw [if_neg hagain]
      exact ⟨i + 1, firstAfter_succ hagain, hlen₂, rfl⟩

/-- The first loop ends with sample `a`, the second with sample `b`. -/
structure Measured (c : Clock) (n : Nat) (numTicks : BitVec 64) (a b : Nat) : Prop where
  start : FirstAfter (fun j => ¬c.sample n j = c.sample n 0) 0 a
  stop : FirstAfter (fun j => ¬c.sample n j < c.sample n a + numTicks) a b

theorem clintSampleCoreFreq_spec (numTicks : BitVec 64) (fuel : Nat) (s : ClintSt) :
    wp (c.env timerIdx d) (clintSampleCoreFreq numTicks fuel)
      (fun m s' => ∃ a b, Measured c s.calls.length numTicks a b ∧
        s'.calls.length = s.calls.length + 3 * b + 2 ∧
        m = ⟨BitVec.ofNat 64 (c.cycle (s.calls.length + 3 * a - 1)), c.sample s.calls.length a,
          BitVec.ofNat 64 (c.cycle (s.calls.length + 3 * b - 1)), c.sample s.calls.length b⟩)
      (fun _ _ => True) s := by
  unfold clintSampleCoreFreq
  rw [wp_bind]
  refine wp_getMtime fun s₁ h₁ => ?_
  rw [wp_bind]
  refine wp_mono (capture_spec (· = c.sample s.calls.length 0) s.calls.length fuel 0 s₁ h₁.length)
    (fun r s₂ h₂ => ?_) fun _ _ he => he
  obtain ⟨a, hstart, hlen₂, rfl⟩ := h₂
  rw [wp_bind]
  refine wp_mono (capture_spec (· < c.sample s.calls.length a + numTicks) s.calls.length fuel a s₂
    hlen₂) (fun r s₃ h₃ => ?_) fun _ _ he => he
  obtain ⟨b, hstop, hlen₃, rfl⟩ := h₃
  exact ⟨a, b, ⟨hstart, hstop⟩, hlen₃, rfl⟩

/-! ## The divisor -/

/-- The high half of the timer at round `i`'s access to the high word, in a call whose first
access is the `n`-th. -/
def Clock.hiSeen (c : Clock) (n i : Nat) : Nat := c.now (n + 3 * i) / 2 ^ 32 % 2 ^ 32

/-- The low half of the timer at round `i`'s access to the low word. -/
def Clock.loSeen (c : Clock) (n i : Nat) : Nat := c.now (n + 3 * i + 1) % 2 ^ 32

/-- Round `j` finds both halves as round `i` did. -/
def SameHalves (c : Clock) (n i j : Nat) : Prop :=
  c.hiSeen n j = c.hiSeen n i ∧ c.loSeen n j = c.loSeen n i

/-- Round `i` finds halves that make less than `t`. -/
def SeenBelow (c : Clock) (n i t : Nat) : Prop := c.hiSeen n i * 2 ^ 32 + c.loSeen n i < t

/-- A round behind round `a` finds the halves of round `a` again, and those in between find
less than `t`. -/
def SeenAgain (c : Clock) (n a t : Nat) : Prop :=
  ∃ j, a < j ∧ (∀ i, a < i → i < j → SeenBelow c n i t) ∧ SameHalves c n a j

instance (c : Clock) (n i j : Nat) : Decidable (SameHalves c n i j) :=
  inferInstanceAs (Decidable (_ ∧ _))

theorem toNat_sample (c : Clock) (n i : Nat) :
    (c.sample n i).toNat = c.hiSeen n i * 2 ^ 32 + c.loSeen n i := by
  unfold Clock.sample Clock.read wordHi wordLo
  rw [toNat_join, BitVec.toNat_ofNat, BitVec.toNat_ofNat]
  rfl

theorem sample_eq_iff {n i j : Nat} : c.sample n j = c.sample n i ↔ SameHalves c n i j := by
  have hi := toNat_sample c n i
  have hj := toNat_sample c n j
  have hlo : c.loSeen n i < 2 ^ 32 := Nat.mod_lt _ (Nat.two_pow_pos 32)
  have hlo' : c.loSeen n j < 2 ^ 32 := Nat.mod_lt _ (Nat.two_pow_pos 32)
  unfold SameHalves
  rw [← BitVec.toNat_inj]
  omega

theorem sample_lt_iff {n i : Nat} {t : BitVec 64} :
    c.sample n i < t ↔ SeenBelow c n i t.toNat := by
  unfold SeenBelow
  rw [BitVec.lt_def, toNat_sample]

theorem lt_add_iff (v w : BitVec 64) :
    v < v + w ↔ 0 < w.toNat ∧ v.toNat + w.toNat < 2 ^ 64 := by
  have hv := v.isLt
  have hw := w.isLt
  rw [BitVec.lt_def, BitVec.toNat_add]
  omega

theorem sub_ne_zero_iff (v w : BitVec 64) : v - w ≠ 0 ↔ ¬v = w := by
  constructor
  · rintro hne rfl
    exact hne (BitVec.sub_self v)
  · intro hne hzero
    have heq := BitVec.sub_eq_iff_eq_add.mp hzero
    exact hne (heq.trans (BitVec.zero_add w))

/-- A target that is not ahead of the start ends the second loop at the first round that finds
the start's halves again, if one does before the target is reached. -/
theorem Measured.repeats_iff {n : Nat} {numTicks : BitVec 64} {a b : Nat}
    (hm : Measured c n numTicks a b) (hle : ¬c.sample n a < c.sample n a + numTicks) :
    c.sample n b = c.sample n a ↔ SeenAgain c n a (c.sample n a + numTicks).toNat := by
  constructor
  · intro heq
    exact ⟨b, hm.stop.lt, fun i hi hib => sample_lt_iff.mp (not_not.mp (hm.stop.before i hi hib)),
      sample_eq_iff.mp heq⟩
  · rintro ⟨j, hj, hbefore, hsame⟩
    have heq := sample_eq_iff.mpr hsame
    have hstop : FirstAfter (fun i => ¬c.sample n i < c.sample n a + numTicks) a j :=
      ⟨hj, by rwa [heq], fun i hi hij hnot => hnot (sample_lt_iff.mpr (hbefore i hi hij))⟩
    rw [hm.stop.eq hstop, heq]

/-- On a timer that does not come round, that is the next round or none: what is read later is
not below the start, or the high half has changed. -/
theorem Measured.repeats_next_iff {n : Nat} {numTicks : BitVec 64} {a b : Nat}
    (hm : Measured c n numTicks a b) (hle : ¬c.sample n a < c.sample n a + numTicks)
    (hspan : c.now (n + 3 * b + 1) < c.now (n + 3 * a) + (2 ^ 64 - 2 ^ 32)) :
    c.sample n b = c.sample n a ↔ SameHalves c n a (a + 1) := by
  have hab := hm.stop.lt
  constructor
  · intro heq
    rcases Nat.eq_or_lt_of_le (Nat.succ_le_of_lt hab) with rfl | hlt
    · exact sample_eq_iff.mp heq
    · -- the round behind the start would have to be below it
      have hbelow : (c.sample n (a + 1)).toNat < (c.sample n a).toNat := by
        have hagain := not_not.mp (hm.stop.before (a + 1) (Nat.lt_succ_self a) hlt)
        rw [BitVec.lt_def] at hagain hle
        omega
      obtain ⟨hhi, -⟩ := sample_eq_iff.mp heq
      rw [toNat_sample, toNat_sample] at hbelow
      have h₁ := c.now_mono (show n + 3 * a ≤ n + 3 * a + 1 by omega)
      have h₂ := c.now_mono (show n + 3 * a + 1 ≤ n + 3 * (a + 1) by omega)
      have h₃ := c.now_mono (show n + 3 * (a + 1) ≤ n + 3 * (a + 1) + 1 by omega)
      have h₄ := c.now_mono (show n + 3 * (a + 1) + 1 ≤ n + 3 * b by omega)
      have h₅ := c.now_mono (show n + 3 * b ≤ n + 3 * b + 1 by omega)
      unfold Clock.hiSeen at hhi hbelow
      unfold Clock.loSeen at hbelow
      omega
  · intro hsame
    have heq := sample_eq_iff.mpr hsame
    have hstop : FirstAfter (fun i => ¬c.sample n i < c.sample n a + numTicks) a (a + 1) :=
      firstAfter_succ (by rwa [heq])
    rw [hm.stop.eq hstop, heq]

/-- There is a tick to wait for, and the target does not wrap: the start is what round `a`
finds. -/
def TargetAhead (c : Clock) (n a : Nat) (rtcFreq : BitVec 32) : Prop :=
  2500 ≤ rtcFreq.toNat ∧
    c.hiSeen n a * 2 ^ 32 + c.loSeen n a + rtcFreq.toNat / 2500 < 2 ^ 64

/-- The timer value that the measurement waits for, as the addition wraps it. -/
def wrappedTarget (c : Clock) (n a : Nat) (rtcFreq : BitVec 32) : Nat :=
  (c.hiSeen n a * 2 ^ 32 + c.loSeen n a + rtcFreq.toNat / 2500) % 2 ^ 64

/-- The boot ROM's measurement divides by a number that is not zero exactly if the target is
ahead, or the timer does not show both halves as in round `a` again: in the next round, as
long as fewer than `2 ^ 64 - 2 ^ 32` ticks pass, and in general in a round up to which it shows
less than the target. Round `a` is the first that finds a half changed. -/
theorem clintGetCoreFreq_divides_iff (c : Clock) (timerIdx : BitVec 64) (d : Clint)
    (rtcFreq : BitVec 32) {fuel : Nat} {s s' : ClintSt} {m : CoreFreqSample} {a : Nat}
    (hrun : clintSampleCoreFreq (rtcFreq.setWidth 64 / 2500) fuel (c.env timerIdx d) s =
      (.ok m, s'))
    (hstart : FirstAfter (fun j => ¬SameHalves c s.calls.length 0 j) 0 a) :
    (m.endMtime - m.startMtime ≠ 0 ↔
      TargetAhead c s.calls.length a rtcFreq ∨
        ¬SeenAgain c s.calls.length a (wrappedTarget c s.calls.length a rtcFreq)) ∧
    (c.last s' < c.now (s.calls.length + 3 * a) + (2 ^ 64 - 2 ^ 32) →
      (m.endMtime - m.startMtime ≠ 0 ↔
        TargetAhead c s.calls.length a rtcFreq ∨ ¬SameHalves c s.calls.length a (a + 1))) := by
  obtain ⟨a', b, hm, hlen, rfl⟩ := wp_ok (clintSampleCoreFreq_spec _ fuel s) hrun
  obtain rfl : a = a' := by
    refine hstart.eq ⟨hm.start.lt, fun h => hm.start.holds (sample_eq_iff.mpr h), ?_⟩
    exact fun j hj hja hnot => hm.start.before j hj hja fun h => hnot (sample_eq_iff.mp h)
  have hticks : (rtcFreq.setWidth 64 / 2500 : BitVec 64).toNat = rtcFreq.toNat / 2500 := by
    have hrtc := rtcFreq.isLt
    rw [BitVec.toNat_udiv, BitVec.toNat_setWidth, Nat.mod_eq_of_lt (by omega)]
    rfl
  have hahead : c.sample s.calls.length a <
      c.sample s.calls.length a + rtcFreq.setWidth 64 / 2500 ↔
        TargetAhead c s.calls.length a rtcFreq := by
    rw [lt_add_iff, hticks, toNat_sample, show 0 < rtcFreq.toNat / 2500 ↔ 2500 ≤ rtcFreq.toNat by
      omega]
    exact Iff.rfl
  have htarget : (c.sample s.calls.length a + rtcFreq.setWidth 64 / 2500).toNat =
      wrappedTarget c s.calls.length a rtcFreq := by
    rw [BitVec.toNat_add, hticks, toNat_sample]
    rfl
  have hlast : c.last s' = c.now (s.calls.length + 3 * b + 1) := by
    unfold Clock.last
    rw [hlen]
    rfl
  have hdiff : c.sample s.calls.length b - c.sample s.calls.length a ≠ 0 ↔
      ¬c.sample s.calls.length b = c.sample s.calls.length a := sub_ne_zero_iff _ _
  dsimp only
  rw [hdiff, ← hahead, ← htarget, hlast]
  by_cases hlt : c.sample s.calls.length a <
      c.sample s.calls.length a + rtcFreq.setWidth 64 / 2500
  · -- then the loop runs past the start
    have hne : ¬c.sample s.calls.length b = c.sample s.calls.length a := by
      intro heq
      have hstop := hm.stop.holds
      rw [heq] at hstop
      exact hstop hlt
    exact ⟨⟨fun _ => Or.inl hlt, fun _ => hne⟩, fun _ => ⟨fun _ => Or.inl hlt, fun _ => hne⟩⟩
  · refine ⟨?_, fun hspan => ?_⟩
    · rw [hm.repeats_iff hlt]
      exact ⟨Or.inr, fun h => h.resolve_left hlt⟩
    · rw [hm.repeats_next_iff hlt hspan]
      exact ⟨Or.inr, fun h => h.resolve_left hlt⟩

/-- One access in each cycle, and a tick every `T` cycles. -/
def slowClock (T φ : Nat) : Clock :=
  ⟨id, fun j => (j + φ) / T, monotone_id,
    fun _ _ h => Nat.div_le_div_right (Nat.add_le_add_right h φ)⟩

theorem slowClock_start : FirstAfter (fun j => ¬SameHalves (slowClock 8 0) 0 0 j) 0 3 := by
  refine ⟨by decide, by decide, fun j hj hj3 => ?_⟩
  rcases show j = 1 ∨ j = 2 by omega with rfl | rfl
  · decide
  · decide

/-- Two ticks to wait for. -/
theorem clintGetCoreFreq_divides_5000 :
    ∃ m s', clintSampleCoreFreq ((5000 : BitVec 32).setWidth 64 / 2500) 8
        ((slowClock 8 0).env 0 clintReset) clintStart = (.ok m, s') ∧
      m.endMtime - m.startMtime ≠ 0 := by
  have hrun : (clintSampleCoreFreq ((5000 : BitVec 32).setWidth 64 / 2500) 8
      ((slowClock 8 0).env 0 clintReset) clintStart).1 = .ok ⟨8, 1, 23, 3⟩ := by decide +kernel
  exact ⟨_, _, run_eq hrun, ((clintGetCoreFreq_divides_iff (slowClock 8 0) 0 clintReset 5000
    (run_eq hrun) slowClock_start).1).mpr (Or.inl ⟨by decide, by decide⟩)⟩

/-- A reference clock below 2500 Hz: there is nothing to wait for, and the second loop ends in
its first round, in the tick of the start. -/
theorem clintGetCoreFreq_divides_by_zero :
    ∃ m s', clintSampleCoreFreq ((2499 : BitVec 32).setWidth 64 / 2500) 8
        ((slowClock 8 0).env 0 clintReset) clintStart = (.ok m, s') ∧
      m.endMtime - m.startMtime = 0 := by
  have hrun : (clintSampleCoreFreq ((2499 : BitVec 32).setWidth 64 / 2500) 8
      ((slowClock 8 0).env 0 clintReset) clintStart).1 = .ok ⟨8, 1, 11, 1⟩ := by decide +kernel
  exact ⟨_, _, run_eq hrun, rfl⟩

/-! ## The error -/

/-- The cycle in which the `i`-th sample is taken: that of its low word. -/
def Clock.sampled (c : Clock) (n i : Nat) : Nat := c.cycle (n + 3 * i + 1)

theorem Clock.sampled_mono (c : Clock) (n : Nat) : Monotone (c.sampled n) :=
  fun _ _ h => c.cycle_mono (by omega)

/-- As long as the low word does not wrap, the samples are the timer but for a constant. -/
theorem sample_eq {n b : Nat}
    (hlow : ∀ k, n ≤ k → k < n + 3 * b + 2 → c.now k / 2 ^ 32 = c.now n / 2 ^ 32) {i : Nat}
    (hi : i ≤ b) :
    c.mtime (c.sampled n i) = c.now n / 2 ^ 64 * 2 ^ 64 + (c.sample n i).toNat := by
  have hhi := hlow (n + 3 * i) (by omega) (by omega)
  have hlo := hlow (n + 3 * i + 1) (by omega) (by omega)
  have hread : (c.sample n i).toNat = c.now (n + 3 * i + 1) % 2 ^ 64 := by
    unfold Clock.sample
    rw [Clock.read_eq, torn_eq (hhi.trans hlo.symm), BitVec.toNat_ofNat]
  show c.now (n + 3 * i + 1) = _
  omega

variable {n a b : Nat} {numTicks : BitVec 64}

/-- The timer reaches the start between the last two samples of the first loop. -/
theorem Measured.start_tick (hm : Measured c n numTicks a b)
    (hlow : ∀ k, n ≤ k → k < n + 3 * b + 2 → c.now k / 2 ^ 32 = c.now n / 2 ^ 32) :
    c.mtime (c.sampled n (a - 1)) < c.mtime (c.sampled n a) := by
  have hab := hm.stop.lt
  have hprev : c.sample n (a - 1) = c.sample n 0 := by
    rcases hm.start.pred with hzero | hsame
    · rw [hzero]
    · exact not_not.mp hsame
  have hne : (c.sample n (a - 1)).toNat ≠ (c.sample n a).toNat := fun heq =>
    hm.start.holds ((BitVec.eq_of_toNat_eq heq).symm.trans hprev)
  have hmono : c.mtime (c.sampled n (a - 1)) ≤ c.mtime (c.sampled n a) :=
    c.mtime_mono (c.sampled_mono n (Nat.sub_le a 1))
  have hlast := sample_eq hlow (i := a - 1) (by omega)
  have hthis := sample_eq hlow (i := a) (by omega)
  omega

/-- And the end between the last two of the second, at least `num_ticks` later. -/
theorem Measured.stop_tick (hm : Measured c n numTicks a b)
    (hlow : ∀ k, n ≤ k → k < n + 3 * b + 2 → c.now k / 2 ^ 32 = c.now n / 2 ^ 32)
    (hticks : 0 < numTicks.toNat) (hsum : (c.sample n a).toNat + numTicks.toNat < 2 ^ 64) :
    c.mtime (c.sampled n (b - 1)) < c.mtime (c.sampled n b) ∧
      c.mtime (c.sampled n a) + numTicks.toNat ≤ c.mtime (c.sampled n b) := by
  have hab := hm.stop.lt
  have htgt : (c.sample n a + numTicks).toNat = (c.sample n a).toNat + numTicks.toNat := by
    rw [BitVec.toNat_add, Nat.mod_eq_of_lt hsum]
  have hstart := sample_eq hlow (i := a) (by omega)
  have hlast := sample_eq hlow (i := b - 1) (by omega)
  have hthis := sample_eq hlow (i := b) (by omega)
  have hreached : (c.sample n a + numTicks).toNat ≤ (c.sample n b).toNat :=
    BitVec.not_lt.mp hm.stop.holds
  have hbefore : (c.sample n (b - 1)).toNat < (c.sample n a + numTicks).toNat := by
    rcases hm.stop.pred with hfirst | hagain
    · rw [hfirst]
      omega
    · exact BitVec.lt_def.mp (not_not.mp hagain)
  omega

/-- The accesses at which the two loops of a measurement end are determined by the clock. -/
theorem Measured.eq {a' b' : Nat} (hm : Measured c n numTicks a b)
    (hm' : Measured c n numTicks a' b') : a = a' ∧ b = b' := by
  obtain rfl := hm.start.eq hm'.start
  exact ⟨rfl, hm.stop.eq hm'.stop⟩

/-- The cycle count of a round is as close to a tick since the round before as the samples
are to each other. -/
theorem mcycle_within {T φ D M i : Nat} (hT : 0 < T) (htimer : ∀ j, c.mtime j = (j + φ) / T)
    (hi : 0 < i) (hgap : c.sampled n i ≤ c.sampled n (i - 1) + D)
    (hbefore : c.mtime (c.sampled n (i - 1)) < M) (hbehind : M ≤ c.mtime (c.sampled n i)) :
    c.cycle (n + 3 * i - 1) + φ ≤ T * M + D ∧ T * M ≤ c.cycle (n + 3 * i - 1) + φ + D := by
  rw [htimer] at hbefore hbehind
  have htick := tick_between hT hbefore hbehind
  have hlast : c.sampled n (i - 1) ≤ c.cycle (n + 3 * i - 1) := c.cycle_mono (by omega)
  have hthis : c.cycle (n + 3 * i - 1) ≤ c.sampled n i := c.cycle_mono (by omega)
  exact ⟨guess_le htick hthis hgap, le_guess htick hlast hgap⟩

theorem clintGetCoreFreq_spec (refFreq refTimeInv : BitVec 64) (fuel : Nat) (s : ClintSt) :
    wp (c.env timerIdx d) (clintGetCoreFreq refFreq refTimeInv fuel)
      (fun freq s' => ∃ a b, Measured c s.calls.length (refFreq / refTimeInv) a b ∧
        s'.calls.length = s.calls.length + 3 * b + 2 ∧
        freq = (BitVec.ofNat 64 (c.cycle (s.calls.length + 3 * b - 1)) -
            BitVec.ofNat 64 (c.cycle (s.calls.length + 3 * a - 1))) * refFreq /
          (c.sample s.calls.length b - c.sample s.calls.length a))
      (fun _ _ => True) s := by
  unfold clintGetCoreFreq
  rw [wp_bind]
  refine wp_mono (clintSampleCoreFreq_spec _ fuel s) (fun m s' h' => ?_) fun _ _ he => he
  obtain ⟨a, b, hm, hlen, rfl⟩ := h'
  exact ⟨a, b, hm, hlen, rfl⟩

/-- As numbers, with no wrap: the final expression is the cycles times the reference frequency,
divided by the ticks. -/
theorem coreFreq_toNat {refFreq v w : BitVec 64} {p q : Nat} (hpq : p ≤ q)
    (hprod : (q - p) * refFreq.toNat < 2 ^ 64) (href : 0 < refFreq.toNat)
    (hvw : v.toNat ≤ w.toNat) :
    ((BitVec.ofNat 64 q - BitVec.ofNat 64 p) * refFreq / (w - v)).toNat =
      (q - p) * refFreq.toNat / (w.toNat - v.toNat) := by
  have hdiff : q - p < 2 ^ 64 := Nat.lt_of_le_of_lt (Nat.le_mul_of_pos_right _ href) hprod
  have hcycles : (BitVec.ofNat 64 q - BitVec.ofNat 64 p).toNat = q - p := by
    rw [BitVec.toNat_sub, BitVec.toNat_ofNat, BitVec.toNat_ofNat]
    omega
  rw [BitVec.toNat_udiv, BitVec.toNat_mul, hcycles, Nat.mod_eq_of_lt hprod,
    BitVec.toNat_sub_of_le hvw]

/-- The frequency returned is the true one, `T` cycles per tick, up to this error. -/
def FreqWithin (T D refFreq numTicks freq : Nat) : Prop :=
  freq ≤ T * refFreq + 2 * D * refFreq / numTicks + 1 ∧
    T * refFreq ≤ freq + 2 * D * refFreq / numTicks + 1

/-- The error of a measurement whose target does not wrap. -/
theorem clintGetCoreFreq_error (c : Clock) (timerIdx : BitVec 64) (d : Clint) {T φ D : Nat}
    (hT : 0 < T) (htimer : ∀ j, c.mtime j = (j + φ) / T) (refFreq refTimeInv : BitVec 64)
    (hticks : 1 ≤ refFreq.toNat / refTimeInv.toNat) {fuel : Nat} {s s' : ClintSt}
    {freq : BitVec 64} {a b : Nat}
    (hrun : clintGetCoreFreq refFreq refTimeInv fuel (c.env timerIdx d) s = (.ok freq, s'))
    (hm : Measured c s.calls.length (refFreq / refTimeInv) a b)
    (hgap : ∀ i < b, c.sampled s.calls.length (i + 1) ≤ c.sampled s.calls.length i + D)
    (hlow : ∀ k, s.calls.length ≤ k → k < s'.calls.length →
      c.now k / 2 ^ 32 = c.now s.calls.length / 2 ^ 32)
    (hprod : (c.cycle (s.calls.length + 3 * b - 1) - c.cycle (s.calls.length + 3 * a - 1)) *
      refFreq.toNat < 2 ^ 64)
    (hsum : (c.sample s.calls.length a).toNat + refFreq.toNat / refTimeInv.toNat < 2 ^ 64) :
    FreqWithin T D refFreq.toNat (refFreq.toNat / refTimeInv.toNat) freq.toNat := by
  have hspec : wp (c.env timerIdx d) (clintGetCoreFreq refFreq refTimeInv fuel) _ _ s :=
    clintGetCoreFreq_spec refFreq refTimeInv fuel s
  obtain ⟨a', b', hm', hlen, hfreq⟩ := wp_ok hspec hrun
  obtain ⟨rfl, rfl⟩ := hm.eq hm'
  rw [hlen] at hlow
  have ha := hm.start.lt
  have hab := hm.stop.lt
  have hgapa := hgap (a - 1) (by omega)
  rw [Nat.sub_add_cancel ha] at hgapa
  have hgapb := hgap (b - 1) (by omega)
  rw [Nat.sub_add_cancel (by omega)] at hgapb
  have hcycles : c.cycle (s.calls.length + 3 * a - 1) ≤ c.cycle (s.calls.length + 3 * b - 1) :=
    c.cycle_mono (by omega)
  -- both ends are ticks that the polling has just crossed
  have hnum : (refFreq / refTimeInv).toNat = refFreq.toNat / refTimeInv.toNat :=
    BitVec.toNat_udiv ..
  rw [← hnum] at hticks hsum ⊢
  obtain ⟨hbefore, hreached⟩ := hm.stop_tick hlow hticks hsum
  obtain ⟨hstart₁, hstart₂⟩ := mcycle_within hT htimer ha hgapa (hm.start_tick hlow)
    (Nat.le_refl _)
  obtain ⟨hstop₁, hstop₂⟩ := mcycle_within hT htimer (by omega) hgapb hbefore (Nat.le_refl _)
  have hsamplea := sample_eq hlow (i := a) (by omega)
  have hsampleb := sample_eq hlow (i := b) (by omega)
  have hmul := Nat.mul_sub T (c.mtime (c.sampled s.calls.length b))
    (c.mtime (c.sampled s.calls.length a))
  have hdiff : c.mtime (c.sampled s.calls.length b) - c.mtime (c.sampled s.calls.length a) =
      (c.sample s.calls.length b).toNat - (c.sample s.calls.length a).toNat := by omega
  have href : 0 < refFreq.toNat := by
    rw [hnum] at hticks
    exact Nat.pos_of_ne_zero fun hzero => by simp [hzero] at hticks
  rw [hfreq, coreFreq_toNat hcycles hprod href (by omega), ← hdiff]
  constructor
  · exact Nat.le_succ_of_le (rate_le hticks (by omega) (by omega))
  · exact le_rate hticks (by omega) (by omega)

theorem slowClock_measured : Measured (slowClock 8 0) 0 (5000 / 2500) 3 8 := by
  refine ⟨⟨by decide, by decide, fun j hj hj3 => ?_⟩, by decide, by decide, fun j hj hj8 => ?_⟩
  · rcases show j = 1 ∨ j = 2 by omega with rfl | rfl
    · decide
    · decide
  · rcases show j = 4 ∨ j = 5 ∨ j = 6 ∨ j = 7 by omega with rfl | rfl | rfl | rfl
    all_goals decide

/-- With eight cycles to a tick two ticks are measured as fifteen cycles, within the bound for
polls three cycles apart. -/
theorem clintGetCoreFreq_error_slowClock : FreqWithin 8 3 5000 2 37500 := by
  have hrun : (clintGetCoreFreq 5000 2500 8 ((slowClock 8 0).env 0 clintReset) clintStart).1 =
      .ok 37500 := by decide +kernel
  have hlen : (clintGetCoreFreq 5000 2500 8 ((slowClock 8 0).env 0 clintReset)
      clintStart).2.calls.length = 26 := by decide +kernel
  refine clintGetCoreFreq_error (slowClock 8 0) 0 clintReset (D := 3) (by decide) (fun _ => rfl)
    5000 2500 (by decide) (run_eq hrun) slowClock_measured (by decide) (fun k _ hk => ?_)
    (by decide) (by decide)
  rw [hlen] at hk
  exact (by decide : ∀ k < 26, (slowClock 8 0).now k / 2 ^ 32 = (slowClock 8 0).now 0 / 2 ^ 32) k hk

/-- A timer that ticks every four cycles and has `2 ^ 40` ticks left before it wraps. -/
def highClock : Clock := slowClock 4 (4 * (2 ^ 64 - 2 ^ 40 + 9) + 1)

/-- There the target of `2 ^ 40` ticks wraps: the second loop ends at once, and three cycles
are counted in a tick of four. -/
theorem clintGetCoreFreq_wrapped :
    ∃ freq s', clintGetCoreFreq (BitVec.ofNat 64 (2 ^ 60)) (BitVec.ofNat 64 (2 ^ 20)) 8
        (highClock.env 0 clintReset) clintStart = (.ok freq, s') ∧ s'.calls.length = 8 ∧
      Measured highClock 0 (BitVec.ofNat 64 (2 ^ 60) / BitVec.ofNat 64 (2 ^ 20)) 1 2 ∧
      (∀ i < 2, highClock.sampled 0 (i + 1) ≤ highClock.sampled 0 i + 3) ∧
      (∀ k < 8, highClock.now k / 2 ^ 32 = highClock.now 0 / 2 ^ 32) ∧
      (highClock.cycle (3 * 2 - 1) - highClock.cycle (3 * 1 - 1)) * 2 ^ 60 < 2 ^ 64 ∧
      ¬FreqWithin 4 3 (2 ^ 60) (2 ^ 40) freq.toNat := by
  have hrun : (clintGetCoreFreq (BitVec.ofNat 64 (2 ^ 60)) (BitVec.ofNat 64 (2 ^ 20)) 8
      (highClock.env 0 clintReset) clintStart).1 = .ok (BitVec.ofNat 64 (3 * 2 ^ 60)) := by
    decide +kernel
  refine ⟨_, _, run_eq hrun, by decide +kernel,
    ⟨firstAfter_succ (by decide +kernel), firstAfter_succ (by decide +kernel)⟩,
    by decide +kernel, by decide +kernel, by decide +kernel, fun hwithin => ?_⟩
  exact absurd hwithin.2 (by decide +kernel)

end Cheshire.Sw
