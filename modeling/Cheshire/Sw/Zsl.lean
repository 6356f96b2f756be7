import Cheshire.Sw.GptAnswers

/-!
# The zero-stage loader: what the firmware launch depends on

`zslMain` loads the device tree and the firmware from the boot medium, when
`scratch[0]` says there is one, and calls the firmware. Each load searches a
partition by type and copies it; a failed search ends in a loop on `wfi`
(`Stop.spin`). The copy itself is another call of the boot ROM's `read`, and
its return value is dropped:

    grread(priv, dst, 0x200 * lba_begin, 0x200 * (lba_end - lba_begin + 1));
    printf("OK\r\n");

So the launch depends on both searches and on neither copy: `zslMain_launch`
says exactly when the firmware is called, and `zslMain_sound_iff` what the boot
medium has to answer for that to be after two complete loads.
-/

namespace Cheshire.Sw

open Firmware Firmware.Prog

/-! ## `params.h` -/

def bootZslDtb : BitVec 64 := 0x80800000

def bootZslFw : BitVec 64 := 0x80000000

def bootDtbTypeGuid : Guid := (0x42DE2AEFBA442F61, 0x9DCB3A5DD7E43392)

def bootFwTypeGuid : Guid := (0x4B0D3F5B99EC86DA, 0x59F8A5CFBAC44B8F)

/-! ## `zsl.c` -/

/-- The call `fw(a0, a1, a2)` that hands the hart to the payload. -/
structure Launch where
  fw : BitVec 64
  a0 : BitVec 64
  a1 : BitVec 64
  a2 : BitVec 64
  deriving DecidableEq, Repr

/-- What `load_part_or_spin` is asked to load, and where to. -/
structure Part where
  guid : Guid
  dst : BitVec 64
  maxLbas : BitVec 64

def dtbPart : Part := ⟨bootDtbTypeGuid, bootZslDtb, 64⟩

def fwPart : Part := ⟨bootFwTypeGuid, bootZslFw, 8192⟩

/-- The search for `p`; `lba_begin` and `lba_end` start out uninitialised. -/
def Part.find (p : Part) : Prog ReadCall (List Launch) (Int × LbaRange) :=
  gptFindPartition ⟨0, 0⟩ p.maxLbas (some p.guid) none

def loadPartOrSpin (p : Part) : Prog ReadCall (List Launch) Unit := do
  let r ← attempt p.find
  match r with
  | .error _ => stop .spin
  | .ok (partIdx, rng) =>
    if partIdx < 0 then stop .spin
    else do
      -- the return value of this call is not looked at
      let _ ← ask (rng.copyCall p.dst)
      pure ()

/-- `main`, from the read of `scratch[0]` on. -/
def zslMain (read : BitVec 32) : Prog ReadCall (List Launch) Unit := do
  if read &&& 1 ≠ 0 then do
    loadPartOrSpin dtbPart
    loadPartOrSpin fwPart
  else pure ()
  modifyMem fun l => ⟨bootZslFw, 0, bootZslDtb, 0⟩ :: l

/-! ## Loads -/

variable {env : Env ReadCall}

/-- The search of a load from `s` succeeds, with this range and the state after it. -/
def Part.Found (env : Env ReadCall) (p : Part) (s : St ReadCall (List Launch))
    (rng : LbaRange) (s₁ : St ReadCall (List Launch)) : Prop :=
  ∃ partIdx : Int, 0 ≤ partIdx ∧ p.find env s = (.ok (partIdx, rng), s₁)

/-- The answer to the copy of `rng`, made in state `s₁`. -/
def Part.copyReply (env : Env ReadCall) (p : Part) (rng : LbaRange)
    (s₁ : St ReadCall (List Launch)) : Reply := env s₁.calls (rng.copyCall p.dst)

/-- The state after the copy of `rng`, made in state `s₁`. -/
def Part.copied (env : Env ReadCall) (p : Part) (rng : LbaRange)
    (s₁ : St ReadCall (List Launch)) : St ReadCall (List Launch) :=
  { s₁ with calls := (rng.copyCall p.dst, p.copyReply env rng s₁) :: s₁.calls }

/-- A complete load: the search succeeded and the copy of the whole range
returned 0. -/
def Part.Loaded (env : Env ReadCall) (p : Part) (s s' : St ReadCall (List Launch)) : Prop :=
  ∃ rng s₁, p.Found env s rng s₁ ∧ (p.copyReply env rng s₁).ret = 0 ∧ s' = p.copied env rng s₁

theorem Part.Found.unique {p : Part} {s s₁ s₁' : St ReadCall (List Launch)} {rng rng' : LbaRange}
    (h : p.Found env s rng s₁) (h' : p.Found env s rng' s₁') : rng = rng' ∧ s₁ = s₁' := by
  obtain ⟨i, _, h⟩ := h
  obtain ⟨i', _, h'⟩ := h'
  have heq := h.symm.trans h'
  simp only [Prod.mk.injEq, Except.ok.injEq] at heq
  exact ⟨heq.1.2, heq.2⟩

/-- A load either copies the partition it found, whatever the copy returns, or
spins because there is none. -/
theorem loadPartOrSpin_spec (p : Part) (s : St ReadCall (List Launch)) :
    wp env (loadPartOrSpin p)
      (fun _ s' => s'.mem = s.mem ∧ ∃ rng s₁, p.Found env s rng s₁ ∧ s' = p.copied env rng s₁)
      (fun e s' => e = .spin ∧ s'.mem = s.mem ∧ ∀ rng s₁, ¬p.Found env s rng s₁) s := by
  unfold loadPartOrSpin
  rw [wp_bind, wp_attempt]
  refine wp_mono (wp_run (gptFindPartition_spec (searchOnly_refl s))) (fun r s₁ h₁ => ?_)
    (fun e s₁ h₁ => ?_)
  · obtain ⟨hfind, hs₁, _⟩ := h₁
    dsimp only
    rw [wp_ite]
    by_cases hidx : r.1 < 0
    · rw [if_pos hidx]
      refine ⟨rfl, hs₁.mem_eq, ?_⟩
      intro rng s₂ hfound
      obtain ⟨i, hi, hfound⟩ := hfound
      have heq : (Except.ok r, s₁) = (Except.ok (i, rng), s₂) := hfind.symm.trans hfound
      simp only [Prod.mk.injEq, Except.ok.injEq] at heq
      rw [heq.1] at hidx
      exact absurd hidx (Int.not_lt.mpr hi)
    · rw [if_neg hidx, wp_bind, wp_ask, wp_pure]
      exact ⟨hs₁.mem_eq, r.2, s₁, ⟨r.1, Int.not_lt.mp hidx, hfind⟩, rfl⟩
  · obtain ⟨hfail, hspin, hs₁⟩ := h₁
    cases e with
    | spin => exact absurd rfl hspin
    | ret c =>
      refine ⟨rfl, hs₁.mem_eq, ?_⟩
      intro rng s₂ hfound
      obtain ⟨i, _, hfound⟩ := hfound
      have heq : (Except.error (Stop.ret c), s₁) = (Except.ok (i, rng), s₂) :=
        hfail.symm.trans hfound
      simp at heq

/-! ## The launch -/

def zslStart : St ReadCall (List Launch) := ⟨[], []⟩

/-- Both partitions are found: the device tree from the start, then, whatever its
copy returned, the firmware. -/
def BothFound (env : Env ReadCall) (dtb fw : LbaRange) (s₁ s₂ : St ReadCall (List Launch)) : Prop :=
  dtbPart.Found env zslStart dtb s₁ ∧ fwPart.Found env (dtbPart.copied env dtb s₁) fw s₂

/-- Both loads are complete, one after the other. -/
def BothLoaded (env : Env ReadCall) : Prop :=
  ∃ s₁ s₂, dtbPart.Loaded env zslStart s₁ ∧ fwPart.Loaded env s₁ s₂

/-- What a load has the callback look for. -/
def Part.wanted (p : Part) : Wanted := ⟨p.maxLbas, some p.guid, none⟩

/-- On a medium that delivers a device tree in the blocks `dtb` and then a firmware in the
blocks `fw`, the reads of these blocks succeed. -/
def CopiesSucceed (env : Env ReadCall) : Prop :=
  ∀ dtb fw t₁ t₂, DeliversPart env dtbPart.wanted [] dtb t₁ →
    DeliversPart env fwPart.wanted (asked env t₁ (dtb.copyCall bootZslDtb)) fw t₂ →
    (env t₁ (dtb.copyCall bootZslDtb)).ret = 0 ∧ (env t₂ (fw.copyCall bootZslFw)).ret = 0

/-- The firmware is called only after two complete loads; every other run spins
without calling it. -/
def LaunchSound (env : Env ReadCall) (read : BitVec 32) : Prop :=
  ((zslMain read env zslStart).2.mem ≠ [] → BothLoaded env) ∧
    (¬BothLoaded env →
      (zslMain read env zslStart).1 = .error .spin ∧ (zslMain read env zslStart).2.mem = [])

/-- The launch depends on the two searches alone. -/
theorem zslMain_launch {read : BitVec 32} (hgpt : read &&& 1 ≠ 0) :
    wp env (zslMain read)
      (fun _ s' => s'.mem = [⟨bootZslFw, 0, bootZslDtb, 0⟩] ∧ ∃ dtb fw s₁ s₂,
        BothFound env dtb fw s₁ s₂)
      (fun e s' => e = .spin ∧ s'.mem = [] ∧ ∀ dtb fw s₁ s₂, ¬BothFound env dtb fw s₁ s₂)
      zslStart := by
  unfold zslMain
  rw [if_pos hgpt]
  simp only [wp_bind, wp_modifyMem]
  refine wp_mono (loadPartOrSpin_spec dtbPart zslStart) (fun _ s₁ h₁ => ?_) (fun e s₁ h₁ => ?_)
  · obtain ⟨hmem, dtb, t₁, hdtb, rfl⟩ := h₁
    refine wp_mono (loadPartOrSpin_spec fwPart _) (fun _ s₂ h₂ => ?_) (fun e s₂ h₂ => ?_)
    · obtain ⟨hmem₂, fw, t₂, hfw, _⟩ := h₂
      refine ⟨?_, dtb, fw, t₁, t₂, hdtb, hfw⟩
      rw [hmem₂, hmem]
      rfl
    · obtain ⟨rfl, hmem₂, hnone⟩ := h₂
      refine ⟨rfl, hmem₂.trans hmem, ?_⟩
      intro dtb' fw t₁' t₂ hboth
      obtain ⟨rfl, rfl⟩ := hdtb.unique hboth.1
      exact hnone fw t₂ hboth.2
  · obtain ⟨rfl, hmem, hnone⟩ := h₁
    exact ⟨rfl, hmem, fun dtb _ t₁ _ hboth => hnone dtb t₁ hboth.1⟩

/-- A search succeeds exactly where the medium delivers its partition. -/
theorem Part.found_iff {p : Part} {s s₁ : St ReadCall (List Launch)} {rng : LbaRange} :
    p.Found env s rng s₁ ↔ DeliversPart env p.wanted s.calls rng s₁.calls ∧ s₁.mem = s.mem := by
  have hrun : wp env p.find _ _ s := wp_run (gptFindPartition_answers (w := p.wanted))
  constructor
  · intro hfound
    obtain ⟨i, hi, hfind⟩ := hfound
    obtain ⟨_, hmem, hroute⟩ := wp_ok hrun hfind
    rcases hroute with ⟨_, hdel⟩ | ⟨hidx, _⟩
    · exact ⟨hdel, hmem⟩
    · have hidx : i = -1 := hidx
      omega
  · intro ⟨hdel, hmem⟩
    unfold wp at hrun
    split at hrun
    next r s₂ hfind =>
      obtain ⟨_, hmem₂, hroute⟩ := hrun
      rcases hroute with ⟨hidx, hdel₂⟩ | ⟨_, hnone⟩
      · obtain ⟨hrng, hcalls⟩ := hdel.unique hdel₂
        have hs : s₁ = s₂ := by
          cases s₁
          exact congr (congrArg St.mk hcalls) (hmem.trans hmem₂.symm)
        refine ⟨r.1, hidx, ?_⟩
        rw [hrng, hs]
        exact hfind
      · exact absurd hnone hdel.not_noneWanted
    next e s₂ hfind =>
      obtain ⟨_, hno, _⟩ := hrun
      exact absurd hdel (hno rng s₁.calls)

/-- The loader finds both partitions exactly where the medium delivers both. -/
theorem bothFound_iff {dtb fw : LbaRange} {s₁ s₂ : St ReadCall (List Launch)} :
    BothFound env dtb fw s₁ s₂ ↔
      (DeliversPart env dtbPart.wanted [] dtb s₁.calls ∧ s₁.mem = []) ∧
        DeliversPart env fwPart.wanted (asked env s₁.calls (dtb.copyCall bootZslDtb)) fw s₂.calls ∧
        s₂.mem = s₁.mem := by
  unfold BothFound
  rw [Part.found_iff, Part.found_iff]
  rfl

theorem bothLoaded_iff {dtb fw : LbaRange} {s₁ s₂ : St ReadCall (List Launch)}
    (h : BothFound env dtb fw s₁ s₂) :
    BothLoaded env ↔
      (dtbPart.copyReply env dtb s₁).ret = 0 ∧ (fwPart.copyReply env fw s₂).ret = 0 := by
  constructor
  · intro hloaded
    obtain ⟨t₁, t₂, ⟨dtb', u₁, hdtb, hret₁, rfl⟩, fw', u₂, hfw, hret₂, _⟩ := hloaded
    obtain ⟨rfl, rfl⟩ := h.1.unique hdtb
    obtain ⟨rfl, rfl⟩ := h.2.unique hfw
    exact ⟨hret₁, hret₂⟩
  · intro hret
    exact ⟨_, _, ⟨dtb, s₁, h.1, hret.1, rfl⟩, fw, s₂, h.2, hret.2, rfl⟩

/-- **When the launch can be trusted, exactly.** Whatever the boot ROM's `read` answers,
the firmware runs only after two complete loads, and other runs spin, if and only if on a
medium with both partitions the reads that copy them succeed. -/
theorem zslMain_sound_iff (env : Env ReadCall) (read : BitVec 32) (hgpt : read &&& 1 ≠ 0) :
    LaunchSound env read ↔ CopiesSucceed env := by
  have hrun : wp env (zslMain read) _ _ zslStart := zslMain_launch hgpt
  unfold LaunchSound
  unfold wp at hrun
  split at hrun
  next s' hx =>
    -- the firmware was called: both partitions were found, and so delivered
    obtain ⟨hmem, dtb, fw, s₁, s₂, hboth⟩ := hrun
    rw [hx]
    have hiff := bothLoaded_iff hboth
    obtain ⟨⟨hdtb, _⟩, hfw, _⟩ := bothFound_iff.mp hboth
    constructor
    · intro h dtb' fw' t₁ t₂ hdtb' hfw'
      obtain ⟨rfl, rfl⟩ := hdtb.unique hdtb'
      obtain ⟨rfl, rfl⟩ := hfw.unique hfw'
      exact hiff.mp (h.1 (by simp [hmem]))
    · intro h
      have hloaded := hiff.mpr (h dtb fw s₁.calls s₂.calls hdtb hfw)
      exact ⟨fun _ => hloaded, fun hno => absurd hloaded hno⟩
  next e s' hx =>
    -- a search failed: the medium delivers one of the partitions at most
    obtain ⟨rfl, hmem, hnone⟩ := hrun
    rw [hx]
    refine ⟨fun _ dtb fw t₁ t₂ hdtb hfw => ?_, fun _ => ?_⟩
    · have hboth : BothFound env dtb fw ⟨t₁, []⟩ ⟨t₂, []⟩ :=
        bothFound_iff.mpr ⟨⟨hdtb, rfl⟩, hfw, rfl⟩
      exact absurd hboth (hnone dtb fw _ _)
    · exact ⟨fun hlaunch => absurd hmem hlaunch, fun _ => ⟨rfl, hmem⟩⟩

/-- A disk with a device tree in blocks 34 to 40 and firmware in blocks 64 to 99,
on which every copy to memory returns `copyRet`. -/
def zslDisk (copyRet : Code) : Env ReadCall := fun _ q =>
  match q.dst with
  | .sig => ⟨0, words 0x5452415020494645 0⟩
  | .hf => ⟨0, words 2 0x8000000002⟩
  | .dim => ⟨0, if q.addr = 0x420 then words 34 40 else words 64 99⟩
  | .guid => ⟨0, if q.addr = 0x400 then words bootDtbTypeGuid.1 bootDtbTypeGuid.2
      else words bootFwTypeGuid.1 bootFwTypeGuid.2⟩
  | .mem _ => ⟨copyRet, words 0 0⟩

theorem zslMain_sound_good_disk :
    (0x10000001#32 &&& 1 ≠ 0) ∧ LaunchSound (zslDisk 0) 0x10000001 ∧
      (zslMain 0x10000001 (zslDisk 0) zslStart).2.mem = [⟨bootZslFw, 0, bootZslDtb, 0⟩] :=
  ⟨by decide, (zslMain_sound_iff _ _ (by decide)).mpr (fun _ _ _ _ _ _ => ⟨rfl, rfl⟩), by decide⟩

/-- When both copies fail with 0x19, the firmware is called all the same. -/
theorem zslMain_unsound_failed_copies : ¬LaunchSound (zslDisk 0x19) 0x10000001 := by
  intro h
  have hlaunched : (zslMain 0x10000001 (zslDisk 0x19) zslStart).2.mem ≠ [] := by decide
  have hdtb : dtbPart.Found (zslDisk 0x19) zslStart ⟨34, 40⟩
      (dtbPart.find (zslDisk 0x19) zslStart).2 := ⟨0, by decide, Prod.ext (by decide) rfl⟩
  have hfw : fwPart.Found (zslDisk 0x19)
      (dtbPart.copied (zslDisk 0x19) ⟨34, 40⟩ (dtbPart.find (zslDisk 0x19) zslStart).2) ⟨64, 99⟩
      (fwPart.find (zslDisk 0x19) (dtbPart.copied (zslDisk 0x19) ⟨34, 40⟩
        (dtbPart.find (zslDisk 0x19) zslStart).2)).2 := ⟨1, by decide, Prod.ext (by decide) rfl⟩
  have hret : (0x19 : Code) = 0 := ((bothLoaded_iff ⟨hdtb, hfw⟩).mp (h.1 hlaunched)).1
  exact absurd hret (by decide)

end Cheshire.Sw
