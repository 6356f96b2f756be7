import Cheshire.Sw.NorBoot
import Cheshire.Sw.Zsl

/-!
# From the boot ROM to the firmware

The boot ROM copies the zero-stage loader into the SPM and enters it; the loader copies the
device tree and the firmware into the DRAM and enters the firmware. It has no driver of its
own: it calls the boot ROM's `read`, with the pointers `gpt_boot_part_else_raw` left in the
scratch registers.

`zslVia_loads` is the loader behind any driver that meets the contract of a boot. For the SPI
NOR flash `norChain_sound` is the whole chain: the firmware is entered, with the firmware and
the device tree of the medium in the DRAM, exactly if the medium has both.
-/

namespace Cheshire.Sw

open Firmware Firmware.Prog

/-! ## The hand-off -/

/-- What scratch register `i` holds behind these writes. -/
def scratchAt (i : Nat) : List BootEvent → BitVec 32
  | [] => 0
  | .scratch j v :: l => if j = i then v else scratchAt i l
  | _ :: l => scratchAt i l

/-- `rread`, `priv` and `rgp`, as `main` of the loader gets them. -/
def zslPtrs (events : List BootEvent) : BootPtrs :=
  ⟨(scratchAt 0 events &&& ~~~1).setWidth 64, (scratchAt 1 events).setWidth 64,
    (scratchAt 3 events).setWidth 64⟩

/-- Pointers that fit a register, with bit 0 of the code's address to spare. -/
structure BootPtrs.Small (ptrs : BootPtrs) : Prop where
  read : ptrs.read.toNat < 2 ^ 32
  even : ptrs.read.getLsbD 0 = false
  priv : ptrs.priv.toNat < 2 ^ 32
  gp : ptrs.gp.toNat < 2 ^ 32

theorem setWidth_small {v : BitVec 64} (h : v.toNat < 2 ^ 32) :
    (v.setWidth 32).setWidth 64 = v := by
  apply BitVec.eq_of_toNat_eq
  rw [BitVec.toNat_setWidth, BitVec.toNat_setWidth, Nat.mod_eq_of_lt h, Nat.mod_eq_of_lt v.isLt]

theorem clear_tag {v : BitVec 64} (h : v.getLsbD 0 = false) :
    (v ||| 1).setWidth 32 &&& ~~~1 = v.setWidth 32 := by
  apply BitVec.eq_of_getLsbD_eq
  intro i hi
  rw [BitVec.getLsbD_and, BitVec.getLsbD_not, BitVec.getLsbD_setWidth, BitVec.getLsbD_or,
    BitVec.getLsbD_setWidth]
  rcases Nat.eq_zero_or_pos i with rfl | hpos
  · rw [h]
    rfl
  · simp [BitVec.ofNat_eq_ofNat, BitVec.getLsbD_one, hi, Nat.pos_iff_ne_zero.mp hpos]

/-- The loader gets the pointers the boot ROM had. -/
theorem zslPtrs_bootEvents {ptrs : BootPtrs} (h : ptrs.Small) (codeBuf : BitVec 64) :
    zslPtrs (bootEvents ptrs codeBuf) = ptrs := by
  show (⟨((ptrs.read ||| 1).setWidth 32 &&& ~~~1).setWidth 64, (ptrs.priv.setWidth 32).setWidth 64,
    (ptrs.gp.setWidth 32).setWidth 64⟩ : BootPtrs) = ptrs
  rw [clear_tag h.even, setWidth_small h.read, setWidth_small h.priv, setWidth_small h.gp]

/-- Every boot through `gpt_boot_part_else_raw` is one the loader loads after. -/
theorem scratchAt_bootEvents (ptrs : BootPtrs) (codeBuf : BitVec 64) :
    scratchAt 0 (bootEvents ptrs codeBuf) &&& 1 ≠ 0 := by
  show (ptrs.read ||| 1).setWidth 32 &&& 1 ≠ 0
  intro h
  have hbit := congrArg (fun v : BitVec 32 => v.getLsbD 0) h
  simp at hbit

/-! ## The loads -/

/-- The code at an address, as its callers see it: `read(priv, …)` under a global pointer. -/
abbrev ReadCode (Q M : Type) := BootPtrs → ReadFn Q M

/-- `main` of the loader behind a boot, with the boot ROM's `read` behind `grread`. -/
def zslVia {Q M : Type} (f : BootFrame) (code : ReadCode Q M) (peek : M → Int → Byte)
    (events : List BootEvent) : Prog Q M (Except Stop Unit × List Launch) :=
  serve (readVia f (code (zslPtrs events)) peek) (zslMain (scratchAt 0 events)) []

/-- The number of bytes that the load of a partition needs at each destination. -/
def loadRoom (p : Part) : Dst → Nat
  | .sig => 0
  | .hf => 16
  | .dim => 16
  | .guid => 16
  | .mem a => if a = p.dst then 0x200 * p.maxLbas.toNat else 0

/-- The number of bytes that the loader needs at each destination. -/
def zslRoom (d : Dst) : Nat := max (loadRoom dtbPart d) (loadRoom fwPart d)

theorem roomy_zslRoom : Roomy zslRoom := ⟨Nat.le_refl 16, Nat.le_refl 16, Nat.le_refl 16⟩

/-- The partition `p` has to load: the first one of its type that is not too large. -/
def Part.Chosen (p : Part) (disk : Span.Memory) (rng : LbaRange) : Prop :=
  let h := diskHeader disk
  let fits := Qualifies disk h.toGptTable p.maxLbas (some p.guid) none
  ∃ k < h.count.toNat, fits k ∧ (∀ j < k, ¬fits j) ∧ rng = entryRange disk h.toGptTable k

/-- The calls of a load behind `t₀`: those of its search, then the copy. -/
structure LoadCalls (env : Env ReadCall) (n : Nat) (p : Part) (disk : Span.Memory)
    (rng : LbaRange) (t₀ new : Trace ReadCall) : Prop where
  chosen : p.Chosen disk rng
  onMedium : rng.OnMedium n p.maxLbas
  calls : ∃ t, new = (rng.copyCall p.dst, env (t ++ t₀) (rng.copyCall p.dst)) :: t ∧
    ∀ c ∈ t, BootCall n (loadRoom p) c.1

/-- One of the calls in this trace returned an error. -/
def SomeFailed (t : Trace ReadCall) : Prop := ∃ c ∈ t, c.2.ret ≠ 0

section loads

variable {env : Env ReadCall} {disk : Span.Memory} {n : Nat} {p : Part}

theorem chosen_of_selected {out : LbaRange} {r : Int × LbaRange}
    (h : Selected disk p.maxLbas (some p.guid) none out r) :
    (0 ≤ r.1 → p.Chosen disk r.2) ∧ (r.1 < 0 → ∀ rng, ¬p.Chosen disk rng) := by
  rcases h with ⟨k, hk, hq, hfirst, rfl⟩ | ⟨hnone, hidx, -⟩
  · exact ⟨fun _ => ⟨k, hk, hq, hfirst, rfl⟩, fun hlt => absurd hlt (by simp)⟩
  · rw [hidx]
    exact ⟨fun hle => absurd hle (by decide), fun _ rng ⟨k, hk, hq, _⟩ => hnone k hk hq⟩

theorem Part.Chosen.unique {rng rng' : LbaRange} (h : p.Chosen disk rng)
    (h' : p.Chosen disk rng') : rng = rng' := by
  obtain ⟨k, hk, hq, hfirst, rfl⟩ := h
  obtain ⟨k', hk', hq', hfirst', rfl⟩ := h'
  rcases Nat.lt_trichotomy k k' with hlt | rfl | hlt
  · exact absurd hq (hfirst' k hlt)
  · rfl
  · exact absurd hq' (hfirst k' hlt)

theorem Part.Chosen.onMedium {rng : LbaRange} (h : p.Chosen disk rng) (hmedium : Medium disk n)
    (hgpt : HasGpt disk) : rng.OnMedium n p.maxLbas := by
  obtain ⟨k, hk, hq, -, rfl⟩ := h
  exact hmedium.entry_onMedium hgpt hk hq.1

/-- Outside memory all rooms of the loader are alike. -/
theorem BootCall.loadRoom {q : ReadCall} (h : BootCall n zslRoom q) (hq : ∀ a, q.dst ≠ .mem a) :
    BootCall n (loadRoom p) q := by
  refine ⟨h.on, Nat.le_trans h.fits ?_⟩
  cases hdst : q.dst with
  | mem a => exact absurd hdst (hq a)
  | _ => exact Nat.le_refl _

theorem loadRoom_le (hp : p = dtbPart ∨ p = fwPart) (d : Dst) : Sw.loadRoom p d ≤ zslRoom d := by
  rcases hp with rfl | rfl
  · exact Nat.le_max_left _ _
  · exact Nat.le_max_right _ _

theorem BootCall.mono {room room' : Dst → Nat} {q : ReadCall} (h : BootCall n room q)
    (hroom : ∀ d, room d ≤ room' d) : BootCall n room' q :=
  ⟨h.on, Nat.le_trans h.fits (hroom _)⟩

/-- A load copies the partition it has to, or it spins. -/
theorem loadPartOrSpin_medium (henv : Honest env disk (BootCall n zslRoom))
    (hmedium : Medium disk n) (hgpt : HasGpt disk) (hp : p = dtbPart ∨ p = fwPart)
    {s : St ReadCall (List Launch)} (hs : Trusted n zslRoom [] s) :
    wp env (loadPartOrSpin p)
      (fun _ s' => Trusted n zslRoom [] s' ∧
        ∃ rng new, s'.calls = new ++ s.calls ∧ LoadCalls env n p disk rng s.calls new)
      (fun e s' => e = .spin ∧ Trusted n zslRoom [] s' ∧
        ((∀ rng, ¬p.Chosen disk rng) ∨ SomeFailed s'.calls)) s := by
  unfold loadPartOrSpin
  rw [wp_bind, wp_attempt]
  refine wp_mono (wp_and (gptFindPartition_medium henv roomy_zslRoom hmedium hgpt hs)
    (gptFindPartition_spec (searchOnly_refl s))) (fun r s₁ h₁ => ?_) fun e s₁ he => ?_
  · obtain ⟨⟨hs₁, hselected⟩, ⟨-, t, ht, hstack⟩, -⟩ := h₁
    obtain ⟨hchosen, hnone⟩ := chosen_of_selected hselected
    dsimp only
    rw [wp_ite]
    by_cases hidx : r.1 < 0
    · rw [if_pos hidx]
      exact ⟨rfl, hs₁, Or.inl (hnone hidx)⟩
    · -- `load_part_or_spin` does not look at what this read returns
      rw [if_neg hidx, wp_bind, wp_ask, wp_pure]
      have hrng := hchosen (Int.not_lt.mp hidx)
      have hon := hrng.onMedium hmedium hgpt
      have hcopy : BootCall n (loadRoom p) (r.2.copyCall p.dst) :=
        hon.bootCall hmedium.small (Nat.le_of_eq (if_pos rfl).symm)
      refine ⟨hs₁.call (hcopy.mono (loadRoom_le hp)) _, r.2,
        (r.2.copyCall p.dst, env (t ++ s.calls) (r.2.copyCall p.dst)) :: t, ?_, hrng, hon,
        t, rfl, fun c hc => ?_⟩
      · show _ :: s₁.calls = _
        rw [ht]
        rfl
      · refine (hs₁.calls c ?_).loadRoom (hstack c hc)
        rw [ht]
        exact List.mem_append_left _ hc
  · obtain ⟨⟨hs₁, q, t, hcalls, hret, rfl⟩, -⟩ := he
    refine ⟨rfl, hs₁, Or.inr ⟨(q, env t q), ?_, hret⟩⟩
    rw [hcalls]
    exact List.mem_cons_self

/-- The firmware is launched behind both loads, or not at all. -/
theorem zslMain_medium (henv : Honest env disk (BootCall n zslRoom)) (hmedium : Medium disk n)
    (hgpt : HasGpt disk) {read : BitVec 32} (hread : read &&& 1 ≠ 0) :
    wp env (zslMain read)
      (fun _ s' => s'.mem = [⟨bootZslFw, 0, bootZslDtb, 0⟩] ∧
        (∀ c ∈ s'.calls, BootCall n zslRoom c.1) ∧ ∃ dtb fw new₁ new₂, s'.calls = new₂ ++ new₁ ∧
          LoadCalls env n dtbPart disk dtb [] new₁ ∧ LoadCalls env n fwPart disk fw new₁ new₂)
      (fun e s' => e = .spin ∧ Trusted n zslRoom [] s' ∧
        ((∀ dtb fw, ¬(dtbPart.Chosen disk dtb ∧ fwPart.Chosen disk fw)) ∨ SomeFailed s'.calls))
      zslStart := by
  have hstart : Trusted n zslRoom [] zslStart := ⟨fun _ hc => absurd hc List.not_mem_nil, rfl⟩
  unfold zslMain
  rw [if_pos hread]
  simp only [wp_bind, wp_modifyMem]
  refine wp_mono (loadPartOrSpin_medium henv hmedium hgpt (Or.inl rfl) hstart)
    (fun _ s₁ h₁ => ?_) fun e s₁ he => ?_
  · obtain ⟨hs₁, dtb, new₁, hcalls₁, hdtb⟩ := h₁
    refine wp_mono (loadPartOrSpin_medium henv hmedium hgpt (Or.inr rfl) hs₁)
      (fun _ s₂ h₂ => ?_) fun e s₂ he => ?_
    · obtain ⟨hs₂, fw, new₂, hcalls₂, hfw⟩ := h₂
      obtain rfl : new₁ = s₁.calls := (List.append_nil new₁).symm.trans hcalls₁.symm
      refine ⟨?_, hs₂.calls, dtb, fw, s₁.calls, new₂, hcalls₂, hdtb, hfw⟩
      rw [hs₂.mem]
    · obtain ⟨rfl, hs₂, hwhy⟩ := he
      exact ⟨rfl, hs₂, hwhy.imp_left fun hnone _ fw h => hnone fw h.2⟩
  · obtain ⟨rfl, hs₁, hwhy⟩ := he
    exact ⟨rfl, hs₁, hwhy.imp_left fun hnone dtb _ h => hnone dtb h.1⟩

end loads

/-- What only reads, and what is then read is what the medium answers. -/
abbrev OnlyAsks {M α : Type} (x : Prog ReadCall M α) : Prop :=
  Meets (callsIn fun _ => True) (fun _ => True) x

section asks

variable {M : Type}

theorem check_asks (q : ReadCall) : OnlyAsks (check q : Prog ReadCall M (Nat → Byte)) :=
  meets_check (fun _ _ => trivial) (callsIn_allows trivial)

theorem gptGuidMatches_asks : ∀ (guid : Option Guid) (a : BitVec 64),
    OnlyAsks (gptGuidMatches guid a : Prog ReadCall M Bool)
  | none, _ => meets_pure _
  | some _, _ => meets_bind (check_asks _) fun _ => meets_pure _

theorem gptEntry_asks (t : GptTable) (maxLbas : BitVec 64) (tguid pguid : Option Guid) (p : Nat)
    (out : LbaRange) : OnlyAsks (gptEntry t maxLbas tguid pguid p out : Prog ReadCall M GptPass) :=
  meets_bind (check_asks _) fun _ => meets_ite (meets_pure _)
    (meets_bind (gptGuidMatches_asks _ _) fun _ => meets_ite (meets_pure _)
      (meets_bind (gptGuidMatches_asks _ _) fun _ => meets_pure _))

theorem gptScan_asks (t : GptTable) (maxLbas : BitVec 64) (tguid pguid : Option Guid) :
    ∀ (n p : Nat) (out dim : LbaRange), OnlyAsks
      (gptScan t maxLbas tguid pguid n p out dim : Prog ReadCall M (Nat × LbaRange × LbaRange))
  | 0, _, _, _ => meets_pure _
  | n + 1, p, _, _ => meets_bind (gptEntry_asks _ _ _ _ _ _) fun _ => meets_ite (meets_pure _)
    (gptScan_asks t maxLbas tguid pguid n (p + 1) _ _)

theorem loadPartOrSpin_asks (p : Part) : OnlyAsks (loadPartOrSpin p) := by
  have hfind : OnlyAsks p.find :=
    meets_bind (check_asks _) fun _ => meets_bind (gptScan_asks _ _ _ _ _ _ _ _) fun _ =>
      meets_ite (meets_pure _) (meets_pure _)
  refine meets_bind ((meets_attempt hfind).mono id fun _ _ => trivial) fun r => ?_
  cases r with
  | error c => exact meets_stop trivial
  | ok r =>
    exact meets_ite (meets_stop trivial)
      (meets_bind (meets_ask (callsIn_allows trivial)) fun _ => meets_pure _)

/-- All answers the loader gets are the medium's. -/
theorem zslMain_answered (env : Env ReadCall) (read : BitVec 32) :
    Answered env [] (zslMain read env zslStart).2.calls := by
  have hmain : OnlyAsks (zslMain read) :=
    meets_ite
      (meets_bind (loadPartOrSpin_asks _) fun _ => meets_bind (loadPartOrSpin_asks _) fun _ =>
        callsIn_modifyMem _)
      (meets_bind (meets_pure _) fun _ => callsIn_modifyMem _)
  refine (wp_state (P := fun u => Answered env [] u.calls)).mp
    (wp_mono (hmain env zslStart) (fun _ u hu => ?_) fun _ u hu => ?_)
  · obtain ⟨new, hnew, -, hans⟩ := hu
    rw [hnew]
    exact answered_append.mpr ⟨hans, trivial⟩
  · obtain ⟨⟨new, hnew, -, hans⟩, -⟩ := hu
    rw [hnew]
    exact answered_append.mpr ⟨hans, trivial⟩

end asks

/-! ## The loader behind a driver -/

/-- The range is in memory, from `p`'s destination on. -/
def Part.Holds (p : Part) (image : Nat → Byte) (rng : LbaRange) (memory : Int → Byte) : Prop :=
  ∀ k < 0x200 * (rng.lbaEnd.toNat + 1 - rng.lbaBegin.toNat),
    memory (p.dst.toNat + k) = image (0x200 * rng.lbaBegin.toNat + k)

/-- The loader's own variables are not in the memory it fills. -/
def BootFrame.OffDram (f : BootFrame) : Prop :=
  ∀ d : Dst, (∀ a, d ≠ .mem a) → f.addr d + 16 ≤ 0x80000000 ∨ 0x80808000 ≤ f.addr d

/-- How the loader ends on this medium, if some of its reads failed and if none did. -/
structure ZslOutcome (image : Nat → Byte) (failed : Prop) (memory : Int → Byte)
    (out : Except Stop Unit × List Launch) : Prop where
  launches : out.1 = .ok () → out.2 = [⟨bootZslFw, 0, bootZslDtb, 0⟩] ∧
    ∃ dtb fw, dtbPart.Chosen (diskOf image) dtb ∧ fwPart.Chosen (diskOf image) fw ∧
      (failed ∨ dtbPart.Holds image dtb memory ∧ fwPart.Holds image fw memory)
  spins : ∀ e, out.1 = .error e → e = .spin ∧ out.2 = [] ∧
    (failed ∨ ∀ dtb fw, ¬(dtbPart.Chosen (diskOf image) dtb ∧ fwPart.Chosen (diskOf image) fw))

section driver

variable {Q M : Type} {env : Env Q} {read : ReadFn Q M} {peek : M → Int → Byte}
  {image : Nat → Byte} {n : Nat} {I : St Q M → Prop} {F : Stop → Prop} {f : BootFrame} {p : Part}

/-- The calls the loader makes from `s` on, and the answers it gets. -/
def zslCalls (f : BootFrame) (code : ReadCode Q M) (peek : M → Int → Byte) (env : Env Q)
    (events : List BootEvent) (s : St Q M) : Trace ReadCall :=
  (zslMain (scratchAt 0 events) (served (readVia f (code (zslPtrs events)) peek) env s)
    zslStart).2.calls

/-- A load behind the calls `t₀`, through the driver; `K` is what holds behind these. -/
theorem replay_load (hread : DriverReads env read peek image n I F) (hn : n ≤ 2 ^ 63)
    (hp : p = dtbPart ∨ p = fwPart) {rng : LbaRange} {t₀ new : Trace ReadCall} {s : St Q M}
    {K : St Q M → Prop}
    (hload : LoadCalls (served (readVia f read peek) env s) n p (diskOf image) rng t₀ new)
    (h₀ : wp env (replay (readVia f read peek) t₀)
      (fun _ s₀ => BootKeeps I peek f zslRoom s s₀ ∧ K s₀)
      (fun e s' => BootKeeps I peek f zslRoom s s' ∧ e = .spin ∧ F e) s) :
    wp env (replay (readVia f read peek) (new ++ t₀))
      (fun _ s' => BootKeeps I peek f zslRoom s s' ∧
        (∃ s₀, K s₀ ∧ BootKeeps I peek f (loadRoom p) s₀ s') ∧
        (SomeFailed new ∨ p.Holds image rng (peek s'.mem)))
      (fun e s' => BootKeeps I peek f zslRoom s s' ∧ e = .spin ∧ F e) s := by
  obtain ⟨-, hon, t, rfl, ht⟩ := hload
  have hcopy : BootCall n (loadRoom p) (rng.copyCall p.dst) :=
    hon.bootCall hn (Nat.le_of_eq (if_pos rfl).symm)
  -- the search in front of the copy reads into the loader's variables only
  have hsearch : wp env (replay (readVia f read peek) (t ++ t₀))
      (fun _ s₁ => ∃ s₀, BootKeeps I peek f zslRoom s s₀ ∧ K s₀ ∧
        BootKeeps I peek f (loadRoom p) s₀ s₁)
      (fun e s' => BootKeeps I peek f zslRoom s s' ∧ e = .spin ∧ F e) s := by
    rw [wp_replay_append]
    refine wp_mono h₀ (fun _ s₀ h => ?_) fun _ _ he => he
    exact wp_mono (replay_keeps hread hn ht h.1.inv) (fun _ s₁ h₁ => ⟨s₀, h.1, h.2, h₁⟩)
      fun _ _ he => ⟨h.1.trans he.1 (loadRoom_le hp), he.2⟩
  refine wp_mono (wp_served (R := fun r s' => BootKeeps I peek f zslRoom s s' ∧
    (∃ s₀, K s₀ ∧ BootKeeps I peek f (loadRoom p) s₀ s') ∧
    (r.ret = 0 → p.Holds image rng (peek s'.mem))) hsearch fun s₁ h₁ => ?_)
    (fun _ s' h' => ⟨h'.1, h'.2.1, ?_⟩) fun _ _ he => he
  · obtain ⟨s₀, hkeeps, hK, h₁⟩ := h₁
    refine wp_mono (readVia_spec hread hn hcopy h₁) (fun r s₂ h₂ => ?_)
      fun _ _ he => ⟨hkeeps.trans he.1 (loadRoom_le hp), he.2⟩
    refine ⟨hkeeps.trans h₂.1 (loadRoom_le hp), ⟨s₀, hK, h₂.1⟩, fun hret k hk => ?_⟩
    rw [← @LbaRange.OnMedium.copyAddr n p.dst p.maxLbas rng hon hn]
    exact (h₂.2.2 hret k (by rw [hon.copyLen hn]; exact hk)).2
  · by_cases hret : (served (readVia f read peek) env s (t ++ t₀) (rng.copyCall p.dst)).ret = 0
    · exact Or.inr (h'.2.2 hret)
    · exact Or.inl ⟨_, List.mem_cons_self, hret⟩

theorem loadRoom_stack {d : Dst} (hd : ∀ a, d ≠ .mem a) : loadRoom p d ≤ 16 := by
  cases d with
  | mem a => exact absurd rfl (hd a)
  | sig => exact Nat.zero_le 16
  | _ => exact Nat.le_refl 16

/-- The firmware and the loader's variables are clear of the device tree. -/
theorem fwRoom_clear (hframe : f.OffDram) {k : Nat} (hk : k < 0x8000) :
    f.Outside (loadRoom fwPart) (bootZslDtb.toNat + k) := by
  intro d
  show 0x80800000 + (k : Int) < _ ∨ _ ≤ 0x80800000 + (k : Int)
  by_cases hd : ∃ a, d = .mem a
  · obtain ⟨a, rfl⟩ := hd
    show 0x80800000 + (k : Int) < (a.toNat : Int) ∨
      (a.toNat : Int) + (if a = bootZslFw then 0x400000 else 0 : Nat) ≤ _
    by_cases ha : a = bootZslFw
    · rw [if_pos ha, ha]
      show _ ∨ (0x80000000 : Int) + (0x400000 : Nat) ≤ _
      omega
    · rw [if_neg ha]
      omega
  · have hstack : ∀ a, d ≠ .mem a := fun a ha => hd ⟨a, ha⟩
    have hoff := hframe d hstack
    have hroom : loadRoom fwPart d ≤ 16 := loadRoom_stack hstack
    omega

/-- Below the DRAM, and outside its own variables on the stack, the loader writes nothing. -/
theorem zslRoom_clear {x : Int} (hx : x < 0x80000000)
    (hstack : ∀ d : Dst, (∀ a, d ≠ .mem a) → x < f.addr d ∨ f.addr d + 16 ≤ x) :
    f.Outside zslRoom x := by
  intro d
  unfold zslRoom
  by_cases hd : ∃ a, d = .mem a
  · obtain ⟨a, rfl⟩ := hd
    show _ < (a.toNat : Int) ∨ (a.toNat : Int) + (max (if a = bootZslDtb then 0x8000 else 0)
      (if a = bootZslFw then 0x400000 else 0) : Nat) ≤ _
    by_cases hdtb : a = bootZslDtb
    · have haddr : a.toNat = 0x80800000 := congrArg BitVec.toNat hdtb
      omega
    · by_cases hfw : a = bootZslFw
      · have haddr : a.toNat = 0x80000000 := congrArg BitVec.toNat hfw
        omega
      · rw [if_neg hdtb, if_neg hfw]
        omega
  · have hd' : ∀ a, d ≠ .mem a := fun a ha => hd ⟨a, ha⟩
    have hdtb : loadRoom dtbPart d ≤ 16 := loadRoom_stack hd'
    have hfw : loadRoom fwPart d ≤ 16 := loadRoom_stack hd'
    have hclear := hstack d hd'
    omega

/-- The loader on top of a driver that keeps its contract writes into its room only, and ends
with what its partitions and the outcome of its reads ask for. -/
theorem zslVia_loads {code : ReadCode Q M} {events : List BootEvent}
    (hread : DriverReads env (code (zslPtrs events)) peek image n I F)
    (hmedium : Medium (diskOf image) n) (hgpt : HasGpt (diskOf image)) (hframe : f.OffDram)
    (htag : scratchAt 0 events &&& 1 ≠ 0) {s : St Q M} (hs : I s) :
    wp env (zslVia f code peek events)
      (fun out s' => BootKeeps I peek f zslRoom s s' ∧
        ZslOutcome image (SomeFailed (zslCalls f code peek env events s)) (peek s'.mem) out)
      (fun e s' => BootKeeps I peek f zslRoom s s' ∧ e = .spin ∧ F e) s := by
  have hn := hmedium.small
  refine wp_serve (wp_mono (wp_run (zslMain_medium (served_honest hread hn hs) hmedium hgpt htag))
    (fun _ u hu => ?_) fun e u hu => ?_)
  · obtain ⟨hrun, hmem, -, dtb, fw, new₁, new₂, hcalls, hdtb, hfw⟩ := hu
    have hzsl : zslCalls f code peek env events s = new₂ ++ new₁ :=
      (congrArg (fun r => r.2.calls) hrun).trans hcalls
    rw [hcalls, hmem, hzsl]
    -- what the first load has left in memory is carried through the second one
    have h₁ := @replay_load _ _ env _ peek image n I F f dtbPart hread hn (Or.inl rfl) dtb [] new₁
      s (· = s) hdtb ⟨bootKeeps_refl hs, rfl⟩
    rw [List.append_nil] at h₁
    have h₂ := @replay_load _ _ env _ peek image n I F f fwPart hread hn (Or.inr rfl) fw new₁ new₂
      s (fun s₁ => SomeFailed new₁ ∨ dtbPart.Holds image dtb (peek s₁.mem)) hfw
      (wp_mono h₁ (fun _ s₁ h => ⟨h.1, h.2.2⟩) fun _ _ he => he)
    refine wp_mono h₂ (fun _ s' h' => ?_) fun _ _ he => he
    obtain ⟨hkeeps, ⟨s₁, hdtb₁, hkeeps₂⟩, hfw₂⟩ := h'
    refine ⟨hkeeps, fun _ => ⟨rfl, dtb, fw, hdtb.chosen, hfw.chosen, ?_⟩, fun e he => nomatch he⟩
    rcases hdtb₁ with ⟨c, hc, hret⟩ | hdtb₁
    · exact Or.inl ⟨c, List.mem_append_right _ hc, hret⟩
    rcases hfw₂ with ⟨c, hc, hret⟩ | hfw₂
    · exact Or.inl ⟨c, List.mem_append_left _ hc, hret⟩
    -- the second load leaves the device tree alone
    refine Or.inr ⟨fun k hk => ?_, hfw₂⟩
    have hshort := hdtb.onMedium.short
    have hordered := hdtb.onMedium.ordered
    change _ < _ + 64 at hshort
    exact (hkeeps₂.frame _ (fwRoom_clear hframe (by omega))).trans (hdtb₁ k hk)
  · obtain ⟨hrun, rfl, htrusted, hwhy⟩ := hu
    have hzsl : zslCalls f code peek env events s = u.calls :=
      congrArg (fun r => r.2.calls) hrun
    rw [htrusted.mem, hzsl]
    refine wp_mono (replay_keeps hread hn htrusted.calls hs) (fun _ s' h' => ?_)
      fun _ _ he => he
    refine ⟨h', fun hok => (nomatch hok), fun e he => ?_⟩
    cases he
    exact ⟨rfl, rfl, hwhy.symm⟩

/-- A read of the loader that failed is one of the driver's. -/
theorem zslCalls_failed {code : ReadCode Q M} {events : List BootEvent}
    (hread : DriverReads env (code (zslPtrs events)) peek image n I F)
    (hmedium : Medium (diskOf image) n) (hgpt : HasGpt (diskOf image))
    (htag : scratchAt 0 events &&& 1 ≠ 0) {s : St Q M} (hs : I s)
    (h : SomeFailed (zslCalls f code peek env events s)) : ∃ e, F e := by
  have hn := hmedium.small
  have hhonest : Honest (served (readVia f (code (zslPtrs events)) peek) env s) (diskOf image)
      (BootCall n zslRoom) := served_honest hread hn hs
  have hmain := zslMain_medium hhonest hmedium hgpt htag
  have htrusted : ∀ c ∈ zslCalls f code peek env events s, BootCall n zslRoom c.1 :=
    (wp_state (P := fun u => ∀ c ∈ u.calls, BootCall n zslRoom c.1)).mp
      (wp_mono hmain (fun _ u hu => hu.2.1) fun _ u hu => hu.2.1.calls)
  obtain ⟨c, hc, hret⟩ := h
  obtain ⟨t, ht, hans⟩ := (zslMain_answered _ _).mem hc
  rw [hans, List.append_nil] at hret
  refine served_spec (P := fun r : Reply => r.ret ≠ 0 → ∃ e, F e)
    (replay_keeps hread hn (fun d hd => htrusted d (ht d hd)) hs)
    (fun s₁ h₁ => wp_mono (readVia_spec hread hn (htrusted c hc) h₁)
      (fun r _ h₂ hr => ⟨_, h₂.2.1 hr⟩) fun _ _ he => he) (fun e _ he _ => ⟨e, he.2.2⟩) hret

/-! ## Behind a boot -/

/-- A run of the loader behind a boot that started in `s`: the loader is still as the boot
left it, and the firmware is launched or not as in `ZslOutcome`. -/
structure Entered (peek : M → Int → Byte) (image : Nat → Byte) (f fz : BootFrame)
    (codeBuf : BitVec 64) (sigFails failed : Prop) (s s' : St Q M)
    (out : Except Stop Unit × List Launch) : Prop where
  frame : ∀ x, f.Outside (Dst.room codeBuf bootSpmMaxLbas) x → fz.Outside zslRoom x →
    peek s'.mem x = peek s.mem x
  loader : ∃ rng : LbaRange,
    BootRange (diskOf image) bootSpmMaxLbas (some bootZslTypeGuid) none sigFails rng ∧
    ∀ k < 0x200 * (rng.lbaEnd.toNat + 1 - rng.lbaBegin.toNat),
      peek s'.mem (codeBuf.toNat + k) = image (0x200 * rng.lbaBegin.toNat + k)
  outcome : ZslOutcome image failed (peek s'.mem) out

/-- What is asked of the pointers the boot ROM hands over, of the code they point to and of
where the loader has its variables. -/
structure HandOff (image : Nat → Byte) (fz : BootFrame) (code : ReadCode Q M)
    (read : ReadFn Q M) (ptrs : BootPtrs) (codeBuf : BitVec 64) : Prop where
  gpt : HasGpt (diskOf image)
  small : ptrs.Small
  code : code ptrs = read
  offDram : fz.OffDram
  offLoader : ∀ k < 0x200 * bootSpmMaxLbas.toNat, fz.Outside zslRoom (codeBuf.toNat + k)

theorem zslVia_entered {fz : BootFrame} {code : ReadCode Q M} {ptrs : BootPtrs}
    {codeBuf : BitVec 64} {sigFails : Prop} {G : Stop → Prop} {s s₁ : St Q M}
    {events : List BootEvent}
    (hoff : HandOff image fz code read ptrs codeBuf) (hmedium : Medium (diskOf image) n)
    (hread : DriverReads env read peek image n I F) (hs₁ : I s₁)
    (hframe : ∀ x, f.Outside (Dst.room codeBuf bootSpmMaxLbas) x →
      peek s₁.mem x = peek s.mem x)
    (hboot : BootOutcome image n ptrs codeBuf bootSpmMaxLbas (some bootZslTypeGuid) none sigFails G
      (peek s₁.mem) (.ok (), events)) :
    wp env (zslVia fz code peek events)
      (fun out s' => I s' ∧ Entered peek image f fz codeBuf sigFails
          (SomeFailed (zslCalls fz code peek env (bootEvents ptrs codeBuf) s₁)) s s' out ∧
        (SomeFailed (zslCalls fz code peek env (bootEvents ptrs codeBuf) s₁) → ∃ e, F e))
      (fun e s' => I s' ∧ (∀ x, f.Outside (Dst.room codeBuf bootSpmMaxLbas) x →
        fz.Outside zslRoom x → peek s'.mem x = peek s.mem x) ∧ e = .spin ∧ F e) s₁ := by
  obtain ⟨rfl, rng, hrange, hon, hdata⟩ := hboot.boots rfl
  -- what the scratch registers hold is the driver the boot ROM used
  have hreads : DriverReads env (code (zslPtrs (bootEvents ptrs codeBuf))) peek image n I F := by
    rw [zslPtrs_bootEvents hoff.small, hoff.code]
    exact hread
  refine wp_mono (zslVia_loads hreads hmedium hoff.gpt hoff.offDram
    (scratchAt_bootEvents ptrs codeBuf) hs₁) (fun out s' h' => ?_) fun e s' he => ?_
  · obtain ⟨hkeeps, hout⟩ := h'
    refine ⟨hkeeps.inv, ⟨fun x hx hz => (hkeeps.frame x hz).trans (hframe x hx),
      ⟨rng, hrange, fun k hk => ?_⟩, hout⟩, zslCalls_failed hreads hmedium hoff.gpt
        (scratchAt_bootEvents ptrs codeBuf) hs₁⟩
    have hshort := hon.short
    have hordered := hon.ordered
    rw [hkeeps.frame _ (hoff.offLoader k (by omega))]
    exact hdata k hk
  · exact ⟨he.1.inv, fun x hx hz => (he.1.frame x hz).trans (hframe x hx), he.2⟩

/-- If no read fails, what decides is whether the medium has both partitions. -/
theorem Entered.launched_iff {fz : BootFrame} {codeBuf : BitVec 64} {sigFails failed : Prop}
    {s s' : St Q M} {out : Except Stop Unit × List Launch}
    (h : Entered peek image f fz codeBuf sigFails failed s s' out) (hno : ¬failed) :
    out.1 = .ok () ↔ ∃ dtb fw, dtbPart.Chosen (diskOf image) dtb ∧
      fwPart.Chosen (diskOf image) fw := by
  constructor
  · intro hok
    obtain ⟨-, dtb, fw, hdtb, hfw, -⟩ := h.outcome.launches hok
    exact ⟨dtb, fw, hdtb, hfw⟩
  · intro ⟨dtb, fw, hboth⟩
    obtain ⟨r, launched⟩ := out
    cases r with
    | ok => rfl
    | error e =>
      obtain ⟨-, -, hfailed | hnone⟩ := h.outcome.spins e rfl
      · exact absurd hfailed hno
      · exact absurd hboth (hnone dtb fw)

theorem ZslOutcome.mono {failed failed' : Prop} {memory : Int → Byte}
    {out : Except Stop Unit × List Launch} (h : ZslOutcome image failed memory out)
    (hf : failed → failed') : ZslOutcome image failed' memory out := by
  refine ⟨fun hok => ?_, fun e he => ?_⟩
  · obtain ⟨hout, dtb, fw, hdtb, hfw, hwhy⟩ := h.launches hok
    exact ⟨hout, dtb, fw, hdtb, hfw, hwhy.imp_left hf⟩
  · obtain ⟨hspin, hout, hwhy⟩ := h.spins e he
    exact ⟨hspin, hout, hwhy.imp_left hf⟩

end driver

/-! ## The chain from the SPI NOR flash -/

/-- The boot ROM's boot from the flash, and the loader if it is entered. -/
def norBootChain (hw : SpiHostParams) (f fz : BootFrame)
    (code : ReadCode (SpiHostCall NorCall) NorMem) (ptrs : BootPtrs)
    (codeBuf coreFreq rtcFreq : BitVec 64) : NorBootProg (Except Stop Unit × List Launch) := do
  let (r, events) ← bootSpiS25fs512s hw f ptrs codeBuf coreFreq rtcFreq
  match r with
  | .ok () => zslVia fz code norPeek events
  | .error e => stop e

/-- What is asked of the flash and of the hand-off. -/
structure NorChain (env : Env (SpiHostCall NorCall)) (image : List Byte) (hw : SpiHostParams)
    (fz : BootFrame) (code : ReadCode (SpiHostCall NorCall) NorMem) (ptrs : BootPtrs)
    (codeBuf coreFreq : BitVec 64) : Prop where
  bootable : NorBootable env image
  handOff : HandOff (fun a => image.getD a 0) fz code
    (norBootRead (norBootDevice coreFreq) hw.rxDepth) ptrs codeBuf

/-- How the chain ends: with the loader of the medium still in the SPM, if it was entered,
and then as in `ZslOutcome`. Of a medium that answers every call, what decides is whether it
has both partitions. -/
structure NorChainSound (env : Env (SpiHostCall NorCall)) (hw : SpiHostParams) (f fz : BootFrame)
    (codeBuf : BitVec 64) (image : List Byte) (coreFreq : BitVec 64)
    (s s' : St (SpiHostCall NorCall) NorMem) (r : Except Stop (Except Stop Unit × List Launch)) :
    Prop where
  frame : ∀ x, f.Outside (Dst.room codeBuf bootSpmMaxLbas) x → fz.Outside zslRoom x →
    norPeek s'.mem x = norPeek s.mem x
  loader : ∀ out, r = .ok out → ∃ rng : LbaRange,
    BootRange (diskOf fun a => image.getD a 0) bootSpmMaxLbas (some bootZslTypeGuid) none
      (¬AllSucceed env) rng ∧
    ∀ k < 0x200 * (rng.lbaEnd.toNat + 1 - rng.lbaBegin.toNat),
      norPeek s'.mem (codeBuf.toNat + k) = image.getD (0x200 * rng.lbaBegin.toNat + k) 0
  outcome : ∀ out, r = .ok out →
    ZslOutcome (fun a => image.getD a 0) (¬AllSucceed env) (norPeek s'.mem) out
  launches : AllSucceed env → 1 < hw.numCs → 4 ≤ coreFreq.toNat →
    ∃ out, r = .ok out ∧ (out.1 = .ok () ↔ ∃ dtb fw,
      dtbPart.Chosen (diskOf fun a => image.getD a 0) dtb ∧
        fwPart.Chosen (diskOf fun a => image.getD a 0) fw)

section chain

variable {env : Env (SpiHostCall NorCall)} {image : List Byte} {hw : SpiHostParams}
  {f fz : BootFrame} {code : ReadCode (SpiHostCall NorCall) NorMem} {ptrs : BootPtrs}
  {codeBuf coreFreq : BitVec 64} {s s₁ s₂ : St (SpiHostCall NorCall) NorMem}

/-- The boot ROM returned an error. -/
theorem norChainSound_stopped {e : Stop}
    {r : Except Stop (Except Stop Unit × List BootEvent)} (hr : ∀ ev, r ≠ .ok (.ok (), ev))
    (h : NorBootSound env hw f ptrs codeBuf image coreFreq s s₁ r) :
    NorChainSound env hw f fz codeBuf image coreFreq s s₁ (.error e) := by
  refine ⟨fun x hx _ => h.frame x hx, fun out ho => (nomatch ho), fun out ho => (nomatch ho),
    fun hall hcs hfreq => ?_⟩
  obtain ⟨ev, hev⟩ := h.succeeds hall hcs hfreq
  exact absurd hev (hr ev)

/-- What the loader guarantees of its own run, put behind a boot that entered it, is what the
chain guarantees. -/
theorem norChainSound_entered {sigFails failed : Prop} {out : Except Stop Unit × List Launch}
    (hsig : sigFails → ¬AllSucceed env) (hfailed : failed → ¬AllSucceed env)
    (h : Entered norPeek (fun a => image.getD a 0) f fz codeBuf sigFails failed s s₂ out) :
    NorChainSound env hw f fz codeBuf image coreFreq s s₂ (.ok out) := by
  refine ⟨h.frame, fun out' ho => ?_, fun out' ho => ?_,
    fun hall _ _ => ⟨out, rfl, h.launched_iff fun hf => hfailed hf hall⟩⟩
  · obtain ⟨rng, hrange, hdata⟩ := h.loader
    exact ⟨rng, hrange.imp_right fun hraw => ⟨hraw.1, fun hgpt => hsig (hraw.2 hgpt)⟩, hdata⟩
  · cases ho
    exact h.outcome.mono hfailed

theorem norChain_sound (hchain : NorChain env image hw fz code ptrs codeBuf coreFreq)
    (hdepth : 0 < hw.rxDepth) (f : BootFrame) (rtcFreq : BitVec 64)
    {s s' : St (SpiHostCall NorCall) NorMem} {r : Except Stop (Except Stop Unit × List Launch)}
    (hrun : norBootChain hw f fz code ptrs codeBuf coreFreq rtcFreq env s = (r, s')) :
    NorChainSound env hw f fz codeBuf image coreFreq s s' r := by
  have himage := hchain.bootable
  have hreads := norBootRead_reads himage.small himage.flash rfl (norBootDevice_slow coreFreq)
    hdepth
  have hspec : wp env (norBootChain hw f fz code ptrs codeBuf coreFreq rtcFreq)
      (fun out s' => NorChainSound env hw f fz codeBuf image coreFreq s s' (.ok out))
      (fun e s' => NorChainSound env hw f fz codeBuf image coreFreq s s' (.error e)) s := by
    unfold norBootChain
    rw [wp_bind]
    refine wp_mono (norBoot_spec himage hw hdepth f ptrs codeBuf coreFreq rtcFreq s)
      (fun out s₁ h₁ => ?_) fun e s₁ he => norChainSound_stopped (by simp) he
    obtain ⟨r, events⟩ := out
    cases r with
    | error e => exact norChainSound_stopped (by simp) h₁
    | ok =>
      obtain ⟨s₀, -, hsig, houtcome⟩ := h₁.outcome _ rfl
      refine wp_mono (zslVia_entered hchain.handOff himage.bootable.toMedium hreads trivial
        h₁.frame houtcome)
        (fun out s₂ h₂ => ?_) fun e s₂ he => absurd he.2.2.1 he.2.2.2.1
      obtain ⟨-, hentered, hfails⟩ := h₂
      refine norChainSound_entered hsig (fun hf => ?_) hentered
      obtain ⟨e, -, hall⟩ := hfails hf
      exact hall
  cases r with
  | ok out => exact wp_ok hspec hrun
  | error e => exact wp_error hspec hrun

end chain

/-! ## A hand-off -/

/-- The boot ROM's `read` at the address it hands over, and nothing elsewhere. -/
def bootRomCode {Q M : Type} (read : ReadFn Q M) : ReadCode Q M := fun ptrs =>
  if ptrs.read = 0x2000100 then read else fun _ _ _ => stop .spin

theorem zslDisk_chosen {p : Part} {k : Nat} (hk : k < 3)
    (hfits : (zslDiskEntry k).2.Fits p.maxLbas) (hguid : p.guid = (zslDiskEntry k).1)
    (hfirst : ∀ j < k, p.guid ≠ (zslDiskEntry j).1) :
    p.Chosen (diskOf fun a => zslImage.getD a 0) (zslDiskEntry k).2 := by
  unfold Part.Chosen
  rw [zslDisk_header]
  refine ⟨k, hk, (zslDisk_qualifies hk _ _).mpr ⟨hfits, hguid⟩, fun j hj hq => ?_,
    (zslDisk_entry hk).symm⟩
  exact hfirst j hj ((zslDisk_qualifies (Nat.lt_trans hj hk) _ _).mp hq).2

theorem zslDisk_dtb : dtbPart.Chosen (diskOf fun a => zslImage.getD a 0) ⟨41, 42⟩ :=
  zslDisk_chosen (show 1 < 3 by decide) (show (1 : Nat) < 64 by decide) rfl (by decide)

theorem zslDisk_fw : fwPart.Chosen (diskOf fun a => zslImage.getD a 0) ⟨43, 50⟩ :=
  zslDisk_chosen (show 2 < 3 by decide) (show (7 : Nat) < 8192 by decide) rfl (by decide)

/-- The stack of the boot ROM, in the SPM behind its first 64 KiB. -/
def romFrame : BootFrame := ⟨0x1001FF00, 0x1001FF08, 0x1001FF18, 0x1001FF28⟩

/-- The loader's variables on the stack, below those of the boot ROM. -/
def zslFrame : BootFrame := ⟨0x1001FD00, 0x1001FD08, 0x1001FD18, 0x1001FD28⟩

def romPtrs : BootPtrs := ⟨0x2000100, 0x1001FFE0, 0x2000800⟩

theorem zslImage_handOff {Q M : Type} (read : ReadFn Q M) :
    HandOff (fun a => zslImage.getD a 0) zslFrame (bootRomCode read) read romPtrs 0x10000000 := by
  refine ⟨zslDisk_hasGpt, ⟨by decide, by decide, by decide, by decide⟩, rfl, fun d hd => ?_,
    fun k hk => ?_⟩
  · left
    cases d with
    | mem a => exact absurd rfl (hd a)
    | _ => decide
  · change k < 0xC000 at hk
    show zslFrame.Outside zslRoom (0x10000000 + (k : Int))
    refine zslRoom_clear (by omega) fun d hd => Or.inl ?_
    have hbase : 0x1001FD00 ≤ zslFrame.addr d := by
      cases d with
      | mem a => exact absurd rfl (hd a)
      | _ => decide
    omega

/-- The firmware of a flash that has one is launched. -/
theorem norChain_sound_zslImage : ∃ s',
    norBootChain ⟨3, 64⟩ romFrame zslFrame (bootRomCode (norBootRead (norBootDevice 50000000) 64))
      romPtrs 0x10000000 50000000 32768 (flashEnv zslImage) ⟨[], norStart.mem⟩
      = (.ok (.ok (), [⟨bootZslFw, 0, bootZslDtb, 0⟩]), s') ∧
    fwPart.Holds (fun a => zslImage.getD a 0) ⟨43, 50⟩ (norPeek s'.mem) := by
  have hsmall : zslImage.length ≤ 2 ^ 32 := by
    rw [length_zslImage]
    decide
  obtain ⟨-, -, houtcome, hlaunches⟩ := @norChain_sound _ _ ⟨3, 64⟩ _ _ _ _ 50000000
    ⟨⟨hsmall, flashEnv_holds zslImage, zslDisk_bootable⟩, zslImage_handOff _⟩ (by decide) romFrame
    32768 ⟨[], norStart.mem⟩ _ _ (run_eq rfl)
  obtain ⟨⟨r, launched⟩, hr, hiff⟩ := hlaunches (flashEnv_succeeds zslImage) (by decide) (by decide)
  obtain rfl : r = .ok () := hiff.mpr ⟨_, _, zslDisk_dtb, zslDisk_fw⟩
  obtain ⟨hevents, dtb, fw, -, hfw, hfails | ⟨-, hholds⟩⟩ := (houtcome _ hr).launches rfl
  · exact absurd (flashEnv_succeeds zslImage) hfails
  · obtain rfl : launched = _ := hevents
    rw [hfw.unique zslDisk_fw] at hholds
    exact ⟨_, run_eq hr, hholds⟩

end Cheshire.Sw
