import Mathlib.Algebra.Group.Nat.Defs
import Cheshire.Sw.GptAnswers

/-!
# How much `gpt_boot_part_else_raw` copies into the boot buffer

Three routes lead to the copy: a partition that matched, the first partition as
a fallback, and the raw medium. A match passed the size filter, and the raw
range is `max_lbas` long by construction; the fallback is entry 0 clamped by

    *lba_end = MIN(dim.lba_end, dim.lba_begin + max_lbas - 1)

which bounds the end from above only. An entry whose end lies *below* its begin
passes the `MIN` with its own end, and the inclusive length wraps to nearly
`2^64` bytes (`clampRange_len_le_iff`). Everything else is bounded, so
`gptBoot_bounded_iff` is exact: the copy stays within the buffer unless the
medium delivers such an entry as its first, and none that qualifies.
-/

namespace Cheshire.Sw

open Firmware Firmware.Prog

variable {env : Env ReadCall}

/-- The number of bytes that a copy of `r` transfers, with the wraps of the source. -/
def LbaRange.copyLen (r : LbaRange) : BitVec 64 := 0x200 * (r.lbaEnd - r.lbaBegin + 1)

/-! ## The length of the copy -/

/-- An end far enough below the begin that the inclusive length, taken modulo
`2^64` bytes, is longer than the buffer. (Lengths wrap at `2^55` blocks of 512
bytes; a begin within `max_lbas` of `2^64` clamps to a wrapped end instead.) -/
def LbaRange.Inverted (maxLbas : BitVec 64) (d : LbaRange) : Prop :=
  d.lbaEnd.toNat < d.lbaBegin.toNat ∧ d.lbaBegin.toNat + maxLbas.toNat ≤ 2 ^ 64 ∧
    0 < (d.lbaBegin.toNat - d.lbaEnd.toNat - 1) % 2 ^ 55 ∧
    (d.lbaBegin.toNat - d.lbaEnd.toNat - 1) % 2 ^ 55 + maxLbas.toNat < 2 ^ 55

instance (maxLbas : BitVec 64) (d : LbaRange) : Decidable (d.Inverted maxLbas) :=
  inferInstanceAs (Decidable (_ ∧ _ ∧ _ ∧ _))

theorem copyLen_toNat (r : LbaRange) :
    r.copyLen.toNat = 0x200 * ((2 ^ 64 - r.lbaBegin.toNat + r.lbaEnd.toNat + 1) % 2 ^ 55) := by
  have hb := r.lbaBegin.isLt
  simp only [LbaRange.copyLen, BitVec.toNat_mul, BitVec.toNat_add, BitVec.toNat_sub,
    BitVec.ofNat_eq_ofNat, BitVec.toNat_ofNat]
  omega

theorem Fits.copyLen_le {maxLbas : BitVec 64} {r : LbaRange} (h : r.Fits maxLbas) :
    r.copyLen.toNat ≤ 0x200 * maxLbas.toNat := by
  unfold LbaRange.Fits at h
  rw [BitVec.toNat_sub] at h
  rw [copyLen_toNat]
  have hb := r.lbaBegin.isLt
  have he := r.lbaEnd.isLt
  omega

theorem rawRange_copyLen_le (maxLbas : BitVec 64) (hmax : 1 ≤ maxLbas.toNat) :
    (⟨0, maxLbas - 1⟩ : LbaRange).copyLen.toNat ≤ 0x200 * maxLbas.toNat := by
  rw [copyLen_toNat]
  have hm := maxLbas.isLt
  simp only [BitVec.toNat_sub, BitVec.ofNat_eq_ofNat, BitVec.toNat_ofNat]
  omega

/-- The clamp bounds the copy exactly when the entry is not inverted. -/
theorem clampRange_len_le_iff (maxLbas : BitVec 64) (hmax : 1 ≤ maxLbas.toNat) (d : LbaRange) :
    (clampRange maxLbas d).copyLen.toNat ≤ 0x200 * maxLbas.toNat ↔ ¬d.Inverted maxLbas := by
  have hm := maxLbas.isLt
  have hb := d.lbaBegin.isLt
  have he := d.lbaEnd.isLt
  have hclamp : (d.lbaBegin + maxLbas - 1).toNat
      = (d.lbaBegin.toNat + maxLbas.toNat + (2 ^ 64 - 1)) % 2 ^ 64 := by
    simp only [BitVec.toNat_sub, BitVec.toNat_add, BitVec.ofNat_eq_ofNat, BitVec.toNat_ofNat]
    omega
  rw [copyLen_toNat]
  unfold clampRange LbaRange.Inverted
  dsimp only
  split
  next hle =>
    rw [BitVec.le_def, hclamp] at hle
    omega
  next hgt =>
    rw [BitVec.le_def, hclamp] at hgt
    rw [hclamp]
    omega

/-! ## The boot -/

/-- Every read into the boot buffer is at most `max_lbas` blocks long. -/
def CodeReadsBounded (codeBuf maxLbas : BitVec 64) (t : Trace ReadCall) : Prop :=
  ∀ c ∈ t, c.1.dst = .mem codeBuf → c.1.len.toNat ≤ 0x200 * maxLbas.toNat

/-- The medium has a GPT with at least one entry, and none of its entries qualifies. -/
def FallsBack (env : Env ReadCall) (w : Wanted) : Prop :=
  SeesGpt env ∧ NoneWanted env w (afterSig env) ∧ (headerAt env (afterSig env)).count.toNat ≠ 0

/-- The range the boot settles on, by route: entry 0, clamped, if the boot falls back on
it, or else a range that is bounded whatever the medium says. -/
theorem gptBootRange_spec {maxLbas : BitVec 64} (hmax : 1 ≤ maxLbas.toNat)
    {tguid pguid : Option Guid} :
    wp env (gptBootRange maxLbas tguid pguid)
      (fun rng s' => SearchOnly [] [] s' ∧
        ((¬FallsBack env ⟨maxLbas, tguid, pguid⟩ ∧
            rng.copyLen.toNat ≤ 0x200 * maxLbas.toNat) ∨
          (FallsBack env ⟨maxLbas, tguid, pguid⟩ ∧
            rng = clampRange maxLbas (firstEntryAt env (afterSig env)))))
      (fun _ s' => SearchOnly [] [] s' ∧ ¬FallsBack env ⟨maxLbas, tguid, pguid⟩)
      (⟨[], []⟩ : St ReadCall (List BootEvent)) := by
  have hraw := rawRange_copyLen_le maxLbas hmax
  unfold gptBootRange
  rw [wp_bind]
  refine wp_mono (wp_and (gptCheckSignature_spec (searchOnly_refl _)) (gptCheckSignature_sees env))
    (fun gpt s₁ h₁ => ?_) (fun _ _ he => he.1.elim)
  obtain ⟨hs₁, rfl, hsig⟩ := h₁
  cases gpt with
  | false => exact ⟨hs₁, Or.inl ⟨fun h => Bool.noConfusion (hsig.mpr h.1), hraw⟩⟩
  | true =>
    rw [if_pos rfl, wp_bind]
    refine wp_mono (wp_and (gptFindPartition_spec hs₁)
      (gptFindPartition_answers (w := ⟨maxLbas, tguid, pguid⟩))) (fun r s₂ h₂ => ?_)
      (fun e s₂ h₂ => ?_)
    · obtain ⟨⟨hs₂, hfits, hout⟩, _, hroute⟩ := h₂
      refine ⟨hs₂, ?_⟩
      rcases hroute with ⟨hidx, hdel⟩ | ⟨hidx, hnone⟩
      · have hne : r.1 ≠ -1 := by omega
        exact Or.inl ⟨fun h => hdel.not_noneWanted h.2.1,
          Fits.copyLen_le (hfits.resolve_left hne)⟩
      · by_cases hcount : (headerAt env (afterSig env)).count.toNat = 0
        · -- no entries at all: the raw range is still in place
          rw [hout hidx, if_pos hcount]
          exact Or.inl ⟨fun h => h.2.2 hcount, hraw⟩
        · rw [hout hidx, if_neg hcount]
          exact Or.inr ⟨⟨hsig.mp rfl, hnone, hcount⟩, rfl⟩
    · obtain ⟨⟨_, hs₂⟩, _, hno⟩ := h₂
      exact ⟨hs₂, fun h => hno h.2.1⟩

/-- A trace whose calls before the copy stayed on the stack is bounded exactly
when the copy is. -/
theorem codeReadsBounded_cons {codeBuf maxLbas : BitVec 64} {rng : LbaRange} {r : Reply}
    {s : St ReadCall (List BootEvent)} (hs : SearchOnly [] [] s) :
    CodeReadsBounded codeBuf maxLbas ((rng.copyCall codeBuf, r) :: s.calls)
      ↔ rng.copyLen.toNat ≤ 0x200 * maxLbas.toNat := by
  have ht := hs.stackOnly
  constructor
  · intro h
    exact h _ (List.mem_cons_self ..) rfl
  · intro h c hc hdst
    rcases List.mem_cons.mp hc with rfl | hc
    · exact h
    · exact absurd hdst (ht c hc codeBuf)

/-- **The boot buffer bound, exactly.** Whatever the medium delivers, each read into the
boot buffer is at most `max_lbas` blocks long, unless the medium has a GPT whose entries
do not qualify and whose first one ends before it begins. -/
theorem gptBoot_bounded_iff (env : Env ReadCall) (ptrs : BootPtrs) (codeBuf maxLbas : BitVec 64)
    (hmax : 1 ≤ maxLbas.toNat) (tguid pguid : Option Guid) :
    CodeReadsBounded codeBuf maxLbas
        (gptBootPartElseRaw ptrs codeBuf maxLbas tguid pguid env ⟨[], []⟩).2.calls
      ↔ (FallsBack env ⟨maxLbas, tguid, pguid⟩ →
          ¬(firstEntryAt env (afterSig env)).Inverted maxLbas) := by
  refine (wp_state (P := fun s' => CodeReadsBounded codeBuf maxLbas s'.calls
    ↔ (FallsBack env ⟨maxLbas, tguid, pguid⟩ →
        ¬(firstEntryAt env (afterSig env)).Inverted maxLbas))).mp ?_
  unfold gptBootPartElseRaw
  rw [wp_bind]
  refine wp_mono (gptBootRange_spec hmax) (fun rng s₁ h₁ => ?_) (fun e s₁ h₁ => ?_)
  · obtain ⟨hs₁, hroute⟩ := h₁
    have hiff : rng.copyLen.toNat ≤ 0x200 * maxLbas.toNat
        ↔ (FallsBack env ⟨maxLbas, tguid, pguid⟩ →
            ¬(firstEntryAt env (afterSig env)).Inverted maxLbas) := by
      rcases hroute with ⟨hno, hle⟩ | ⟨hfalls, rfl⟩
      · exact ⟨fun _ h => absurd h hno, fun _ => hle⟩
      · rw [clampRange_len_le_iff maxLbas hmax]
        exact ⟨fun h _ => h, fun h => h hfalls⟩
    rw [wp_bind, wp_check]
    exact ⟨fun _ => (codeReadsBounded_cons hs₁).trans hiff,
      fun _ => (codeReadsBounded_cons hs₁).trans hiff⟩
  · obtain ⟨hs₁, hno⟩ := h₁
    exact ⟨fun _ h => absurd h hno, fun _ c hc hdst => absurd hdst (hs₁.stackOnly c hc codeBuf)⟩

/-- A GPT disk with one entry, of type `(1, 2)` and blocks `b` to `e`. -/
def oneEntryDisk (b e : BitVec 64) : Env ReadCall := fun _ q =>
  match q.dst with
  | .sig => ⟨0, words 0x5452415020494645 0⟩
  | .hf => ⟨0, words 2 0x8000000001⟩
  | .dim => ⟨0, words b e⟩
  | .guid => ⟨0, words 1 2⟩
  | .mem _ => ⟨0, words 0 0⟩

theorem gptBoot_bounded_small_partition :
    CodeReadsBounded 0x10000000 96
      (gptBootPartElseRaw ⟨0, 0, 0⟩ 0x10000000 96 (some (1, 2)) none (oneEntryDisk 34 40)
        ⟨[], []⟩).2.calls := by
  refine (gptBoot_bounded_iff _ _ _ 96 (by decide) _ none).mpr (fun h => ?_)
  -- its one entry carries the GUID that is asked for
  exact absurd (h.2.1.2 0 (by decide)) (by decide)

/-- A first entry that runs from block 34 back to block 0 copies `2^64 - 16896`
bytes into the 48 KiB boot buffer. -/
theorem gptBoot_inverted_entry_overruns :
    ¬CodeReadsBounded 0x10000000 96
      (gptBootPartElseRaw ⟨0, 0, 0⟩ 0x10000000 96 (some (1, 2)) none (oneEntryDisk 34 0)
        ⟨[], []⟩).2.calls := by
  intro h
  exact absurd (h ((⟨34, 0⟩ : LbaRange).copyCall 0x10000000, ⟨0, words 0 0⟩)
    (List.mem_cons_self ..) rfl) (by decide)

end Cheshire.Sw
