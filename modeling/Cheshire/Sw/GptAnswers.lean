import Cheshire.Sw.Gpt

/-!
# What the callback delivers to a search

The callback `read` may answer as it likes, and the same call differently the next time.
What the medium holds is then what the answers say, in the order in which they are asked
for. Everything here is read off the callback: the range and the GUIDs it delivers for an
entry, whether that entry qualifies (`Qualified`) or is passed over (`PassedOver`), and
whether the table delivers a partition (`DeliversPart`) or has none that is wanted
(`NoneWanted`).

`gptFindPartition_answers` says that this is all the search depends on: it returns the
partition that is delivered, or -1 where none qualifies, and fails otherwise.
-/

namespace Cheshire.Sw

open Firmware Firmware.Prog

/-- What a search looks for: at most so many blocks, and one of two GUIDs. -/
structure Wanted where
  maxLbas : BitVec 64
  tguid : Option Guid
  pguid : Option Guid

variable {M : Type} (env : Env ReadCall)

/-! ## One entry -/

/-- The calls answered so far, once `q` is answered too. -/
def asked (t : Trace ReadCall) (q : ReadCall) : Trace ReadCall := (q, env t q) :: t

def guidCall (a : BitVec 64) : ReadCall := ⟨.guid, a, 16⟩

/-- The GUID that the calls delivered for address `a`. -/
def guidOf (t : Trace ReadCall) (a : BitVec 64) : Guid :=
  (le64 (env t (guidCall a)).out 0, le64 (env t (guidCall a)).out 8)

/-- A GUID is wanted, and it is what `read` delivers for address `a`. -/
def GuidIs (t : Trace ReadCall) (a : BitVec 64) : Option Guid → Prop
  | none => False
  | some g => (env t (guidCall a)).ret = 0 ∧ guidOf env t a = g

/-- If a GUID is wanted, `read` delivers another one for address `a`. -/
def GuidOther (t : Trace ReadCall) (a : BitVec 64) : Option Guid → Prop
  | none => True
  | some g => (env t (guidCall a)).ret = 0 ∧ guidOf env t a ≠ g

/-- A GUID is asked for only if one is wanted. -/
def askedGuid (t : Trace ReadCall) (a : BitVec 64) : Option Guid → Trace ReadCall
  | none => t
  | some _ => asked env t (guidCall a)

instance (t : Trace ReadCall) (a : BitVec 64) : (guid : Option Guid) →
    Decidable (GuidIs env t a guid)
  | none => inferInstanceAs (Decidable False)
  | some _ => inferInstanceAs (Decidable (_ ∧ _))

instance (t : Trace ReadCall) (a : BitVec 64) : (guid : Option Guid) →
    Decidable (GuidOther env t a guid)
  | none => inferInstanceAs (Decidable True)
  | some _ => inferInstanceAs (Decidable (_ ∧ _))

instance (maxLbas : BitVec 64) (r : LbaRange) : Decidable (r.Fits maxLbas) :=
  inferInstanceAs (Decidable (_ < _))

variable (w : Wanted) (tab : GptTable)

/-- The trace behind the answer for entry `p`'s range. -/
def rangeTold (t : Trace ReadCall) (p : Nat) : Trace ReadCall := asked env t (tab.dimCall p)

/-- The trace behind the answer for entry `p`'s type GUID. -/
def typeTold (t : Trace ReadCall) (p : Nat) : Trace ReadCall :=
  askedGuid env (rangeTold env tab t p) (tab.entryAddr p) w.tguid

/-- Entry `p` is delivered after `t` with a range that fits and with a GUID that is wanted:
its type GUID, or, that one being another, its unique GUID. -/
def Qualified (t : Trace ReadCall) (p : Nat) : Prop :=
  (env t (tab.dimCall p)).ret = 0 ∧ (dimAt env t tab p).Fits w.maxLbas ∧
    (GuidIs env (rangeTold env tab t p) (tab.entryAddr p) w.tguid ∨
      GuidOther env (rangeTold env tab t p) (tab.entryAddr p) w.tguid ∧
        GuidIs env (typeTold env w tab t p) (tab.entryAddr p + 0x10) w.pguid)

/-- Entry `p` is delivered after `t`, and its range does not fit or its GUIDs are others
than those that are wanted. -/
def PassedOver (t : Trace ReadCall) (p : Nat) : Prop :=
  (env t (tab.dimCall p)).ret = 0 ∧
    ((dimAt env t tab p).Fits w.maxLbas →
      GuidOther env (rangeTold env tab t p) (tab.entryAddr p) w.tguid ∧
        GuidOther env (typeTold env w tab t p) (tab.entryAddr p + 0x10) w.pguid)

/-- The trace behind all answers for entry `p`. -/
def entryTold (t : Trace ReadCall) (p : Nat) : Trace ReadCall :=
  if (dimAt env t tab p).Fits w.maxLbas then
    if GuidIs env (rangeTold env tab t p) (tab.entryAddr p) w.tguid then typeTold env w tab t p
    else askedGuid env (typeTold env w tab t p) (tab.entryAddr p + 0x10) w.pguid
  else rangeTold env tab t p

instance (t : Trace ReadCall) (p : Nat) : Decidable (Qualified env w tab t p) :=
  inferInstanceAs (Decidable (_ ∧ _ ∧ (_ ∨ _ ∧ _)))

instance (t : Trace ReadCall) (p : Nat) : Decidable (PassedOver env w tab t p) :=
  inferInstanceAs (Decidable (_ ∧ (_ → _ ∧ _)))

/-! ## The table -/

/-- The trace behind the answers for the first `p` entries. -/
def entriesTold (t : Trace ReadCall) : Nat → Trace ReadCall
  | 0 => t
  | p + 1 => entryTold env w tab (entriesTold t p) p

/-- The first entry that qualifies is entry `i`: those before it are passed over. -/
def FirstQualified (t : Trace ReadCall) (i : Nat) : Prop :=
  (∀ j < i, PassedOver env w tab (entriesTold env w tab t j) j) ∧
    Qualified env w tab (entriesTold env w tab t i) i

/-- The trace behind the answer for the header. -/
def headerTold (t : Trace ReadCall) : Trace ReadCall := asked env t gptHeaderCall

/-- After `t` the header is delivered, and a table with a first entry that qualifies: its
range is `rng`, and `t'` is the trace behind the answers up to there. -/
def DeliversPart (t : Trace ReadCall) (rng : LbaRange) (t' : Trace ReadCall) : Prop :=
  (env t gptHeaderCall).ret = 0 ∧ ∃ i < (headerAt env t).count.toNat,
    FirstQualified env w (headerAt env t).toGptTable (headerTold env t) i ∧
      rng = dimAt env (entriesTold env w (headerAt env t).toGptTable (headerTold env t) i)
        (headerAt env t).toGptTable i ∧
      t' = entriesTold env w (headerAt env t).toGptTable (headerTold env t) (i + 1)

/-- After `t` the header is delivered, and a table whose entries are all passed over. -/
def NoneWanted (t : Trace ReadCall) : Prop :=
  (env t gptHeaderCall).ret = 0 ∧ ∀ j < (headerAt env t).count.toNat,
    PassedOver env w (headerAt env t).toGptTable
      (entriesTold env w (headerAt env t).toGptTable (headerTold env t) j) j

/-! ## The signature -/

/-- The read that `gpt_check_signature` makes: 8 bytes of block 1. -/
def gptSigCall : ReadCall := ⟨.sig, 0x200, 8⟩

/-- The trace behind the read of the signature. -/
def afterSig : Trace ReadCall := [(gptSigCall, env [] gptSigCall)]

/-- There is a table to search: the signature is delivered, and it is `EFI PART`. -/
def SeesGpt : Prop :=
  (env [] gptSigCall).ret = 0 ∧ le64 (env [] gptSigCall).out 0 = 0x5452415020494645

theorem gptCheckSignature_sees {m : M} :
    wp env gptCheckSignature
      (fun gpt s => s = ⟨afterSig env, m⟩ ∧ (gpt = true ↔ SeesGpt env)) (fun _ _ => False)
      (⟨[], m⟩ : St ReadCall M) := by
  unfold gptCheckSignature SeesGpt
  rw [wp_bind, wp_ask, wp_ite, show (⟨.sig, 0x200, 8⟩ : ReadCall) = gptSigCall from rfl]
  by_cases hret : (env [] gptSigCall).ret = 0
  · rw [if_pos hret, wp_pure, beq_iff_eq]
    exact ⟨rfl, fun h => ⟨hret, h⟩, fun h => h.2⟩
  · rw [if_neg hret, wp_pure]
    exact ⟨rfl, fun h => Bool.noConfusion h, fun h => absurd h.1 hret⟩

variable {env w tab} {t : Trace ReadCall}

theorem GuidIs.not_other {a : BitVec 64} {guid : Option Guid} (h : GuidIs env t a guid) :
    ¬GuidOther env t a guid := by
  cases guid with
  | none => exact h.elim
  | some g => exact fun ho => ho.2 h.2

theorem Qualified.not_passedOver {p : Nat} (h : Qualified env w tab t p) :
    ¬PassedOver env w tab t p := by
  intro hp
  obtain ⟨htype, hid⟩ := hp.2 h.2.1
  rcases h.2.2 with his | ⟨_, his⟩
  · exact his.not_other htype
  · exact his.not_other hid

theorem FirstQualified.unique {i i' : Nat} (h : FirstQualified env w tab t i)
    (h' : FirstQualified env w tab t i') : i = i' := by
  rcases Nat.lt_trichotomy i i' with hlt | heq | hgt
  · exact absurd (h'.1 i hlt) h.2.not_passedOver
  · exact heq
  · exact absurd (h.1 i' hgt) h'.2.not_passedOver

theorem DeliversPart.unique {rng rng' : LbaRange} {t₁ t₂ : Trace ReadCall}
    (h : DeliversPart env w t rng t₁) (h' : DeliversPart env w t rng' t₂) : rng = rng' ∧ t₁ = t₂ := by
  obtain ⟨_, i, _, hi, rfl, rfl⟩ := h
  obtain ⟨_, i', _, hi', rfl, rfl⟩ := h'
  obtain rfl := hi.unique hi'
  exact ⟨rfl, rfl⟩

theorem DeliversPart.not_noneWanted {rng : LbaRange} {t' : Trace ReadCall}
    (h : DeliversPart env w t rng t') : ¬NoneWanted env w t := by
  obtain ⟨_, i, hlt, hi, _, _⟩ := h
  exact fun hnone => hi.2.not_passedOver (hnone.2 i hlt)

/-! ## The search -/

/-- The comparison is with the GUID delivered, and fails only if none is. -/
theorem gptGuidMatches_answers {guid : Option Guid} {a : BitVec 64} {s : St ReadCall M} :
    wp env (gptGuidMatches guid a)
      (fun b s' => s'.calls = askedGuid env s.calls a guid ∧ s'.mem = s.mem ∧
        (b = true → GuidIs env s.calls a guid) ∧ (b = false → GuidOther env s.calls a guid))
      (fun _ _ => ¬GuidIs env s.calls a guid ∧ ¬GuidOther env s.calls a guid) s := by
  unfold gptGuidMatches
  cases guid with
  | none => exact ⟨rfl, rfl, fun h => Bool.noConfusion h, fun _ => trivial⟩
  | some g =>
    dsimp only
    rw [wp_bind, wp_check]
    refine ⟨fun hret => ⟨rfl, rfl, fun hb => ⟨hret, ?_⟩, fun hb => ⟨hret, fun heq => ?_⟩⟩,
      fun hret => ⟨fun h => hret h.1, fun h => hret h.1⟩⟩
    · rw [Bool.and_eq_true, beq_iff_eq, beq_iff_eq] at hb
      exact Prod.ext hb.1 hb.2
    · rw [← heq] at hb
      simp [guidOf, guidCall] at hb

/-- One pass: the entry is a hit if it qualifies, the walk goes on if it is passed over,
and a read has failed if it is neither. -/
theorem gptEntry_answers {p : Nat} {out : LbaRange} {s : St ReadCall M} :
    wp env (gptEntry tab w.maxLbas w.tguid w.pguid p out)
      (fun r s' => s'.calls = entryTold env w tab s.calls p ∧ s'.mem = s.mem ∧
        r.dim = dimAt env s.calls tab p ∧
        (r.hit = true → Qualified env w tab s.calls p) ∧
        (r.hit = false → PassedOver env w tab s.calls p))
      (fun _ _ => ¬Qualified env w tab s.calls p ∧ ¬PassedOver env w tab s.calls p) s := by
  unfold gptEntry
  rw [wp_bind, wp_check]
  refine ⟨fun hret => ?_, fun hret => ⟨fun h => hret h.1, fun h => hret h.1⟩⟩
  dsimp only
  have hfits : (dimAt env s.calls tab p).Fits w.maxLbas
      ↔ ¬(dimAt env s.calls tab p).lbaEnd - (dimAt env s.calls tab p).lbaBegin ≥ w.maxLbas := by
    show _ < _ ↔ ¬w.maxLbas ≤ _
    rw [BitVec.le_def, Nat.not_le]
  rw [wp_ite]
  by_cases hbig : (dimAt env s.calls tab p).lbaEnd - (dimAt env s.calls tab p).lbaBegin ≥ w.maxLbas
  · have hno : ¬(dimAt env s.calls tab p).Fits w.maxLbas := fun h => hfits.mp h hbig
    rw [if_pos (show (dimOf _).lbaEnd - (dimOf _).lbaBegin ≥ w.maxLbas from hbig)]
    refine ⟨?_, rfl, rfl, fun h => Bool.noConfusion h, fun _ => ⟨hret, fun h => absurd h hno⟩⟩
    unfold entryTold
    rw [if_neg hno]
    rfl
  · have hyes := hfits.mpr hbig
    rw [if_neg (show ¬(dimOf _).lbaEnd - (dimOf _).lbaBegin ≥ w.maxLbas from hbig), wp_bind]
    refine wp_mono gptGuidMatches_answers (fun byType s₂ h₂ => ?_) (fun _ _ he => ?_)
    · obtain ⟨hcalls₂, hmem₂, htype, hother⟩ := h₂
      rw [wp_ite]
      cases byType with
      | true =>
        -- the unique GUID is not asked for
        refine ⟨?_, hmem₂, rfl, fun _ => ⟨hret, hyes, Or.inl (htype rfl)⟩,
          fun h => Bool.noConfusion h⟩
        have his : GuidIs env (rangeTold env tab s.calls p) (tab.entryAddr p) w.tguid := htype rfl
        unfold entryTold
        rw [if_pos hyes, if_pos his]
        exact hcalls₂
      | false =>
        have hoth : GuidOther env (rangeTold env tab s.calls p) (tab.entryAddr p) w.tguid :=
          hother rfl
        rw [if_neg Bool.false_ne_true, wp_bind]
        refine wp_mono gptGuidMatches_answers (fun byId s₃ h₃ => ?_) (fun _ _ he => ?_)
        · obtain ⟨hcalls₃, hmem₃, hid, hidOther⟩ := h₃
          rw [hcalls₂] at hcalls₃ hid hidOther
          refine ⟨?_, hmem₃.trans hmem₂, rfl,
            fun hb => ⟨hret, hyes, Or.inr ⟨hoth, hid hb⟩⟩,
            fun hb => ⟨hret, fun _ => ⟨hoth, hidOther hb⟩⟩⟩
          unfold entryTold
          rw [if_pos hyes, if_neg fun his => his.not_other hoth]
          exact hcalls₃
        · rw [hcalls₂] at he
          refine ⟨fun hq => ?_, fun hp => he.2 (hp.2 hyes).2⟩
          rcases hq.2.2 with his | ⟨_, his⟩
          · exact his.not_other hoth
          · exact he.1 his
    · refine ⟨fun hq => ?_, fun hp => he.2 (hp.2 hyes).1⟩
      rcases hq.2.2 with his | ⟨hoth, _⟩
      · exact he.1 his
      · exact he.2 hoth

/-- A walk from entry `p`, the ones before it having been answered: it ends at the first
entry that qualifies, or behind the last, or at an entry that is not delivered. -/
theorem gptScan_answers : ∀ (n p : Nat) {out dim : LbaRange} {s : St ReadCall M},
    s.calls = entriesTold env w tab t p →
    wp env (gptScan tab w.maxLbas w.tguid w.pguid n p out dim)
      (fun r s' => s'.mem = s.mem ∧
        (∀ j, p ≤ j → j < r.1 → PassedOver env w tab (entriesTold env w tab t j) j) ∧
        (r.1 = p + n ∨ (p ≤ r.1 ∧ r.1 < p + n ∧
          Qualified env w tab (entriesTold env w tab t r.1) r.1 ∧
          r.2.2 = dimAt env (entriesTold env w tab t r.1) tab r.1 ∧
          s'.calls = entriesTold env w tab t (r.1 + 1))))
      (fun _ _ => ∃ i, p ≤ i ∧ i < p + n ∧
        (∀ j, p ≤ j → j < i → PassedOver env w tab (entriesTold env w tab t j) j) ∧
        ¬Qualified env w tab (entriesTold env w tab t i) i ∧
        ¬PassedOver env w tab (entriesTold env w tab t i) i) s := by
  intro n
  induction n with
  | zero =>
    intro p out dim s _
    refine ⟨rfl, fun j hj hlt => ?_, Or.inl rfl⟩
    exact absurd (Nat.lt_of_le_of_lt hj hlt) (Nat.lt_irrefl p)
  | succ n ih =>
    intro p out dim s hs
    unfold gptScan
    rw [wp_bind]
    refine wp_mono gptEntry_answers (fun r s₁ h₁ => ?_) (fun e s₁ h₁ => ?_)
    · obtain ⟨hcalls, hmem, hdim, hhit, hmiss⟩ := h₁
      rw [hs] at hcalls hdim hhit hmiss
      rw [wp_ite]
      by_cases hq : r.hit = true
      · rw [if_pos hq]
        refine ⟨hmem, fun j hj hlt => ?_,
          Or.inr ⟨Nat.le_refl p, by omega, hhit hq, hdim, hcalls⟩⟩
        exact absurd (Nat.lt_of_le_of_lt hj hlt) (Nat.lt_irrefl p)
      · rw [if_neg hq]
        have hp : PassedOver env w tab (entriesTold env w tab t p) p := hmiss (by simpa using hq)
        -- what holds from `p + 1` on, with entry `p` in front of it
        have hfrom : ∀ {i}, (∀ j, p + 1 ≤ j → j < i →
            PassedOver env w tab (entriesTold env w tab t j) j) →
            ∀ j, p ≤ j → j < i → PassedOver env w tab (entriesTold env w tab t j) j := by
          intro i hrest j hj hlt
          rcases Nat.eq_or_lt_of_le hj with rfl | hj
          · exact hp
          · exact hrest j hj hlt
        refine wp_mono (ih (p + 1) hcalls) (fun r' s₂ h₂ => ?_) (fun e s₂ h₂ => ?_)
        · obtain ⟨hmem₂, hpassed, hend⟩ := h₂
          refine ⟨hmem₂.trans hmem, hfrom hpassed, ?_⟩
          rcases hend with hend | ⟨hlo, hhi, hrest⟩
          · exact Or.inl (by omega)
          · exact Or.inr ⟨by omega, by omega, hrest⟩
        · obtain ⟨i, hlo, hhi, hpassed, hno⟩ := h₂
          exact ⟨i, by omega, by omega, hfrom hpassed, hno⟩
    · rw [hs] at h₁
      refine ⟨p, Nat.le_refl p, by omega, fun j hj hlt => ?_, h₁⟩
      exact absurd (Nat.lt_of_le_of_lt hj hlt) (Nat.lt_irrefl p)

/-- The search returns the partition that is delivered, or -1 if the entries are all
passed over; it fails if the answers give neither. -/
theorem gptFindPartition_answers {out : LbaRange} {s : St ReadCall M} :
    wp env (gptFindPartition out w.maxLbas w.tguid w.pguid)
      (fun r s' => s'.mem = s.mem ∧
        ((0 ≤ r.1 ∧ DeliversPart env w s.calls r.2 s'.calls) ∨
          (r.1 = -1 ∧ NoneWanted env w s.calls)))
      (fun _ _ => (∀ rng t', ¬DeliversPart env w s.calls rng t') ∧ ¬NoneWanted env w s.calls) s := by
  unfold gptFindPartition
  rw [wp_bind, wp_check]
  refine ⟨fun hret => ?_, fun hret => ⟨fun _ _ h => hret h.1, fun h => hret h.1⟩⟩
  dsimp only
  rw [show gptHeaderOf (env s.calls gptHeaderCall).out = headerAt env s.calls from rfl, wp_bind]
  refine wp_mono (gptScan_answers (t := headerTold env s.calls) _ 0 rfl) (fun r s₁ h₁ => ?_)
    (fun e s₁ h₁ => ?_)
  · obtain ⟨hmem, hpassed, hend⟩ := h₁
    rw [Nat.zero_add] at hend
    show wp env (if r.1 ≠ (headerAt env s.calls).count.toNat then _ else _) _ _ _
    rw [wp_ite]
    rcases hend with hend | ⟨_, hlt, hq, hdim, hcalls⟩
    · rw [if_neg (not_not.mpr hend)]
      exact ⟨hmem, Or.inr ⟨rfl, hret, fun j hj => hpassed j (Nat.zero_le j) (by omega)⟩⟩
    · rw [if_pos (by omega)]
      exact ⟨hmem, Or.inl ⟨Int.natCast_nonneg _, hret, r.1, hlt,
        ⟨fun j hj => hpassed j (Nat.zero_le j) hj, hq⟩, hdim, hcalls⟩⟩
  · obtain ⟨i, _, hlt, hpassed, hno⟩ := h₁
    rw [Nat.zero_add] at hlt
    refine ⟨fun rng t' hd => ?_, fun hnone => hno.2 (hnone.2 i hlt)⟩
    obtain ⟨_, k, _, hk, _, _⟩ := hd
    rcases Nat.lt_trichotomy k i with hki | rfl | hik
    · exact hk.2.not_passedOver (hpassed k (Nat.zero_le k) hki)
    · exact hno.1 hk.2
    · exact hno.2 (hk.1 i hik)

end Cheshire.Sw
