import Cheshire.Lib.Span
import Cheshire.Sw.Gpt

/-!
# Which partition `gpt_find_partition` selects

On a medium that answers every read with its bytes, the walk over the entries is a
search for the least index of an entry that fits and carries one of the wanted GUIDs
(`gptScan_disk`). What comes out is that entry; or entry 0, clamped, where there is no
such entry; or nothing new, where there are no entries.

A medium may also fail. Then the first failure that is not the signature check's is
what the search and the boot return, and the boot has written nothing
(`gptBoot_failed`).
-/

namespace Cheshire.Sw

open Firmware Firmware.Prog

variable {M : Type} {env : Env ReadCall}

/-! ## On a medium that answers -/

/-- Byte `i` of the medium from offset `a` on; offsets wrap. -/
def diskBytes (disk : Span.Memory) (a : BitVec 64) (i : Nat) : Byte := disk (Span.nth a i)

/-- Every read succeeds and delivers the bytes of the medium. -/
def ServesDisk (env : Env ReadCall) (disk : Span.Memory) : Prop :=
  ∀ t q, (env t q).ret = 0 ∧ ∀ i < q.len.toNat, (env t q).out i = diskBytes disk q.addr i

def diskHeader (disk : Span.Memory) : GptHeader := gptHeaderOf (diskBytes disk gptHeaderCall.addr)

/-- The range of blocks that entry `p` of the table holds. -/
def entryRange (disk : Span.Memory) (tab : GptTable) (p : Nat) : LbaRange :=
  dimOf (diskBytes disk (tab.dimCall p).addr)

def guidAt (disk : Span.Memory) (a : BitVec 64) : Guid :=
  (le64 (diskBytes disk a) 0, le64 (diskBytes disk a) 8)

/-- Entry `p` fits, and it carries the type GUID or the unique GUID asked for. -/
def Qualifies (disk : Span.Memory) (tab : GptTable) (maxLbas : BitVec 64)
    (tguid pguid : Option Guid) (p : Nat) : Prop :=
  (entryRange disk tab p).Fits maxLbas ∧
    (tguid = some (guidAt disk (tab.entryAddr p)) ∨
      pguid = some (guidAt disk (tab.entryAddr p + 0x10)))

/-- What the search has to yield: `part_idx` and the out parameters. -/
def Selected (disk : Span.Memory) (maxLbas : BitVec 64) (tguid pguid : Option Guid)
    (out : LbaRange) (r : Int × LbaRange) : Prop :=
  let h := diskHeader disk
  let fits := Qualifies disk h.toGptTable maxLbas tguid pguid
  let first := entryRange disk h.toGptTable 0
  (∃ p < h.count.toNat, fits p ∧ (∀ j < p, ¬fits j) ∧
      r = ((p : Int), entryRange disk h.toGptTable p)) ∨
    (∀ p < h.count.toNat, ¬fits p) ∧ r.1 = -1 ∧
      (h.count.toNat = 0 → r.2 = out) ∧
      (0 < h.count.toNat → r.2.lbaBegin = first.lbaBegin ∧ r.2.lbaEnd.toNat
        = min first.lbaEnd.toNat (first.lbaBegin + maxLbas - 1).toNat)

variable {disk : Span.Memory}

theorem wp_check_disk (henv : ServesDisk env disk) {q : ReadCall} {s : St ReadCall M}
    {R : (Nat → Byte) → St ReadCall M → Prop}
    (hR : ∀ d s', (∀ i < q.len.toNat, d i = diskBytes disk q.addr i) → s'.mem = s.mem → R d s') :
    wp env (check q) R (fun _ _ => False) s := by
  obtain ⟨hret, hout⟩ := henv s.calls q
  rw [wp_check]
  exact ⟨fun _ => hR _ _ hout rfl, fun hne => hne hret⟩

theorem dimOf_congr {d d' : Nat → Byte} (h : ∀ i < 16, d i = d' i) : dimOf d = dimOf d' := by
  unfold dimOf
  rw [le64_congr fun j hj => h (0 + j) (by omega), le64_congr fun j hj => h (8 + j) (by omega)]

/-- The comparison is with the GUID on the medium. -/
theorem gptGuidMatches_disk (henv : ServesDisk env disk) {guid : Option Guid} {a : BitVec 64}
    {s : St ReadCall M} :
    wp env (gptGuidMatches guid a)
      (fun b s' => s'.mem = s.mem ∧ (b = true ↔ guid = some (guidAt disk a)))
      (fun _ _ => False) s := by
  unfold gptGuidMatches
  split
  next => exact ⟨rfl, ⟨fun h => Bool.noConfusion h, fun h => nomatch h⟩⟩
  next g =>
    rw [wp_bind]
    refine wp_check_disk henv fun d s' hd hmem => ⟨hmem, ?_⟩
    have h0 : le64 d 0 = (guidAt disk a).1 := le64_congr fun j hj => hd (0 + j) (by
      show 0 + j < 16
      omega)
    have h8 : le64 d 8 = (guidAt disk a).2 := le64_congr fun j hj => hd (8 + j) (by
      show 8 + j < 16
      omega)
    rw [Bool.and_eq_true, beq_iff_eq, beq_iff_eq, h0, h8, Option.some.injEq, eq_comm,
      @eq_comm _ _ g.2, Prod.ext_iff]

/-- One pass: the entry is read, and it is a hit exactly if it qualifies. -/
theorem gptEntry_disk (henv : ServesDisk env disk) {tab : GptTable} {maxLbas : BitVec 64}
    {tguid pguid : Option Guid} {p : Nat} {out : LbaRange} {s : St ReadCall M} :
    wp env (gptEntry tab maxLbas tguid pguid p out)
      (fun r s' => s'.mem = s.mem ∧ r.dim = entryRange disk tab p ∧
        r.out = (if p = 0 then clampRange maxLbas (entryRange disk tab p) else out) ∧
        (r.hit = true ↔ Qualifies disk tab maxLbas tguid pguid p))
      (fun _ _ => False) s := by
  unfold gptEntry Qualifies
  rw [wp_bind]
  refine wp_check_disk henv fun d s₁ hd hmem₁ => ?_
  have hdim : dimOf d = entryRange disk tab p := dimOf_congr hd
  dsimp only
  rw [hdim]
  generalize entryRange disk tab p = dim
  rw [wp_ite]
  have hfits : dim.Fits maxLbas ↔ ¬dim.lbaEnd - dim.lbaBegin ≥ maxLbas := by
    show _ < _ ↔ ¬maxLbas ≤ _
    rw [BitVec.le_def, Nat.not_le]
  by_cases hbig : dim.lbaEnd - dim.lbaBegin ≥ maxLbas
  · rw [if_pos hbig]
    exact ⟨hmem₁, rfl, rfl,
      ⟨fun h => Bool.noConfusion h, fun h => absurd hbig (hfits.mp h.1)⟩⟩
  · rw [if_neg hbig, wp_bind]
    refine wp_mono (gptGuidMatches_disk henv) (fun byType s₂ h₂ => ?_) (fun _ _ he => he)
    obtain ⟨hmem₂, htype⟩ := h₂
    rw [wp_ite]
    by_cases hhit : byType = true
    · rw [if_pos hhit]
      exact ⟨hmem₂.trans hmem₁, rfl, rfl, fun _ => ⟨hfits.mpr hbig, Or.inl (htype.mp hhit)⟩,
        fun _ => rfl⟩
    · rw [if_neg hhit, wp_bind]
      refine wp_mono (gptGuidMatches_disk henv) (fun byId s₃ h₃ => ?_) (fun _ _ he => he)
      obtain ⟨hmem₃, hid⟩ := h₃
      refine ⟨hmem₃.trans (hmem₂.trans hmem₁), rfl, rfl, ?_⟩
      rw [hid]
      exact ⟨fun h => ⟨hfits.mpr hbig, Or.inr h⟩,
        fun h => h.2.resolve_left fun h' => hhit (htype.mpr h')⟩

/-- A walk from entry `p`, with `n` to go: it ends at the first one that qualifies, the
last entry read being that one, or behind the last. -/
theorem gptScan_disk (henv : ServesDisk env disk) {tab : GptTable} {maxLbas : BitVec 64}
    {tguid pguid : Option Guid} : ∀ (n p : Nat) {out dim : LbaRange} {s : St ReadCall M},
    wp env (gptScan tab maxLbas tguid pguid n p out dim)
      (fun r s' => s'.mem = s.mem ∧
        r.2.1 = (if p = 0 ∧ 0 < n then clampRange maxLbas (entryRange disk tab 0) else out) ∧
        (∀ j, p ≤ j → j < r.1 → ¬Qualifies disk tab maxLbas tguid pguid j) ∧
        (r.1 = p + n ∨ (p ≤ r.1 ∧ r.1 < p + n ∧ r.2.2 = entryRange disk tab r.1 ∧
          Qualifies disk tab maxLbas tguid pguid r.1)))
      (fun _ _ => False) s := by
  intro n
  induction n with
  | zero =>
    intro p out dim s
    refine ⟨rfl, (if_neg fun h => absurd h.2 (Nat.lt_irrefl 0)).symm, fun j hj hlt => ?_,
      Or.inl rfl⟩
    exact absurd (Nat.lt_of_le_of_lt hj hlt) (Nat.lt_irrefl p)
  | succ n ih =>
    intro p out dim s
    unfold gptScan
    rw [wp_bind]
    refine wp_mono (gptEntry_disk henv) (fun r s₁ h₁ => ?_) (fun _ _ he => he)
    obtain ⟨hmem₁, hdim, hout, hhit⟩ := h₁
    have hout' : r.out = if p = 0 ∧ 0 < n + 1 then clampRange maxLbas (entryRange disk tab 0)
        else out := by
      rw [hout]
      by_cases hp : p = 0
      · rw [if_pos hp, if_pos ⟨hp, Nat.succ_pos n⟩, hp]
      · rw [if_neg hp, if_neg fun h => hp h.1]
    rw [wp_ite]
    by_cases hq : r.hit = true
    · rw [if_pos hq]
      refine ⟨hmem₁, hout', fun j hj hlt => ?_, Or.inr ⟨Nat.le_refl p, by omega, hdim, hhit.mp hq⟩⟩
      exact absurd (Nat.lt_of_le_of_lt hj hlt) (Nat.lt_irrefl p)
    · rw [if_neg hq]
      refine wp_mono (ih (p + 1)) (fun r' s₂ h₂ => ?_) (fun _ _ he => he)
      obtain ⟨hmem₂, hout₂, hnone, hend⟩ := h₂
      rw [if_neg fun h => absurd h.1 (Nat.succ_ne_zero p)] at hout₂
      refine ⟨hmem₂.trans hmem₁, hout₂.trans hout', fun j hj hlt => ?_, ?_⟩
      · rcases Nat.eq_or_lt_of_le hj with rfl | hj
        · exact fun h => hq (hhit.mpr h)
        · exact hnone j hj hlt
      · rcases hend with hend | ⟨hlo, hhi, hrest⟩
        · exact Or.inl (by omega)
        · exact Or.inr ⟨by omega, by omega, hrest⟩

theorem clampRange_min (maxLbas : BitVec 64) (d : LbaRange) :
    (clampRange maxLbas d).lbaEnd.toNat
      = min d.lbaEnd.toNat (d.lbaBegin + maxLbas - 1).toNat := by
  unfold clampRange
  dsimp only
  split
  next h =>
    rw [BitVec.le_def] at h
    omega
  next h =>
    rw [BitVec.le_def] at h
    omega

/-- On a disk that serves every read the search touches no memory of the caller and yields what
the table selects. -/
theorem gptFindPartition_disk (henv : ServesDisk env disk) {out : LbaRange}
    {maxLbas : BitVec 64} {tguid pguid : Option Guid} {s : St ReadCall M} :
    wp env (gptFindPartition out maxLbas tguid pguid)
      (fun r s' => s'.mem = s.mem ∧ Selected disk maxLbas tguid pguid out r)
      (fun _ _ => False) s := by
  unfold gptFindPartition Selected
  rw [wp_bind]
  refine wp_check_disk henv fun d s₁ hd hmem₁ => ?_
  have hhdr : gptHeaderOf d = diskHeader disk := by
    unfold diskHeader gptHeaderOf
    rw [le64_congr fun j hj => hd (0 + j) (by show 0 + j < 16; omega),
      le32_congr fun j hj => hd (12 + j) (by show 12 + j < 16; omega),
      le32_congr fun j hj => hd (8 + j) (by show 8 + j < 16; omega)]
  dsimp only
  rw [hhdr, wp_bind]
  refine wp_mono (gptScan_disk henv _ 0) (fun r s₂ h₂ => ?_) (fun _ _ he => he)
  obtain ⟨hmem₂, hout, hnone, hend⟩ := h₂
  show wp env (if r.1 ≠ (diskHeader disk).count.toNat then _ else _) _ _ _
  rw [wp_ite]
  rw [Nat.zero_add] at hend
  rcases hend with hend | ⟨-, hlt, hdim, hq⟩
  · rw [if_neg (not_not.mpr hend)]
    refine ⟨hmem₂.trans hmem₁,
      Or.inr ⟨fun p hp => hnone p (Nat.zero_le p) (hend ▸ hp), rfl, ?_, ?_⟩⟩
    · intro hzero
      rw [if_neg fun h => by omega] at hout
      exact hout
    · intro hpos
      rw [if_pos ⟨rfl, hpos⟩] at hout
      show r.2.1.lbaBegin = _ ∧ r.2.1.lbaEnd.toNat = _
      rw [hout]
      exact ⟨rfl, clampRange_min maxLbas _⟩
  · rw [if_pos (Nat.ne_of_lt hlt)]
    refine ⟨hmem₂.trans hmem₁, Or.inl ⟨r.1, hlt, hq, fun j hj => hnone j (Nat.zero_le j) hj, ?_⟩⟩
    rw [hdim]

/-! ## On a medium that fails -/

/-- The calls whose failure is an error: all but the signature check. -/
def isChecked (c : ReadCall × Reply) : Bool := c.1.dst != .sig

/-- The first nonzero return value of a checked call. -/
def firstFailure (t : Trace ReadCall) : Option Code :=
  ((t.reverse.filter isChecked).map (·.2.ret)).find? (· ≠ 0)

/-- No call whose return value is checked has failed. -/
def Clean (t : Trace ReadCall) : Prop := ∀ c ∈ t, isChecked c → c.2.ret = 0

/-- The last call is the first that failed, and its value is what the body stopped with. -/
def FailedLast (m : M) (e : Stop) (s : St ReadCall M) : Prop :=
  ∃ q r t, s.calls = (q, r) :: t ∧ Clean t ∧ isChecked (q, r) ∧ r.ret ≠ 0 ∧ e = .ret r.ret ∧
    s.mem = m

theorem firstFailure_clean {t : Trace ReadCall} (h : Clean t) : firstFailure t = none := by
  unfold firstFailure
  rw [List.find?_eq_none]
  intro v hv
  obtain ⟨c, hc, rfl⟩ := List.mem_map.mp hv
  obtain ⟨hc, hchecked⟩ := List.mem_filter.mp hc
  rw [h c (List.mem_reverse.mp hc) hchecked]
  decide

theorem firstFailure_last {m : M} {e : Stop} {s : St ReadCall M} (h : FailedLast m e s) {v : Code}
    (hv : firstFailure s.calls = some v) : e = .ret v ∧ s.mem = m := by
  obtain ⟨q, r, t, hcalls, hclean, hchecked, hret, rfl, hmem⟩ := h
  have hnone := firstFailure_clean hclean
  unfold firstFailure at hnone hv
  rw [hcalls, List.reverse_cons, List.filter_append, List.map_append, List.find?_append, hnone,
    Option.none_or, List.filter_cons_of_pos hchecked] at hv
  have hfirst : [r.ret].find? (· ≠ 0) = some r.ret :=
    List.find?_cons_of_pos (decide_eq_true hret)
  exact ⟨congrArg Stop.ret (Option.some.inj (hfirst.symm.trans hv)), hmem⟩

theorem Clean.cons {t : Trace ReadCall} {q : ReadCall} {r : Reply} (h : Clean t)
    (hr : isChecked (q, r) → r.ret = 0) : Clean ((q, r) :: t) := by
  intro c hc hchecked
  rcases List.mem_cons.mp hc with rfl | hc
  · exact hr hchecked
  · exact h c hc hchecked

variable {m : M}

/-- So far no checked call has failed, and nothing was written. -/
def Unfailed (m : M) (s : St ReadCall M) : Prop := Clean s.calls ∧ s.mem = m

theorem wp_check_unfailed {q : ReadCall} {s : St ReadCall M}
    {R : (Nat → Byte) → St ReadCall M → Prop} (hs : Unfailed m s) (hq : q.dst ≠ .sig)
    (hR : ∀ d s', Unfailed m s' → R d s') :
    wp env (check q) R (FailedLast m) s := by
  rw [wp_check]
  refine ⟨fun hret => hR _ _ ⟨hs.1.cons fun _ => hret, hs.2⟩, fun hret => ?_⟩
  exact ⟨q, _, s.calls, rfl, hs.1, bne_iff_ne.mpr hq, hret, rfl, hs.2⟩

theorem gptGuidMatches_unfailed {guid : Option Guid} {a : BitVec 64} {s : St ReadCall M}
    (hs : Unfailed m s) :
    wp env (gptGuidMatches guid a) (fun _ => Unfailed m) (FailedLast m) s := by
  unfold gptGuidMatches
  split
  next => exact hs
  next g =>
    rw [wp_bind]
    exact wp_check_unfailed hs (by simp) fun _ _ hs' => hs'

theorem gptEntry_unfailed {tab : GptTable} {maxLbas : BitVec 64} {tguid pguid : Option Guid}
    {p : Nat} {out : LbaRange} {s : St ReadCall M} (hs : Unfailed m s) :
    wp env (gptEntry tab maxLbas tguid pguid p out) (fun _ => Unfailed m) (FailedLast m) s := by
  unfold gptEntry
  rw [wp_bind]
  refine wp_check_unfailed hs (by simp [GptTable.dimCall]) fun d s₁ h₁ => ?_
  dsimp only
  rw [wp_ite]
  split
  next => exact h₁
  next =>
    rw [wp_bind]
    refine wp_mono (gptGuidMatches_unfailed h₁) (fun byType s₂ h₂ => ?_) (fun _ _ he => he)
    rw [wp_ite]
    split
    next => exact h₂
    next =>
      rw [wp_bind]
      exact wp_mono (gptGuidMatches_unfailed h₂) (fun _ _ h₃ => h₃) (fun _ _ he => he)

theorem gptScan_unfailed {tab : GptTable} {maxLbas : BitVec 64} {tguid pguid : Option Guid} :
    ∀ (n p : Nat) {out dim : LbaRange} {s : St ReadCall M}, Unfailed m s →
      wp env (gptScan tab maxLbas tguid pguid n p out dim) (fun _ => Unfailed m) (FailedLast m)
        s := by
  intro n
  induction n with
  | zero =>
    intro p out dim s hs
    exact hs
  | succ n ih =>
    intro p out dim s hs
    unfold gptScan
    rw [wp_bind]
    refine wp_mono (gptEntry_unfailed hs) (fun r s₁ h₁ => ?_) (fun _ _ he => he)
    rw [wp_ite]
    split
    next => exact h₁
    next => exact ih (p + 1) h₁

theorem gptFindPartition_unfailed {out : LbaRange} {maxLbas : BitVec 64}
    {tguid pguid : Option Guid} {s : St ReadCall M} (hs : Unfailed m s) :
    wp env (gptFindPartition out maxLbas tguid pguid) (fun _ => Unfailed m) (FailedLast m) s := by
  unfold gptFindPartition
  rw [wp_bind]
  refine wp_check_unfailed hs (by simp [gptHeaderCall]) fun d s₁ h₁ => ?_
  dsimp only
  rw [wp_bind]
  refine wp_mono (gptScan_unfailed _ 0 h₁) (fun r s₂ h₂ => ?_) (fun _ _ he => he)
  show wp env (if r.1 ≠ _ then _ else _) _ _ _
  rw [wp_ite]
  split
  · exact h₂
  · exact h₂

/-- The signature check is never an error. -/
theorem gptCheckSignature_unfailed {s : St ReadCall M} (hs : Unfailed m s) :
    wp env gptCheckSignature (fun _ => Unfailed m) (FailedLast m) s := by
  unfold gptCheckSignature
  rw [wp_bind, wp_ask, wp_ite]
  have hs' : Unfailed m { s with calls := (⟨.sig, 0x200, 8⟩, env s.calls ⟨.sig, 0x200, 8⟩) ::
      s.calls } := ⟨hs.1.cons fun h => Bool.noConfusion h, hs.2⟩
  split
  · exact hs'
  · exact hs'

theorem gptBoot_unfailed {ptrs : BootPtrs} {codeBuf maxLbas : BitVec 64}
    {tguid pguid : Option Guid} {m : List BootEvent} {s : St ReadCall (List BootEvent)}
    (hs : Unfailed m s) :
    wp env (gptBootPartElseRaw ptrs codeBuf maxLbas tguid pguid)
      (fun _ s' => Clean s'.calls) (FailedLast m) s := by
  unfold gptBootPartElseRaw gptBootRange
  rw [wp_bind, wp_bind]
  refine wp_mono (gptCheckSignature_unfailed hs) (fun gpt s₁ h₁ => ?_) (fun _ _ he => he)
  have hcopy : ∀ (rng : LbaRange) {s : St ReadCall (List BootEvent)}, Unfailed m s →
      wp env (do
        let _ ← check (rng.copyCall codeBuf)
        modifyMem fun l =>
          .bootNextStage codeBuf :: .scratch 3 (ptrs.gp.setWidth 32) ::
            .scratch 1 (ptrs.priv.setWidth 32) :: .scratch 0 ((ptrs.read ||| 1).setWidth 32) :: l)
        (fun _ s' => Clean s'.calls) (FailedLast m) s := by
    intro rng s h
    rw [wp_bind]
    exact wp_check_unfailed h (by simp [LbaRange.copyCall]) fun _ _ h' => h'.1
  rw [wp_ite]
  split
  next =>
    rw [wp_bind]
    exact wp_mono (gptFindPartition_unfailed h₁) (fun r _ h₂ => hcopy r.2 h₂) (fun _ _ he => he)
  next => exact hcopy _ h₁

theorem failed_of_unfailed {α : Type} {x : Prog ReadCall M α} {m : M}
    (h : wp env x (fun _ s' => Clean s'.calls) (FailedLast m) ⟨[], m⟩) {v : Code}
    (hv : firstFailure (x env ⟨[], m⟩).2.calls = some v) :
    (x env ⟨[], m⟩).1 = .error (.ret v) ∧ (x env ⟨[], m⟩).2.mem = m := by
  unfold wp at h
  split at h
  next a s' hrun =>
    rw [hrun, firstFailure_clean h] at hv
    cases hv
  next e s' hrun =>
    rw [hrun] at hv
    obtain ⟨rfl, hmem⟩ := firstFailure_last h hv
    rw [hrun]
    exact ⟨rfl, hmem⟩

theorem unfailed_start (m : M) : Unfailed m (⟨[], m⟩ : St ReadCall M) :=
  ⟨fun _ hc => absurd hc List.not_mem_nil, rfl⟩

/-- On a medium that answers the search yields what it has to; on any other, search and
boot return the first failure, and the boot has written nothing. -/
theorem gpt_partition_selection (maxLbas : BitVec 64) (tguid pguid : Option Guid)
    (out : LbaRange) :
    (∀ disk env (s : St ReadCall M), ServesDisk env disk →
      ∃ r s', gptFindPartition out maxLbas tguid pguid env s = (.ok r, s') ∧
        Selected disk maxLbas tguid pguid out r) ∧
    (∀ env (m : M) v,
      firstFailure (gptFindPartition out maxLbas tguid pguid env ⟨[], m⟩).2.calls = some v →
        (gptFindPartition out maxLbas tguid pguid env ⟨[], m⟩).1 = .error (.ret v)) ∧
    (∀ env ptrs codeBuf v,
      firstFailure (gptBootPartElseRaw ptrs codeBuf maxLbas tguid pguid env ⟨[], []⟩).2.calls
          = some v →
        (gptBootPartElseRaw ptrs codeBuf maxLbas tguid pguid env ⟨[], []⟩).1
            = .error (.ret v) ∧
          (gptBootPartElseRaw ptrs codeBuf maxLbas tguid pguid env ⟨[], []⟩).2.mem = []) := by
  refine ⟨fun disk env s henv => ?_, fun env m v hv => ?_, fun env ptrs codeBuf v hv => ?_⟩
  · have h := @gptFindPartition_disk M env disk henv out maxLbas tguid pguid s
    unfold wp at h
    split at h
    next r s' hrun => exact ⟨r, s', hrun, h.2⟩
    next => exact h.elim
  · have h := @gptFindPartition_unfailed M env m out maxLbas tguid pguid _ (unfailed_start m)
    exact (failed_of_unfailed (wp_mono h (fun _ _ h' => h'.1) fun _ _ he => he) hv).1
  · exact failed_of_unfailed (gptBoot_unfailed (unfailed_start [])) hv

/-- A header with one entry of LBAs 34 to 40 and a type GUID of all zeros. -/
def onePartition : Span.Memory := fun a =>
  if a = 0x248 then 2 else if a = 0x250 then 1 else if a = 0x254 then 128
  else if a = 0x420 then 34 else if a = 0x428 then 40 else 0

/-- The medium behind `onePartition`; reads to `worn` variables fail. -/
def partitionMedium (worn : Dst → Bool) : Env ReadCall := fun _ q =>
  ⟨if worn q.dst then 5 else 0, diskBytes onePartition q.addr⟩

theorem gpt_partition_selection_one :
    (∃ r s', gptFindPartition ⟨0, 127⟩ 128 (some (0, 0)) none (partitionMedium fun _ => false)
        (⟨[], ()⟩ : St ReadCall Unit) = (.ok r, s') ∧
      Selected onePartition 128 (some (0, 0)) none ⟨0, 127⟩ r) ∧
    (gptFindPartition ⟨0, 127⟩ 128 (some (0, 0)) none (partitionMedium (· == .dim))
        (⟨[], ()⟩ : St ReadCall Unit)).1 = .error (.ret 5) ∧
    (gptBootPartElseRaw ⟨0, 0, 0⟩ 0x1000 128 (some (0, 0)) none
        (partitionMedium (· == .mem 0x1000)) ⟨[], []⟩).1 = .error (.ret 5) := by
  obtain ⟨hfind, hfail, hboot⟩ := @gpt_partition_selection Unit 128 (some (0, 0)) none ⟨0, 127⟩
  refine ⟨hfind onePartition (partitionMedium fun _ => false) ⟨[], ()⟩
    fun t q => ⟨rfl, fun i _ => rfl⟩, ?_, ?_⟩
  · exact hfail (partitionMedium (· == .dim)) () 5 (by decide +kernel)
  · exact (hboot (partitionMedium (· == .mem 0x1000)) ⟨0, 0, 0⟩ 0x1000 5
      (by decide +kernel)).1

end Cheshire.Sw
