import Mathlib.Algebra.Group.Nat.Defs
import Cheshire.Sw.GptBound
import Cheshire.Sw.GptSelect

/-!
# Booting from a medium of finite size, which may fail

A driver delivers the bytes of its medium if it succeeds, and only for a range that lies
on the medium. A partition table that stays on the medium keeps the boot on it: every call
of `gpt_boot_part_else_raw` is then one the driver can be trusted with (`BootCall`), and
none is longer than the variable or the buffer it goes to. So what the boot ends with is
the range the table selects, or the first `max_lbas` blocks if there is no table or the
read of its signature failed (`gptBoot_medium`).
-/

namespace Cheshire.Sw

open Firmware Firmware.Prog

/-! ## Media -/

/-- The number of bytes that a boot has behind each destination. -/
def Dst.room (codeBuf maxLbas : BitVec 64) : Dst → Nat
  | .sig => 8
  | .hf => 16
  | .dim => 16
  | .guid => 16
  | .mem a => if a = codeBuf then 0x200 * maxLbas.toNat else 0

/-- A read of bytes of the medium, no more than there is room for. -/
structure BootCall (n : Nat) (room : Dst → Nat) (q : ReadCall) : Prop where
  on : q.addr.toNat + q.len.toNat ≤ n
  fits : q.len.toNat ≤ room q.dst

/-- The variables of a search hold what it reads into them. -/
structure Roomy (room : Dst → Nat) : Prop where
  hf : 16 ≤ room .hf
  dim : 16 ≤ room .dim
  guid : 16 ≤ room .guid

theorem roomy_room (codeBuf maxLbas : BitVec 64) : Roomy (Dst.room codeBuf maxLbas) :=
  ⟨Nat.le_refl 16, Nat.le_refl 16, Nat.le_refl 16⟩

/-- Behind trusted reads only, a trusted read that succeeds delivers the medium's bytes. -/
def Honest (env : Env ReadCall) (disk : Span.Memory) (G : ReadCall → Prop) : Prop :=
  ∀ t q, (∀ c ∈ t, G c.1) → G q → (env t q).ret = 0 →
    ∀ i < q.len.toNat, (env t q).out i = diskBytes disk q.addr i

/-- The disk has the signature `EFI PART` in its block 1. -/
def HasGpt (disk : Span.Memory) : Prop := le64 (diskBytes disk 0x200) 0 = 0x5452415020494645

/-- The entries of the table are on the medium, and so are the ranges they hold. -/
structure GptFits (disk : Span.Memory) (n : Nat) : Prop where
  entries : ∀ p < (diskHeader disk).count.toNat,
    0x200 * (diskHeader disk).lba.toNat + p * (diskHeader disk).size.toNat + 0x30 ≤ n
  ordered : ∀ p < (diskHeader disk).count.toNat,
    (entryRange disk (diskHeader disk).toGptTable p).lbaBegin.toNat
      ≤ (entryRange disk (diskHeader disk).toGptTable p).lbaEnd.toNat
  ranges : ∀ p < (diskHeader disk).count.toNat,
    0x200 * ((entryRange disk (diskHeader disk).toGptTable p).lbaEnd.toNat + 1) ≤ n

/-- A medium of `n` bytes, with a table that fits or none. -/
structure Medium (disk : Span.Memory) (n : Nat) : Prop where
  small : n ≤ 2 ^ 63
  header : 0x258 ≤ n
  table : HasGpt disk → GptFits disk n

/-- A medium to boot from, raw if it has no table. -/
structure Bootable (disk : Span.Memory) (n : Nat) (maxLbas : BitVec 64) : Prop
    extends Medium disk n where
  pos : 0 < maxLbas.toNat
  raw : 0x200 * maxLbas.toNat ≤ n

/-- A medium that goes on behind its image. -/
theorem Bootable.mono {disk : Span.Memory} {n n' : Nat} {maxLbas : BitVec 64}
    (h : Bootable disk n maxLbas) (hle : n ≤ n') (hsmall : n' ≤ 2 ^ 63) :
    Bootable disk n' maxLbas where
  small := hsmall
  header := Nat.le_trans h.header hle
  table hgpt :=
    have hfits := h.table hgpt
    ⟨fun p hp => Nat.le_trans (hfits.entries p hp) hle, hfits.ordered,
      fun p hp => Nat.le_trans (hfits.ranges p hp) hle⟩
  pos := h.pos
  raw := Nat.le_trans h.raw hle

/-- A range of at most `max_lbas` blocks of the medium. -/
structure LbaRange.OnMedium (r : LbaRange) (n : Nat) (maxLbas : BitVec 64) : Prop where
  ordered : r.lbaBegin.toNat ≤ r.lbaEnd.toNat
  short : r.lbaEnd.toNat < r.lbaBegin.toNat + maxLbas.toNat
  on : 0x200 * (r.lbaEnd.toNat + 1) ≤ n

variable {disk : Span.Memory} {n : Nat} {codeBuf maxLbas : BitVec 64} {room : Dst → Nat}

theorem Medium.entryAddr (h : Medium disk n) (hgpt : HasGpt disk) {p : Nat}
    (hp : p < (diskHeader disk).count.toNat) :
    ((diskHeader disk).entryAddr p).toNat
      = 0x200 * (diskHeader disk).lba.toNat + p * (diskHeader disk).size.toNat := by
  have hsmall := h.small
  have hentry := (h.table hgpt).entries p hp
  have hcount := (diskHeader disk).count.isLt
  unfold GptTable.entryAddr
  rw [BitVec.toNat_add, BitVec.toNat_mul, BitVec.toNat_mul, BitVec.toNat_setWidth,
    BitVec.toNat_ofNat, BitVec.ofNat_eq_ofNat, BitVec.toNat_ofNat,
    Nat.mod_eq_of_lt (show p < 2 ^ 64 by omega),
    Nat.mod_eq_of_lt (show (diskHeader disk).size.toNat < 2 ^ 64 by omega),
    Nat.mod_eq_of_lt (show 512 < 2 ^ 64 by omega),
    Nat.mod_eq_of_lt (show p * (diskHeader disk).size.toNat < 2 ^ 64 by omega),
    Nat.mod_eq_of_lt (show 512 * (diskHeader disk).lba.toNat < 2 ^ 64 by omega),
    Nat.mod_eq_of_lt (by omega)]

/-- Reads inside the first 0x30 bytes of an entry. -/
theorem Medium.entryCall (h : Medium disk n) (hgpt : HasGpt disk) {p : Nat}
    (hp : p < (diskHeader disk).count.toNat) (dst : Dst) (hroom : 16 ≤ room dst)
    (o : BitVec 64) (ho : o.toNat ≤ 0x20) :
    BootCall n room ⟨dst, (diskHeader disk).entryAddr p + o, 16⟩ := by
  have hsmall := h.small
  have hentry := (h.table hgpt).entries p hp
  have haddr := h.entryAddr hgpt hp
  refine ⟨?_, hroom⟩
  show ((diskHeader disk).entryAddr p + o).toNat + 16 ≤ n
  rw [BitVec.toNat_add, haddr, Nat.mod_eq_of_lt (by omega)]
  omega

/-- An entry of a table that fits its medium, and of a size that can be loaded, is a range of
blocks on the medium. -/
theorem Medium.entry_onMedium (h : Medium disk n) (hgpt : HasGpt disk) {p : Nat}
    (hp : p < (diskHeader disk).count.toNat)
    (hfits : (entryRange disk (diskHeader disk).toGptTable p).Fits maxLbas) :
    (entryRange disk (diskHeader disk).toGptTable p).OnMedium n maxLbas := by
  have hordered := (h.table hgpt).ordered p hp
  unfold LbaRange.Fits at hfits
  rw [BitVec.toNat_sub_of_le (BitVec.le_def.mpr hordered)] at hfits
  exact ⟨hordered, by omega, (h.table hgpt).ranges p hp⟩

/-- The first blocks of a medium that can be booted, as many as may be loaded, are a range on the
medium. -/
theorem Bootable.raw_onMedium (h : Bootable disk n maxLbas) :
    (⟨0, maxLbas - 1⟩ : LbaRange).OnMedium n maxLbas := by
  have hpos := h.pos
  have hraw := h.raw
  have hend : (maxLbas - 1).toNat = maxLbas.toNat - 1 :=
    BitVec.toNat_sub_of_le (BitVec.le_def.mpr hpos)
  constructor
  · exact Nat.zero_le _
  · show (maxLbas - 1).toNat < 0 + maxLbas.toNat
    omega
  · show 0x200 * ((maxLbas - 1).toNat + 1) ≤ n
    omega

/-- Whatever the search selects on such a medium is on it. -/
theorem Bootable.selected_onMedium (h : Bootable disk n maxLbas) (hgpt : HasGpt disk)
    {tguid pguid : Option Guid} {r : Int × LbaRange}
    (hr : Selected disk maxLbas tguid pguid ⟨0, maxLbas - 1⟩ r) : r.2.OnMedium n maxLbas := by
  rcases hr with ⟨p, hp, hq, -, rfl⟩ | ⟨-, -, hnone, hfirst⟩
  · exact h.toMedium.entry_onMedium hgpt hp hq.1
  · rcases Nat.eq_zero_or_pos (diskHeader disk).count.toNat with hzero | hcount
    · rw [hnone hzero]
      exact h.raw_onMedium
    · obtain ⟨hbegin, hend⟩ := hfirst hcount
      have hsmall := h.small
      have hpos := h.pos
      have hraw := h.raw
      have hordered := (h.table hgpt).ordered 0 hcount
      have hrange := (h.table hgpt).ranges 0 hcount
      generalize entryRange disk (diskHeader disk).toGptTable 0 = first at *
      -- the clamp does not wrap
      have hclamp : (first.lbaBegin + maxLbas - 1).toNat
          = first.lbaBegin.toNat + maxLbas.toNat - 1 := by
        simp only [BitVec.toNat_sub, BitVec.toNat_add, BitVec.ofNat_eq_ofNat, BitVec.toNat_ofNat]
        omega
      rw [hclamp] at hend
      refine ⟨?_, ?_, ?_⟩
      · rw [hbegin]
        omega
      · rw [hbegin]
        omega
      · omega

theorem LbaRange.OnMedium.copyAddr {r : LbaRange} (h : r.OnMedium n maxLbas) (hn : n ≤ 2 ^ 63) :
    (r.copyCall codeBuf).addr.toNat = 0x200 * r.lbaBegin.toNat := by
  have hordered := h.ordered
  have hon := h.on
  show (0x200 * r.lbaBegin).toNat = _
  rw [BitVec.toNat_mul, BitVec.ofNat_eq_ofNat, BitVec.toNat_ofNat,
    Nat.mod_eq_of_lt (show 512 < 2 ^ 64 by omega), Nat.mod_eq_of_lt (by omega)]

theorem LbaRange.OnMedium.copyLen {r : LbaRange} (h : r.OnMedium n maxLbas) (hn : n ≤ 2 ^ 63) :
    (r.copyCall codeBuf).len.toNat = 0x200 * (r.lbaEnd.toNat + 1 - r.lbaBegin.toNat) := by
  have hordered := h.ordered
  have hon := h.on
  show r.copyLen.toNat = _
  rw [copyLen_toNat]
  omega

theorem LbaRange.OnMedium.bootCall {r : LbaRange} (h : r.OnMedium n maxLbas) (hn : n ≤ 2 ^ 63)
    (hroom : 0x200 * maxLbas.toNat ≤ room (.mem codeBuf)) :
    BootCall n room (r.copyCall codeBuf) := by
  have hordered := h.ordered
  have hshort := h.short
  have hon := h.on
  constructor
  · rw [h.copyAddr hn, h.copyLen hn]
    omega
  · rw [h.copyLen hn]
    refine Nat.le_trans ?_ hroom
    omega

theorem gptHeaderOf_congr {d d' : Nat → Byte} (h : ∀ i < 16, d i = d' i) :
    gptHeaderOf d = gptHeaderOf d' := by
  unfold gptHeaderOf
  rw [le64_congr fun j hj => h (0 + j) (by omega), le32_congr fun j hj => h (12 + j) (by omega),
    le32_congr fun j hj => h (8 + j) (by omega)]

/-! ## The search -/

/-- So far there were trusted calls only, and nothing was written. -/
structure Trusted {M : Type} (n : Nat) (room : Dst → Nat) (m : M) (s : St ReadCall M) : Prop where
  calls : ∀ c ∈ s.calls, BootCall n room c.1
  mem : s.mem = m

/-- The last of the trusted calls failed, and nothing was written. -/
structure TrustedFailed {M : Type} (env : Env ReadCall) (n : Nat) (room : Dst → Nat)
    (m : M) (e : Stop) (s : St ReadCall M) : Prop where
  trusted : Trusted n room m s
  last : ∃ q t, s.calls = (q, env t q) :: t ∧ (env t q).ret ≠ 0 ∧ e = .ret (env t q).ret

variable {M : Type} {m : M} {env : Env ReadCall} {tguid pguid : Option Guid}

theorem Trusted.call {s : St ReadCall M} (hs : Trusted n room m s) {q : ReadCall}
    (hq : BootCall n room q) (r : Reply) :
    Trusted n room m { s with calls := (q, r) :: s.calls } :=
  ⟨List.forall_mem_cons.mpr ⟨hq, hs.calls⟩, hs.mem⟩

theorem wp_check_medium (henv : Honest env disk (BootCall n room)) {q : ReadCall}
    {s : St ReadCall M} {R : (Nat → Byte) → St ReadCall M → Prop}
    (hs : Trusted n room m s) (hq : BootCall n room q)
    (hR : ∀ d s', (∀ i < q.len.toNat, d i = diskBytes disk q.addr i) →
      Trusted n room m s' → R d s') :
    wp env (check q) R (TrustedFailed env n room m) s := by
  rw [wp_check]
  exact ⟨fun hret => hR _ _ (henv s.calls q hs.calls hq hret) (hs.call hq _),
    fun hret => ⟨hs.call hq _, q, s.calls, rfl, hret, rfl⟩⟩

/-- The loop rule of the search: `I` on entry of pass `p`, `H` on a `break` in it. -/
theorem wp_gptScan {t : GptTable} {last : Nat} {I : Nat → LbaRange → St ReadCall M → Prop}
    {H : Nat → GptPass → St ReadCall M → Prop} {E : Stop → St ReadCall M → Prop}
    (hentry : ∀ p < last, ∀ out s, I p out s →
      wp env (gptEntry t maxLbas tguid pguid p out)
        (fun r s' => (r.hit = true → H p r s') ∧ (r.hit = false → I (p + 1) r.out s')) E s) :
    ∀ (k p : Nat) {out dim : LbaRange} {s : St ReadCall M}, p + k = last → I p out s →
      wp env (gptScan t maxLbas tguid pguid k p out dim)
        (fun r s' => (r.1 = last ∧ I last r.2.1 s') ∨
          (r.1 < last ∧ ∃ pass, H r.1 pass s' ∧ r.2.2 = pass.dim)) E s := by
  intro k
  induction k with
  | zero =>
    intro p out dim s hlast hI
    rw [Nat.add_zero] at hlast
    subst hlast
    exact Or.inl ⟨rfl, hI⟩
  | succ k ih =>
    intro p out dim s hlast hI
    unfold gptScan
    rw [wp_bind]
    refine wp_mono (hentry p (by omega) out s hI) (fun r s₁ h₁ => ?_) fun _ _ he => he
    rw [wp_ite]
    by_cases hhit : r.hit = true
    · rw [if_pos hhit]
      exact Or.inr ⟨by show p < last; omega, r, h₁.1 hhit, rfl⟩
    · rw [if_neg hhit]
      exact ih (p + 1) (by omega) (h₁.2 (Bool.eq_false_iff.mpr hhit))

theorem gptGuidMatches_medium (henv : Honest env disk (BootCall n room))
    {guid : Option Guid} {a : BitVec 64} (ha : BootCall n room ⟨.guid, a, 16⟩)
    {s : St ReadCall M} (hs : Trusted n room m s) :
    wp env (gptGuidMatches guid a)
      (fun b s' => Trusted n room m s' ∧ (b = true ↔ guid = some (guidAt disk a)))
      (TrustedFailed env n room m) s := by
  unfold gptGuidMatches
  split
  next => exact ⟨hs, ⟨fun h => Bool.noConfusion h, fun h => nomatch h⟩⟩
  next g =>
    rw [wp_bind]
    refine wp_check_medium henv hs ha fun d s' hd hs' => ⟨hs', ?_⟩
    have h0 : le64 d 0 = (guidAt disk a).1 := le64_congr fun j hj => hd (0 + j) (by
      show 0 + j < 16
      omega)
    have h8 : le64 d 8 = (guidAt disk a).2 := le64_congr fun j hj => hd (8 + j) (by
      show 8 + j < 16
      omega)
    rw [Bool.and_eq_true, beq_iff_eq, beq_iff_eq, h0, h8, Option.some.injEq, eq_comm,
      @eq_comm _ _ g.2, Prod.ext_iff]

/-- One pass of the search, on a medium whose table fits it, makes trusted calls only and reads
the entry's range. -/
theorem gptEntry_medium (henv : Honest env disk (BootCall n room))
    (hroom : Roomy room) (hmedium : Medium disk n) (hgpt : HasGpt disk) {p : Nat}
    (hp : p < (diskHeader disk).count.toNat) {out : LbaRange} {s : St ReadCall M}
    (hs : Trusted n room m s) :
    wp env (gptEntry (diskHeader disk).toGptTable maxLbas tguid pguid p out)
      (fun r s' => Trusted n room m s' ∧
        r.dim = entryRange disk (diskHeader disk).toGptTable p ∧
        r.out = (if p = 0 then
          clampRange maxLbas (entryRange disk (diskHeader disk).toGptTable p) else out) ∧
        (r.hit = true ↔ Qualifies disk (diskHeader disk).toGptTable maxLbas tguid pguid p))
      (TrustedFailed env n room m) s := by
  have hdimCall : BootCall n room ((diskHeader disk).dimCall p) :=
    hmedium.entryCall hgpt hp .dim hroom.dim 0x20 (Nat.le_refl 0x20)
  -- a pass makes up to three reads, all of them of its own entry
  have htypeCall : BootCall n room ⟨.guid, (diskHeader disk).entryAddr p, 16⟩ := by
    have hcall : BootCall n room ⟨.guid, (diskHeader disk).entryAddr p + 0#64, 16⟩ :=
      hmedium.entryCall hgpt hp .guid hroom.guid 0#64 (Nat.zero_le _)
    rwa [BitVec.add_zero] at hcall
  have hidCall : BootCall n room ⟨.guid, (diskHeader disk).entryAddr p + 0x10, 16⟩ :=
    hmedium.entryCall hgpt hp .guid hroom.guid 0x10 (by decide)
  unfold gptEntry Qualifies
  rw [wp_bind]
  refine wp_check_medium henv hs hdimCall fun d s₁ hd hs₁ => ?_
  have hdim : dimOf d = entryRange disk (diskHeader disk).toGptTable p := dimOf_congr hd
  dsimp only
  rw [hdim]
  generalize entryRange disk (diskHeader disk).toGptTable p = dim
  have hfits : dim.Fits maxLbas ↔ ¬dim.lbaEnd - dim.lbaBegin ≥ maxLbas := by
    show _ < _ ↔ ¬maxLbas ≤ _
    rw [BitVec.le_def, Nat.not_le]
  rw [wp_ite]
  -- too large: no GUID is read
  by_cases hbig : dim.lbaEnd - dim.lbaBegin ≥ maxLbas
  · rw [if_pos hbig]
    exact ⟨hs₁, rfl, rfl, ⟨fun h => Bool.noConfusion h, fun h => absurd hbig (hfits.mp h.1)⟩⟩
  · rw [if_neg hbig, wp_bind]
    refine wp_mono (gptGuidMatches_medium henv htypeCall hs₁) (fun byType s₂ h₂ => ?_)
      fun _ _ he => he
    obtain ⟨hs₂, htype⟩ := h₂
    rw [wp_ite]
    by_cases hhit : byType = true
    · rw [if_pos hhit]
      exact ⟨hs₂, rfl, rfl, fun _ => ⟨hfits.mpr hbig, Or.inl (htype.mp hhit)⟩, fun _ => rfl⟩
    · rw [if_neg hhit, wp_bind]
      refine wp_mono (gptGuidMatches_medium henv hidCall hs₂) (fun byId s₃ h₃ => ?_)
        fun _ _ he => he
      obtain ⟨hs₃, hid⟩ := h₃
      refine ⟨hs₃, rfl, rfl, ?_⟩
      rw [hid]
      exact ⟨fun h => ⟨hfits.mpr hbig, Or.inr h⟩,
        fun h => h.2.resolve_left fun h' => hhit (htype.mpr h')⟩

/-- The search selects what it has to, or a read of it failed. -/
theorem gptFindPartition_medium (henv : Honest env disk (BootCall n room))
    (hroom : Roomy room) (hmedium : Medium disk n) (hgpt : HasGpt disk) {out : LbaRange}
    {s : St ReadCall M} (hs : Trusted n room m s) :
    wp env (gptFindPartition out maxLbas tguid pguid)
      (fun r s' => Trusted n room m s' ∧ Selected disk maxLbas tguid pguid out r)
      (TrustedFailed env n room m) s := by
  have hheader : BootCall n room gptHeaderCall := ⟨hmedium.header, hroom.hf⟩
  unfold gptFindPartition Selected
  rw [wp_bind]
  refine wp_check_medium henv hs hheader fun d s₁ hd hs₁ => ?_
  have hhdr : gptHeaderOf d = diskHeader disk := gptHeaderOf_congr hd
  dsimp only
  rw [hhdr, wp_bind]
  -- no entry before `p` qualifies, and entry 0 is recorded once it has been read
  refine wp_mono (wp_gptScan (I := fun p o s' => Trusted n room m s' ∧
      (∀ j < p, ¬Qualifies disk (diskHeader disk).toGptTable maxLbas tguid pguid j) ∧
      o = if p = 0 then out
        else clampRange maxLbas (entryRange disk (diskHeader disk).toGptTable 0))
    (H := fun p r s' => Trusted n room m s' ∧
      (∀ j < p, ¬Qualifies disk (diskHeader disk).toGptTable maxLbas tguid pguid j) ∧
      Qualifies disk (diskHeader disk).toGptTable maxLbas tguid pguid p ∧
      r.dim = entryRange disk (diskHeader disk).toGptTable p)
    (fun p hp o s' h' => ?_) _ 0 (Nat.zero_add _)
    ⟨hs₁, fun j hj => absurd hj (Nat.not_lt_zero j), (if_pos rfl).symm⟩)
    (fun r s' h' => ?_) fun _ _ he => he
  · obtain ⟨hs', hnone, ho⟩ := h'
    refine wp_mono (gptEntry_medium henv hroom hmedium hgpt hp hs') (fun r s₂ h₂ => ?_)
      fun _ _ he => he
    obtain ⟨hs₂, hdim, hout, hhit⟩ := h₂
    refine ⟨fun h => ⟨hs₂, hnone, hhit.mp h, hdim⟩, fun h => ⟨hs₂, fun j hj => ?_, ?_⟩⟩
    · rcases Nat.lt_succ_iff_lt_or_eq.mp hj with hj | rfl
      · exact hnone j hj
      · exact fun hq => Bool.eq_false_iff.mp h (hhit.mpr hq)
    · rw [if_neg (Nat.succ_ne_zero p), hout]
      by_cases hzero : p = 0
      · rw [if_pos hzero, hzero]
      · rw [if_neg hzero, ho, if_neg hzero]
  · show wp env (if r.1 ≠ (diskHeader disk).count.toNat then _ else _) _ _ _
    rw [wp_ite]
    -- the table has been read to its end, or a pass left the loop
    rcases h' with ⟨hlast, hs', hnone, hout⟩ | ⟨hlt, pass, ⟨hs', hnone, hq, hdim⟩, hpass⟩
    · rw [if_neg (not_not.mpr hlast)]
      refine ⟨hs', Or.inr ⟨hnone, rfl, fun hzero => ?_, fun hpos => ?_⟩⟩
      · rw [if_pos hzero] at hout
        exact hout
      · rw [if_neg (Nat.pos_iff_ne_zero.mp hpos)] at hout
        show r.2.1.lbaBegin = _ ∧ r.2.1.lbaEnd.toNat = _
        rw [hout]
        exact ⟨rfl, clampRange_min maxLbas _⟩
    · rw [if_pos (Nat.ne_of_lt hlt)]
      refine ⟨hs', Or.inl ⟨r.1, hlt, hq, hnone, ?_⟩⟩
      rw [hpass, hdim]

/-! ## The boot -/

/-- The range the boot copies: what the table selects, or the first blocks of a medium that
has no table or whose signature could not be read. -/
def BootRange (disk : Span.Memory) (maxLbas : BitVec 64) (tguid pguid : Option Guid)
    (sigFails : Prop) (rng : LbaRange) : Prop :=
  (HasGpt disk ∧ ∃ i, Selected disk maxLbas tguid pguid ⟨0, maxLbas - 1⟩ (i, rng)) ∨
    rng = ⟨0, maxLbas - 1⟩ ∧ (HasGpt disk → sigFails)

/-- What the boot does behind the copy, newest first. -/
def bootEvents (ptrs : BootPtrs) (codeBuf : BitVec 64) : List BootEvent :=
  [.bootNextStage codeBuf, .scratch 3 (ptrs.gp.setWidth 32), .scratch 1 (ptrs.priv.setWidth 32),
    .scratch 0 ((ptrs.read ||| 1).setWidth 32)]

/-- A boot that got to the next stage: the copy was the last read, and it succeeded. -/
structure Booted (env : Env ReadCall) (disk : Span.Memory) (n : Nat) (ptrs : BootPtrs)
    (codeBuf maxLbas : BitVec 64) (tguid pguid : Option Guid) (rng : LbaRange)
    (t : Trace ReadCall) (s : St ReadCall (List BootEvent)) : Prop where
  calls : s.calls = (rng.copyCall codeBuf, env t (rng.copyCall codeBuf)) :: t
  trusted : ∀ c ∈ s.calls, BootCall n (Dst.room codeBuf maxLbas) c.1
  range : BootRange disk maxLbas tguid pguid ((env [] gptSigCall).ret ≠ 0) rng
  onMedium : rng.OnMedium n maxLbas
  ret : (env t (rng.copyCall codeBuf)).ret = 0
  mem : s.mem = bootEvents ptrs codeBuf

theorem gptBootRange_medium (henv : Honest env disk (BootCall n (Dst.room codeBuf maxLbas)))
    (hboot : Bootable disk n maxLbas) {m : List BootEvent} :
    wp env (gptBootRange maxLbas tguid pguid)
      (fun rng s' => Trusted n (Dst.room codeBuf maxLbas) m s' ∧
        BootRange disk maxLbas tguid pguid ((env [] gptSigCall).ret ≠ 0) rng ∧
        rng.OnMedium n maxLbas)
      (TrustedFailed env n (Dst.room codeBuf maxLbas) m)
      (⟨[], m⟩ : St ReadCall (List BootEvent)) := by
  have hstart : Trusted n (Dst.room codeBuf maxLbas) m
      (⟨[], m⟩ : St ReadCall (List BootEvent)) :=
    ⟨fun _ hc => absurd hc List.not_mem_nil, rfl⟩
  have hsig : BootCall n (Dst.room codeBuf maxLbas) gptSigCall :=
    ⟨Nat.le_trans (by decide) hboot.header, Nat.le_refl 8⟩
  have hs₁ := hstart.call hsig (env [] gptSigCall)
  have hbytes := henv [] gptSigCall (fun _ hc => absurd hc List.not_mem_nil) hsig
  unfold gptBootRange gptCheckSignature
  rw [wp_bind, wp_bind, wp_ask, wp_ite]
  rw [show (⟨.sig, 0x200, 8⟩ : ReadCall) = gptSigCall from rfl]
  generalize env [] gptSigCall = r at hs₁ hbytes
  -- a signature that cannot be read counts as none: the raw medium is booted
  by_cases hret : r.ret = 0
  · rw [if_pos hret, wp_pure, wp_ite]
    have hword : le64 r.out 0 = le64 (diskBytes disk 0x200) 0 :=
      le64_congr fun j hj => hbytes hret (0 + j) (by show 0 + j < 8; omega)
    rw [hword]
    by_cases hgpt : HasGpt disk
    · rw [if_pos (beq_iff_eq.mpr hgpt), wp_bind]
      refine wp_mono (gptFindPartition_medium henv (roomy_room codeBuf maxLbas) hboot.toMedium
        hgpt hs₁) (fun r s₂ h₂ => ?_)
        fun _ _ he => he
      exact ⟨h₂.1, Or.inl ⟨hgpt, r.1, h₂.2⟩, hboot.selected_onMedium hgpt h₂.2⟩
    · rw [if_neg fun h => hgpt (beq_iff_eq.mp h)]
      exact ⟨hs₁, Or.inr ⟨rfl, fun h => absurd h hgpt⟩, hboot.raw_onMedium⟩
  · rw [if_neg hret, wp_pure, wp_ite, if_neg (by simp)]
    exact ⟨hs₁, Or.inr ⟨rfl, fun _ => hret⟩, hboot.raw_onMedium⟩

/-- A boot copies the range it has to and enters the next stage, or returns an error
without having written anything. -/
theorem gptBoot_medium (henv : Honest env disk (BootCall n (Dst.room codeBuf maxLbas)))
    (hboot : Bootable disk n maxLbas) (ptrs : BootPtrs) :
    wp env (gptBootPartElseRaw ptrs codeBuf maxLbas tguid pguid)
      (fun _ s' => ∃ rng t, Booted env disk n ptrs codeBuf maxLbas tguid pguid rng t s')
      (TrustedFailed env n (Dst.room codeBuf maxLbas) []) ⟨[], []⟩ := by
  unfold gptBootPartElseRaw
  rw [wp_bind]
  refine wp_mono (gptBootRange_medium henv hboot) (fun rng s₁ h₁ => ?_) fun _ _ he => he
  obtain ⟨hs₁, hrange, hon⟩ := h₁
  have hcopy : BootCall n (Dst.room codeBuf maxLbas) (rng.copyCall codeBuf) :=
    hon.bootCall hboot.small (Nat.le_of_eq (if_pos rfl).symm)
  have hs₂ := hs₁.call hcopy (env s₁.calls (rng.copyCall codeBuf))
  rw [wp_bind, wp_check]
  refine ⟨fun hret => ?_, fun hret => ⟨hs₂, _, s₁.calls, rfl, hret, rfl⟩⟩
  rw [wp_modifyMem]
  refine ⟨rng, s₁.calls, rfl, hs₂.calls, hrange, hon, hret, ?_⟩
  show _ :: _ :: _ :: _ :: s₁.mem = _
  rw [hs₁.mem]
  rfl

/-! ## By its first read -/

/-- The copy of the first `max_lbas` blocks, which a disk without a table gets. -/
def rawCall (codeBuf maxLbas : BitVec 64) : ReadCall := LbaRange.copyCall ⟨0, maxLbas - 1⟩ codeBuf

/-- Without a table there are two reads in all. -/
theorem gptBoot_raw (env : Env ReadCall) (hraw : ¬SeesGpt env) (ptrs : BootPtrs) :
    wp env (gptBootPartElseRaw ptrs codeBuf maxLbas tguid pguid)
      (fun _ s => s.calls = (rawCall codeBuf maxLbas,
          env (afterSig env) (rawCall codeBuf maxLbas)) :: afterSig env ∧
        (env (afterSig env) (rawCall codeBuf maxLbas)).ret = 0 ∧
        s.mem = bootEvents ptrs codeBuf)
      (fun e s => s.calls = (rawCall codeBuf maxLbas,
          env (afterSig env) (rawCall codeBuf maxLbas)) :: afterSig env ∧
        (env (afterSig env) (rawCall codeBuf maxLbas)).ret ≠ 0 ∧
        e = .ret (env (afterSig env) (rawCall codeBuf maxLbas)).ret ∧ s.mem = [])
      ⟨[], []⟩ := by
  unfold gptBootPartElseRaw gptBootRange
  rw [wp_bind, wp_bind]
  refine wp_mono (gptCheckSignature_sees env) (fun gpt s h => ?_) fun _ _ he => he.elim
  obtain ⟨rfl, hgpt⟩ := h
  rw [wp_ite, if_neg (mt hgpt.mp hraw), wp_pure, wp_bind, wp_check]
  exact ⟨fun hret => ⟨rfl, hret, rfl⟩, fun hret => ⟨rfl, hret, rfl, rfl⟩⟩

/-- With a table, a boot that gets to the next stage has read the header first. -/
theorem gptBoot_table (env : Env ReadCall) (hsees : SeesGpt env) (ptrs : BootPtrs) :
    wp env (gptBootPartElseRaw ptrs codeBuf maxLbas tguid pguid)
      (fun _ s => (env (afterSig env) gptHeaderCall).ret = 0 ∧
        ∃ t, s.calls = t ++ (gptHeaderCall, env (afterSig env) gptHeaderCall) :: afterSig env)
      (fun _ _ => True) ⟨[], []⟩ := by
  unfold gptBootPartElseRaw gptBootRange
  rw [wp_bind, wp_bind]
  refine wp_mono (gptCheckSignature_sees env) (fun gpt s h => ?_) fun _ _ he => he.elim
  obtain ⟨rfl, hgpt⟩ := h
  unfold gptFindPartition
  rw [wp_ite, if_pos (hgpt.mpr hsees), wp_bind, wp_bind, wp_check]
  refine ⟨fun hret => ?_, fun _ => trivial⟩
  generalize hhdr : (⟨(gptHeaderCall, _) :: afterSig env, []⟩ : St ReadCall (List BootEvent)) = s₁
  dsimp only
  rw [wp_bind]
  -- whatever the scan does, it only adds calls
  refine wp_mono (wp_gptScan (I := fun _ _ s' => SearchOnly s₁.calls s₁.mem s')
    (H := fun _ _ s' => SearchOnly s₁.calls s₁.mem s')
    (fun p _ o s' h' => wp_mono (gptEntry_spec h') (fun r s₂ h₂ => ⟨fun _ => h₂.1, fun _ => h₂.1⟩)
      fun _ _ he => he) _ 0 (Nat.zero_add _) (searchOnly_refl s₁)) (fun r s₂ h₂ => ?_)
    fun _ _ _ => trivial
  have hsearch : SearchOnly s₁.calls s₁.mem s₂ := by
    rcases h₂ with ⟨-, h₂⟩ | ⟨-, _, h₂, -⟩
    · exact h₂
    · exact h₂
  obtain ⟨-, new, hnew, -⟩ := hsearch
  have hlast : ∀ rng : LbaRange, wp env (do
      let _ ← check (rng.copyCall codeBuf)
      modifyMem (bootEvents ptrs codeBuf ++ ·))
      (fun _ s => (env (afterSig env) gptHeaderCall).ret = 0 ∧
        ∃ t, s.calls = t ++ (gptHeaderCall, env (afterSig env) gptHeaderCall) :: afterSig env)
      (fun _ _ => True) s₂ := by
    intro rng
    rw [wp_bind, wp_check]
    refine ⟨fun _ => ⟨hret,
      (rng.copyCall codeBuf, env s₂.calls (rng.copyCall codeBuf)) :: new, ?_⟩, fun _ => trivial⟩
    show _ :: s₂.calls = _
    rw [hnew, ← hhdr]
    rfl
  show wp env (if r.1 ≠ _ then _ else _) _ _ _
  rw [wp_ite]
  split
  · exact hlast _
  · exact hlast _

end Cheshire.Sw
