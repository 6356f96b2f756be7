import Cheshire.Lib.Prog

/-!
# `gpt.c`: partition search and boot

The boot media are reached through a callback `read(priv, buf, addr, len)`. Its
answers are the environment: any bytes, any return value, on every call. `priv`
never changes during a boot and is left out of the calls.

`gptFindPartition` reads the header, then walks the partition entries. Entry 0
is recorded in the out parameters in any case, clamped to `max_lbas`; the walk
stops at the first entry that fits and carries the wanted GUID.
`gptBootPartElseRaw` copies the range found, or the raw start of the medium when
there is no GPT header, to the boot buffer.
-/

namespace Cheshire.Sw

open Firmware Firmware.Prog

/-- Where a `read` call delivers its bytes: a stack variable of the search, or
memory the caller named. -/
inductive Dst where
  | sig
  | hf
  | dim
  | guid
  | mem (a : BitVec 64)
  deriving DecidableEq, Repr

/-- One call `read(priv, dst, addr, len)` of the search or the boot. -/
structure ReadCall where
  dst : Dst
  addr : BitVec 64
  len : BitVec 64
  deriving DecidableEq, Repr

/-- A GUID as the code compares it: two 64-bit words. -/
abbrev Guid := BitVec 64 × BitVec 64

/-- `struct part_fields`, and the pair of out parameters of the search. The end
is inclusive. -/
structure LbaRange where
  lbaBegin : BitVec 64
  lbaEnd : BitVec 64
  deriving DecidableEq, Repr

/-- `dim`, read from the first partition fields of an entry. -/
def dimOf (d : Nat → Byte) : LbaRange := ⟨le64 d 0, le64 d 8⟩

variable {M : Type}

def gptCheckSignature : Prog ReadCall M Bool := do
  let r ← ask ⟨.sig, 0x200, 8⟩
  -- a failed call is reported as "no signature"
  if r.ret = 0 then pure (le64 r.out 0 == 0x5452415020494645) else pure false

/-- `MIN(dim.lba_end, dim.lba_begin + max_lbas - 1)` with its begin. -/
def clampRange (maxLbas : BitVec 64) (dim : LbaRange) : LbaRange :=
  ⟨dim.lbaBegin,
    if dim.lbaEnd ≤ dim.lbaBegin + maxLbas - 1 then dim.lbaEnd
    else dim.lbaBegin + maxLbas - 1⟩

/-- `if (guid) { CHECK_CALL(read(.., addr, 16)) if (guid matches) break; }`. -/
def gptGuidMatches (guid : Option Guid) (addr : BitVec 64) : Prog ReadCall M Bool :=
  match guid with
  | none => pure false
  | some g => do
    let d ← check ⟨.guid, addr, 16⟩
    pure (le64 d 0 == g.1 && le64 d 8 == g.2)

/-- The partition entry array: `hf.lba` and `hf.size` of the header. -/
structure GptTable where
  lba : BitVec 64
  size : BitVec 32

/-- `0x200 * hf.lba + p * hf.size`, where entry `p` starts on the disk. -/
def GptTable.entryAddr (t : GptTable) (p : Nat) : BitVec 64 :=
  0x200 * t.lba + BitVec.ofNat 64 p * t.size.setWidth 64

/-- The read of entry `p`'s two range fields. -/
def GptTable.dimCall (t : GptTable) (p : Nat) : ReadCall := ⟨.dim, t.entryAddr p + 0x20, 16⟩

/-- What one pass of the loop leaves: the out parameters, the entry just read,
and whether the pass ended in `break`. -/
structure GptPass where
  out : LbaRange
  dim : LbaRange
  hit : Bool

/-- The body of the loop in `gpt_find_partition`, for entry `p`. -/
def gptEntry (t : GptTable) (maxLbas : BitVec 64) (tguid pguid : Option Guid) (p : Nat)
    (out : LbaRange) : Prog ReadCall M GptPass := do
  let d ← check (t.dimCall p)
  let dim := dimOf d
  -- the first partition is recorded in any case
  let out := if p = 0 then clampRange maxLbas dim else out
  if dim.lbaEnd - dim.lbaBegin ≥ maxLbas then
    pure ⟨out, dim, false⟩
  else do
    let byType ← gptGuidMatches tguid (t.entryAddr p)
    if byType then
      pure ⟨out, dim, true⟩
    else do
      let byId ← gptGuidMatches pguid (t.entryAddr p + 0x10)
      pure ⟨out, dim, byId⟩

/-- `for (; p < count; ++p)` with `n = count - p` entries to go: the final `p`,
the out parameters and the last entry read. -/
def gptScan (t : GptTable) (maxLbas : BitVec 64) (tguid pguid : Option Guid) :
    Nat → Nat → LbaRange → LbaRange → Prog ReadCall M (Nat × LbaRange × LbaRange)
  | 0, p, out, dim => pure (p, out, dim)
  | n + 1, p, out, _ => do
    let r ← gptEntry t maxLbas tguid pguid p out
    if r.hit then pure (p, r.out, r.dim)
    else gptScan t maxLbas tguid pguid n (p + 1) r.out r.dim

/-- `struct hdr_fields`, read from 0x48 bytes into the header. -/
structure GptHeader extends GptTable where
  count : BitVec 32

def gptHeaderOf (d : Nat → Byte) : GptHeader := ⟨⟨le64 d 0, le32 d 12⟩, le32 d 8⟩

def gptHeaderCall : ReadCall := ⟨.hf, 0x200 + 0x48, 16⟩

/-- `out` holds `*lba_begin` and `*lba_end` on entry; the results are `*part_idx`
and the two out parameters on return. -/
def gptFindPartition (out : LbaRange) (maxLbas : BitVec 64) (tguid pguid : Option Guid) :
    Prog ReadCall M (Int × LbaRange) := do
  let h ← check gptHeaderCall
  let hf := gptHeaderOf h
  -- `dim` is uninitialised before the loop and read only after a `break`
  let (p, out, dim) ← gptScan hf.toGptTable maxLbas tguid pguid hf.count.toNat 0 out ⟨0, 0⟩
  if p ≠ hf.count.toNat then pure ((p : Int), dim) else pure (-1, out)

/-- What the boot writes besides its reads: scratch registers and the jump. -/
inductive BootEvent where
  | scratch (i : Nat) (v : BitVec 32)
  | bootNextStage (a : BitVec 64)
  deriving DecidableEq, Repr

/-- The pointers the next stage is handed: `read`, `priv` and the boot ROM's `gp`. -/
structure BootPtrs where
  read : BitVec 64
  priv : BitVec 64
  gp : BitVec 64

/-- The LBA range the boot copies: the partition found, or the raw medium. -/
def gptBootRange (maxLbas : BitVec 64) (tguid pguid : Option Guid) : Prog ReadCall M LbaRange := do
  let gpt ← gptCheckSignature
  if gpt then do
    let (_, out) ← gptFindPartition ⟨0, maxLbas - 1⟩ maxLbas tguid pguid
    pure out
  else pure ⟨0, maxLbas - 1⟩

/-- The call that copies a range to `dst`; the end of the range is inclusive. -/
def LbaRange.copyCall (r : LbaRange) (dst : BitVec 64) : ReadCall :=
  ⟨.mem dst, 0x200 * r.lbaBegin, 0x200 * (r.lbaEnd - r.lbaBegin + 1)⟩

def gptBootPartElseRaw (ptrs : BootPtrs) (codeBuf maxLbas : BitVec 64)
    (tguid pguid : Option Guid) : Prog ReadCall (List BootEvent) Unit := do
  let rng ← gptBootRange maxLbas tguid pguid
  let _ ← check (rng.copyCall codeBuf)
  modifyMem fun l =>
    .bootNextStage codeBuf :: .scratch 3 (ptrs.gp.setWidth 32) :: .scratch 1 (ptrs.priv.setWidth 32)
      :: .scratch 0 ((ptrs.read ||| 1).setWidth 32) :: l

/-! ## What the search reads and yields -/

variable {env : Env ReadCall} {t : Trace ReadCall} {m : M}

/-- No call in the trace delivered into the caller's memory. -/
def StackOnly (t : Trace ReadCall) : Prop := ∀ c ∈ t, ∀ a, c.1.dst ≠ .mem a

/-- Since the trace was `t` and the memory `m`, there were only reads into the
search's own variables. -/
structure SearchOnly (t : Trace ReadCall) (m : M) (s : St ReadCall M) : Prop where
  mem_eq : s.mem = m
  calls_eq : ∃ new, s.calls = new ++ t ∧ StackOnly new

theorem searchOnly_refl (s : St ReadCall M) : SearchOnly s.calls s.mem s :=
  ⟨rfl, [], rfl, fun _ hc => absurd hc List.not_mem_nil⟩

theorem SearchOnly.call {s : St ReadCall M} (h : SearchOnly t m s) {q : ReadCall} (r : Reply)
    (hq : ∀ a, q.dst ≠ .mem a) : SearchOnly t m { s with calls := (q, r) :: s.calls } := by
  obtain ⟨hmem, new, hnew, hstack⟩ := h
  refine ⟨hmem, (q, r) :: new, by rw [hnew, List.cons_append], ?_⟩
  intro c hc
  rcases List.mem_cons.mp hc with rfl | hc
  · exact hq
  · exact hstack c hc

theorem SearchOnly.stackOnly {s : St ReadCall M} (h : SearchOnly [] m s) : StackOnly s.calls := by
  obtain ⟨_, new, hnew, hstack⟩ := h
  rw [hnew, List.append_nil]
  exact hstack

/-- A range of at most `max_lbas` blocks, by the test the loop makes. -/
def LbaRange.Fits (maxLbas : BitVec 64) (r : LbaRange) : Prop :=
  (r.lbaEnd - r.lbaBegin).toNat < maxLbas.toNat

/-- The range the environment delivers for entry `p` after the calls in `t`. -/
def dimAt (env : Env ReadCall) (t : Trace ReadCall) (tab : GptTable) (p : Nat) : LbaRange :=
  dimOf (env t (tab.dimCall p)).out

/-- A search never loops for ever: it stops with a return value of `read`. -/
def SearchFailed (t : Trace ReadCall) (m : M) (e : Stop) (s : St ReadCall M) : Prop :=
  e ≠ .spin ∧ SearchOnly t m s

theorem wp_search_check {q : ReadCall} {s : St ReadCall M} {R : (Nat → Byte) → St ReadCall M → Prop}
    (hs : SearchOnly t m s) (hq : ∀ a, q.dst ≠ .mem a)
    (hR : SearchOnly t m { s with calls := (q, env s.calls q) :: s.calls } →
      R (env s.calls q).out { s with calls := (q, env s.calls q) :: s.calls }) :
    wp env (check q) R (SearchFailed t m) s := by
  rw [wp_check]
  have hs' := hs.call (env s.calls q) hq
  exact ⟨fun _ => hR hs', fun _ => ⟨by simp, hs'⟩⟩

theorem gptGuidMatches_spec {guid : Option Guid} {addr : BitVec 64} {s : St ReadCall M}
    (hs : SearchOnly t m s) :
    wp env (gptGuidMatches guid addr) (fun _ => SearchOnly t m) (SearchFailed t m) s := by
  unfold gptGuidMatches
  split
  next => exact hs
  next g =>
    rw [wp_bind]
    exact wp_search_check hs (by simp) (fun hs' => hs')

theorem gptEntry_spec {tab : GptTable} {maxLbas : BitVec 64} {tguid pguid : Option Guid} {p : Nat}
    {out : LbaRange} {s : St ReadCall M} (hs : SearchOnly t m s) :
    wp env (gptEntry tab maxLbas tguid pguid p out)
      (fun r s' => SearchOnly t m s' ∧
        r.out = (if p = 0 then clampRange maxLbas (dimAt env s.calls tab p) else out) ∧
        (r.hit = true → r.dim.Fits maxLbas))
      (SearchFailed t m) s := by
  unfold gptEntry
  rw [wp_bind]
  refine wp_search_check hs (by simp [GptTable.dimCall]) (fun hs' => ?_)
  rw [show dimOf (env s.calls (tab.dimCall p)).out = dimAt env s.calls tab p from rfl]
  generalize dimAt env s.calls tab p = dim
  dsimp only
  rw [wp_ite]
  by_cases hbig : dim.lbaEnd - dim.lbaBegin ≥ maxLbas
  · rw [if_pos hbig]
    exact ⟨hs', rfl, fun h => absurd h (by simp)⟩
  · rw [if_neg hbig]
    have hfits : dim.Fits maxLbas := by
      have hlt : ¬maxLbas ≤ dim.lbaEnd - dim.lbaBegin := hbig
      rw [BitVec.le_def] at hlt
      exact Nat.lt_of_not_le hlt
    rw [wp_bind]
    refine wp_mono (gptGuidMatches_spec hs') (fun byType s₁ h₁ => ?_) (fun _ _ he => he)
    rw [wp_ite]
    cases byType with
    | true => exact ⟨h₁, rfl, fun _ => hfits⟩
    | false =>
      rw [if_neg (by simp), wp_bind]
      refine wp_mono (gptGuidMatches_spec h₁) (fun byId s₂ h₂ => ?_) (fun _ _ he => he)
      exact ⟨h₂, rfl, fun _ => hfits⟩

/-- What the walk yields: the out parameters are `out`, and a walk that stopped
before `last` stopped at an entry that fits. -/
def ScanPost (t : Trace ReadCall) (m : M) (maxLbas : BitVec 64) (last : Nat) (out : LbaRange)
    (r : Nat × LbaRange × LbaRange) (s' : St ReadCall M) : Prop :=
  SearchOnly t m s' ∧ r.2.1 = out ∧ (r.1 ≠ last → r.2.2.Fits maxLbas)

/-- After entry 0 the walk leaves the out parameters alone. -/
theorem gptScan_spec {tab : GptTable} {maxLbas : BitVec 64} {tguid pguid : Option Guid} :
    ∀ (n p : Nat) {out dim : LbaRange} {s : St ReadCall M}, 0 < p → SearchOnly t m s →
      wp env (gptScan tab maxLbas tguid pguid n p out dim) (ScanPost t m maxLbas (p + n) out)
        (SearchFailed t m) s := by
  intro n
  induction n with
  | zero =>
    intro p out dim s _ hs
    exact ⟨hs, rfl, fun h => absurd rfl h⟩
  | succ n ih =>
    intro p out dim s hp hs
    unfold gptScan
    rw [wp_bind]
    refine wp_mono (gptEntry_spec hs) (fun r s₁ h₁ => ?_) (fun _ _ he => he)
    obtain ⟨hs₁, hout, hfits⟩ := h₁
    -- only entry 0 is recorded
    rw [if_neg (by omega)] at hout
    rw [wp_ite]
    by_cases hhit : r.hit = true
    · rw [if_pos hhit]
      exact ⟨hs₁, hout, fun _ => hfits hhit⟩
    · rw [if_neg hhit, hout, show p + (n + 1) = p + 1 + n by omega]
      exact ih (p + 1) (by omega) hs₁

/-- A walk over at least one entry records entry 0, clamped. -/
theorem gptScan_first {tab : GptTable} {maxLbas : BitVec 64} {tguid pguid : Option Guid} {n : Nat}
    {out dim : LbaRange} {s : St ReadCall M} (hn : 0 < n) (hs : SearchOnly t m s) :
    wp env (gptScan tab maxLbas tguid pguid n 0 out dim)
      (ScanPost t m maxLbas n (clampRange maxLbas (dimAt env s.calls tab 0)))
      (SearchFailed t m) s := by
  obtain ⟨k, rfl⟩ : ∃ k, n = k + 1 := ⟨n - 1, by omega⟩
  unfold gptScan
  rw [wp_bind]
  refine wp_mono (gptEntry_spec hs) (fun r s₁ h₁ => ?_) (fun _ _ he => he)
  obtain ⟨hs₁, hout, hfits⟩ := h₁
  rw [if_pos rfl] at hout
  rw [wp_ite]
  by_cases hhit : r.hit = true
  · rw [if_pos hhit]
    exact ⟨hs₁, hout, fun _ => hfits hhit⟩
  · rw [if_neg hhit, hout, Nat.add_comm k 1, Nat.zero_add]
    exact gptScan_spec k 1 (by omega) hs₁

/-- The header the search reads, the calls in `t` having been made before. -/
def headerAt (env : Env ReadCall) (t : Trace ReadCall) : GptHeader :=
  gptHeaderOf (env t gptHeaderCall).out

/-- Entry 0 as the search reads it right after the header. -/
def firstEntryAt (env : Env ReadCall) (t : Trace ReadCall) : LbaRange :=
  dimAt env ((gptHeaderCall, env t gptHeaderCall) :: t) (headerAt env t).toGptTable 0

/-- The three ways a search ends without an error: a match, which fits; entry 0
clamped; or, with no entries at all, the out parameters as they were. -/
theorem gptFindPartition_spec {out : LbaRange} {maxLbas : BitVec 64} {tguid pguid : Option Guid}
    {s : St ReadCall M} (hs : SearchOnly t m s) :
    wp env (gptFindPartition out maxLbas tguid pguid)
      (fun r s' => SearchOnly t m s' ∧
        (r.1 = -1 ∨ r.2.Fits maxLbas) ∧
        (r.1 = -1 → r.2 = if (headerAt env s.calls).count.toNat = 0 then out
          else clampRange maxLbas (firstEntryAt env s.calls)))
      (SearchFailed t m) s := by
  unfold gptFindPartition
  rw [wp_bind]
  refine wp_search_check hs (by simp [gptHeaderCall]) (fun hs' => ?_)
  rw [show gptHeaderOf (env s.calls gptHeaderCall).out = headerAt env s.calls from rfl]
  dsimp only
  rw [wp_bind]
  by_cases hc : (headerAt env s.calls).count.toNat = 0
  · rw [hc]
    unfold gptScan
    rw [wp_pure]
    dsimp only
    rw [wp_ite, if_neg (not_not.mpr rfl)]
    exact ⟨hs', Or.inl rfl, fun _ => by rw [if_pos rfl]⟩
  · refine wp_mono (gptScan_first (Nat.pos_of_ne_zero hc) hs') (fun r s₁ h₁ => ?_)
      (fun _ _ he => he)
    obtain ⟨hs₁, hout, hfits⟩ := h₁
    show wp env (if r.1 ≠ (headerAt env s.calls).count.toNat then _ else _) _ _ _
    rw [wp_ite]
    by_cases hp : r.1 ≠ (headerAt env s.calls).count.toNat
    · rw [if_pos hp]
      refine ⟨hs₁, Or.inr (hfits hp), fun h => ?_⟩
      exact absurd h (by simp only; omega)
    · rw [if_neg hp]
      refine ⟨hs₁, Or.inl rfl, fun _ => ?_⟩
      rw [if_neg hc]
      exact hout

theorem gptCheckSignature_spec {s : St ReadCall M} (hs : SearchOnly t m s) :
    wp env gptCheckSignature (fun _ => SearchOnly t m) (fun _ _ => False) s := by
  unfold gptCheckSignature
  rw [wp_bind, wp_ask, wp_ite]
  have hs' := hs.call (env s.calls ⟨.sig, 0x200, 8⟩) (q := ⟨.sig, 0x200, 8⟩) (by simp)
  split
  · exact hs'
  · exact hs'

end Cheshire.Sw
