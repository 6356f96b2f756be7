import Cheshire.Lib.Layer
import Cheshire.Sw.GptMedium
import Cheshire.Sw.Zsl

/-!
# A boot through a driver

`gpt_boot_part_else_raw` reads through a callback. Here the callback is a driver, run on
the memory of the boot ROM: a read of the search goes to one of its stack variables, the
last read goes to the SPM, and what the search sees of an answer is what the driver left in
memory.

`DriverReads` is the contract of a driver: a read of bytes of its medium that returns 0 has
put them where they belong, and no read changes anything else. Under it the boot puts the
selected part of the medium into the SPM and enters it there, or returns an error
(`serve_boot`); memory outside its variables and the boot buffer is as before.
-/

namespace Cheshire.Sw

open Firmware Firmware.Prog

/-! ## `params.h` -/

/-- `__BOOT_SPM_MAX_LBAS`, the blocks of 512 B that are copied to the SPM at most: 48 KiB. -/
def bootSpmMaxLbas : BitVec 64 := 2 * 48

def bootZslTypeGuid : Guid := (0x4CE4FD950269B26A, 0x622C41011494CF98)

/-! ## The callback -/

/-- Where the stack variables of the search are. -/
structure BootFrame where
  sig : Int
  hf : Int
  dim : Int
  guid : Int

def BootFrame.addr (f : BootFrame) : Dst → Int
  | .sig => f.sig
  | .hf => f.hf
  | .dim => f.dim
  | .guid => f.guid
  | .mem a => a.toNat

/-- `x` is not in the memory the boot reads into. -/
def BootFrame.Outside (f : BootFrame) (room : Dst → Nat) (x : Int) : Prop :=
  ∀ d : Dst, x < f.addr d ∨ f.addr d + room d ≤ x

variable {Q M : Type}

/-- `gpt_read_t` for one medium: `read(buf, addr, len)`. -/
abbrev ReadFn (Q M : Type) := Int → Nat → Nat → Prog Q M Unit

/-- `read(priv, dst, addr, len)`, and the bytes its caller then finds at `dst`. -/
def readVia (f : BootFrame) (read : ReadFn Q M) (peek : M → Int → Byte) (q : ReadCall) :
    Prog Q M Reply := do
  let r ← attempt (read (f.addr q.dst) q.addr.toNat q.len.toNat)
  let m ← getMem
  pure ⟨match r with | .ok _ => 0 | .error c => c, fun i => peek m (f.addr q.dst + i)⟩

/-- A boot whose `read` is this driver: how it ended, and what it wrote besides memory. -/
def bootVia (f : BootFrame) (read : ReadFn Q M) (peek : M → Int → Byte) (ptrs : BootPtrs)
    (codeBuf maxLbas : BitVec 64) (tguid pguid : Option Guid) :
    Prog Q M (Except Stop Unit × List BootEvent) :=
  serve (readVia f read peek) (gptBootPartElseRaw ptrs codeBuf maxLbas tguid pguid) []

/-! ## The contract -/

/-- Bytes outside the `len` at `buf` are as they were. -/
def KeepsRest (peek : M → Int → Byte) (buf : Int) (len : Nat) (m m' : M) : Prop :=
  ∀ x, x < buf ∨ buf + len ≤ x → peek m' x = peek m x

/-- A driver of a medium of `n` bytes, from states in `I`. It stops early only as `F` says. -/
def DriverReads (env : Env Q) (read : ReadFn Q M) (peek : M → Int → Byte) (image : Nat → Byte)
    (n : Nat) (I : St Q M → Prop) (F : Stop → Prop) : Prop :=
  ∀ buf addr len s, I s → addr + len ≤ n →
    wp env (read buf addr len)
      (fun _ s' => I s' ∧ KeepsRest peek buf len s.mem s'.mem ∧
        ∀ k < len, peek s'.mem (buf + k) = image (addr + k))
      (fun e s' => I s' ∧ KeepsRest peek buf len s.mem s'.mem ∧ e ≠ .ret 0 ∧ F e) s

/-- Some read within the medium stops early, with `e`. -/
def ReadStops (env : Env Q) (read : ReadFn Q M) (n : Nat) (e : Stop) : Prop :=
  ∃ buf addr len s, addr + len ≤ n ∧ (read buf addr len env s).1 = .error e

/-- The medium, as the search addresses its bytes. -/
def diskOf (image : Nat → Byte) : Span.Memory := fun a => image a.toNat

variable {env : Env Q} {read : ReadFn Q M} {peek : M → Int → Byte} {image : Nat → Byte} {n : Nat}
  {I : St Q M → Prop} {F : Stop → Prop} {f : BootFrame} {codeBuf maxLbas : BitVec 64}
  {room : Dst → Nat}

/-- What stops a read is what stops some read. -/
theorem DriverReads.stops (hread : DriverReads env read peek image n I F) :
    DriverReads env read peek image n I fun e => F e ∧ ReadStops env read n e := by
  intro buf addr len s hI hrange
  refine wp_mono (wp_run (hread buf addr len s hI hrange)) (fun _ _ h => h.2) fun e s' he => ?_
  obtain ⟨hrun, hI', hrest, hne, hF⟩ := he
  exact ⟨hI', hrest, hne, hF, buf, addr, len, s, hrange, congrArg Prod.fst hrun⟩

theorem diskBytes_diskOf {a : BitVec 64} {i : Nat} (h : a.toNat + i < 2 ^ 64) :
    diskBytes (diskOf image) a i = image (a.toNat + i) := by
  show image (Span.nth a i).toNat = _
  unfold Span.nth
  rw [BitVec.toNat_add, BitVec.toNat_ofNat, Nat.mod_eq_of_lt (show i < 2 ^ 64 by omega),
    Nat.mod_eq_of_lt h]

/-- So far the driver's own state is in order, and memory has changed only where the boot
reads into it. -/
structure BootKeeps (I : St Q M → Prop) (peek : M → Int → Byte) (f : BootFrame)
    (room : Dst → Nat) (s s' : St Q M) : Prop where
  inv : I s'
  frame : ∀ x, f.Outside room x → peek s'.mem x = peek s.mem x

theorem bootKeeps_refl {s : St Q M} (hs : I s) : BootKeeps I peek f room s s :=
  ⟨hs, fun _ _ => rfl⟩

theorem BootFrame.Outside.mono {room' : Dst → Nat} {x : Int} (h : f.Outside room' x)
    (hroom : ∀ d, room d ≤ room' d) : f.Outside room x := fun d =>
  (h d).imp_right fun hge => by
    have := hroom d
    omega

theorem BootKeeps.trans {room' : Dst → Nat} {s s₁ s₂ : St Q M}
    (h : BootKeeps I peek f room' s s₁) (h' : BootKeeps I peek f room s₁ s₂)
    (hroom : ∀ d, room d ≤ room' d) : BootKeeps I peek f room' s s₂ :=
  ⟨h'.inv, fun x hx => (h'.frame x (hx.mono hroom)).trans (h.frame x hx)⟩

/-- A trusted call, through the driver. -/
theorem readVia_spec (hread : DriverReads env read peek image n I F) (hn : n ≤ 2 ^ 63)
    {q : ReadCall} (hq : BootCall n room q) {s s₁ : St Q M}
    (h₁ : BootKeeps I peek f room s s₁) :
    wp env (readVia f read peek q)
      (fun r s' => BootKeeps I peek f room s s' ∧ (r.ret ≠ 0 → F (.ret r.ret)) ∧
        (r.ret = 0 → ∀ i < q.len.toNat, r.out i = diskBytes (diskOf image) q.addr i ∧
          peek s'.mem (f.addr q.dst + i) = image (q.addr.toNat + i)))
      (fun e s' => BootKeeps I peek f room s s' ∧ e = .spin ∧ F e) s₁ := by
  have hon := hq.on
  have hfits := hq.fits
  have hkeeps : ∀ {s'}, I s' →
      KeepsRest peek (f.addr q.dst) q.len.toNat s₁.mem s'.mem →
      BootKeeps I peek f room s s' := by
    intro s' hI hrest
    refine ⟨hI, fun x hx => (hrest x ?_).trans (h₁.frame x hx)⟩
    rcases hx q.dst with hlt | hge
    · exact Or.inl hlt
    · exact Or.inr (by omega)
  unfold readVia
  rw [wp_bind, wp_attempt]
  refine wp_mono (hread (f.addr q.dst) q.addr.toNat q.len.toNat s₁ h₁.inv hq.on)
    (fun _ s' h' => ?_) fun e s' he => ?_
  · obtain ⟨hI, hrest, hdata⟩ := h'
    rw [wp_bind, wp_getMem, wp_pure]
    refine ⟨hkeeps hI hrest, fun hne => absurd rfl hne, fun _ i hi => ⟨?_, hdata i hi⟩⟩
    rw [diskBytes_diskOf (by omega)]
    exact hdata i hi
  · obtain ⟨hI, hrest, hne, hF⟩ := he
    cases e with
    | spin => exact ⟨hkeeps hI hrest, rfl, hF⟩
    | ret c =>
      -- `CHECK_CALL` takes the code for that of the read, which is not 0
      dsimp only
      rw [wp_bind, wp_getMem, wp_pure]
      exact ⟨hkeeps hI hrest, fun _ => hF, fun hret => absurd (congrArg Stop.ret hret) hne⟩

/-- A replay of calls that can be trusted keeps what has to be kept, and stops early only by not
ending. -/
theorem replay_keeps (hread : DriverReads env read peek image n I F) (hn : n ≤ 2 ^ 63)
    {t : Trace ReadCall} (ht : ∀ c ∈ t, BootCall n room c.1) {s : St Q M} (hs : I s) :
    wp env (replay (readVia f read peek) t) (fun _ => BootKeeps I peek f room s)
      (fun e s' => BootKeeps I peek f room s s' ∧ e = .spin ∧ F e) s := by
  refine wp_replay (G := BootCall n room) (fun q s₁ hq h₁ => ?_) t ht
    (bootKeeps_refl hs)
  exact wp_mono (readVia_spec hread hn hq h₁) (fun _ _ h => h.1) fun _ _ he => he

/-- A search that reads through the driver gets the bytes of the medium wherever a call succeeds. -/
theorem served_honest (hread : DriverReads env read peek image n I F) (hn : n ≤ 2 ^ 63)
    {s : St Q M} (hs : I s) :
    Honest (served (readVia f read peek) env s) (diskOf image) (BootCall n room) := by
  intro t q ht hq
  refine served_spec (P := fun r : Reply => r.ret = 0 → ∀ i < q.len.toNat,
    r.out i = diskBytes (diskOf image) q.addr i) (replay_keeps hread hn ht hs)
    (fun s₁ h₁ => wp_mono (readVia_spec hread hn hq h₁) (fun r _ h => ?_) fun _ _ he => he)
    fun _ _ _ hlost => absurd hlost (by decide)
  exact fun hret i hi => (h.2.2 hret i hi).1

/-! ## The boot -/

/-- The read of the signature fails, from `s`. -/
def SigFails (env : Env Q) (read : ReadFn Q M) (f : BootFrame) (s : St Q M) : Prop :=
  ∃ e, (read f.sig 0x200 8 env s).1 = .error e

/-- A signature the search does not see was not read. -/
theorem served_sig (s : St Q M) :
    (served (readVia f read peek) env s [] gptSigCall).ret ≠ 0 → SigFails env read f s := by
  refine served_spec (P := fun r : Reply => r.ret ≠ 0 → SigFails env read f s)
    (I := (· = s)) (E := fun _ _ => SigFails env read f s)
    rfl (fun s' hs' => ?_) fun _ _ he _ => he
  subst hs'
  unfold readVia
  rw [wp_bind, wp_attempt]
  refine wp_mono (wp_run (wp_any (read f.sig 0x200 8) s')) (fun _ s₁ _ => ?_) fun e s₁ he => ?_
  · rw [wp_bind, wp_getMem, wp_pure]
    exact fun hne => absurd rfl hne
  · have hfails : SigFails env read f s' := ⟨e, congrArg Prod.fst he.1⟩
    cases e with
    | spin => exact hfails
    | ret c =>
      dsimp only
      rw [wp_bind, wp_getMem, wp_pure]
      exact fun _ => hfails

/-- If the read of the signature fails, the search sees that call fail and not some old
signature. -/
theorem SigFails.served {s : St Q M} (h : SigFails env read f s)
    (hstops : wp env (read f.sig 0x200 8) (fun _ _ => True) (fun e _ => e ≠ .ret 0) s) :
    (served (readVia f read peek) env s [] gptSigCall).ret ≠ 0 := by
  refine served_spec (P := fun r : Reply => r.ret ≠ 0) (I := (· = s)) (E := fun _ _ => True) rfl
    (fun s' hs' => ?_) fun _ _ _ => by decide
  subst hs'
  obtain ⟨e, he⟩ := h
  unfold readVia
  rw [wp_bind, wp_attempt]
  refine wp_mono (wp_run hstops) (fun _ s₁ h₁ => ?_) fun e' s₁ h₁ => ?_
  · exact nomatch he.symm.trans (congrArg Prod.fst h₁.1)
  · cases e' with
    | spin => exact trivial
    | ret c =>
      dsimp only
      rw [wp_bind, wp_getMem, wp_pure]
      exact fun hc => h₁.2 (congrArg Stop.ret hc)

theorem SigFails.stops {s : St Q M} (h : SigFails env read f s)
    (hread : DriverReads env read peek image n I F) (hs : I s) (hn : 0x208 ≤ n) : ∃ e, F e := by
  obtain ⟨e, he⟩ := h
  have hspec := hread f.sig 0x200 8 s hs (by omega)
  exact ⟨e, (wp_error hspec (run_eq he)).2.2.2⟩

/-- How a boot from this medium ends. `sigFails` is what has happened if there is a table and
the raw medium is booted all the same. -/
structure BootOutcome (image : Nat → Byte) (n : Nat) (ptrs : BootPtrs)
    (codeBuf maxLbas : BitVec 64) (tguid pguid : Option Guid) (sigFails : Prop)
    (F : Stop → Prop) (memory : Int → Byte) (out : Except Stop Unit × List BootEvent) : Prop where
  /-- The next stage is entered with the bytes of the range at `code_buf`. -/
  boots : out.1 = .ok () → out.2 = bootEvents ptrs codeBuf ∧
    ∃ rng : LbaRange, BootRange (diskOf image) maxLbas tguid pguid sigFails rng ∧
      rng.OnMedium n maxLbas ∧
      ∀ k < 0x200 * (rng.lbaEnd.toNat + 1 - rng.lbaBegin.toNat),
        memory (codeBuf.toNat + k) = image (0x200 * rng.lbaBegin.toNat + k)
  /-- An error is returned before anything is written. -/
  fails : ∀ e, out.1 = .error e → out.2 = [] ∧ (∃ c, c ≠ 0 ∧ e = .ret c) ∧ F e

theorem serve_boot (hread : DriverReads env read peek image n I F) {s : St Q M} (hs : I s)
    (hboot : Bootable (diskOf image) n maxLbas) (ptrs : BootPtrs) (tguid pguid : Option Guid) :
    wp env (bootVia f read peek ptrs codeBuf maxLbas tguid pguid)
      (fun out s' => BootKeeps I peek f (Dst.room codeBuf maxLbas) s s' ∧
        BootOutcome image n ptrs codeBuf maxLbas tguid pguid (SigFails env read f s) F
          (peek s'.mem) out)
      (fun e s' => BootKeeps I peek f (Dst.room codeBuf maxLbas) s s' ∧ e = .spin ∧ F e) s := by
  have hn := hboot.small
  refine wp_serve (wp_mono (gptBoot_medium (served_honest hread hn hs) hboot ptrs)
    (fun _ u hu => ?_) fun e u hu => ?_)
  · -- the copy is the last call, so the bytes it delivered are in memory at the end
    obtain ⟨rng, t, hcalls, htrusted, hrange, hon, hret, hmem⟩ := hu
    rw [hcalls] at htrusted ⊢
    obtain ⟨hcopy, ht⟩ := List.forall_mem_cons.mp htrusted
    refine wp_mono (wp_served (replay_keeps hread hn ht hs)
      fun s₁ h₁ => readVia_spec hread hn hcopy h₁) (fun _ s' h' => ?_) fun _ _ he => he
    obtain ⟨hkeeps, -, hdata⟩ := h'
    refine ⟨hkeeps, fun _ => ⟨hmem, rng, ?_, hon, fun k hk => ?_⟩, fun e he => nomatch he⟩
    · exact hrange.imp_right fun hraw => ⟨hraw.1, fun hgpt => served_sig s (hraw.2 hgpt)⟩
    · rw [← @LbaRange.OnMedium.copyAddr n codeBuf maxLbas rng hon hn]
      exact (hdata hret k (by rw [hon.copyLen hn]; exact hk)).2
  · -- the last call failed
    obtain ⟨htrusted, q, t, hcalls, hret, rfl⟩ := hu
    have hall := htrusted.calls
    rw [hcalls] at hall ⊢
    obtain ⟨hq, ht⟩ := List.forall_mem_cons.mp hall
    refine wp_mono (wp_served (replay_keeps hread hn ht hs)
      fun s₁ h₁ => readVia_spec hread hn hq h₁) (fun _ s' h' => ?_) fun _ _ he => he
    obtain ⟨hkeeps, hF, -⟩ := h'
    refine ⟨hkeeps, fun hok => (nomatch hok), fun e he => ?_⟩
    cases he
    exact ⟨htrusted.mem, ⟨_, hret, rfl⟩, hF hret⟩

/-! ## A medium -/

/-- A loader, a device tree and a firmware. -/
def zslDiskEntry (p : Nat) : Guid × LbaRange :=
  if p = 0 then (bootZslTypeGuid, ⟨34, 40⟩)
  else if p = 1 then (bootDtbTypeGuid, ⟨41, 42⟩) else (bootFwTypeGuid, ⟨43, 50⟩)

/-- The bytes of a partition entry that a search reads. -/
def entryBytes (e : Guid × LbaRange) (i : Nat) : Byte :=
  if i < 0x10 then words e.1.1 e.1.2 i
  else if 0x20 ≤ i ∧ i < 0x30 then words e.2.lbaBegin e.2.lbaEnd (i - 0x20) else 0

/-- A disk with a partition table of these three partitions. -/
def zslDiskBytes (a : Nat) : Byte :=
  if 0x200 ≤ a ∧ a < 0x208 then words 0x5452415020494645 0 (a - 0x200)
  else if a = 0x248 then 2 else if a = 0x250 then 3 else if a = 0x254 then 128
  else if 0x400 ≤ a ∧ a < 0x580 then
    entryBytes (zslDiskEntry ((a - 0x400) / 128)) ((a - 0x400) % 128)
  else 0

/-- The first 48 KiB of that disk, as an image. -/
def zslImage : List Byte := (List.range 0xC000).map zslDiskBytes

theorem length_zslImage : zslImage.length = 0xC000 := by
  unfold zslImage
  rw [List.length_map, List.length_range]

theorem zslImage_getD {a : Nat} (ha : a < 0xC000) : zslImage.getD a 0 = zslDiskBytes a := by
  unfold zslImage
  rw [List.getD_eq_getElem?_getD, List.getElem?_map, List.getElem?_range ha]
  rfl

theorem zslDisk_bytes {a : BitVec 64} {i : Nat} (h : a.toNat + i < 0xC000) :
    diskBytes (diskOf fun a => zslImage.getD a 0) a i = zslDiskBytes (a.toNat + i) := by
  rw [diskBytes_diskOf (by omega)]
  exact zslImage_getD h

theorem zslDisk_hasGpt : HasGpt (diskOf fun a => zslImage.getD a 0) := by
  have hword : le64 (diskBytes (diskOf fun a => zslImage.getD a 0) 0x200) 0
      = le64 (fun i => zslDiskBytes (0x200 + i)) 0 := le64_congr fun j hj => zslDisk_bytes (by
    show 0x200 + (0 + j) < _
    omega)
  exact hword.trans rfl

theorem zslDisk_header : diskHeader (diskOf fun a => zslImage.getD a 0) = ⟨⟨2, 128⟩, 3⟩ := by
  have hbytes : ∀ i < 16, diskBytes (diskOf fun a => zslImage.getD a 0) gptHeaderCall.addr i
      = zslDiskBytes (0x248 + i) := fun i hi => zslDisk_bytes (by
    show 0x248 + i < _
    omega)
  unfold diskHeader
  rw [gptHeaderOf_congr hbytes]
  rfl

theorem zslDisk_entryAddr {p : Nat} (hp : p < 3) :
    ((⟨2, 128⟩ : GptTable).entryAddr p).toNat = 0x400 + 128 * p := by
  obtain rfl | rfl | rfl : p = 0 ∨ p = 1 ∨ p = 2 := by omega
  · rfl
  · rfl
  · rfl

theorem zslDisk_entry {p : Nat} (hp : p < 3) :
    entryRange (diskOf fun a => zslImage.getD a 0) ⟨2, 128⟩ p = (zslDiskEntry p).2 := by
  have haddr : (GptTable.dimCall ⟨2, 128⟩ p).addr.toNat = 0x420 + 128 * p := by
    show (GptTable.entryAddr ⟨2, 128⟩ p + 0x20).toNat = _
    rw [BitVec.toNat_add, zslDisk_entryAddr hp]
    show (_ + 32) % _ = _
    omega
  have hbytes : ∀ i < 16, diskBytes (diskOf fun a => zslImage.getD a 0)
      (GptTable.dimCall ⟨2, 128⟩ p).addr i = zslDiskBytes (0x420 + 128 * p + i) := fun i hi => by
    rw [zslDisk_bytes (by omega), haddr]
  unfold entryRange
  rw [dimOf_congr hbytes]
  obtain rfl | rfl | rfl : p = 0 ∨ p = 1 ∨ p = 2 := by omega
  · rfl
  · rfl
  · rfl

theorem zslDisk_guid {p : Nat} (hp : p < 3) :
    guidAt (diskOf fun a => zslImage.getD a 0) (GptTable.entryAddr ⟨2, 128⟩ p)
      = (zslDiskEntry p).1 := by
  have hword : ∀ o ≤ 8, le64 (diskBytes (diskOf fun a => zslImage.getD a 0)
      (GptTable.entryAddr ⟨2, 128⟩ p)) o = le64 (fun i => zslDiskBytes (0x400 + 128 * p + i)) o :=
    fun o ho => le64_congr fun j hj => by
      rw [zslDisk_bytes (by rw [zslDisk_entryAddr hp]; omega), zslDisk_entryAddr hp]
  unfold guidAt
  rw [hword 0 (Nat.zero_le 8), hword 8 (Nat.le_refl 8)]
  obtain rfl | rfl | rfl : p = 0 ∨ p = 1 ∨ p = 2 := by omega
  · rfl
  · rfl
  · rfl

theorem zslDisk_bootable :
    Bootable (diskOf fun a => zslImage.getD a 0) zslImage.length bootSpmMaxLbas := by
  rw [length_zslImage]
  refine ⟨⟨by decide, by decide, fun _ => ?_⟩, by decide, by decide⟩
  have hdim : ∀ p < 3, (zslDiskEntry p).2.lbaBegin.toNat ≤ (zslDiskEntry p).2.lbaEnd.toNat ∧
      0x200 * ((zslDiskEntry p).2.lbaEnd.toNat + 1) ≤ 0xC000 := by decide
  refine ⟨fun p hp => ?_, fun p hp => ?_, fun p hp => ?_⟩
  all_goals
    rw [zslDisk_header] at hp ⊢
    change p < 3 at hp
  · show 0x200 * 2 + p * 128 + 0x30 ≤ 0xC000
    omega
  · rw [zslDisk_entry hp]
    exact (hdim p hp).1
  · rw [zslDisk_entry hp]
    exact (hdim p hp).2

theorem zslDisk_qualifies {p : Nat} (hp : p < 3) (m : BitVec 64) (g : Guid) :
    Qualifies (diskOf fun a => zslImage.getD a 0) ⟨2, 128⟩ m (some g) none p ↔
      (zslDiskEntry p).2.Fits m ∧ g = (zslDiskEntry p).1 := by
  unfold Qualifies
  rw [zslDisk_entry hp, zslDisk_guid hp, Option.some.injEq, or_iff_left nofun]

/-- The boot ROM's boot from it is of the loader. -/
theorem zslDisk_bootRange {sigFails : Prop} {rng : LbaRange}
    (h : BootRange (diskOf fun a => zslImage.getD a 0) bootSpmMaxLbas (some bootZslTypeGuid) none
      sigFails rng) (hsig : ¬sigFails) : rng = ⟨34, 40⟩ := by
  have hfits : (zslDiskEntry 0).2.Fits bootSpmMaxLbas := show (6 : Nat) < 96 by decide
  rcases h with ⟨-, i, hselected⟩ | ⟨-, hraw⟩
  · unfold Selected at hselected
    rw [zslDisk_header] at hselected
    rcases hselected with ⟨p, hp, hq, -, hr⟩ | ⟨hnone, -⟩
    · change p < 3 at hp
      -- only the first partition has the type of a loader
      have hguid := ((zslDisk_qualifies hp _ _).mp hq).2
      have hfirst : ∀ j < 3, bootZslTypeGuid = (zslDiskEntry j).1 → j = 0 := by decide
      obtain rfl := hfirst p hp hguid
      exact (Prod.mk.inj hr).2.trans (zslDisk_entry hp)
    · exact absurd ((zslDisk_qualifies (by decide) _ _).mpr ⟨hfits, rfl⟩)
        (hnone 0 (show 0 < 3 by decide))
  · exact absurd (hraw zslDisk_hasGpt) hsig

end Cheshire.Sw
