import Cheshire.Sw.BootMedium
import Cheshire.Sw.NorRead
import Cheshire.Sw.SpiHost

/-!
# Booting from the SPI NOR flash

`boot_spi_s25fs512s` sets the SPI host up, waits for the flash, and boots through
`spi_s25fs512s_single_read`, whose transfers are some of the calls of the SPI host's DIF.

The boot frequency is at most a quarter of the core's and at most 40 MHz, so the driver
never refuses a read for it, and `norBoot_sound` is the whole boot: for any flash that
answers with its bytes where it answers at all, the next stage is entered with the selected
bytes in the SPM, or an error is returned, and the boot never hangs.
-/

namespace Cheshire.Sw

open Firmware Firmware.Prog

/-! ## `spi_s25fs512s_init` -/

abbrev NorBootProg := Prog (SpiHostCall NorCall) NorMem

/-- `spi_s25fs512s_init`, with the checks of the handle in the source's order. -/
def norInit (numCs : Nat) (handle : Option NorHandle) (coreFreq : BitVec 64) :
    NorBootProg Unit :=
  match handle with
  | none => stop (.ret 0x11)
  | some h => do
    retCode (if h.csid < numCs then 0 else 0x12)
    retCode (if h.spiFreq ≠ 0 then 0 else 0x13)
    retCode (if h.spiFreq ≤ coreFreq.toNat then 0 else 0x14)
    let _ ← check .init
    let _ ← ask .reset
    let _ ← check (.configureCs ⟨0xF, 0xF, 0xF, false, false, false, coreFreq, h.spiFreq⟩ h.csid)
    let _ ← ask (.enable true)
    let _ ← check (.outputSetEnabled true)
    pure ()

/-- The device of the boot: chip select 1, at up to a quarter of the core frequency or 40 MHz. -/
def norBootDevice (coreFreq : BitVec 64) : NorHandle :=
  ⟨min (40 * 1000 * 1000) (coreFreq / 4).toNat, 1⟩

/-- `spi_s25fs512s_single_read`, among the calls of a boot. -/
def norBootRead (h : NorHandle) (rxDepth : Nat) : ReadFn (SpiHostCall NorCall) NorMem :=
  fun buf addr len => within .transfer (norSingleRead h rxDepth (len + 1) buf addr len)

/-- The byte of the caller's memory at an address. -/
def norPeek (m : NorMem) (x : Int) : Byte := m.get () x

/-- `boot_spi_s25fs512s`: the initialisation, and the boot behind it. -/
def bootSpiS25fs512s (hw : SpiHostParams) (f : BootFrame) (ptrs : BootPtrs) (codeBuf : BitVec 64)
    (coreFreq rtcFreq : BitVec 64) : NorBootProg (Except Stop Unit × List BootEvent) := do
  norInit hw.numCs (some (norBootDevice coreFreq)) coreFreq
  let _ ← ask (.spinUntil ((350 * rtcFreq) / (1000 * 1000) + 1))
  bootVia f (norBootRead (norBootDevice coreFreq) hw.rxDepth) norPeek ptrs codeBuf
    bootSpmMaxLbas (some bootZslTypeGuid) none

/-! ## Initialisation -/

variable {env : Env (SpiHostCall NorCall)}

theorem norInit_spec {numCs : Nat} {h : NorHandle} {coreFreq : BitVec 64}
    (s : St (SpiHostCall NorCall) NorMem) :
    wp env (norInit numCs (some h) coreFreq) (fun _ s' => s'.mem = s.mem)
      (InitFailed env (h.csid < numCs ∧ h.spiFreq ≠ 0 ∧ h.spiFreq ≤ coreFreq.toNat) s.mem) s := by
  unfold norInit
  dsimp only
  rw [wp_bind]
  refine wp_assert_init (by decide) rfl (fun hv => hv.1) fun _ => ?_
  rw [wp_bind]
  refine wp_assert_init (by decide) rfl (fun hv => hv.2.1) fun _ => ?_
  rw [wp_bind]
  refine wp_assert_init (by decide) rfl (fun hv => hv.2.2) fun _ => ?_
  rw [wp_bind]
  refine wp_check_init rfl fun _ s₁ h₁ => ?_
  rw [wp_bind, wp_ask, wp_bind]
  refine wp_check_init h₁ fun _ s₂ h₂ => ?_
  rw [wp_bind, wp_ask, wp_bind]
  exact wp_check_init h₂ fun _ s₃ h₃ => h₃

/-! ## Reads -/

/-- With a device that always succeeds a read does. -/
theorem norRead_total {env : Env NorCall} (hall : AllSucceed env) {h : NorHandle}
    (hfreq : h.spiFreq < 50 * 1000 * 1000) {rxDepth : Nat} {buf : Int} {addr len : Nat}
    (s : NorSt) :
    wp env (norRead h rxDepth buf addr len) (fun _ _ => True) (fun _ _ => False) s := by
  unfold norRead
  rw [if_pos hfreq, wp_bind, wp_retCode]
  refine ⟨fun _ => wp_upTo (fun _ _ => True) (fun i _ s' _ => ?_) trivial, fun hne => hne rfl⟩
  unfold norReadChunk norRxTo
  rw [wp_bind, wp_ask, wp_bind, wp_modifyMem, wp_retCode]
  exact ⟨fun _ => trivial, fun hne => hne (hall _ _)⟩

/-- What the flash at chip select 1 answers with, if it answers. -/
def FlashHolds (env : Env (SpiHostCall NorCall)) (image : List Byte) : Prop :=
  ∀ t, DeliversImage (Env.under .transfer env t) 1 image

/-- How a boot read stops early: by an error, in an environment where not all calls succeed. -/
def NorReadStops (env : Env (SpiHostCall NorCall)) (e : Stop) : Prop :=
  e ≠ .spin ∧ ¬AllSucceed env

/-- The driver meets the contract of a boot. -/
theorem norBootRead_reads {image : List Byte} (himage : image.length ≤ 2 ^ 32)
    (hflash : FlashHolds env image) {h : NorHandle} (hcsid : h.csid = 1)
    (hfreq : h.spiFreq < 50 * 1000 * 1000) {rxDepth : Nat} (hdepth : 0 < rxDepth) :
    DriverReads env (norBootRead h rxDepth) norPeek (fun a => image.getD a 0) image.length
      (fun _ => True) (NorReadStops env) := by
  intro buf addr len s _ hrange
  unfold norBootRead
  rw [wp_within, norSingleRead_eq hdepth buf addr (Nat.lt_succ_self len)]
  have hdif : DeliversImage (Env.under .transfer env s.calls) h.csid image := by
    rw [hcsid]
    exact hflash s.calls
  -- the chunk loop ends, so a read that stops early had a call that failed
  have htotal : wp (Env.under .transfer env s.calls) (norRead h rxDepth buf addr len)
      (fun _ _ => True) (fun _ _ => ¬AllSucceed env) ⟨[], s.mem⟩ := by
    by_cases hall : AllSucceed env
    · exact wp_mono (norRead_total (fun t q => hall _ _) hfreq _) (fun _ _ _ => trivial)
        fun _ _ he => he.elim
    · exact wp_mono (wp_any _ _) (fun _ _ _ => trivial) fun _ _ _ => hall
  refine wp_mono (wp_and (norRead_spec himage hdif hrange hdepth ⟨[], s.mem⟩) htotal)
    (fun _ u hu => ?_) fun e u hu => ?_
  · obtain ⟨⟨new, hc⟩, -⟩ := hu
    refine ⟨trivial, fun x hx => ?_, fun k hk => ?_⟩
    · show u.mem.get () x = _
      rw [hc.mem]
      exact get_write_range (Nat.le_refl len) x hx
    · show u.mem.get () _ = _
      rw [hc.mem, Mem.get_write_at _ _ _ _ hk]
  · obtain ⟨⟨rfl, rfl⟩ | ⟨c, new, hfail⟩, hall⟩ := hu
    · exact ⟨trivial, fun _ _ => rfl, by decide, by decide, hall⟩
    · obtain ⟨⟨hret, rfl⟩, -, -, -, d, n, hn, hmem⟩ := hfail
      refine ⟨trivial, fun x hx => ?_, fun h0 => hret (Stop.ret.inj h0),
        fun hspin => (nomatch hspin), hall⟩
      show u.mem.get () x = _
      rw [hmem]
      exact get_write_range hn x hx

/-! ## The boot -/

/-- The boot's device is never too fast for its reads. -/
theorem norBootDevice_slow (coreFreq : BitVec 64) :
    (norBootDevice coreFreq).spiFreq < 50 * 1000 * 1000 := by
  show min (40 * 1000 * 1000) _ < _
  omega

/-- What is asked of the flash and its contents. -/
structure NorBootable (env : Env (SpiHostCall NorCall)) (image : List Byte) : Prop where
  small : image.length ≤ 2 ^ 32
  flash : FlashHolds env image
  bootable : Bootable (diskOf fun a => image.getD a 0) image.length bootSpmMaxLbas

/-- How a boot from the flash ends: never in a loop, with the selected bytes in the SPM if
the next stage is entered, with an error otherwise, and an error only if a call failed or
the core is too slow for a clock. -/
structure NorBootSound (env : Env (SpiHostCall NorCall)) (hw : SpiHostParams)
    (f : BootFrame) (ptrs : BootPtrs) (codeBuf : BitVec 64) (image : List Byte)
    (coreFreq : BitVec 64) (s s' : St (SpiHostCall NorCall) NorMem)
    (r : Except Stop (Except Stop Unit × List BootEvent)) : Prop where
  returns : r ≠ .error .spin
  frame : ∀ x, f.Outside (Dst.room codeBuf bootSpmMaxLbas) x → norPeek s'.mem x = norPeek s.mem x
  /-- The initialisation failed. -/
  refused : ∀ e, r = .error e → s'.mem = s.mem
  /-- `s₁` is the state behind the initialisation. -/
  outcome : ∀ out, r = .ok out → ∃ s₁, s₁.mem = s.mem ∧
    (SigFails env (norBootRead (norBootDevice coreFreq) hw.rxDepth) f s₁ → ¬AllSucceed env) ∧
    BootOutcome (fun a => image.getD a 0) image.length ptrs codeBuf bootSpmMaxLbas
      (some bootZslTypeGuid) none
      (SigFails env (norBootRead (norBootDevice coreFreq) hw.rxDepth) f s₁) (NorReadStops env)
      (norPeek s'.mem) out
  succeeds : AllSucceed env → 1 < hw.numCs → 4 ≤ coreFreq.toNat → ∃ ev, r = .ok (.ok (), ev)

theorem norBootSound_ok {image : List Byte} {hw : SpiHostParams} {f : BootFrame} {ptrs : BootPtrs}
    {codeBuf coreFreq : BitVec 64} {s s₁ s₂ : St (SpiHostCall NorCall) NorMem}
    {out : Except Stop Unit × List BootEvent} (h₁ : s₁.mem = s.mem)
    (hsig : SigFails env (norBootRead (norBootDevice coreFreq) hw.rxDepth) f s₁ →
      ¬AllSucceed env)
    (hkeeps : BootKeeps (fun _ => True) norPeek f (Dst.room codeBuf bootSpmMaxLbas) s₁ s₂)
    (hout : BootOutcome (fun a => image.getD a 0) image.length ptrs codeBuf bootSpmMaxLbas
      (some bootZslTypeGuid) none
      (SigFails env (norBootRead (norBootDevice coreFreq) hw.rxDepth) f s₁) (NorReadStops env)
      (norPeek s₂.mem) out) :
    NorBootSound env hw f ptrs codeBuf image coreFreq s s₂ (.ok out) := by
  refine ⟨fun hr => (nomatch hr), fun x hx => ?_, fun e hr => (nomatch hr), fun out' hr => ?_,
    fun hall _ _ => ?_⟩
  · rw [hkeeps.frame x hx, h₁]
  · cases hr
    exact ⟨s₁, h₁, hsig, hout⟩
  · obtain ⟨r, ev⟩ := out
    cases r with
    | ok => exact ⟨ev, rfl⟩
    | error e => exact absurd hall (hout.fails e rfl).2.2.2

theorem norBootSound_refused {image : List Byte} {hw : SpiHostParams} {f : BootFrame}
    {ptrs : BootPtrs} {codeBuf coreFreq : BitVec 64} {s s₁ : St (SpiHostCall NorCall) NorMem}
    {e : Stop}
    (he : InitFailed env ((norBootDevice coreFreq).csid < hw.numCs ∧
      (norBootDevice coreFreq).spiFreq ≠ 0 ∧ (norBootDevice coreFreq).spiFreq ≤ coreFreq.toNat)
      s.mem e s₁) :
    NorBootSound env hw f ptrs codeBuf image coreFreq s s₁ (.error e) := by
  obtain ⟨hmem, ⟨c, hc, rfl⟩, hblame⟩ := he
  refine ⟨fun hr => (nomatch hr), fun x _ => by rw [hmem], fun _ _ => hmem,
    fun out hr => (nomatch hr), fun hall hcs hfreq => absurd hall (hblame ⟨hcs, ?_⟩)⟩
  -- a quarter of the core frequency is a frequency the SPI host can make
  show min (40 * 1000 * 1000) (coreFreq / 4).toNat ≠ 0 ∧
    min (40 * 1000 * 1000) (coreFreq / 4).toNat ≤ coreFreq.toNat
  have hdiv : (coreFreq / 4).toNat = coreFreq.toNat / 4 := BitVec.toNat_udiv
  rw [hdiv]
  omega

theorem norBoot_spec {image : List Byte} (himage : NorBootable env image) (hw : SpiHostParams)
    (hdepth : 0 < hw.rxDepth) (f : BootFrame) (ptrs : BootPtrs) (codeBuf : BitVec 64)
    (coreFreq rtcFreq : BitVec 64) (s : St (SpiHostCall NorCall) NorMem) :
    wp env (bootSpiS25fs512s hw f ptrs codeBuf coreFreq rtcFreq)
      (fun out s' => NorBootSound env hw f ptrs codeBuf image coreFreq s s' (.ok out))
      (fun e s' => NorBootSound env hw f ptrs codeBuf image coreFreq s s' (.error e)) s := by
  have hreads := norBootRead_reads himage.small himage.flash rfl (norBootDevice_slow coreFreq)
    hdepth
  have hinit : wp env (norInit hw.numCs (some (norBootDevice coreFreq)) coreFreq) _ _ s :=
    norInit_spec s
  unfold bootSpiS25fs512s
  rw [wp_bind]
  refine wp_mono hinit (fun _ s₁ h₁ => ?_) fun e s₁ he => ?_
  · refine wp_void fun s₂ h₂ => ?_
    refine wp_mono (serve_boot hreads trivial himage.bootable ptrs (some bootZslTypeGuid) none)
      (fun out s₃ h₃ => ?_) fun e s₃ he => absurd he.2.1 he.2.2.1
    refine norBootSound_ok (h₂.trans h₁) (fun hsig => ?_) h₃.1 h₃.2
    obtain ⟨e, -, hall⟩ := hsig.stops hreads trivial
      (Nat.le_trans (by decide) himage.bootable.header)
    exact hall
  · exact norBootSound_refused he

theorem norBoot_sound {image : List Byte} (himage : NorBootable env image) (hw : SpiHostParams)
    (hdepth : 0 < hw.rxDepth) (f : BootFrame) (ptrs : BootPtrs) (codeBuf : BitVec 64)
    (coreFreq rtcFreq : BitVec 64) {s s' : St (SpiHostCall NorCall) NorMem}
    {r : Except Stop (Except Stop Unit × List BootEvent)}
    (hrun : bootSpiS25fs512s hw f ptrs codeBuf coreFreq rtcFreq env s = (r, s')) :
    NorBootSound env hw f ptrs codeBuf image coreFreq s s' r := by
  have hspec := norBoot_spec himage hw hdepth f ptrs codeBuf coreFreq rtcFreq s
  cases r with
  | ok out => exact wp_ok hspec hrun
  | error e => exact wp_error hspec hrun

/-- A flash of these bytes behind a DIF that always succeeds. -/
def flashEnv (image : List Byte) : Env (SpiHostCall NorCall) := fun _ q =>
  match q with
  | .transfer ⟨_, [.opcode 0x13, .address a, .rx _]⟩ => ⟨0, fun i => image.getD (a.toNat + i) 0⟩
  | _ => ⟨0, fun _ => 0⟩

theorem flashEnv_holds (image : List Byte) : FlashHolds (flashEnv image) image :=
  fun _ _ _ _ _ _ _ _ => rfl

theorem flashEnv_succeeds (image : List Byte) : AllSucceed (flashEnv image) := by
  intro t q
  unfold flashEnv
  split
  · rfl
  · rfl

/-- A boot from it enters the next stage. -/
theorem flashEnv_boots {image : List Byte} {hw : SpiHostParams} (hsmall : image.length ≤ 2 ^ 32)
    (hboot : Bootable (diskOf fun a => image.getD a 0) image.length bootSpmMaxLbas)
    (hcs : 1 < hw.numCs) (hdepth : 0 < hw.rxDepth) (f : BootFrame) (ptrs : BootPtrs)
    (codeBuf : BitVec 64) {coreFreq : BitVec 64} (hfreq : 4 ≤ coreFreq.toNat) (rtcFreq : BitVec 64)
    (s : St (SpiHostCall NorCall) NorMem) :
    ∃ s', bootSpiS25fs512s hw f ptrs codeBuf coreFreq rtcFreq (flashEnv image) s
      = (.ok (.ok (), bootEvents ptrs codeBuf), s') := by
  have hspec := norBoot_spec ⟨hsmall, flashEnv_holds image, hboot⟩ hw hdepth f ptrs codeBuf coreFreq
    rtcFreq s
  generalize hrun : bootSpiS25fs512s hw f ptrs codeBuf coreFreq rtcFreq (flashEnv image) s = run
  obtain ⟨r, s'⟩ := run
  cases r with
  | error e =>
    obtain ⟨ev, hev⟩ := (wp_error hspec hrun).succeeds (flashEnv_succeeds image) hcs hfreq
    cases hev
  | ok out =>
    obtain ⟨ev, hev⟩ := (wp_ok hspec hrun).succeeds (flashEnv_succeeds image) hcs hfreq
    obtain rfl := Except.ok.inj hev
    obtain ⟨_, -, -, hout⟩ := (wp_ok hspec hrun).outcome _ rfl
    obtain ⟨hevents, -⟩ := hout.boots rfl
    obtain rfl : ev = _ := hevents
    exact ⟨s', rfl⟩

/-- The loader of a flash that has one is entered. -/
theorem norBoot_sound_zslImage : ∃ s',
    bootSpiS25fs512s ⟨3, 64⟩ ⟨0, 8, 24, 40⟩ ⟨0, 0, 0⟩ 0x10000000 50000000 32768
      (flashEnv zslImage) ⟨[], norStart.mem⟩
        = (.ok (.ok (), bootEvents ⟨0, 0, 0⟩ 0x10000000), s') ∧
    ∀ k : Nat, k < 0x200 * 7 →
      norPeek s'.mem (0x10000000 + k) = zslImage.getD (0x200 * 34 + k) 0 := by
  have hsmall : zslImage.length ≤ 2 ^ 32 := by
    rw [length_zslImage]
    decide
  obtain ⟨s', hrun⟩ := @flashEnv_boots zslImage ⟨3, 64⟩ hsmall zslDisk_bootable (by decide)
    (by decide) ⟨0, 8, 24, 40⟩ ⟨0, 0, 0⟩ 0x10000000 50000000 (by decide) 32768 ⟨[], norStart.mem⟩
  obtain ⟨s₁, -, hsig, hout⟩ := (norBoot_sound ⟨hsmall, flashEnv_holds zslImage, zslDisk_bootable⟩
    ⟨3, 64⟩ (by decide) ⟨0, 8, 24, 40⟩ ⟨0, 0, 0⟩ 0x10000000 50000000 32768 hrun).outcome _ rfl
  obtain ⟨-, rng, hrange, -, hdata⟩ := hout.boots rfl
  obtain rfl := zslDisk_bootRange hrange fun h => hsig h (flashEnv_succeeds zslImage)
  exact ⟨s', hrun, hdata⟩

end Cheshire.Sw
