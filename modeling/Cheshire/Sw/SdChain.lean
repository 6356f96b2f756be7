import Cheshire.Sw.BootChain
import Cheshire.Sw.SdBoot

/-!
# From the boot ROM to the firmware, from an SD card

The chain of `BootChain`, with `spi_sdcard_read_checkcrc` behind both stages. The line may
garble what the card sends as in `CardSends`; a block that does not pass its CRC is a read
that fails, and the loader does not look whether its copies did.

`sdChain_sound` says so: the firmware is entered only behind the partitions of the card, and
with exactly their bytes unless some read failed. The loader reads at the clock the boot ROM
set up.
-/

namespace Cheshire.Sw

open Firmware Firmware.Prog

/-- The read function that the boot ROM hands over to the loader. -/
def sdHandedRead (hw : SpiHostParams) (junk : SdJunk) : ReadFn (SpiHostCall SpiCall) SdMem :=
  sdBootRead (sdBootDevice hw.numCs).toSdHandle hw.rxDepth junk

/-- The boot ROM's boot from the card, and the loader if it is entered. -/
def sdBootChain (hw : SpiHostParams) (f fz : BootFrame)
    (code : ReadCode (SpiHostCall SpiCall) SdMem) (ptrs : BootPtrs)
    (codeBuf coreFreq rtcFreq : BitVec 64) (junk : SdJunk) (rounds : Nat) :
    SdBootProg (Except Stop Unit × List Launch) := do
  let (r, events) ← bootSpiSdcard hw f ptrs codeBuf coreFreq rtcFreq junk rounds
  match r with
  | .ok () => zslVia fz code sdPeek events
  | .error e => stop e

/-- What is asked of the card and of the hand-off. -/
structure SdChain (env : Env (SpiHostCall SpiCall)) (image : List Byte) (hw : SpiHostParams)
    (fz : BootFrame) (code : ReadCode (SpiHostCall SpiCall) SdMem) (ptrs : BootPtrs)
    (codeBuf : BitVec 64) (junk : SdJunk) : Prop where
  bootable : SdBootable env (sdBootDevice hw.numCs).toSdHandle image
  handOff : HandOff (fun a => image.getD a 0) fz code (sdHandedRead hw junk) ptrs codeBuf

/-- The card is active, and all transfers since `s₁` went at the frequency of the device. -/
def SdRunning (hw : SpiHostParams) (s₁ s : SdBootSt) : Prop :=
  RunsAt (sdBootDevice hw.numCs).toSdHandle (sdBootDevice hw.numCs).spiFreq s₁ s

/-- How the chain ends. It returns if the loader was entered: `s₁` is the state behind the
initialisation, `s₂` the one the loader starts in, and what decides is the loader's own reads. -/
structure SdChainSound (env : Env (SpiHostCall SpiCall)) (hw : SpiHostParams) (f fz : BootFrame)
    (code : ReadCode (SpiHostCall SpiCall) SdMem) (ptrs : BootPtrs) (codeBuf : BitVec 64)
    (image : List Byte) (junk : SdJunk) (boot : SdBootProg (Except Stop Unit × List BootEvent))
    (s s' : SdBootSt) (r : Except Stop (Except Stop Unit × List Launch)) : Prop where
  frame : ∀ x, f.Outside (Dst.room codeBuf bootSpmMaxLbas) x → fz.Outside zslRoom x →
    sdPeek s'.mem x = sdPeek s.mem x
  /-- No read of the loader hangs. -/
  returns : ∀ events s₂, boot env s = (.ok (.ok (), events), s₂) → ∃ out, r = .ok out
  entered : ∀ out, r = .ok out → ∃ s₁ s₂,
    boot env s = (.ok (.ok (), bootEvents ptrs codeBuf), s₂) ∧
    SlowSince s s₁ ∧ SdRunning hw s₁ s' ∧
    Entered sdPeek (fun a => image.getD a 0) f fz codeBuf
      (SigFails env (sdHandedRead hw junk) f s₁)
      (SomeFailed (zslCalls fz code sdPeek env (bootEvents ptrs codeBuf) s₂)) s s' out
  /-- If none of them fails, the firmware is launched if the card has both partitions. -/
  launches : ∀ out s₂, r = .ok out →
    boot env s = (.ok (.ok (), bootEvents ptrs codeBuf), s₂) →
    ¬SomeFailed (zslCalls fz code sdPeek env (bootEvents ptrs codeBuf) s₂) →
    (out.1 = .ok () ↔ ∃ dtb fw, dtbPart.Chosen (diskOf fun a => image.getD a 0) dtb ∧
      fwPart.Chosen (diskOf fun a => image.getD a 0) fw)
  /-- One of them fails only if some read of the card does. -/
  failed : ∀ s₂, boot env s = (.ok (.ok (), bootEvents ptrs codeBuf), s₂) →
    SomeFailed (zslCalls fz code sdPeek env (bootEvents ptrs codeBuf) s₂) →
    ∃ e, SdStops env hw junk image.length e

section

variable {env : Env (SpiHostCall SpiCall)} {image : List Byte} {hw : SpiHostParams}
  {f fz : BootFrame} {code : ReadCode (SpiHostCall SpiCall) SdMem} {ptrs : BootPtrs}
  {codeBuf : BitVec 64} {junk : SdJunk} {init : SdBootProg Unit}
  {boot : SdBootProg (Except Stop Unit × List BootEvent)} {s s₁ : SdBootSt}

/-- The boot ROM returned an error, or hangs. -/
theorem sdChainSound_stopped {e : Stop} {r : Except Stop (Except Stop Unit × List BootEvent)}
    (hboot : boot env s = (r, s₁)) (hr : ∀ events, r ≠ .ok (.ok (), events))
    (h : SdBootSound env hw f ptrs codeBuf image junk init s s₁ r) :
    SdChainSound env hw f fz code ptrs codeBuf image junk boot s s₁ (.error e) := by
  have hnot : ∀ events s₂, boot env s ≠ (.ok (.ok (), events), s₂) := fun events s₂ hok =>
    hr events (congrArg Prod.fst (hboot.symm.trans hok))
  exact ⟨fun x hx _ => h.frame x hx, fun events s₂ hok => absurd hok (hnot events s₂),
    fun _ ho => (nomatch ho), fun _ _ ho => (nomatch ho), fun s₂ hok => absurd hok (hnot _ s₂)⟩

/-- What the loader guarantees of its own run, put behind an SD boot that entered it, is what the
chain guarantees. -/
theorem sdChain_entered (hchain : SdChain env image hw fz code ptrs codeBuf junk)
    (hdepth : 0 < hw.rxDepth) {events : List BootEvent}
    (hboot : boot env s = (.ok (.ok (), events), s₁))
    (h : SdBootSound env hw f ptrs codeBuf image junk init s s₁ (.ok (.ok (), events))) :
    wp env (zslVia fz code sdPeek events)
      (fun out s' => SdChainSound env hw f fz code ptrs codeBuf image junk boot s s' (.ok out))
      (fun e s' => SdChainSound env hw f fz code ptrs codeBuf image junk boot s s' (.error e))
      s₁ := by
  have himage := hchain.bootable
  obtain ⟨s₀, hslow, hat, houtcome⟩ := h.outcome _ rfl
  have hreads : DriverReads env (sdHandedRead hw junk) sdPeek (fun a => image.getD a 0)
      image.length (SdRunning hw s₀) (SdStops env hw junk image.length) :=
    (sdBootRead_reads himage.small himage.card hdepth junk s₀).stops
  obtain rfl : events = bootEvents ptrs codeBuf := (houtcome.boots rfl).1
  have hstart : ∀ {events s₂}, boot env s = (.ok (.ok (), events), s₂) → s₁ = s₂ :=
    fun hboot₂ => congrArg Prod.snd (hboot.symm.trans hboot₂)
  refine wp_mono (zslVia_entered hchain.handOff himage.bootable.toMedium hreads hat h.frame
    houtcome) (fun out s' h' => ?_) fun e s' he => ?_
  · obtain ⟨hat', hentered, hfails⟩ := h'
    refine ⟨hentered.frame, fun _ _ _ => ⟨out, rfl⟩, fun out' ho => ?_,
      fun out' s₂ ho hboot₂ hno => ?_, fun s₂ hboot₂ hsome => ?_⟩
    · cases ho
      exact ⟨s₀, s₁, hboot, hslow, hat', hentered⟩
    · cases ho
      obtain rfl := hstart hboot₂
      exact hentered.launched_iff hno
    · obtain rfl := hstart hboot₂
      exact hfails hsome
  · -- the driver never hangs
    obtain ⟨-, -, rfl, ⟨c, -, hspin⟩, -⟩ := he
    cases hspin

theorem sdChain_sound (hchain : SdChain env image hw fz code ptrs codeBuf junk)
    (hdepth : 0 < hw.rxDepth) (f : BootFrame) (coreFreq rtcFreq : BitVec 64) (rounds : Nat)
    {s s' : SdBootSt} {r : Except Stop (Except Stop Unit × List Launch)}
    (hrun : sdBootChain hw f fz code ptrs codeBuf coreFreq rtcFreq junk rounds env s = (r, s')) :
    SdChainSound env hw f fz code ptrs codeBuf image junk
      (bootSpiSdcard hw f ptrs codeBuf coreFreq rtcFreq junk rounds) s s' r := by
  have hspec : wp env (sdBootChain hw f fz code ptrs codeBuf coreFreq rtcFreq junk rounds)
      (fun out s' => SdChainSound env hw f fz code ptrs codeBuf image junk
        (bootSpiSdcard hw f ptrs codeBuf coreFreq rtcFreq junk rounds) s s' (.ok out))
      (fun e s' => SdChainSound env hw f fz code ptrs codeBuf image junk
        (bootSpiSdcard hw f ptrs codeBuf coreFreq rtcFreq junk rounds) s s' (.error e)) s := by
    unfold sdBootChain
    rw [wp_bind]
    refine wp_mono (wp_run (sdBoot_spec hw hchain.bootable hdepth f ptrs codeBuf coreFreq rtcFreq
      junk rounds s)) (fun out s₁ h₁ => ?_) fun e s₁ he =>
        sdChainSound_stopped he.1 (fun _ hr => nomatch hr) he.2
    obtain ⟨r, events⟩ := out
    cases r with
    | error e => exact sdChainSound_stopped h₁.1 (fun _ hr => nomatch hr) h₁.2
    | ok => exact sdChain_entered hchain hdepth h₁.1 h₁.2
  cases r with
  | ok out => exact wp_ok hspec hrun
  | error e => exact wp_error hspec hrun

end

/-- The firmware of a card that has one is launched. -/
theorem sdChain_sound_zslImage : ∃ s',
    sdBootChain ⟨3, 64⟩ romFrame zslFrame (bootRomCode (sdHandedRead ⟨3, 64⟩ ⟨0, 0⟩)) romPtrs
      0x10000000 50000000 32768 ⟨0, 0⟩ 1 (cardEnv zslImage) ⟨[], sdStart.mem⟩
      = (.ok (.ok (), [⟨bootZslFw, 0, bootZslDtb, 0⟩]), s') ∧
    fwPart.Holds (fun a => zslImage.getD a 0) ⟨43, 50⟩ (sdPeek s'.mem) := by
  have hsmall : zslImage.length ≤ 2 ^ 41 := by
    rw [length_zslImage]
    decide
  have hcard := cardEnv_stops zslImage (show 0 < (⟨3, 64⟩ : SpiHostParams).rxDepth by decide)
    ⟨0, 0⟩ zslImage.length
  obtain ⟨s₂, hboot⟩ := cardEnv_boots ⟨3, 64⟩ hsmall zslDisk_bootable (by decide) romFrame romPtrs
    0x10000000 50000000 32768 ⟨0, 0⟩ 1 ⟨[], sdStart.mem⟩ (by decide +kernel)
  generalize hrun : sdBootChain ⟨3, 64⟩ romFrame zslFrame
    (bootRomCode (sdHandedRead ⟨3, 64⟩ ⟨0, 0⟩)) romPtrs 0x10000000 50000000 32768 ⟨0, 0⟩ 1
    (cardEnv zslImage) ⟨[], sdStart.mem⟩ = run
  obtain ⟨r, s'⟩ := run
  obtain ⟨-, hreturns, hentered, hlaunches, hfailed⟩ := sdChain_sound
    ⟨⟨hsmall, cardEnv_sends zslImage _, zslDisk_bootable⟩, zslImage_handOff _⟩ (by decide) _ _ _ _
    hrun
  obtain ⟨⟨out, launched⟩, rfl⟩ := hreturns _ _ hboot
  have hno : ¬SomeFailed (zslCalls zslFrame (bootRomCode (sdHandedRead ⟨3, 64⟩ ⟨0, 0⟩)) sdPeek
      (cardEnv zslImage) (bootEvents romPtrs 0x10000000) s₂) := fun hsome => by
    obtain ⟨e, he⟩ := hfailed _ hboot hsome
    exact hcard e he
  obtain rfl : out = .ok () := (hlaunches _ _ rfl hboot hno).mpr ⟨_, _, zslDisk_dtb, zslDisk_fw⟩
  obtain ⟨s₁, s₃, hboot₃, -, -, hloaded⟩ := hentered _ rfl
  obtain rfl : s₂ = s₃ := congrArg Prod.snd (hboot.symm.trans hboot₃)
  obtain ⟨hevents, dtb, fw, -, hfw, hfails | ⟨-, hholds⟩⟩ := hloaded.outcome.launches rfl
  · exact absurd hfails hno
  · obtain rfl : launched = _ := hevents
    rw [hfw.unique zslDisk_fw] at hholds
    exact ⟨s', rfl, hholds⟩

end Cheshire.Sw
