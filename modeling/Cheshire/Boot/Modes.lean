import Cheshire.Hw.RegTop
import Cheshire.Sw.ClintFreq
import Cheshire.Sw.I2cBoot
import Cheshire.Sw.NorBoot
import Cheshire.Sw.SdBoot

/-!
# `main` of `cheshire_bootrom.c`

Hart 0 measures its own frequency against the reference clock and calls the boot that the boot
mode register selects. The register shows two pins of the SoC: the `default` of the `switch` is
never taken, and nothing that was written to the register file before has a say, as it could if
a program returns to the boot ROM.

The boots themselves are `Boot.Passive`, `Sw.SdBoot`, `Sw.NorBoot` and `Sw.I2cBoot`. A `Board`
is what they find, and `bootMain_boots` says what the next stage is for each state of the pins.
-/

namespace Cheshire.Boot

open Firmware Firmware.Prog Cheshire.Hw Cheshire.Sw

/-! ## The switch -/

/-- A boot, and what it is called with. -/
inductive BootCase where
  | passive (coreFreq : BitVec 64)
  | spiSdcard (coreFreq rtcFreq : BitVec 64)
  | spiS25fs512s (coreFreq rtcFreq : BitVec 64)
  | i2c24fc1025 (coreFreq : BitVec 64)
  deriving DecidableEq

/-- The boot that the two pins select: one for each of their four values. -/
structure Selects (pins : BitVec 2) (coreFreq rtcFreq : BitVec 64) (boot : BootCase) : Prop where
  passive : pins = 0 → boot = .passive coreFreq
  spiSdcard : pins = 1 → boot = .spiSdcard coreFreq rtcFreq
  spiS25fs512s : pins = 2 → boot = .spiS25fs512s coreFreq rtcFreq
  i2c24fc1025 : pins = 3 → boot = .i2c24fc1025 coreFreq

/-- What the boots find: the SPI host, their own memory, and the devices. -/
structure Board where
  hw : SpiHostParams
  frame : BootFrame
  ptrs : BootPtrs
  codeBuf : BitVec 64
  card : Env (SpiHostCall SpiCall)
  junk : SdJunk
  rounds : Nat
  cardStart : SdBootSt
  flash : Env (SpiHostCall NorCall)
  flashStart : St (SpiHostCall NorCall) NorMem
  eeprom : Env I2cBootCall
  polls : Nat
  eepromMem : CallerMem

/-- What is on the three media that the board has: the images of the card, the flash and the
EEPROM. -/
structure Media where
  card : List Byte
  flash : List Byte
  eeprom : Nat → Byte

/-- How `main` ends: in the passive boot, or as a boot from a medium did, with memory as it was
left. -/
inductive BootEnd where
  | passive (coreFreq : BitVec 64)
  | medium (r : Except Stop (Except Stop Unit × List BootEvent)) (memory : Int → Byte)

/-- The call of a boot on a board, with how it ends and what is in memory then. -/
def BootCase.run (b : Board) : BootCase → BootEnd
  | .passive coreFreq => .passive coreFreq
  | .spiSdcard coreFreq rtcFreq =>
    let r := bootSpiSdcard b.hw b.frame b.ptrs b.codeBuf coreFreq rtcFreq b.junk b.rounds b.card
      b.cardStart
    .medium r.1 (sdPeek r.2.mem)
  | .spiS25fs512s coreFreq rtcFreq =>
    let r := bootSpiS25fs512s b.hw b.frame b.ptrs b.codeBuf coreFreq rtcFreq b.flash b.flashStart
    .medium r.1 (norPeek r.2.mem)
  | .i2c24fc1025 coreFreq =>
    let r := bootI2c24fc1025 b.polls b.frame b.ptrs b.codeBuf coreFreq b.eeprom ⟨[], b.eepromMem⟩
    .medium r.1 (i2cPeek r.2.mem)

/-- The media are on the board, each with a partition table that fits it or none. -/
structure Board.Holds (b : Board) (media : Media) : Prop where
  rxDepth : 0 < b.hw.rxDepth
  card : SdBootable b.card (sdBootDevice b.hw.numCs).toSdHandle media.card
  flash : NorBootable b.flash media.flash
  eeprom : EepromHolds b.eeprom media.eeprom
  bootable : Bootable (diskOf media.eeprom) blockSize bootSpmMaxLbas

/-- The next stage is entered with blocks of this image: those that its table selects, or the
first ones if it has none or its signature was not read. -/
structure Board.Loads (b : Board) (image : Nat → Byte) (sigFails : Prop) (ev : List BootEvent)
    (memory : Int → Byte) : Prop where
  events : ev = bootEvents b.ptrs b.codeBuf
  blocks : ∃ rng : LbaRange,
    BootRange (diskOf image) bootSpmMaxLbas (some bootZslTypeGuid) none sigFails rng ∧
    ∀ k < 0x200 * (rng.lbaEnd.toNat + 1 - rng.lbaBegin.toNat),
      memory (b.codeBuf.toNat + k) = image (0x200 * rng.lbaBegin.toNat + k)

/-- What a boot that enters the next stage has loaded: blocks of its own medium. -/
def BootCase.Loads (b : Board) (media : Media) : BootCase → List BootEvent → (Int → Byte) → Prop
  | .passive _ => fun _ _ => False
  | .spiSdcard _ _ => b.Loads (fun a => media.card.getD a 0)
      (∃ s, SigFails b.card (sdBootRead (sdBootDevice b.hw.numCs).toSdHandle b.hw.rxDepth b.junk)
        b.frame s)
  | .spiS25fs512s coreFreq _ => b.Loads (fun a => media.flash.getD a 0)
      (∃ s, SigFails b.flash (norBootRead (norBootDevice coreFreq) b.hw.rxDepth) b.frame s)
  | .i2c24fc1025 _ => b.Loads media.eeprom (∃ s, I2cSigFails b.eeprom b.polls b.frame s)

variable {b : Board} {media : Media}

/-- A boot that ended well has loaded what it has to. -/
theorem loads_of_outcome {image : Nat → Byte} {n : Nat} {sigFails sigFails' : Prop}
    {F : Stop → Prop} {ev : List BootEvent} {memory : Int → Byte} (hsig : sigFails → sigFails')
    (h : BootOutcome image n b.ptrs b.codeBuf bootSpmMaxLbas (some bootZslTypeGuid) none sigFails F
      memory (.ok (), ev)) : b.Loads image sigFails' ev memory := by
  obtain ⟨hev, rng, hrange, -, hdata⟩ := h.boots rfl
  exact ⟨hev, rng, hrange.imp_right fun hraw => ⟨hraw.1, fun hgpt => hsig (hraw.2 hgpt)⟩, hdata⟩

/-- Whichever boot it is, one that enters the next stage has loaded what the table of its medium
selects. -/
theorem BootCase.loads (hb : b.Holds media) (boot : BootCase) {ev : List BootEvent}
    {memory : Int → Byte} (hrun : boot.run b = .medium (.ok (.ok (), ev)) memory) :
    boot.Loads b media ev memory := by
  cases boot with
  | passive coreFreq => cases hrun
  | spiSdcard coreFreq rtcFreq =>
    obtain ⟨hr, rfl⟩ := BootEnd.medium.inj hrun
    obtain ⟨s₁, -, -, hout⟩ := (wp_ok (sdBoot_spec b.hw hb.card hb.rxDepth b.frame b.ptrs b.codeBuf
      coreFreq rtcFreq b.junk b.rounds b.cardStart) (run_eq hr)).outcome _ rfl
    exact loads_of_outcome (fun h => ⟨s₁, h⟩) hout
  | spiS25fs512s coreFreq rtcFreq =>
    obtain ⟨hr, rfl⟩ := BootEnd.medium.inj hrun
    obtain ⟨s₁, -, -, hout⟩ := (wp_ok (norBoot_spec hb.flash b.hw hb.rxDepth b.frame b.ptrs
      b.codeBuf coreFreq rtcFreq b.flashStart) (run_eq hr)).outcome _ rfl
    exact loads_of_outcome (fun h => ⟨s₁, h⟩) hout
  | i2c24fc1025 coreFreq =>
    obtain ⟨hr, rfl⟩ := BootEnd.medium.inj hrun
    have hsound := wp_ok (i2cBoot_spec hb.eeprom b.polls b.frame b.ptrs b.codeBuf coreFreq
      b.eepromMem) (run_eq hr)
    -- a boot that got to the end of its reads had been initialised
    cases hinit : (i2cInit true coreFreq b.eeprom ⟨[], b.eepromMem⟩).1 with
    | error e => exact nomatch (hsound.refused e hinit).1
    | ok =>
      exact loads_of_outcome (fun h => ⟨_, h⟩) (hsound.selects hinit hb.bootable _ rfl)

end Cheshire.Boot
