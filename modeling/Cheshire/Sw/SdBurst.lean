import Mathlib.Data.List.GetD
import Cheshire.Sw.SdCard

/-!
# What the data CRC of a block rules out

The check of `__spi_sdcard_read_blocks` compares the two bytes behind a block with the
byte-swapped remainder the driver computes (`crc_accepts_iff`). The generator of the CRC
has a constant term, so no two blocks that differ within 16 consecutive bits only are
accepted with the same two bytes.
-/

namespace Cheshire.Sw

open Firmware Firmware.Prog

/-- Two messages that agree in all bits outside some 16 consecutive ones. -/
def BurstApart (a b : List Byte) : Prop :=
  ∃ f, ∀ p, p < f ∨ f + 16 ≤ p → Crc.bitAt a p = Crc.bitAt b p

theorem crc16_burst {a b : List Byte} (hlen : a.length = b.length) (hburst : BurstApart a b)
    (h : crc16 a = crc16 b) : a = b := by
  obtain ⟨f, hf⟩ := hburst
  have hconst : crc16Poly.getLsbD 0 = true := by decide
  exact Crc.burst_detected hconst hlen hf h

/-- A word is its two bytes. -/
theorem word_of_bytes {v v' : BitVec 16} (hlow : (v.setWidth 8 : Byte) = v'.setWidth 8)
    (hhigh : ((v >>> 8).setWidth 8 : Byte) = (v' >>> 8).setWidth 8) : v = v' := by
  have hlow' := congrArg BitVec.toNat hlow
  have hhigh' := congrArg BitVec.toNat hhigh
  rw [BitVec.toNat_setWidth, BitVec.toNat_setWidth] at hlow' hhigh'
  rw [BitVec.toNat_ushiftRight, BitVec.toNat_ushiftRight, Nat.shiftRight_eq_div_pow,
    Nat.shiftRight_eq_div_pow] at hhigh'
  have hv := v.isLt
  have hv' := v'.isLt
  exact BitVec.eq_of_toNat_eq (by omega)

/-- Data with the same checksum from the driver also has the same remainder. -/
theorem sdCrc16_inj {a b : List Byte} (h : sdCrc16 a = sdCrc16 b) : crc16 a = crc16 b := by
  rw [sdCrc16_eq, sdCrc16_eq, byte_append_inj] at h
  exact word_of_bytes h.1 h.2

variable {p : SdRead} {b : Nat}

/-- The check passes exactly on the remainder of the block, big-endian. -/
theorem crc_accepts_iff (hcheck : p.checkCrc = true) (env : Env SpiCall) (s : SdSt)
    (hret : (env s.calls ⟨p.handle.csid, true, .rx 2⟩).ret = 0) :
    (p.crc b env s).1 = .ok () ↔
      (List.range 2).map (env s.calls ⟨p.handle.csid, true, .rx 2⟩).out
        = beBytes16 (crc16 (bytesAt s.mem (p.blockBuf b) 512)) := by
  refine wp_decides ?_
  unfold SdRead.crc sdRx
  rw [wp_bind, wp_check]
  refine ⟨fun _ => ?_, fun hne => absurd hret hne⟩
  rw [wp_bind, wp_getMem, wp_returnIf _ (by decide)]
  have hbytes := le16_eq_sdCrc16_iff (env s.calls ⟨p.handle.csid, true, .rx 2⟩).out
    (bytesAt s.mem (p.blockBuf b) 512)
  exact ⟨fun hok => hbytes.mp (not_not.mp fun hne => hok ⟨hcheck, hne⟩),
    fun hfail heq => hfail.2 (hbytes.mpr heq)⟩

/-- The data CRC is the CCITT one in wire order: the driver computes the byte-swapped
remainder, its check passes on the big-endian remainder only, and it never accepts two
blocks that differ in one burst with the same two bytes. -/
theorem sdCrc16_ccitt :
    (∀ data, sdCrc16 data = (crc16 data).setWidth 8 ++ (crc16 data >>> 8).setWidth 8) ∧
    (∀ (p : SdRead) b env (s : SdSt), p.checkCrc = true →
      (env s.calls ⟨p.handle.csid, true, .rx 2⟩).ret = 0 →
        ((p.crc b env s).1 = .ok () ↔
          (List.range 2).map (env s.calls ⟨p.handle.csid, true, .rx 2⟩).out
            = beBytes16 (crc16 (bytesAt s.mem (p.blockBuf b) 512)))) ∧
    (∀ a b : List Byte, a.length = 512 → b.length = 512 → a ≠ b → BurstApart a b →
      ∀ d : Nat → Byte, ¬(le16 d = sdCrc16 a ∧ le16 d = sdCrc16 b)) := by
  refine ⟨sdCrc16_eq, fun p b env s hcheck hret => crc_accepts_iff hcheck env s hret, ?_⟩
  rintro a b ha hb hne hburst d ⟨hda, hdb⟩
  exact hne (crc16_burst (ha.trans hb.symm) hburst (sdCrc16_inj (hda.symm.trans hdb)))

/-- A whole block for the caller, its CRC being checked. -/
def wholeBlock : SdRead := ⟨⟨0, 1⟩, 64, 0, 1, 0, 512, true⟩

/-- A card that answers every read with zeros; the CRC of zeros is zero. -/
def zeroBytes : Env SpiCall := fun _ _ => ⟨0, fun _ => 0⟩

def noMem : SdSt := ⟨[], ⟨fun _ _ => 0, [], []⟩⟩

/-- Bits behind the first byte. -/
theorem bitAt_cons {v v' : Byte} {msg : List Byte} {q : Nat} (hq : 8 ≤ q) :
    Crc.bitAt (v :: msg) q = Crc.bitAt (v' :: msg) q := by
  have htail : ∀ u : Byte, Crc.bitAt (u :: msg) q = (Crc.bits msg).getD (q - 8) false := by
    intro u
    show (Crc.topBits u 8 ++ Crc.bits msg).getD q false = _
    rw [List.getD_append_right _ _ _ _ (by simpa [Crc.topBits] using hq)]
    simp [Crc.topBits]
  rw [htail v, htail v']

theorem sdCrc16_ccitt_zeros :
    ((wholeBlock.crc 0 zeroBytes noMem).1 = .ok () ↔
      [0, 0] = beBytes16 (crc16 (bytesAt noMem.mem (wholeBlock.blockBuf 0) 512))) ∧
    ¬(le16 (fun _ => 0) = sdCrc16 (0 :: List.replicate 511 0) ∧
      le16 (fun _ => 0) = sdCrc16 (1 :: List.replicate 511 0)) := by
  refine ⟨sdCrc16_ccitt.2.1 wholeBlock 0 zeroBytes noMem rfl rfl, ?_⟩
  have hlen : ∀ v : Byte, (v :: List.replicate 511 0).length = 512 := fun _ =>
    congrArg (· + 1) List.length_replicate
  refine sdCrc16_ccitt.2.2 (0 :: List.replicate 511 0) (1 :: List.replicate 511 0) (hlen 0)
    (hlen 1) (fun h => absurd (List.cons.inj h).1 (by decide)) ⟨0, fun q hq => ?_⟩ _
  exact bitAt_cons (by omega)

end Cheshire.Sw
