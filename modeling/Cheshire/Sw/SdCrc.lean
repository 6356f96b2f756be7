import Cheshire.Lib.Crc
import Cheshire.Lib.Prog

/-!
# `spi_sdcard.c`: the two checksums

The driver computes both CRCs a byte at a time through tables. Commands carry the
seven-bit one, data blocks the sixteen-bit one. `sdCrc16_eq` says that the latter is
the CCITT remainder, with its two bytes in the order in which they come from the card.
-/

namespace Cheshire.Sw

open Firmware

/-- `__spi_sdcard_crc7_lookup`, the table as the source lists it. -/
def crc7Lookup : List (BitVec 8) :=
  [ 0x00, 0x12, 0x24, 0x36, 0x48, 0x5a, 0x6c, 0x7e, 0x90, 0x82, 0xb4, 0xa6, 0xd8, 0xca, 0xfc, 0xee,
    0x32, 0x20, 0x16, 0x04, 0x7a, 0x68, 0x5e, 0x4c, 0xa2, 0xb0, 0x86, 0x94, 0xea, 0xf8, 0xce, 0xdc,
    0x64, 0x76, 0x40, 0x52, 0x2c, 0x3e, 0x08, 0x1a, 0xf4, 0xe6, 0xd0, 0xc2, 0xbc, 0xae, 0x98, 0x8a,
    0x56, 0x44, 0x72, 0x60, 0x1e, 0x0c, 0x3a, 0x28, 0xc6, 0xd4, 0xe2, 0xf0, 0x8e, 0x9c, 0xaa, 0xb8,
    0xc8, 0xda, 0xec, 0xfe, 0x80, 0x92, 0xa4, 0xb6, 0x58, 0x4a, 0x7c, 0x6e, 0x10, 0x02, 0x34, 0x26,
    0xfa, 0xe8, 0xde, 0xcc, 0xb2, 0xa0, 0x96, 0x84, 0x6a, 0x78, 0x4e, 0x5c, 0x22, 0x30, 0x06, 0x14,
    0xac, 0xbe, 0x88, 0x9a, 0xe4, 0xf6, 0xc0, 0xd2, 0x3c, 0x2e, 0x18, 0x0a, 0x74, 0x66, 0x50, 0x42,
    0x9e, 0x8c, 0xba, 0xa8, 0xd6, 0xc4, 0xf2, 0xe0, 0x0e, 0x1c, 0x2a, 0x38, 0x46, 0x54, 0x62, 0x70,
    0x82, 0x90, 0xa6, 0xb4, 0xca, 0xd8, 0xee, 0xfc, 0x12, 0x00, 0x36, 0x24, 0x5a, 0x48, 0x7e, 0x6c,
    0xb0, 0xa2, 0x94, 0x86, 0xf8, 0xea, 0xdc, 0xce, 0x20, 0x32, 0x04, 0x16, 0x68, 0x7a, 0x4c, 0x5e,
    0xe6, 0xf4, 0xc2, 0xd0, 0xae, 0xbc, 0x8a, 0x98, 0x76, 0x64, 0x52, 0x40, 0x3e, 0x2c, 0x1a, 0x08,
    0xd4, 0xc6, 0xf0, 0xe2, 0x9c, 0x8e, 0xb8, 0xaa, 0x44, 0x56, 0x60, 0x72, 0x0c, 0x1e, 0x28, 0x3a,
    0x4a, 0x58, 0x6e, 0x7c, 0x02, 0x10, 0x26, 0x34, 0xda, 0xc8, 0xfe, 0xec, 0x92, 0x80, 0xb6, 0xa4,
    0x78, 0x6a, 0x5c, 0x4e, 0x30, 0x22, 0x14, 0x06, 0xe8, 0xfa, 0xcc, 0xde, 0xa0, 0xb2, 0x84, 0x96,
    0x2e, 0x3c, 0x0a, 0x18, 0x66, 0x74, 0x42, 0x50, 0xbe, 0xac, 0x9a, 0x88, 0xf6, 0xe4, 0xd2, 0xc0,
    0x1c, 0x0e, 0x38, 0x2a, 0x54, 0x46, 0x70, 0x62, 0x8c, 0x9e, 0xa8, 0xba, 0xc4, 0xd6, 0xe0, 0xf2 ]

/-- `__spi_sdcard_crc7`, one lookup for each byte. -/
def sdCrc7 (data : List Byte) : BitVec 8 :=
  data.foldl (fun state v => crc7Lookup.getD (v ^^^ (state <<< 1)).toNat 0) 0

/-- `__spi_sdcard_crc16_lookup`, the table as the source lists it. -/
def crc16Lookup : List (BitVec 16) :=
  [ 0x0000, 0x1021, 0x2042, 0x3063, 0x4084, 0x50a5, 0x60c6, 0x70e7, 0x8108, 0x9129, 0xa14a, 0xb16b,
    0xc18c, 0xd1ad, 0xe1ce, 0xf1ef, 0x1231, 0x0210, 0x3273, 0x2252, 0x52b5, 0x4294, 0x72f7, 0x62d6,
    0x9339, 0x8318, 0xb37b, 0xa35a, 0xd3bd, 0xc39c, 0xf3ff, 0xe3de, 0x2462, 0x3443, 0x0420, 0x1401,
    0x64e6, 0x74c7, 0x44a4, 0x5485, 0xa56a, 0xb54b, 0x8528, 0x9509, 0xe5ee, 0xf5cf, 0xc5ac, 0xd58d,
    0x3653, 0x2672, 0x1611, 0x0630, 0x76d7, 0x66f6, 0x5695, 0x46b4, 0xb75b, 0xa77a, 0x9719, 0x8738,
    0xf7df, 0xe7fe, 0xd79d, 0xc7bc, 0x48c4, 0x58e5, 0x6886, 0x78a7, 0x0840, 0x1861, 0x2802, 0x3823,
    0xc9cc, 0xd9ed, 0xe98e, 0xf9af, 0x8948, 0x9969, 0xa90a, 0xb92b, 0x5af5, 0x4ad4, 0x7ab7, 0x6a96,
    0x1a71, 0x0a50, 0x3a33, 0x2a12, 0xdbfd, 0xcbdc, 0xfbbf, 0xeb9e, 0x9b79, 0x8b58, 0xbb3b, 0xab1a,
    0x6ca6, 0x7c87, 0x4ce4, 0x5cc5, 0x2c22, 0x3c03, 0x0c60, 0x1c41, 0xedae, 0xfd8f, 0xcdec, 0xddcd,
    0xad2a, 0xbd0b, 0x8d68, 0x9d49, 0x7e97, 0x6eb6, 0x5ed5, 0x4ef4, 0x3e13, 0x2e32, 0x1e51, 0x0e70,
    0xff9f, 0xefbe, 0xdfdd, 0xcffc, 0xbf1b, 0xaf3a, 0x9f59, 0x8f78, 0x9188, 0x81a9, 0xb1ca, 0xa1eb,
    0xd10c, 0xc12d, 0xf14e, 0xe16f, 0x1080, 0x00a1, 0x30c2, 0x20e3, 0x5004, 0x4025, 0x7046, 0x6067,
    0x83b9, 0x9398, 0xa3fb, 0xb3da, 0xc33d, 0xd31c, 0xe37f, 0xf35e, 0x02b1, 0x1290, 0x22f3, 0x32d2,
    0x4235, 0x5214, 0x6277, 0x7256, 0xb5ea, 0xa5cb, 0x95a8, 0x8589, 0xf56e, 0xe54f, 0xd52c, 0xc50d,
    0x34e2, 0x24c3, 0x14a0, 0x0481, 0x7466, 0x6447, 0x5424, 0x4405, 0xa7db, 0xb7fa, 0x8799, 0x97b8,
    0xe75f, 0xf77e, 0xc71d, 0xd73c, 0x26d3, 0x36f2, 0x0691, 0x16b0, 0x6657, 0x7676, 0x4615, 0x5634,
    0xd94c, 0xc96d, 0xf90e, 0xe92f, 0x99c8, 0x89e9, 0xb98a, 0xa9ab, 0x5844, 0x4865, 0x7806, 0x6827,
    0x18c0, 0x08e1, 0x3882, 0x28a3, 0xcb7d, 0xdb5c, 0xeb3f, 0xfb1e, 0x8bf9, 0x9bd8, 0xabbb, 0xbb9a,
    0x4a75, 0x5a54, 0x6a37, 0x7a16, 0x0af1, 0x1ad0, 0x2ab3, 0x3a92, 0xfd2e, 0xed0f, 0xdd6c, 0xcd4d,
    0xbdaa, 0xad8b, 0x9de8, 0x8dc9, 0x7c26, 0x6c07, 0x5c64, 0x4c45, 0x3ca2, 0x2c83, 0x1ce0, 0x0cc1,
    0xef1f, 0xff3e, 0xcf5d, 0xdf7c, 0xaf9b, 0xbfba, 0x8fd9, 0x9ff8, 0x6e17, 0x7e36, 0x4e55, 0x5e74,
    0x2e93, 0x3eb2, 0x0ed1, 0x1ef0 ]

/-- One pass of the loop of `__spi_sdcard_crc16`. -/
def sdCrc16Step (state : BitVec 16) (v : Byte) : BitVec 16 :=
  crc16Lookup.getD (v ^^^ (state >>> 8).setWidth 8).toNat 0 ^^^ (state <<< 8)

/-- `__spi_sdcard_crc16`; the card returns the CRC big-endian. -/
def sdCrc16 (data : List Byte) : BitVec 16 :=
  let state := data.foldl sdCrc16Step 0
  ((state &&& 0xFF) <<< 8) ||| ((state &&& 0xFF00) >>> 8)

/-- `x^16 + x^12 + x^5 + 1`, the polynomial of the CRC16. -/
def crc16Poly : BitVec 16 := 0x1021

/-- The CRC16 of a block, as the remainder it is defined by. -/
def crc16 (data : List Byte) : BitVec 16 := Crc.remainder crc16Poly data

/-- The table holds what one byte does to an empty register. -/
theorem crc16Lookup_eq (v : Byte) : crc16Lookup.getD v.toNat 0 = Crc.stepByte crc16Poly 0 v := by
  have htable : ∀ i : Fin 256,
      crc16Lookup.getD i 0 = Crc.stepByte crc16Poly 0 (BitVec.ofNat 8 i) := by
    decide +kernel
  have hv := htable ⟨v.toNat, v.isLt⟩
  rwa [BitVec.ofNat_toNat, BitVec.setWidth_eq] at hv

theorem sdCrc16Step_eq (state : BitVec 16) (v : Byte) :
    sdCrc16Step state v = Crc.stepByte crc16Poly state v := by
  unfold sdCrc16Step
  rw [crc16Lookup_eq]
  exact (Crc.stepByte_eq_table crc16Poly state v (by omega)).symm

/-- The two bytes of a word, the more significant first. -/
def beBytes16 (v : BitVec 16) : List Byte := [(v >>> 8).setWidth 8, v.setWidth 8]

/-- The word a little-endian machine reads from two bytes. -/
def le16 (d : Nat → Byte) : BitVec 16 := d 1 ++ d 0

theorem byteSwap_eq (v : BitVec 16) :
    ((v &&& 0xFF) <<< 8) ||| ((v &&& 0xFF00) >>> 8) = v.setWidth 8 ++ (v >>> 8).setWidth 8 := by
  have hlow : ∀ j, j < 16 → (0xFF : BitVec 16).getLsbD j = decide (j < 8) := by decide
  have hhigh : ∀ j, j < 16 → (0xFF00 : BitVec 16).getLsbD j = decide (8 ≤ j) := by decide
  apply BitVec.eq_of_getLsbD_eq
  intro i hi
  rw [BitVec.getLsbD_or, BitVec.getLsbD_shiftLeft, BitVec.getLsbD_and, BitVec.getLsbD_ushiftRight,
    BitVec.getLsbD_and, BitVec.getLsbD_append, BitVec.getLsbD_setWidth, BitVec.getLsbD_setWidth,
    BitVec.getLsbD_ushiftRight]
  rcases Nat.lt_or_ge i 8 with h | h
  · rw [hhigh _ (by omega)]
    simp [h]
  · have hout : (0xFF00 : BitVec 16).getLsbD (8 + i) = false := BitVec.getLsbD_of_ge _ _ (by omega)
    have hin : i - 8 < 8 := by omega
    rw [hlow _ (by omega), hout]
    simp [hi, hin, Nat.not_lt.mpr h]

theorem byte_append_inj {a b c d : Byte} : a ++ b = c ++ d ↔ a = c ∧ b = d := by
  have hb := b.isLt
  have hd := d.isLt
  constructor
  · intro h
    have hnat := congrArg BitVec.toNat h
    rw [BitVec.toNat_append, BitVec.toNat_append, ← Nat.shiftLeft_add_eq_or_of_lt hb,
      ← Nat.shiftLeft_add_eq_or_of_lt hd, Nat.shiftLeft_eq, Nat.shiftLeft_eq] at hnat
    exact ⟨BitVec.eq_of_toNat_eq (by omega), BitVec.eq_of_toNat_eq (by omega)⟩
  · rintro ⟨rfl, rfl⟩
    rfl

/-- What the driver computes is the remainder, byte-swapped. -/
theorem sdCrc16_eq (data : List Byte) :
    sdCrc16 data = (crc16 data).setWidth 8 ++ (crc16 data >>> 8).setWidth 8 := by
  have hstep : sdCrc16Step = Crc.stepByte crc16Poly := by
    funext state v
    exact sdCrc16Step_eq state v
  unfold sdCrc16 crc16 Crc.remainder
  rw [hstep]
  exact byteSwap_eq _

/-- Two received bytes pass the driver's check if they are the CRC, big-endian. -/
theorem le16_eq_sdCrc16_iff (d : Nat → Byte) (data : List Byte) :
    le16 d = sdCrc16 data ↔ [d 0, d 1] = beBytes16 (crc16 data) := by
  unfold le16 beBytes16
  rw [sdCrc16_eq, byte_append_inj, List.cons.injEq, List.cons.injEq]
  exact ⟨fun h => ⟨h.2, h.1, rfl⟩, fun h => ⟨h.2.1, h.1⟩⟩

end Cheshire.Sw
