import Mathlib.Data.List.GetD
import Cheshire.Sw.SdBurst
import Cheshire.Sw.SdInit

/-!
# Blocks on a noisy line

The line between the card and the host may disturb each block once, in up to 16 consecutive
bits of its data and its CRC (`CardSends`). A block with its CRC is a codeword, so a disturbed
one whose CRC still fits is the one that was sent (`codeword_burst`): what the driver accepts
is what the card holds (`CardSends.exact`).
-/

namespace Cheshire.Sw

open Firmware Firmware.Prog

/-! ## Blocks on a noisy line -/

/-- A block as the card sends it, behind its token. -/
def codeword (data : List Byte) : List Byte := data ++ beBytes16 (crc16 data)

theorem bits_beBytes16 (v : BitVec 16) : Crc.bits (beBytes16 v) = Crc.topBits v 16 := by
  have hhigh : ((v >>> 8).setWidth 8 : Byte) = Crc.topByte v := rfl
  have hlow : (v.setWidth 8 : Byte) = Crc.topByte (v <<< 8) := by
    unfold Crc.topByte
    refine BitVec.eq_of_getLsbD_eq fun i hi => ?_
    simp [BitVec.getLsbD_ushiftRight, BitVec.getLsbD_shiftLeft, hi]
    omega
  show Crc.topBits ((v >>> 8).setWidth 8) 8 ++ (Crc.topBits (v.setWidth 8) 8 ++ []) = _
  rw [hhigh, hlow, Crc.topBits_topByte (by decide), Crc.topBits_topByte (by decide),
    List.append_nil]
  have hshift : ∀ i < 8, (v <<< 8).getMsbD i = v.getMsbD (8 + i) := by
    intro i hi
    rw [BitVec.getMsbD_shiftLeft, Nat.add_comm]
  unfold Crc.topBits
  rw [show List.range 16 = List.range 8 ++ (List.range 8).map (8 + ·) from rfl, List.map_append,
    List.map_map]
  congr 1
  exact List.map_congr_left fun i hi => hshift i (List.mem_range.mp hi)

theorem crc16_codeword (data : List Byte) : crc16 (codeword data) = 0 :=
  Crc.remainder_append (bits_beBytes16 _)

theorem length_codeword (data : List Byte) : (codeword data).length = data.length + 2 :=
  List.length_append

/-- A disturbed block whose CRC still fits is not disturbed. -/
theorem codeword_burst {blk : SdBlock} (hcrc : blk.CrcOk) {data : List Byte}
    (hlen : data.length = 512) (hburst : BurstApart (blk.data ++ blk.crc) (codeword data)) :
    blk.data = data := by
  unfold SdBlock.CrcOk at hcrc
  rw [hcrc] at hburst
  have hwords : codeword blk.data = codeword data := by
    refine crc16_burst ?_ hburst ?_
    · rw [length_codeword, length_codeword, blk.length_data, hlen]
    · rw [crc16_codeword, crc16_codeword]
  exact (List.append_inj hwords (blk.length_data.trans hlen.symm)).1

/-! ## The card -/

/-- The 512 bytes of block `i` of the card. -/
def cardBlock (image : List Byte) (i : Nat) : List Byte :=
  (List.range 512).map fun k => image.getD (512 * i + k) 0

theorem length_cardBlock (image : List Byte) (i : Nat) : (cardBlock image i).length = 512 := by
  unfold cardBlock
  rw [List.length_map, List.length_range]

/-- The calls of a read: the command is the first. -/
def ReadCalls (env : Env SpiCall) (h : SdHandle) (s s' : SdSt) : Prop :=
  ∃ new frame r, Calls env h.Uses s s' (new ++ [(⟨h.csid, true, .tx frame⟩, r)])

/-- A read finds the blocks of the card, in order, each disturbed by one burst at most. -/
def CardSends (env : Env (SpiHostCall SpiCall)) (h : SdHandle) (image : List Byte) : Prop :=
  ∀ t₀ (s s' : SdSt) block n t, ReadCalls (Env.under .transfer env t₀) h s s' →
    Transferred h false block n s s' t → (∀ blk ∈ t.blocks, blk.crc.length = 2) →
    ∀ i (hi : i < t.blocks.length), 512 * (block.toNat + i) < image.length →
      BurstApart (t.blocks[i].data ++ t.blocks[i].crc)
        (codeword (cardBlock image (block.toNat + i)))

/-- Byte `k` of equal-sized parts. -/
theorem flatMap_data_getD : ∀ {blks : List SdBlock} {i j : Nat} (hi : i < blks.length), j < 512 →
    (blks.flatMap SdBlock.data).getD (512 * i + j) 0 = (blks[i].data).getD j 0
  | blk :: blks, 0, j, _, hj => by
    rw [List.flatMap_cons, Nat.mul_zero, Nat.zero_add,
      List.getD_append _ _ _ _ (by rw [blk.length_data]; exact hj)]
    rfl
  | blk :: blks, i + 1, j, hi, hj => by
    have hlen := blk.length_data
    rw [List.flatMap_cons, List.getD_append_right _ _ _ _ (by omega), hlen,
      show 512 * (i + 1) + j - 512 = 512 * i + j by omega]
    exact flatMap_data_getD (Nat.lt_of_succ_lt_succ hi) hj

variable {env : Env (SpiHostCall SpiCall)} {h : SdHandle} {image : List Byte}

/-- On such a card every byte of a block that passed the driver's checksum is the byte of the
image. -/
theorem CardSends.exact (hcard : CardSends env h image) {t₀ : Trace (SpiHostCall SpiCall)}
    {s s' : SdSt} {block : BitVec 32} {n : Nat} {t : SdTransfer}
    (hcalls : ReadCalls (Env.under .transfer env t₀) h s s')
    (ht : Transferred h true block n s s' t) {k : Nat} (hk : k < 512 * n)
    (hin : 512 * block.toNat + k < image.length) :
    t.data.getD k 0 = image.getD (512 * block.toNat + k) 0 := by
  have hi : k / 512 < t.blocks.length := by
    rw [ht.blocks]
    omega
  have hmod := Nat.mod_lt k (show 0 < 512 by omega)
  have hdiv := Nat.div_add_mod k 512
  -- both the block received and the one sent are codewords, a burst apart
  have hblk : t.blocks[k / 512].data = cardBlock image (block.toNat + k / 512) :=
    codeword_burst (ht.crc rfl _ (List.getElem_mem hi)) (length_cardBlock _ _)
      (hcard t₀ s s' block n t hcalls ⟨ht.wire, ht.polls, ht.response, ht.blocks,
        fun hf => nomatch hf⟩ (fun blk hmem => congrArg List.length (ht.crc rfl blk hmem))
        (k / 512) hi (by omega))
  have hbyte := flatMap_data_getD hi hmod
  rw [hdiv, hblk] at hbyte
  unfold SdTransfer.data
  rw [hbyte]
  unfold cardBlock
  rw [List.getD_eq_getElem?_getD, List.getElem?_map, List.getElem?_range hmod]
  show image.getD _ 0 = _
  congr 1
  omega

end Cheshire.Sw
