import Mathlib.Data.List.GetD
import Cheshire.Sw.SdNoise

/-!
# A card that answers at once

`cardEnv` is a card that is not disturbed. It sends zeros until something is read, behind a
read command the response and one block after the other, and behind CMD12 what ends the
transfer. It is a card as `CardSends` asks for (`cardEnv_sends`), and every read of it succeeds
(`sdReadCheckcrc_card`): the assumptions of the boots can be met, and a boot from it boots.
-/

namespace Cheshire.Sw

open Firmware Firmware.Prog

/-! ## The card -/

/-- What the card sends behind the command for `block`: a response, and its blocks. -/
def cardStream (image : List Byte) (block : Nat) : Nat → Byte
  | 0 => 0
  | k + 1 => (0xFE :: codeword (cardBlock image (block + k / 515))).getD (k % 515) 0

/-- What the card sends behind CMD12: the stuff byte, a response, and that it is not busy. -/
def stopStream (k : Nat) : Byte := if k = 1 then 0 else 0xFF

/-- The block that a frame asks for, if it is a read command. -/
def frameBlock : List Byte → Option Nat
  | op :: b3 :: b2 :: b1 :: b0 :: _ =>
    if op = 0x51 ∨ op = 0x52 then some (b3 ++ b2 ++ b1 ++ b0 : BitVec 32).toNat else none
  | _ => none

/-- Where the card is: so many bytes behind a read command, or behind CMD12. -/
inductive CardState where
  | waiting
  | reading (block k : Nat)
  | stopping (k : Nat)
  deriving DecidableEq, Repr

namespace CardState

def sends (image : List Byte) : CardState → Nat → Byte
  | waiting, _ => 0
  | reading block k, i => cardStream image block (k + i)
  | stopping k, i => stopStream (k + i)

/-- The state of the card behind `n` more bytes that it sent. -/
def skip (n : Nat) : CardState → CardState
  | waiting => waiting
  | reading block k => reading block (k + n)
  | stopping k => stopping (k + n)

/-- The state of the card behind a frame that it received. -/
def command (c : CardState) (frame : List Byte) : CardState :=
  match frameBlock frame with
  | some block => reading block 0
  | none => if frame.head? = some 0x4C then stopping 0 else c

theorem skip_zero (c : CardState) : c.skip 0 = c := by
  cases c with
  | waiting | reading block k | stopping k => rfl

theorem skip_skip (c : CardState) (m n : Nat) : (c.skip m).skip n = c.skip (m + n) := by
  cases c with
  | waiting => rfl
  | reading block k => exact congrArg (reading block) (Nat.add_assoc _ _ _)
  | stopping k => exact congrArg stopping (Nat.add_assoc _ _ _)

theorem sends_skip (image : List Byte) (c : CardState) (n i : Nat) :
    (c.skip n).sends image i = c.sends image (n + i) := by
  cases c with
  | waiting => rfl
  | reading block k => exact congrArg (cardStream image block) (Nat.add_assoc _ _ _)
  | stopping k => exact congrArg stopStream (Nat.add_assoc _ _ _)

end CardState

/-- What the calls so far have led to. -/
def cardState : Trace (SpiHostCall SpiCall) → CardState
  | [] => .waiting
  | (.transfer ⟨_, _, .tx frame⟩, _) :: t => (cardState t).command frame
  | (.transfer ⟨_, _, .rx n⟩, _) :: t => (cardState t).skip n
  | _ :: t => cardState t

def cardEnv (image : List Byte) : Env (SpiHostCall SpiCall) := fun t _ =>
  ⟨0, (cardState t).sends image⟩

theorem frameBlock_read (block : BitVec 32) (n : Nat) :
    frameBlock (readFrame block n) = some block.toNat := by
  have hbytes : ((block >>> 24).setWidth 8 : Byte) ++ ((block >>> 16).setWidth 8 : Byte)
      ++ ((block >>> 8).setWidth 8 : Byte) ++ ((block >>> 0).setWidth 8 : Byte) = block :=
    le32_bytes block
  have hop : (if n > 1 then (0x52 : Byte) else 0x51) = 0x51 ∨
      (if n > 1 then (0x52 : Byte) else 0x51) = 0x52 := by
    split
    · exact Or.inr rfl
    · exact Or.inl rfl
  show (if (if n > 1 then (0x52 : Byte) else 0x51) = 0x51 ∨ _ = 0x52
    then some (BitVec.toNat (_ ++ _ ++ _ ++ _ : BitVec 32)) else none) = _
  rw [if_pos hop, hbytes]

theorem CardState.command_read (c : CardState) (block : BitVec 32) (n : Nat) :
    c.command (readFrame block n) = .reading block.toNat 0 := by
  unfold CardState.command
  rw [frameBlock_read]

/-! ## It sends its blocks -/

theorem busEvents_append (t t' : Trace SpiCall) :
    busEvents (t' ++ t) = busEvents t ++ busEvents t' := by
  induction t' with
  | nil => exact (List.append_nil _).symm
  | cons c t' ih =>
    show busEvents (t' ++ t) ++ _ = busEvents t ++ (busEvents t' ++ _)
    rw [ih, List.append_assoc]

/-- A segment whose first events are bytes received: they are the first of its bytes, and if
there is nothing else they are all of them. -/
theorem events_got {h : SdHandle} {q : SpiCall} {out : Nat → Byte} {bytes : List Byte}
    {rest : List SdEvent} (hevents : q.events out = h.got bytes ++ rest) :
    bytes = (List.range bytes.length).map out ∧ (rest = [] → q.seg = .rx bytes.length) := by
  obtain ⟨csid, csaat, seg⟩ := q
  cases seg with
  | tx data =>
    cases bytes with
    | nil => exact ⟨rfl, fun hrest => nomatch hevents.trans hrest⟩
    | cons x bytes => exact nomatch (List.cons.inj hevents).1
  | dummy cycles =>
    cases bytes with
    | nil => exact ⟨rfl, fun hrest => nomatch hevents.trans hrest⟩
    | cons x bytes => exact nomatch (List.cons.inj hevents).1
  | rx n =>
    have hbytes : (List.range n).map out = bytes ++ rest.filterMap SdEvent.byte? := by
      have hmap := congrArg (List.filterMap SdEvent.byte?) hevents
      rw [List.filterMap_append, h.got_bytes, events_rx] at hmap
      exact hmap
    have hlen := congrArg List.length hbytes
    rw [List.length_map, List.length_range, List.length_append] at hlen
    refine ⟨?_, fun hrest => ?_⟩
    · have htake := congrArg (List.take bytes.length) hbytes
      rw [List.take_left, ← List.map_take, List.take_range, Nat.min_eq_left (by omega)] at htake
      exact htake.symm
    · rw [hrest] at hlen
      exact congrArg SpiSeg.rx hlen

/-- As long as only bytes are received behind a read command, they are those of the card's
stream, whatever comes later. -/
theorem cardEnv_stream {image : List Byte} {h : SdHandle} {t₀ : Trace (SpiHostCall SpiCall)}
    {t : Trace SpiCall} {block : Nat}
    (ht : cardState (Trace.under SpiHostCall.transfer t ++ t₀) = .reading block 0) :
    ∀ {new : Trace SpiCall} {bytes : List Byte} {rest : List SdEvent},
      Answered (Env.under .transfer (cardEnv image) t₀) t new →
      busEvents new = h.got bytes ++ rest →
      bytes = (List.range bytes.length).map (cardStream image block) ∧
        (rest = [] → cardState (Trace.under .transfer (new ++ t) ++ t₀)
          = .reading block bytes.length) := by
  intro new
  induction new with
  | nil =>
    intro bytes rest _ hevents
    obtain ⟨hgot, -⟩ := List.append_eq_nil_iff.mp hevents.symm
    obtain rfl : bytes = [] := List.map_eq_nil_iff.mp hgot
    exact ⟨rfl, fun _ => ht⟩
  | cons c new ih =>
    intro bytes rest hans hevents
    obtain ⟨q, r⟩ := c
    obtain ⟨hr, hans⟩ := hans
    rcases List.append_eq_append_iff.mp (show busEvents new ++ q.events r.out = _ from hevents) with
      ⟨last, hgot, hlast⟩ | ⟨more, hmore, hrest⟩
    · -- the bytes end in the last segment
      obtain ⟨old, bytes', rfl, hold, rfl⟩ := List.map_eq_append_iff.mp hgot
      obtain ⟨hstream, hstate⟩ := @ih old [] hans (hold.symm.trans (List.append_nil _).symm)
      obtain ⟨hbytes, hseg⟩ := events_got (h := h) hlast
      have hout : r.out = fun i => cardStream image block (old.length + i) := by
        rw [hr]
        unfold Env.under cardEnv
        rw [hstate rfl]
        rfl
      refine ⟨?_, fun hrest => ?_⟩
      · rw [List.length_append, List.range_add, List.map_append, List.map_map, ← hstream]
        rw [hout] at hbytes
        exact congrArg (old ++ ·) hbytes
      · obtain ⟨csid, csaat, seg⟩ := q
        obtain rfl : seg = .rx bytes'.length := hseg hrest
        show (cardState (Trace.under .transfer (new ++ t) ++ t₀)).skip bytes'.length = _
        rw [hstate rfl, List.length_append]
        rfl
    · -- they end before it
      obtain ⟨hstream, hstate⟩ := ih hans hmore
      refine ⟨hstream, fun hnil => ?_⟩
      obtain ⟨hmorenil, hq⟩ := List.append_eq_nil_iff.mp (hrest.symm.trans hnil)
      obtain ⟨-, hseg⟩ := @events_got h q r.out [] [] hq
      obtain ⟨csid, csaat, seg⟩ := q
      obtain rfl : seg = .rx 0 := hseg rfl
      show (cardState (Trace.under .transfer (new ++ t) ++ t₀)).skip 0 = _
      rw [CardState.skip_zero, hstate hmorenil]

/-- What comes for one block, and what comes behind it. -/
theorem cardStream_block (image : List Byte) (block : Nat) :
    (List.range 515).map (fun k => cardStream image block (k + 1))
      = 0xFE :: codeword (cardBlock image block) := by
  have hlen : (0xFE :: codeword (cardBlock image block)).length = 515 := by
    rw [List.length_cons, length_codeword, length_cardBlock]
  refine List.ext_getElem (by rw [List.length_map, List.length_range, hlen]) fun k hk hk' => ?_
  rw [hlen] at hk'
  rw [List.getElem_map, List.getElem_range]
  show (0xFE :: codeword (cardBlock image (block + k / 515))).getD (k % 515) 0 = _
  rw [Nat.div_eq_of_lt hk', Nat.mod_eq_of_lt hk', Nat.add_zero, List.getD_eq_getElem]

theorem cardStream_next (image : List Byte) (block k : Nat) :
    cardStream image block (515 + k + 1) = cardStream image (block + 1) (k + 1) := by
  show (0xFE :: codeword (cardBlock image (block + (515 + k) / 515))).getD ((515 + k) % 515) 0
    = (0xFE :: codeword (cardBlock image (block + 1 + k / 515))).getD (k % 515) 0
  rw [Nat.add_mod_left, Nat.add_div_left k (by omega), Nat.add_assoc, Nat.add_comm 1]

/-- A block that is taken out of the stream starts with the token. -/
theorem gap_of_stream {image : List Byte} {blk : SdBlock} {block m : Nat} {rest : List Byte}
    (hwire : blk.wire ++ rest = (List.range m).map fun k => cardStream image block (k + 1)) :
    blk.gap = 0 := by
  have hpos : 0 < m := by
    have hlen := congrArg List.length hwire
    unfold SdBlock.wire at hlen
    simp at hlen
    omega
  have hfirst : (blk.wire ++ rest).head? = some 0xFE := by
    rw [hwire]
    obtain ⟨m, rfl⟩ := Nat.exists_eq_succ_of_ne_zero (Nat.pos_iff_ne_zero.mp hpos)
    rw [List.range_succ_eq_map]
    rfl
  cases hgap : blk.gap with
  | zero => rfl
  | succ gap =>
    -- a gap is bytes 0xFF
    unfold SdBlock.wire at hfirst
    rw [hgap] at hfirst
    exact absurd (Option.some.inj hfirst) (by decide)

/-- The stream can be taken apart in one way only. -/
theorem blocks_of_stream {image : List Byte} : ∀ {blks : List SdBlock} {block m : Nat}
    {rest : List Byte}, (∀ blk ∈ blks, blk.crc.length = 2) →
    blks.flatMap SdBlock.wire ++ rest =
      (List.range m).map (fun k => cardStream image block (k + 1)) →
    ∀ i (hi : i < blks.length), blks[i].data ++ blks[i].crc = codeword (cardBlock image (block + i))
  | blk :: blks, block, m, rest, hcrc, hwire, i, hi => by
    obtain ⟨hlen, hcrc⟩ := List.forall_mem_cons.mp hcrc
    rw [List.flatMap_cons, List.append_assoc] at hwire
    have hblk : blk.wire = 0xFE :: (blk.data ++ blk.crc) := by
      unfold SdBlock.wire
      rw [gap_of_stream hwire]
      rfl
    have hlen : blk.wire.length = 515 := by
      rw [hblk, List.length_cons, List.length_append, blk.length_data, hlen]
    have hm : 515 ≤ m := by
      have htotal := congrArg List.length hwire
      rw [List.length_append, hlen, List.length_map, List.length_range] at htotal
      omega
    -- 515 bytes of the stream are the first block with its token and CRC
    obtain ⟨m, rfl⟩ := Nat.exists_eq_add_of_le hm
    rw [List.range_add, List.map_append, List.map_map] at hwire
    obtain ⟨hfirst, hrest⟩ := List.append_inj hwire
      (by rw [hlen, List.length_map, List.length_range])
    cases i with
    | zero =>
      rw [cardStream_block, hblk] at hfirst
      exact (List.cons.inj hfirst).2
    | succ i =>
      have hnext := hrest.trans (List.map_congr_left fun k _ => cardStream_next image block k)
      rw [show block + (i + 1) = block + 1 + i by omega]
      exact blocks_of_stream hcrc hnext i (Nat.lt_of_succ_lt_succ hi)


theorem cardEnv_sends (image : List Byte) (h : SdHandle) : CardSends (cardEnv image) h image := by
  rintro t₀ s s' block n t ⟨new, frame, r, hcalls, -, hans⟩ ⟨hwire, hpolls, -, -, -⟩ hcrc i hi -
  unfold Wire at hwire
  rw [hcalls, busEvents_append, busEvents_append, List.append_cancel_left_eq] at hwire
  -- the first event is the read command, and behind it come the bytes of the card
  obtain ⟨hframe, hrest⟩ := List.cons.inj
    (show SdEvent.sent h.csid frame :: busEvents new = _ from hwire)
  obtain rfl : frame = readFrame block n := (SdEvent.sent.inj hframe).2
  have hstart : cardState (Trace.under SpiHostCall.transfer
      ((⟨h.csid, true, .tx (readFrame block n)⟩, r) :: s.calls) ++ t₀)
      = .reading block.toNat 0 := CardState.command_read _ block n
  obtain ⟨hstream, -⟩ := cardEnv_stream hstart (answered_append.mp hans).1 hrest
  obtain ⟨m, hm⟩ : ∃ m, t.bytes.length = m + 1 := by
    refine Nat.exists_eq_succ_of_ne_zero fun h0 => ?_
    unfold SdTransfer.bytes at h0
    simp at h0
  rw [hm, List.range_succ_eq_map, List.map_cons, List.map_map] at hstream
  unfold SdTransfer.bytes at hstream
  -- the response is the first byte of the stream, so nothing was polled before it
  cases hp : t.polls with
  | nil =>
    rw [hp, List.nil_append, List.singleton_append,
      ← List.append_nil (t.blocks.flatMap SdBlock.wire)] at hstream
    rw [blocks_of_stream hcrc (List.cons.inj hstream).2 i hi]
    exact ⟨0, fun _ _ => rfl⟩
  | cons x polls =>
    rw [hp] at hstream
    have hx : x = 0 := (List.cons.inj hstream).1
    have hmsb := hpolls x (hp ▸ List.mem_cons_self)
    rw [hx] at hmsb
    cases hmsb

/-! ## Reads of it succeed -/

/-- The card, behind the calls `t₀` of the host. -/
abbrev cardBelow (image : List Byte) (t₀ : Trace (SpiHostCall SpiCall)) : Env SpiCall :=
  Env.under .transfer (cardEnv image) t₀

/-- Where the card is in a state of the driver. -/
def CardAt (t₀ : Trace (SpiHostCall SpiCall)) (c : CardState) (s : SdSt) : Prop :=
  cardState (Trace.under .transfer s.calls ++ t₀) = c

section

variable {image : List Byte} {t₀ : Trace (SpiHostCall SpiCall)} {h : SdHandle} {c : CardState}
  {s : SdSt}

theorem sdTx_card (data : List Byte) (hc : CardAt t₀ c s) :
    wp (cardBelow image t₀) (sdTx h data) (fun _ s' => CardAt t₀ (c.command data) s')
      (fun _ _ => False) s := by
  unfold sdTx
  rw [wp_bind, wp_ask, wp_retCode]
  exact ⟨fun _ => congrArg (fun x : CardState => x.command data) hc, fun hne => hne rfl⟩

/-- A receiving segment gets the next bytes of the card. -/
theorem card_out (hc : CardAt t₀ c s) (q : SpiCall) :
    (cardBelow image t₀ s.calls q).out = c.sends image := by
  show (cardState (Trace.under .transfer s.calls ++ t₀)).sends image = _
  rw [hc]

theorem sdRx_card (n : Nat) (hc : CardAt t₀ c s) :
    wp (cardBelow image t₀) (sdRx h n)
      (fun d s' => d = c.sends image ∧ CardAt t₀ (c.skip n) s') (fun _ _ => False) s := by
  unfold sdRx
  rw [wp_check]
  exact ⟨fun _ => ⟨card_out hc _, congrArg (CardState.skip n) hc⟩, fun hne => hne rfl⟩

theorem sdRxTo_card (dst : SdObj × Int) (n : Nat) (hc : CardAt t₀ c s) :
    wp (cardBelow image t₀) (sdRxTo h dst n) (fun _ s' => CardAt t₀ (c.skip n) s' ∧
        Wire (h.got ((List.range n).map (c.sends image))) s s')
      (fun _ _ => False) s := by
  unfold sdRxTo
  rw [wp_bind, wp_ask, wp_bind, wp_modifyMem, wp_retCode]
  refine ⟨fun _ => ⟨congrArg (CardState.skip n) hc, ?_⟩, fun hne => hne rfl⟩
  rw [got_range, ← card_out hc ⟨h.csid, true, .rx n⟩]
  rfl

theorem sdCsfree_card (hc : CardAt t₀ c s) :
    wp (cardBelow image t₀) (sdCsfree h) (fun _ s' => CardAt t₀ c s') (fun _ _ => False) s := by
  unfold sdCsfree
  rw [wp_bind, wp_ask, wp_retCode]
  exact ⟨fun _ => hc, fun hne => hne rfl⟩

/-- A poll for a byte that the card sends next ends at once and takes that byte from it. -/
theorem sdPoll_card {again : Byte → Bool} (hfirst : again (c.sends image 0) = false)
    (timeout : Nat) (hc : CardAt t₀ c s) :
    wp (cardBelow image t₀) (sdPoll h again (timeout + 1))
      (fun r s' => r = (c.sends image 0, timeout) ∧ CardAt t₀ (c.skip 1) s')
      (fun _ _ => False) s := by
  unfold sdPoll
  rw [wp_bind]
  refine wp_mono (sdRx_card 1 hc) (fun d s₁ h₁ => ?_) fun _ _ he => he
  obtain ⟨rfl, hc₁⟩ := h₁
  rw [if_neg fun hagain => Bool.noConfusion (hfirst.symm.trans hagain.2)]
  exact ⟨rfl, hc₁⟩

/-- A block in its buffer is the next 512 bytes of the card. -/
theorem sdRxBlock_card {rxDepth : Nat} (hdepth : 0 < rxDepth) (dst : SdObj × Int)
    (hc : CardAt t₀ c s) :
    wp (cardBelow image t₀) (sdRxBlock h rxDepth dst)
      (fun _ s' => CardAt t₀ (c.skip 512) s' ∧
        bytesAt s'.mem dst 512 = (List.range 512).map (c.sends image))
      (fun _ _ => False) s := by
  have hfifo : 0 < rxFifoBytes rxDepth := Nat.mul_pos (by omega) hdepth
  have hrec : wp (cardBelow image t₀) (sdRxBlock h rxDepth dst) (fun _ => Received h dst s 512)
      (StoresTo (fun _ _ => True) s) s := sdRxBlock_spec hdepth dst (fun _ _ _ => trivial) s
  have hcard : wp (cardBelow image t₀) (sdRxBlock h rxDepth dst)
      (fun _ s' => CardAt t₀ (c.skip 512) s' ∧
        Wire (h.got ((List.range 512).map (c.sends image))) s s') (fun _ _ => False) s := by
    unfold sdRxBlock
    generalize rxFifoBytes rxDepth = f at hfifo
    have hstart : CardAt t₀ (c.skip (min 512 (f * 0))) s ∧
        Wire (h.got ((List.range (min 512 (f * 0))).map (c.sends image))) s s := by
      rw [Nat.mul_zero, Nat.min_zero, CardState.skip_zero]
      exact ⟨hc, wire_refl s⟩
    refine wp_mono (wp_upTo (fun i s' => CardAt t₀ (c.skip (min 512 (f * i))) s' ∧
      Wire (h.got ((List.range (min 512 (f * i))).map (c.sends image))) s s') ?_ hstart)
      (fun _ s' h' => ?_) fun _ _ he => he
    · rintro i hi s' ⟨hc', hwire⟩
      have hlt := rxChunk_lt hfifo hi
      rw [Nat.min_eq_right (Nat.le_of_lt hlt)] at hc' hwire
      refine wp_mono (sdRxTo_card _ _ hc') (fun _ s'' h'' => ?_) fun _ _ he => he
      obtain ⟨hc'', hwire'⟩ := h''
      rw [CardState.skip_skip] at hc''
      rw [rxChunk_next hlt, List.range_add, List.map_append, List.map_map, h.got_append]
      refine ⟨hc'', hwire.trans ?_⟩
      rw [funext (CardState.sends_skip image c (f * i))] at hwire'
      exact hwire'
    · rwa [rxChunks_end hfifo] at h'
  refine wp_mono (wp_and hcard hrec) (fun _ s' h' => ?_) fun _ _ he => he.1
  obtain ⟨⟨hc', hwire⟩, data, hlen, hwire', hmem⟩ := h'
  have hdata := List.append_cancel_left (hwire'.rx_eq.symm.trans hwire.rx_eq)
  rw [h.got_bytes, h.got_bytes] at hdata
  rw [Received.bytesAt hlen hmem, hdata]
  exact ⟨hc', rfl⟩

/-- The card behind `b` blocks: a token, the next block and its checksum. -/
theorem cardStream_at (image : List Byte) (block b : Nat) {i : Nat} (hi : i < 515) :
    cardStream image block (515 * b + 1 + i) =
      (0xFE :: codeword (cardBlock image (block + b))).getD i 0 := by
  rw [show 515 * b + 1 + i = 515 * b + i + 1 by omega]
  show (0xFE :: codeword (cardBlock image (block + (515 * b + i) / 515))).getD
    ((515 * b + i) % 515) 0 = _
  rw [Nat.mul_add_div (by omega), Nat.div_eq_of_lt hi, Nat.mul_add_mod, Nat.mod_eq_of_lt hi]
  rfl

theorem cardStream_data (image : List Byte) (block b : Nat) :
    (List.range 512).map ((CardState.reading block (515 * b + 1 + 1)).sends image) =
      cardBlock image (block + b) := by
  rw [← range_map_getD (length_cardBlock image (block + b))]
  refine List.map_congr_left fun i hi => ?_
  have hlt := List.mem_range.mp hi
  show cardStream image block (515 * b + 1 + 1 + i) = _
  rw [Nat.add_assoc (515 * b + 1), cardStream_at image block b (by omega), Nat.add_comm 1 i,
    List.getD_cons_succ, codeword, List.getD_append _ _ _ _ (by rw [length_cardBlock]; exact hlt)]

theorem cardStream_crc (image : List Byte) (block b : Nat) :
    (List.range 2).map ((CardState.reading block (515 * b + 1 + 513)).sends image) =
      beBytes16 (crc16 (cardBlock image (block + b))) := by
  have hlen := length_cardBlock image (block + b)
  have hbyte : ∀ i < 2, cardStream image block (515 * b + 1 + 513 + i) =
      (beBytes16 (crc16 (cardBlock image (block + b)))).getD i 0 := by
    intro i hi
    rw [Nat.add_assoc (515 * b + 1), cardStream_at image block b (by omega),
      show 513 + i = 512 + i + 1 by omega, List.getD_cons_succ, codeword,
      List.getD_append_right _ _ _ _ (by omega), hlen, Nat.add_sub_cancel_left]
  show [cardStream image block (515 * b + 1 + 513 + 0),
    cardStream image block (515 * b + 1 + 513 + 1)] = _
  rw [hbyte 0 (by omega), hbyte 1 (by omega)]
  rfl

/-- One pass of the loop finds the next block, and accepts it. -/
theorem block_card {p : SdRead} (hdepth : 0 < p.rxDepth) {block : Nat} (b' b : Nat)
    (hc : CardAt t₀ (.reading block (515 * b + 1)) s) :
    wp (cardBelow image t₀) (p.block b')
      (fun _ s' => CardAt t₀ (.reading block (515 * (b + 1) + 1)) s') (fun _ _ => False) s := by
  have htoken : (CardState.reading block (515 * b + 1)).sends image 0 = 0xFE := by
    show cardStream image block (515 * b + 1 + 0) = 0xFE
    rw [cardStream_at image block b (by omega)]
    rfl
  unfold SdRead.block
  rw [wp_bind]
  refine wp_mono (sdPoll_card (by rw [htoken]; decide) 9999 hc) (fun r s₁ h₁ => ?_)
    fun _ _ he => he
  obtain ⟨rfl, hc₁⟩ := h₁
  dsimp only
  rw [htoken, wp_bind, wp_returnIf _ (by decide)]
  refine ⟨fun _ => ?_, fun h0 => absurd h0 (by decide)⟩
  rw [wp_bind, wp_returnIf _ (by decide)]
  refine ⟨fun _ => ?_, fun hne => hne rfl⟩
  rw [wp_bind]
  refine wp_mono (sdRxBlock_card hdepth (p.blockBuf b') hc₁) (fun _ s₂ h₂ => ?_) fun _ _ he => he
  obtain ⟨hc₂, hdata⟩ := h₂
  rw [CardState.skip_skip] at hc₂
  have hskip : (CardState.reading block (515 * b + 1)).skip 1
      = .reading block (515 * b + 1 + 1) := rfl
  rw [hskip, cardStream_data] at hdata
  unfold SdRead.crc
  rw [wp_bind, wp_bind]
  refine wp_mono (wp_and (sdRx_card 2 hc₂) (sdRx_spec 2 s₂)) (fun d s₃ h₃ => ?_) fun _ _ he => he.1
  obtain ⟨⟨hd, hc₃⟩, hmem, -⟩ := h₃
  rw [CardState.skip_skip] at hc₃
  have hcrc : le16 d = sdCrc16 (bytesAt s₃.mem (p.blockBuf b') 512) := by
    rw [hmem, hdata, le16_eq_sdCrc16_iff, hd]
    exact cardStream_crc image block b
  rw [wp_bind, wp_getMem, wp_returnIf _ (by decide)]
  refine ⟨fun _ => ?_, fun hbad => absurd hcrc hbad.2⟩
  rw [wp_modifyMem]
  exact hc₃

/-- The read command: the card answers, and its first block comes next. -/
theorem readCmd_card (block : BitVec 32) (n : Nat) (hc : CardAt t₀ c s) :
    wp (cardBelow image t₀) (sdCmd h (sdBuildCmd (if n > 1 then 0x52 else 0x51) block) .r1 true)
      (fun _ s' => CardAt t₀ (.reading block.toNat 1) s') (fun _ _ => False) s := by
  have hop : (if n > 1 then (0x52 : Byte) else 0x51) ≠ 0x4C := by
    split
    · decide
    · decide
  unfold sdCmd sdStuffByte
  rw [sdBuildCmd_bytes, wp_bind]
  refine wp_mono (sdTx_card (readFrame block n) hc) (fun _ s₁ hc₁ => ?_) fun _ _ he => he
  rw [CardState.command_read] at hc₁
  rw [if_neg (sdBuildCmd_ne hop _), wp_bind, wp_pure, wp_bind]
  have hresponse : (CardState.reading block.toNat 0).sends image 0 = 0 := rfl
  refine wp_mono (sdPoll_card (by rw [hresponse]; decide) 7 hc₁) (fun r s₂ h₂ => ?_)
    fun _ _ he => he
  obtain ⟨rfl, hc₂⟩ := h₂
  exact hc₂

/-- The end of a read succeeds whatever the card has left to send: CMD12 stops it at once. -/
theorem sdFinish_card (junk : SdJunk) (n : Nat) (hc : CardAt t₀ c s) :
    wp (cardBelow image t₀) (sdFinish h junk n) (fun _ _ => True) (fun _ _ => False) s := by
  unfold sdFinish
  rw [wp_ite]
  split
  · unfold sdCmdCheck sdCmd sdStuffByte
    rw [wp_bind, wp_bind]
    refine wp_mono (sdTx_card _ hc) (fun _ s₁ hc₁ => ?_) fun _ _ he => he
    have hstop : CardAt t₀ (.stopping 0) s₁ := hc₁
    rw [if_pos (show (0x61000000004C : BitVec 64) &&& 0xFF = 0x4C by decide), wp_bind, wp_bind]
    refine wp_mono (sdRx_card 1 hstop) (fun _ s₂ h₂ => ?_) fun _ _ he => he
    rw [wp_pure, wp_bind]
    have hresponse : ((CardState.stopping 0).skip 1).sends image 0 = 0 := rfl
    refine wp_mono (sdPoll_card (by rw [hresponse]; decide) 7 h₂.2) (fun r s₃ h₃ => ?_)
      fun _ _ he => he
    obtain ⟨rfl, hc₃⟩ := h₃
    unfold sdRespRest
    dsimp only
    rw [wp_bind, wp_returnIf _ (by decide)]
    refine ⟨fun _ => ?_, fun h0 => absurd h0 (by decide)⟩
    rw [wp_bind, if_pos rfl, wp_bind]
    refine wp_mono (sdPoll_card rfl 9999 hc₃) (fun r s₄ h₄ => ?_) fun _ _ he => he
    obtain ⟨rfl, hc₄⟩ := h₄
    dsimp only
    rw [wp_bind, wp_returnIf _ (by decide)]
    refine ⟨fun _ => ?_, fun h0 => absurd h0 (by decide)⟩
    rw [wp_pure, wp_bind]
    exact wp_mono (sdCsfree_card hc₄) (fun _ _ _ => trivial) fun _ _ he => he
  · exact wp_mono (sdCsfree_card hc) (fun _ _ _ => trivial) fun _ _ he => he

/-- Wherever and however much is read, no read from the card fails and none fails to end. -/
theorem sdReadCheckcrc_card {rxDepth : Nat} (hdepth : 0 < rxDepth) (junk : SdJunk) (buf : Int)
    (addr len : Nat) (s : SdSt) :
    wp (cardBelow image t₀) (sdReadCheckcrc h rxDepth junk buf addr len) (fun _ _ => True)
      (fun _ _ => False) s := by
  unfold sdReadCheckcrc sdRead sdReadBlocks
  rw [wp_ite]
  split
  · trivial
  rw [if_neg (by omega)]
  dsimp only
  rw [wp_bind]
  refine wp_mono (readCmd_card _ _ rfl) (fun _ s₁ hc₁ => ?_) fun _ _ he => he
  rw [wp_bind]
  refine wp_mono (wp_upTo (fun b s' => CardAt t₀ (.reading _ (515 * b + 1)) s')
    (fun b _ s' hc' => block_card hdepth b b hc') hc₁) (fun _ s₂ hc₂ => ?_) fun _ _ he => he
  exact sdFinish_card junk _ hc₂

end

end Cheshire.Sw
