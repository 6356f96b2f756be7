import Cheshire.Sw.SdTimeout

/-!
# In which state a read leaves the card

Every segment of a read keeps the chip select asserted, and only `__spi_sdcard_csfree`
lets go of it. The macros that check the segments return at once, and so do the checks of
the timeouts, the token and the CRC: none of these ways out passes the cleanup at the end
of `__spi_sdcard_read_blocks`.

`readEnd` says how far a read gets in the bytes that a card sends. The card is left with
the chip select released, and CMD12 behind a multi-block read, exactly if the read gets to
its end (`sdReadBlocks_usable_iff`).
-/

namespace Cheshire.Sw

open Firmware Firmware.Prog

variable {env : Env SpiCall} {bytes : Nat → Byte} {h : SdHandle}

/-! ## A stream, taken apart -/

/-- The offset behind the first of the `n` bytes from `o` on that needs no further poll. -/
def answerEnd (again : Byte → Bool) (bytes : Nat → Byte) : Nat → Nat → Option Nat
  | 0, _ => none
  | n + 1, o => if again (bytes o) then answerEnd again bytes n (o + 1) else some (o + 1)

/-- Where the loop finds its answer. The byte of the last poll does not count. -/
def SdLoop.answerEnd (l : SdLoop) (bytes : Nat → Byte) (o : Nat) : Option Nat :=
  Sw.answerEnd l.again bytes (l.bound - 1) o

/-- Behind a block: its token, the 512 bytes and, if it is to be checked, the CRC. -/
def blockEnd (checkCrc : Bool) (bytes : Nat → Byte) (o : Nat) : Option Nat :=
  (SdLoop.token.answerEnd bytes o).bind fun t =>
    if bytes (t - 1) = 0xFE ∧
        (checkCrc → slice bytes (t + 512) 2 = beBytes16 (crc16 (slice bytes t 512)))
    then some (t + 512 + 2) else none

def blocksEnd (checkCrc : Bool) (bytes : Nat → Byte) : Nat → Nat → Option Nat
  | 0, o => some o
  | n + 1, o => (blocksEnd checkCrc bytes n o).bind (blockEnd checkCrc bytes)

/-- Behind CMD12: the stuff byte, the response, the end of the busy phase. -/
def stopEnd (bytes : Nat → Byte) (o : Nat) : Option Nat :=
  (SdLoop.response.answerEnd bytes (o + 1)).bind (SdLoop.busy.answerEnd bytes)

/-- Behind a read of `n` blocks: the response, the blocks and, for more than one, what
follows CMD12. -/
def readEnd (checkCrc : Bool) (bytes : Nat → Byte) (n o : Nat) : Option Nat :=
  (SdLoop.response.answerEnd bytes o).bind fun r =>
    (blocksEnd checkCrc bytes n r).bind fun e => if n > 1 then stopEnd bytes e else some e

theorem blocksEnd_none {checkCrc : Bool} {m n o : Nat} (hmn : m ≤ n)
    (hm : blocksEnd checkCrc bytes m o = none) : blocksEnd checkCrc bytes n o = none := by
  obtain ⟨k, rfl⟩ := Nat.exists_eq_add_of_le hmn
  clear hmn
  induction k with
  | zero => exact hm
  | succ k ih =>
    show (blocksEnd checkCrc bytes (m + k) o).bind _ = none
    rw [ih]
    rfl

/-! ## Calls that succeed -/

/-- From `s` to `s'` the next `n` bytes of the stream were received, and these segments
sent. -/
structure Fed (bytes : Nat → Byte) (n : Nat) (tx : List (List Byte)) (s s' : SdSt) : Prop where
  rx_eq : rxBytes s'.calls = rxBytes s.calls ++ slice bytes (rxCount s) n
  tx_eq : txFrames s'.calls = txFrames s.calls ++ tx

theorem slice_length (bytes : Nat → Byte) (k n : Nat) : (slice bytes k n).length = n := by
  unfold slice
  rw [List.length_map, List.length_range']

theorem slice_append (bytes : Nat → Byte) (k m n : Nat) :
    slice bytes k m ++ slice bytes (k + m) n = slice bytes k (m + n) := by
  unfold slice
  rw [← List.map_append, List.range'_append_1]

theorem Fed.count {n : Nat} {tx : List (List Byte)} {s s' : SdSt} (hf : Fed bytes n tx s s') :
    rxCount s' = rxCount s + n := by
  unfold rxCount
  rw [hf.rx_eq, List.length_append, slice_length]

theorem fed_refl (s : SdSt) : Fed bytes 0 [] s s :=
  ⟨(List.append_nil _).symm, (List.append_nil _).symm⟩

theorem Fed.trans {m n : Nat} {tx tx' : List (List Byte)} {s s' s'' : SdSt}
    (hf : Fed bytes m tx s s') (hf' : Fed bytes n tx' s' s'') :
    Fed bytes (m + n) (tx ++ tx') s s'' := by
  constructor
  · rw [hf'.rx_eq, hf.rx_eq, List.append_assoc, hf.count, slice_append]
  · rw [hf'.tx_eq, hf.tx_eq, List.append_assoc]

/-- The last segment has kept the chip select asserted. -/
def Held (s : SdSt) : Prop := ∃ c t, s.calls = c :: t ∧ c.1.csaat = true

/-- The last segment was the one that releases the chip select. -/
def Released (h : SdHandle) (s : SdSt) : Prop :=
  ∃ c t, s.calls = c :: t ∧ c.1 = ⟨h.csidDummy, false, .dummy 8⟩

theorem Held.not_released {s : SdSt} (hheld : Held s) : ¬Released h s := by
  obtain ⟨c, t, hcalls, hcsaat⟩ := hheld
  rintro ⟨c', t', hcalls', hcall⟩
  rw [hcalls] at hcalls'
  obtain ⟨rfl, -⟩ := List.cons.inj hcalls'
  rw [hcall] at hcsaat
  cases hcsaat

theorem sdTx_fed (henv : Streams env bytes) (data : List Byte) (s : SdSt) :
    wp env (sdTx h data) (fun _ s' => Fed bytes 0 [data] s s' ∧ Held s') (fun _ _ => False) s := by
  unfold sdTx
  rw [wp_bind, wp_ask, wp_retCode]
  refine ⟨fun _ => ⟨⟨(List.append_nil _).symm, rfl⟩, _, _, rfl, rfl⟩, fun hne => ?_⟩
  exact hne (henv s.calls _).1

theorem rx_fed (henv : Streams env bytes) (s : SdSt) (n : Nat) :
    (List.range n).map (env s.calls ⟨h.csid, true, .rx n⟩).out = slice bytes (rxCount s) n := by
  rw [(henv s.calls ⟨h.csid, true, .rx n⟩).2]
  unfold slice
  rw [List.range'_eq_map_range, List.map_map]
  rfl

theorem sdRx_fed (henv : Streams env bytes) (n : Nat) (s : SdSt) :
    wp env (sdRx h n)
      (fun d s' => Fed bytes n [] s s' ∧ Held s' ∧
        (List.range n).map d = slice bytes (rxCount s) n)
      (fun _ _ => False) s := by
  have hrx := rx_fed (h := h) henv s n
  unfold sdRx
  rw [wp_check]
  refine ⟨fun _ => ⟨⟨?_, (List.append_nil _).symm⟩, ⟨_, _, rfl, rfl⟩, hrx⟩, fun hne => ?_⟩
  · rw [← hrx]
    rfl
  · exact hne (henv s.calls _).1

theorem sdRxTo_fed (henv : Streams env bytes) (dst : SdObj × Int) (n : Nat) (s : SdSt) :
    wp env (sdRxTo h dst n) (fun _ s' => Fed bytes n [] s s' ∧ Held s') (fun _ _ => False) s := by
  have hrx := rx_fed (h := h) henv s n
  unfold sdRxTo
  rw [wp_bind, wp_ask, wp_bind, wp_modifyMem, wp_retCode]
  refine ⟨fun _ => ⟨⟨?_, (List.append_nil _).symm⟩, _, _, rfl, rfl⟩, fun hne => ?_⟩
  · rw [← hrx]
    rfl
  · exact hne (henv s.calls _).1

theorem sdCsfree_fed (henv : Streams env bytes) (s : SdSt) :
    wp env (sdCsfree h) (fun _ s' => Fed bytes 0 [] s s' ∧ Released h s') (fun _ _ => False)
      s := by
  unfold sdCsfree
  rw [wp_bind, wp_ask, wp_retCode]
  refine ⟨fun _ => ⟨⟨(List.append_nil _).symm, (List.append_nil _).symm⟩, _, _, rfl, rfl⟩,
    fun hne => ?_⟩
  exact hne (henv s.calls _).1

/-- The polling gets to the first answer, or runs out. -/
theorem sdPoll_fed (henv : Streams env bytes) (again : Byte → Bool) : ∀ (n : Nat) (s : SdSt),
    wp env (sdPoll h again (n + 1))
      (fun r s' => (∃ k, Fed bytes k [] s s') ∧ Held s' ∧
        (r.2 = 0 → answerEnd again bytes n (rxCount s) = none) ∧
        (r.2 ≠ 0 → answerEnd again bytes n (rxCount s) = some (rxCount s') ∧
          r.1 = bytes (rxCount s' - 1)))
      (fun _ _ => False) s := by
  intro n
  induction n with
  | zero =>
    intro s
    show wp env (sdRx h 1 >>= fun d => _) _ _ s
    rw [wp_bind]
    refine wp_mono (sdRx_fed henv 1 s) (fun d s₁ h₁ => ?_) fun _ _ he => he
    obtain ⟨hfed, hheld, -⟩ := h₁
    rw [wp_ite, if_neg fun hn => hn.1 rfl]
    exact ⟨⟨1, hfed⟩, hheld, fun _ => rfl, fun hne => absurd rfl hne⟩
  | succ n ih =>
    intro s
    show wp env (sdRx h 1 >>= fun d => _) _ _ s
    rw [wp_bind]
    refine wp_mono (sdRx_fed henv 1 s) (fun d s₁ h₁ => ?_) fun _ _ he => he
    obtain ⟨hfed, hheld, hd⟩ := h₁
    have hbyte : d 0 = bytes (rxCount s) := (List.cons.inj hd).1
    have hcount : rxCount s₁ = rxCount s + 1 := hfed.count
    unfold answerEnd
    rw [wp_ite, hbyte]
    by_cases hagain : again (bytes (rxCount s)) = true
    · rw [if_pos ⟨Nat.succ_ne_zero n, hagain⟩, if_pos hagain, ← hcount]
      refine wp_mono (ih s₁) (fun r s₂ h₂ => ?_) fun _ _ he => he
      obtain ⟨⟨k, hfed₂⟩, hrest⟩ := h₂
      exact ⟨⟨1 + k, hfed.trans hfed₂⟩, hrest⟩
    · rw [if_neg fun hn => hagain hn.2, if_neg hagain]
      refine ⟨⟨1, hfed⟩, hheld, fun hzero => absurd hzero (Nat.succ_ne_zero n), fun _ => ?_⟩
      rw [hcount]
      exact ⟨rfl, rfl⟩

theorem SdLoop.run_fed (henv : Streams env bytes) (l : SdLoop) (s : SdSt) :
    wp env (l.run h)
      (fun r s' => (∃ k, Fed bytes k [] s s') ∧ Held s' ∧
        l.answerEnd bytes (rxCount s) = some (rxCount s') ∧ r = bytes (rxCount s' - 1))
      (fun _ s' => Held s' ∧ l.answerEnd bytes (rxCount s) = none) s := by
  unfold run answerEnd
  rw [wp_bind, l.bound_eq]
  refine wp_mono (sdPoll_fed henv l.again (l.bound - 1) s) (fun r s₁ h₁ => ?_)
    fun _ _ he => he.elim
  obtain ⟨hfed, hheld, hnone, hsome⟩ := h₁
  dsimp only
  rw [wp_bind, wp_returnIf _ l.code_ne]
  exact ⟨fun hne => ⟨hfed, hheld, hsome hne⟩, fun hzero => ⟨hheld, hnone hzero⟩⟩

/-! ## Blocks -/

theorem sdRxBlock_fed (henv : Streams env bytes) {rxDepth : Nat} (hdepth : 0 < rxDepth)
    (dst : SdObj × Int) {s : SdSt} (hheld : Held s) :
    wp env (sdRxBlock h rxDepth dst)
      (fun _ s' => Fed bytes 512 [] s s' ∧ Held s' ∧
        bytesAt s'.mem dst 512 = slice bytes (rxCount s) 512)
      (fun _ _ => False) s := by
  have hfifo : 0 < rxFifoBytes rxDepth := Nat.mul_pos (by omega) hdepth
  have hfed : wp env (sdRxBlock h rxDepth dst) (fun _ s' => Fed bytes 512 [] s s' ∧ Held s')
      (fun _ _ => False) s := by
    unfold sdRxBlock
    generalize rxFifoBytes rxDepth = f at hfifo
    have hstart : Fed bytes (min 512 (f * 0)) [] s s ∧ Held s := ⟨fed_refl s, hheld⟩
    refine wp_mono (wp_upTo (fun i s' => Fed bytes (min 512 (f * i)) [] s s' ∧ Held s') ?_ hstart)
      (fun _ s' h' => ?_) fun _ _ he => he
    · rintro i hi s' ⟨hfed, -⟩
      have hlt := rxChunk_lt hfifo hi
      rw [Nat.min_eq_right (Nat.le_of_lt hlt)] at hfed
      refine wp_mono (sdRxTo_fed henv _ _ s') (fun _ s'' h'' => ?_) fun _ _ he => he
      rw [rxChunk_next hlt]
      exact ⟨hfed.trans h''.1, h''.2⟩
    · rwa [rxChunks_end hfifo] at h'
  have hrec : wp env (sdRxBlock h rxDepth dst) (fun _ => Received h dst s 512)
      (StoresTo (fun _ _ => True) s) s := sdRxBlock_spec hdepth dst (fun _ _ _ => trivial) s
  refine wp_mono (wp_and hfed hrec) (fun _ s' h' => ?_) fun _ _ he => he.1
  obtain ⟨⟨hfed, hheld⟩, data, hlen, hwire, hmem⟩ := h'
  have hrx := hwire.rx_eq
  rw [h.got_bytes] at hrx
  have hdata : data = slice bytes (rxCount s) 512 :=
    List.append_cancel_left (hrx.symm.trans hfed.rx_eq)
  rw [Received.bytesAt hlen hmem, hdata]
  exact ⟨hfed, hheld, rfl⟩

theorem crc_fed (henv : Streams env bytes) (p : SdRead) (b : Nat) (s : SdSt) :
    wp env (p.crc b)
      (fun _ s' => Fed bytes 2 [] s s' ∧ Held s' ∧ (p.checkCrc →
        slice bytes (rxCount s) 2 = beBytes16 (crc16 (bytesAt s.mem (p.blockBuf b) 512))))
      (fun _ s' => Held s' ∧ ¬(p.checkCrc →
        slice bytes (rxCount s) 2 = beBytes16 (crc16 (bytesAt s.mem (p.blockBuf b) 512)))) s := by
  unfold SdRead.crc
  rw [wp_bind]
  refine wp_mono (wp_and (sdRx_fed henv 2 s) (sdRx_spec 2 s)) (fun d s₁ h₁ => ?_)
    fun _ _ he => he.1.elim
  obtain ⟨⟨hfed, hheld, hd⟩, hmem, -⟩ := h₁
  have hcrc : le16 d = sdCrc16 (bytesAt s.mem (p.blockBuf b) 512) ↔
      slice bytes (rxCount s) 2 = beBytes16 (crc16 (bytesAt s.mem (p.blockBuf b) 512)) := by
    rw [← hd]
    exact le16_eq_sdCrc16_iff d _
  rw [wp_bind, wp_getMem, wp_returnIf _ (by decide), hmem]
  constructor
  · intro hok
    exact ⟨hfed, hheld, fun hcheck => hcrc.mp (not_not.mp fun hne => hok ⟨hcheck, hne⟩)⟩
  · rintro ⟨hcheck, hne⟩
    exact ⟨hheld, fun hok => hne (hcrc.mpr (hok hcheck))⟩

theorem block_fed (henv : Streams env bytes) {p : SdRead} (hdepth : 0 < p.rxDepth) (b : Nat)
    (s : SdSt) :
    wp env (p.block b)
      (fun _ s' => (∃ k, Fed bytes k [] s s') ∧ Held s' ∧
        blockEnd p.checkCrc bytes (rxCount s) = some (rxCount s'))
      (fun _ s' => Held s' ∧ blockEnd p.checkCrc bytes (rxCount s) = none) s := by
  rw [block_eq, wp_bind]
  refine wp_mono (SdLoop.token.run_fed henv s) (fun token s₁ h₁ => ?_) fun _ s' he => ?_
  · obtain ⟨⟨k, hfed₁⟩, hheld₁, hend, htoken⟩ := h₁
    unfold blockEnd
    rw [hend, Option.bind_some, ← htoken, wp_bind, wp_returnIf _ (by decide)]
    refine ⟨fun hfe => ?_, fun hne => ⟨hheld₁, if_neg fun hc => hne hc.1⟩⟩
    rw [wp_bind]
    refine wp_mono (sdRxBlock_fed henv hdepth _ hheld₁) (fun _ s₂ h₂ => ?_)
      fun _ _ he => he.elim
    obtain ⟨hfed₂, hheld₂, hdata⟩ := h₂
    rw [wp_bind, ← hfed₂.count, ← hdata]
    refine wp_mono (crc_fed henv p b s₂) (fun _ s₃ h₃ => ?_) fun _ s' he => ?_
    · obtain ⟨hfed₃, hheld₃, hcrc⟩ := h₃
      rw [wp_modifyMem, if_pos ⟨not_not.mp hfe, hcrc⟩, ← hfed₃.count]
      have hfed := (hfed₁.trans hfed₂).trans hfed₃
      exact ⟨⟨_, hfed.rx_eq, hfed.tx_eq⟩, hheld₃, rfl⟩
    · exact ⟨he.1, if_neg fun hc => he.2 hc.2⟩
  · unfold blockEnd
    rw [he.2]
    exact ⟨he.1, rfl⟩

theorem blocks_fed (henv : Streams env bytes) {p : SdRead} (hdepth : 0 < p.rxDepth) {s : SdSt}
    (hheld : Held s) :
    wp env (upTo p.len p.block)
      (fun _ s' => (∃ k, Fed bytes k [] s s') ∧ Held s' ∧
        blocksEnd p.checkCrc bytes p.len (rxCount s) = some (rxCount s'))
      (fun _ s' => Held s' ∧ blocksEnd p.checkCrc bytes p.len (rxCount s) = none) s := by
  refine wp_upTo (fun b s' => (∃ k, Fed bytes k [] s s') ∧ Held s' ∧
    blocksEnd p.checkCrc bytes b (rxCount s) = some (rxCount s')) ?_ ⟨⟨0, fed_refl s⟩, hheld, rfl⟩
  rintro b hb s' ⟨⟨k, hfed⟩, -, hend⟩
  have hnext : blocksEnd p.checkCrc bytes (b + 1) (rxCount s)
      = blockEnd p.checkCrc bytes (rxCount s') := by
    show (blocksEnd p.checkCrc bytes b (rxCount s)).bind _ = _
    rw [hend]
    rfl
  refine wp_mono (block_fed henv hdepth b s') (fun _ s'' h'' => ?_) fun _ s'' he => ?_
  · obtain ⟨⟨k', hfed'⟩, hheld', hend'⟩ := h''
    exact ⟨⟨_, hfed.trans hfed'⟩, hheld', hnext.trans hend'⟩
  · -- the blocks after this one are not reached
    exact ⟨he.1, blocksEnd_none hb (hnext.trans he.2)⟩

/-! ## Commands -/

theorem readCmd_fed (henv : Streams env bytes) {cmd : BitVec 64} (hcmd : cmd &&& 0xFF ≠ 0x4C)
    (s : SdSt) :
    wp env (sdCmd h cmd .r1 true)
      (fun _ s' => (∃ k, Fed bytes k [leBytes cmd 6] s s') ∧ Held s' ∧
        SdLoop.response.answerEnd bytes (rxCount s) = some (rxCount s'))
      (fun _ s' => Held s' ∧ SdLoop.response.answerEnd bytes (rxCount s) = none) s := by
  rw [sdCmd_eq, wp_bind]
  refine wp_mono (sdTx_fed henv _ s) (fun _ s₁ h₁ => ?_) fun _ _ he => he.elim
  obtain ⟨hfed₁, -⟩ := h₁
  rw [← show rxCount s₁ = rxCount s from hfed₁.count]
  unfold sdStuffByte
  rw [if_neg hcmd, wp_bind, wp_pure, wp_bind]
  refine wp_mono (SdLoop.response.run_fed henv s₁) (fun r s₂ h₂ => ?_) fun _ _ he => he
  obtain ⟨⟨k, hfed₂⟩, hheld₂, hend, -⟩ := h₂
  exact ⟨⟨_, hfed₁.trans hfed₂⟩, hheld₂, hend⟩

theorem stop_fed (henv : Streams env bytes) (junk : SdJunk) (s : SdSt) :
    wp env (sdCmdCheck h 0x61000000004C .r1b junk none)
      (fun _ s' => (∃ k, Fed bytes k [[0x4C, 0, 0, 0, 0, 0x61]] s s') ∧ Released h s' ∧
        (stopEnd bytes (rxCount s)).isSome)
      (fun _ s' => Held s' ∧ stopEnd bytes (rxCount s) = none) s := by
  unfold sdCmdCheck
  rw [wp_bind, sdCmd_eq, wp_bind]
  refine wp_mono (sdTx_fed henv _ s) (fun _ s₁ h₁ => ?_) fun _ _ he => he.elim
  obtain ⟨hfed₁, -⟩ := h₁
  unfold sdStuffByte
  rw [if_pos (show (0x61000000004C : BitVec 64) &&& 0xFF = 0x4C by decide), wp_bind, wp_bind]
  refine wp_mono (sdRx_fed henv 1 s₁) (fun _ s₂ h₂ => ?_) fun _ _ he => he.elim
  obtain ⟨hfed₂, -, -⟩ := h₂
  rw [wp_pure, wp_bind]
  have hcount : rxCount s₂ = rxCount s + 1 := (hfed₁.trans hfed₂).count
  unfold stopEnd
  rw [← hcount]
  refine wp_mono (SdLoop.response.run_fed henv s₂) (fun r s₃ h₃ => ?_) fun _ s' he => ?_
  · obtain ⟨⟨k, hfed₃⟩, -, hend₃, -⟩ := h₃
    rw [hend₃, Option.bind_some, wp_bind, sdRespRest_r1b, wp_bind]
    refine wp_mono (SdLoop.busy.run_fed henv s₃) (fun _ s₄ h₄ => ?_) fun _ _ he => he
    obtain ⟨⟨k', hfed₄⟩, -, hend₄, -⟩ := h₄
    rw [wp_pure, wp_bind]
    unfold sdRelease
    rw [if_neg Bool.false_ne_true]
    refine wp_mono (sdCsfree_fed henv s₄) (fun _ s₅ h₅ => ?_) fun _ _ he => he.elim
    rw [wp_pure, hend₄]
    exact ⟨⟨_, (((hfed₁.trans hfed₂).trans hfed₃).trans hfed₄).trans h₅.1⟩, h₅.2, rfl⟩
  · rw [he.2]
    exact ⟨he.1, rfl⟩

theorem sdFinish_fed (henv : Streams env bytes) (junk : SdJunk) (n : Nat) (s : SdSt) :
    wp env (sdFinish h junk n)
      (fun _ s' => (∃ k, Fed bytes k (if n > 1 then [[0x4C, 0, 0, 0, 0, 0x61]] else []) s s') ∧
        Released h s' ∧ (n > 1 → (stopEnd bytes (rxCount s)).isSome))
      (fun _ s' => Held s' ∧ n > 1 ∧ stopEnd bytes (rxCount s) = none) s := by
  unfold sdFinish
  rw [wp_ite]
  split
  next hn =>
    refine wp_mono (stop_fed henv junk s) (fun _ s' h' => ?_) fun _ _ he => ⟨he.1, hn, he.2⟩
    exact ⟨h'.1, h'.2.1, fun _ => h'.2.2⟩
  next hn =>
    refine wp_mono (sdCsfree_fed henv s) (fun _ s' h' => ?_) fun _ _ he => he.elim
    exact ⟨⟨0, h'.1⟩, h'.2, fun hgt => absurd hgt hn⟩

/-! ## A read -/

/-- A byte without its most significant bit comes among the eight that are polled, and the
first such byte reports no error. -/
def CmdAccepted (bytes : Nat → Byte) (o : Nat) : Prop :=
  ∃ k < 8, bytes (o + k) = 0 ∧ ∀ j < k, (bytes (o + j)).msb

/-- The card can take the next command: the chip select was released through the dummy one,
and a multi-block read that the card has accepted was ended. -/
def CardUsable (bytes : Nat → Byte) (h : SdHandle) (n : Nat) (s s' : SdSt) : Prop :=
  Released h s' ∧ (1 < n → CmdAccepted bytes (rxCount s) →
    ∃ cmd tx, txFrames s'.calls = txFrames s.calls ++ cmd :: tx ∧ [0x4C, 0, 0, 0, 0, 0x61] ∈ tx)

theorem sdReadBlocks_fed (henv : Streams env bytes) {rxDepth : Nat} (hdepth : 0 < rxDepth)
    (junk : SdJunk) (buf : Int) (block : Nat) {n : Nat} (hn : 0 < n) (firstOffs lastLen : Nat)
    (checkCrc : Bool) (s : SdSt) :
    wp env (sdReadBlocks h rxDepth junk buf block n firstOffs lastLen checkCrc)
      (fun _ s' => CardUsable bytes h n s s' ∧ (readEnd checkCrc bytes n (rxCount s)).isSome)
      (fun _ s' => Held s' ∧ readEnd checkCrc bytes n (rxCount s) = none) s := by
  have hop : (if n > 1 then (0x52 : Byte) else 0x51) ≠ 0x4C := by
    split
    · decide
    · decide
  unfold sdReadBlocks readEnd
  rw [if_neg (Nat.pos_iff_ne_zero.mp hn)]
  dsimp only
  rw [wp_bind]
  refine wp_mono (readCmd_fed henv (sdBuildCmd_ne hop _) s) (fun _ s₁ h₁ => ?_) fun _ s' he => ?_
  · obtain ⟨⟨k₁, hfed₁⟩, hheld₁, hend₁⟩ := h₁
    rw [hend₁, Option.bind_some, wp_bind]
    refine wp_mono (blocks_fed henv hdepth hheld₁) (fun _ s₂ h₂ => ?_) fun _ s' he => ?_
    · obtain ⟨⟨k₂, hfed₂⟩, -, hend₂⟩ := h₂
      dsimp only at hend₂
      rw [hend₂, Option.bind_some]
      refine wp_mono (sdFinish_fed henv junk n s₂) (fun _ s₃ h₃ => ?_) fun _ s' he => ?_
      · obtain ⟨⟨k₃, hfed₃⟩, hreleased, hstop⟩ := h₃
        refine ⟨⟨hreleased, fun hmulti _ => ?_⟩, ?_⟩
        · rw [if_pos hmulti] at hfed₃
          exact ⟨_, _, ((hfed₁.trans hfed₂).trans hfed₃).tx_eq, List.mem_singleton_self _⟩
        · split
          next hgt => exact hstop hgt
          next => rfl
      · rw [if_pos he.2.1]
        exact ⟨he.1, he.2.2⟩
    · dsimp only at he
      rw [he.2]
      exact ⟨he.1, rfl⟩
  · rw [he.2]
    exact ⟨he.1, rfl⟩

/-- A read leaves the card usable exactly if it gets to its end. -/
theorem sdReadBlocks_usable_iff (env : Env SpiCall) (h : SdHandle) (bytes : Nat → Byte)
    (henv : Streams env bytes) {rxDepth : Nat} (hdepth : 0 < rxDepth) (junk : SdJunk)
    (buf : Int) (block : Nat) {n : Nat} (hn : 0 < n) (firstOffs lastLen : Nat) (checkCrc : Bool)
    (s : SdSt) :
    CardUsable bytes h n s
        (sdReadBlocks h rxDepth junk buf block n firstOffs lastLen checkCrc env s).2 ↔
      (readEnd checkCrc bytes n (rxCount s)).isSome := by
  have hfed := sdReadBlocks_fed (h := h) henv hdepth junk buf block hn firstOffs lastLen checkCrc s
  refine (wp_state (P := fun s' => CardUsable bytes h n s s' ↔ _)).mp (wp_mono hfed
    (fun _ s' h' => ?_) fun _ s' he => ?_)
  · exact ⟨fun _ => h'.2, fun _ => h'.1⟩
  · rw [he.2]
    exact ⟨fun husable => absurd husable.1 he.1.not_released, fun hsome => (nomatch hsome)⟩

/-- What a card sends for a read of two blocks of zeros: a response, each block behind its
token, and behind CMD12 a response and the end of the busy phase. -/
def twoBlocks (k : Nat) : Byte :=
  if k = 1 ∨ k = 516 then 0xFE else if 1033 ≤ k then 0xFF else 0

/-- Two blocks of zeros are read with their CRCs, and CMD12 ends the transfer. -/
theorem sdReadBlocks_usable_two :
    CardUsable twoBlocks ⟨0, 1⟩ 2 sdStart
      (sdReadBlocks ⟨0, 1⟩ 64 ⟨0, 0⟩ 0 0 2 0 512 true (streamCard twoBlocks) sdStart).2 :=
  (sdReadBlocks_usable_iff (streamCard twoBlocks) ⟨0, 1⟩ twoBlocks (streams_streamCard _)
    (by omega) ⟨0, 0⟩ 0 0 (by omega) 0 512 true sdStart).mpr (by decide +kernel)

/-- A card that accepts a read of two blocks and then sends an error token. -/
theorem sdReadBlocks_token :
    CmdAccepted (fun k => if k = 0 then 0 else 0x08) (rxCount sdStart) ∧
      (sdReadBlocks ⟨0, 1⟩ 64 ⟨0, 0⟩ 0 0 2 0 512 true
        (streamCard fun k => if k = 0 then 0 else 0x08) sdStart).1 = .error (.ret 0x20) ∧
      ¬CardUsable (fun k => if k = 0 then 0 else 0x08) ⟨0, 1⟩ 2 sdStart
        (sdReadBlocks ⟨0, 1⟩ 64 ⟨0, 0⟩ 0 0 2 0 512 true
          (streamCard fun k => if k = 0 then 0 else 0x08) sdStart).2 := by
  refine ⟨⟨0, by omega, rfl, fun j hj => absurd hj (Nat.not_lt_zero j)⟩, by decide +kernel, ?_⟩
  intro husable
  have hheld : Held (sdReadBlocks ⟨0, 1⟩ 64 ⟨0, 0⟩ 0 0 2 0 512 true
      (streamCard fun k => if k = 0 then 0 else 0x08) sdStart).2 := ⟨_, _, rfl, rfl⟩
  exact hheld.not_released husable.1

end Cheshire.Sw
