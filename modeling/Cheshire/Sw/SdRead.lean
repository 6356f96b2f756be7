import Mathlib.Algebra.Group.Nat.Defs
import Mathlib.Data.List.GetD
import Cheshire.Sw.SdFrame

/-!
# What a block read delivers

The card may send anything. `busEvents` is what went over the bus, in order and with the chip
select of each segment; `SdReadExact` says how a read that returns 0 looks there: the command,
behind it a response and for each block a run of `0xFF`, the token, 512 bytes and a CRC that
fits them, then the end of the transfer; and the caller's buffer holds the part of the blocks
it asked for.

The invariant of the block loop is `BlocksRead`. Which part of a block goes to the
caller is the same question for all four ways of copying: the bytes from `lo b` to `hi b`.
-/

namespace Cheshire.Sw

open Firmware Firmware.Prog

/-! ## The bus -/

/-- Something that goes over the bus, and the chip select it goes to. -/
inductive SdEvent where
  | sent (csid : Nat) (data : List Byte)
  | received (csid : Nat) (byte : Byte)
  | dummy (csid cycles : Nat)
  deriving DecidableEq, Repr

/-- The events of one segment; what is received are the bytes of `out`. -/
def SpiCall.events (q : SpiCall) (out : Nat → Byte) : List SdEvent :=
  match q.seg with
  | .tx data => [.sent q.csid data]
  | .rx n => (List.range n).map fun i => .received q.csid (out i)
  | .dummy cycles => [.dummy q.csid cycles]

/-- All that went over the bus, in order. -/
def busEvents : Trace SpiCall → List SdEvent
  | [] => []
  | (q, r) :: t => busEvents t ++ q.events r.out

/-- The bytes received in a trace, in order. -/
def rxBytes : Trace SpiCall → List Byte
  | [] => []
  | (⟨_, _, .rx n⟩, r) :: t => rxBytes t ++ (List.range n).map r.out
  | _ :: t => rxBytes t

/-- The frames sent in a trace, in order. -/
def txFrames : Trace SpiCall → List (List Byte)
  | [] => []
  | (⟨_, _, .tx data⟩, _) :: t => txFrames t ++ [data]
  | _ :: t => txFrames t

def SdEvent.byte? : SdEvent → Option Byte
  | .received _ byte => some byte
  | _ => none

def SdEvent.frame? : SdEvent → Option (List Byte)
  | .sent _ data => some data
  | _ => none

/-- The bytes of a receiving segment are those of its events. -/
theorem events_rx (csid : Nat) (csaat : Bool) (n : Nat) (out : Nat → Byte) :
    (SpiCall.events ⟨csid, csaat, .rx n⟩ out).filterMap SdEvent.byte? =
      (List.range n).map out := by
  unfold SpiCall.events
  rw [List.filterMap_map, ← List.filterMap_eq_map]
  rfl

/-- The bytes received in a trace are those that its events carry, in their order. -/
theorem rxBytes_eq (t : Trace SpiCall) : rxBytes t = (busEvents t).filterMap SdEvent.byte? := by
  induction t with
  | nil => rfl
  | cons c t ih =>
    obtain ⟨⟨csid, csaat, seg⟩, r⟩ := c
    have hcons : (busEvents ((⟨csid, csaat, seg⟩, r) :: t)).filterMap SdEvent.byte? =
        rxBytes t ++ (SpiCall.events ⟨csid, csaat, seg⟩ r.out).filterMap SdEvent.byte? := by
      rw [ih, ← List.filterMap_append]
      rfl
    rw [hcons]
    cases seg with
    | tx data => exact (List.append_nil _).symm
    | dummy cycles => exact (List.append_nil _).symm
    | rx n =>
      rw [events_rx]
      rfl

/-- The frames sent in a trace are those that its events carry, in their order. -/
theorem txFrames_eq (t : Trace SpiCall) :
    txFrames t = (busEvents t).filterMap SdEvent.frame? := by
  induction t with
  | nil => rfl
  | cons c t ih =>
    obtain ⟨⟨csid, csaat, seg⟩, r⟩ := c
    have hcons : (busEvents ((⟨csid, csaat, seg⟩, r) :: t)).filterMap SdEvent.frame? =
        txFrames t ++ (SpiCall.events ⟨csid, csaat, seg⟩ r.out).filterMap SdEvent.frame? := by
      rw [ih, ← List.filterMap_append]
      rfl
    rw [hcons]
    cases seg with
    | tx data => rfl
    | dummy cycles => exact (List.append_nil _).symm
    | rx n =>
      have hnone : (SpiCall.events ⟨csid, csaat, .rx n⟩ r.out).filterMap SdEvent.frame? = [] := by
        unfold SpiCall.events
        rw [List.filterMap_map]
        exact List.filterMap_eq_nil_iff.mpr fun _ _ => rfl
      rw [hnone]
      exact (List.append_nil _).symm

/-- From `s` to `s'` this went over the bus. -/
def Wire (events : List SdEvent) (s s' : SdSt) : Prop :=
  busEvents s'.calls = busEvents s.calls ++ events

theorem wire_refl (s : SdSt) : Wire [] s s := (List.append_nil _).symm

theorem Wire.trans {l l' : List SdEvent} {s s' s'' : SdSt} (hw : Wire l s s')
    (hw' : Wire l' s' s'') : Wire (l ++ l') s s'' := by
  unfold Wire at hw hw' ⊢
  rw [hw', hw, List.append_assoc]

theorem Wire.rx_eq {l : List SdEvent} {s s' : SdSt} (hw : Wire l s s') :
    rxBytes s'.calls = rxBytes s.calls ++ l.filterMap SdEvent.byte? := by
  rw [rxBytes_eq, rxBytes_eq, ← List.filterMap_append, ← hw]

/-- The events of bytes that are received from the card. -/
def SdHandle.got (h : SdHandle) (bytes : List Byte) : List SdEvent :=
  bytes.map (.received h.csid)

/-- The event by which the card lets go of the bus. -/
def SdHandle.freed (h : SdHandle) : List SdEvent := [.dummy h.csidDummy 8]

theorem SdHandle.got_append (h : SdHandle) (a b : List Byte) :
    h.got (a ++ b) = h.got a ++ h.got b := List.map_append

theorem SdHandle.got_bytes (h : SdHandle) (bytes : List Byte) :
    (h.got bytes).filterMap SdEvent.byte? = bytes := by
  unfold SdHandle.got
  rw [List.filterMap_map]
  exact List.filterMap_some

/-! ## Segments -/

variable {env : Env SpiCall} {h : SdHandle}

/-- The outcome of a body that keeps to its variables. -/
def KeepsMem (s : SdSt) (_ : Stop) (s' : SdSt) : Prop := s'.mem = s.mem

theorem sdTx_spec (data : List Byte) (s : SdSt) :
    wp env (sdTx h data) (fun _ s' => s'.mem = s.mem ∧ Wire [.sent h.csid data] s s')
      (KeepsMem s) s := by
  unfold sdTx
  rw [wp_bind, wp_ask, wp_retCode]
  exact ⟨fun _ => ⟨rfl, rfl⟩, fun _ => rfl⟩

theorem got_range (h : SdHandle) (d : Nat → Byte) (n : Nat) :
    h.got ((List.range n).map d) = (List.range n).map fun i => .received h.csid (d i) :=
  List.map_map

theorem sdRx_spec (n : Nat) (s : SdSt) :
    wp env (sdRx h n) (fun d s' => s'.mem = s.mem ∧ Wire (h.got ((List.range n).map d)) s s')
      (KeepsMem s) s := by
  unfold sdRx
  rw [wp_check]
  refine ⟨fun _ => ⟨rfl, ?_⟩, fun _ => rfl⟩
  rw [got_range]
  rfl

theorem sdCsfree_spec (s : SdSt) :
    wp env (sdCsfree h) (fun _ s' => s'.mem = s.mem ∧ Wire h.freed s s') (KeepsMem s) s := by
  unfold sdCsfree
  rw [wp_bind, wp_ask, wp_retCode]
  exact ⟨fun _ => ⟨rfl, rfl⟩, fun _ => rfl⟩

/-- The bytes polled before the last one all asked for another poll; the last one does
not, unless the timeout has run out. -/
theorem sdPoll_spec (again : Byte → Bool) : ∀ (timeout : Nat) (s : SdSt),
    wp env (sdPoll h again timeout)
      (fun r s' => s'.mem = s.mem ∧ (r.2 ≠ 0 → again r.1 = false) ∧
        ∃ l, (∀ x ∈ l, again x) ∧ Wire (h.got (l ++ [r.1])) s s')
      (KeepsMem s) s := by
  intro timeout
  induction timeout with
  | zero =>
    intro s
    exact rfl
  | succ timeout ih =>
    intro s
    unfold sdPoll
    rw [wp_bind]
    refine wp_mono (sdRx_spec 1 s) (fun d s₁ h₁ => ?_) fun _ _ he => he
    obtain ⟨hmem, hwire⟩ := h₁
    rw [wp_ite]
    by_cases hagain : timeout ≠ 0 ∧ again (d 0)
    · rw [if_pos hagain]
      refine wp_mono (ih s₁) (fun r s₂ h₂ => ?_) fun _ _ he => he.trans hmem
      obtain ⟨hmem₂, hlast, l, hl, hwire₂⟩ := h₂
      refine ⟨hmem₂.trans hmem, hlast, d 0 :: l, ?_, hwire.trans hwire₂⟩
      intro x hx
      rcases List.mem_cons.mp hx with rfl | hx
      · exact hagain.2
      · exact hl x hx
    · rw [if_neg hagain]
      refine ⟨hmem, ?_, [], fun _ hx => absurd hx List.not_mem_nil, hwire⟩
      intro hne
      exact Bool.eq_false_iff.mpr fun hd => hagain ⟨hne, hd⟩

/-! ## Commands -/

theorem sdRespRest_spec (resp : SdResp) (s : SdSt) :
    wp env (sdRespRest h resp)
      (fun _ s' => s'.mem = s.mem ∧ ∃ rx, Wire (h.got rx) s s' ∧ (resp = .r1 → rx = []))
      (KeepsMem s) s := by
  unfold sdRespRest
  rw [wp_ite]
  by_cases hb : resp = .r1b
  · rw [if_pos hb, wp_bind]
    refine wp_mono (sdPoll_spec _ _ s) (fun r s₁ h₁ => ?_) fun _ _ he => he
    obtain ⟨hmem, -, l, -, hwire⟩ := h₁
    dsimp only
    rw [wp_bind, wp_returnIf _ (by decide)]
    refine ⟨fun _ => ⟨hmem, _, hwire, fun h1 => ?_⟩, fun _ => hmem⟩
    exact absurd (hb.symm.trans h1) SdResp.noConfusion
  · rw [if_neg hb, wp_ite]
    by_cases hrem : resp.len - 1 ≠ 0
    · rw [if_pos hrem, wp_bind]
      refine wp_mono (sdRx_spec _ s) (fun d s₁ h₁ => ?_) fun _ _ he => he
      refine ⟨h₁.1, _, h₁.2, fun h1 => ?_⟩
      rw [h1] at hrem
      exact absurd rfl hrem
    · rw [if_neg hrem]
      exact ⟨rfl, [], wire_refl s, fun _ => rfl⟩

theorem sdStuffByte_spec (cmd : BitVec 64) (s : SdSt) :
    wp env (sdStuffByte h cmd)
      (fun _ s' => s'.mem = s.mem ∧ ∃ rx, Wire (h.got rx) s s' ∧
        (cmd &&& 0xFF ≠ 0x4C → rx = []))
      (KeepsMem s) s := by
  unfold sdStuffByte
  rw [wp_ite]
  by_cases hc : cmd &&& 0xFF = 0x4C
  · rw [if_pos hc, wp_bind]
    refine wp_mono (sdRx_spec 1 s) (fun d s₁ h₁ => ?_) fun _ _ he => he
    exact ⟨h₁.1, _, h₁.2, fun hn => absurd hc hn⟩
  · rw [if_neg hc]
    exact ⟨rfl, [], wire_refl s, fun _ => rfl⟩

theorem sdRelease_spec (csaat : Bool) (s : SdSt) :
    wp env (sdRelease h csaat)
      (fun _ s' => s'.mem = s.mem ∧ Wire (if csaat then [] else h.freed) s s') (KeepsMem s)
      s := by
  unfold sdRelease
  cases csaat with
  | true => exact ⟨rfl, wire_refl s⟩
  | false => exact sdCsfree_spec s

/-- What goes over the bus for one command: the frame, and behind it what the card sends. An R1
response is one byte, only CMD12 has a stuff byte, and the chip select may be kept. -/
def CmdWire (h : SdHandle) (cmd : BitVec 64) (resp : SdResp) (csaat : Bool) (s s' : SdSt) : Prop :=
  ∃ stuff polls r rest,
    Wire (.sent h.csid (leBytes cmd 6) :: h.got (stuff ++ (polls ++ [r]) ++ rest) ++
      if csaat then [] else h.freed) s s' ∧
    (∀ x ∈ polls, x.msb) ∧ r.msb = false ∧
    (cmd &&& 0xFF ≠ 0x4C → stuff = []) ∧ (resp = .r1 → rest = [])

theorem sdCmd_spec (cmd : BitVec 64) (resp : SdResp) (csaat : Bool) (s : SdSt) :
    wp env (sdCmd h cmd resp csaat) (fun _ s' => s'.mem = s.mem ∧ CmdWire h cmd resp csaat s s')
      (KeepsMem s) s := by
  unfold sdCmd
  rw [wp_bind]
  refine wp_mono (sdTx_spec _ s) (fun _ s₁ h₁ => ?_) fun _ _ he => he
  obtain ⟨hmem₁, hwire₁⟩ := h₁
  rw [wp_bind]
  refine wp_mono (sdStuffByte_spec cmd s₁) (fun _ s₂ h₂ => ?_) fun _ _ he => he.trans hmem₁
  obtain ⟨hmem₂, stuff, hwire₂, hstuff⟩ := h₂
  have hkeep₂ : s₂.mem = s.mem := hmem₂.trans hmem₁
  rw [wp_bind]
  refine wp_mono (sdPoll_spec _ 8 s₂) (fun r s₃ h₃ => ?_) fun _ _ he => he.trans hkeep₂
  obtain ⟨hmem₃, hlast, polls, hpolls, hwire₃⟩ := h₃
  have hkeep₃ : s₃.mem = s.mem := hmem₃.trans hkeep₂
  dsimp only
  rw [wp_bind, wp_returnIf _ (by decide)]
  refine ⟨fun htimeout => ?_, fun _ => hkeep₃⟩
  rw [wp_bind]
  refine wp_mono (sdRespRest_spec resp s₃) (fun _ s₄ h₄ => ?_) fun _ _ he => he.trans hkeep₃
  obtain ⟨hmem₄, rest, hwire₄, hrest⟩ := h₄
  have hkeep₄ : s₄.mem = s.mem := hmem₄.trans hkeep₃
  rw [wp_bind]
  refine wp_mono (sdRelease_spec csaat s₄) (fun _ s₅ h₅ => ?_) fun _ _ he => he.trans hkeep₄
  obtain ⟨hmem₅, hwire₅⟩ := h₅
  refine ⟨hmem₅.trans hkeep₄, stuff, polls, r.1, rest, ?_, hpolls, hlast htimeout, hstuff, hrest⟩
  have hwire := hwire₁.trans (((hwire₂.trans hwire₃).trans hwire₄).trans hwire₅)
  rw [← h.got_append, ← h.got_append] at hwire
  exact hwire

theorem sdCmdCheck_spec (cmd : BitVec 64) (resp : SdResp) (junk : SdJunk) (s : SdSt) :
    wp env (sdCmdCheck h cmd resp junk none)
      (fun _ s' => s'.mem = s.mem ∧ CmdWire h cmd resp false s s') (KeepsMem s) s := by
  unfold sdCmdCheck
  rw [wp_bind]
  exact wp_mono (sdCmd_spec cmd resp false s) (fun _ _ h₁ => h₁) fun _ _ he => he

/-! ## Blocks -/

/-- What the card sends for one block: polls, data and checksum. -/
structure SdBlock where
  /-- The number of polls before the token. -/
  gap : Nat
  data : List Byte
  crc : List Byte
  length_data : data.length = 512

/-- The CRC received is that of the data. -/
def SdBlock.CrcOk (b : SdBlock) : Prop := b.crc = beBytes16 (crc16 b.data)

/-- The block on the bus: the token is `0xFE`. -/
def SdBlock.wire (b : SdBlock) : List Byte := List.replicate b.gap 0xFF ++ [0xFE] ++ b.data ++ b.crc

variable {P : SdObj → Int → Prop}

/-- A body that stopped has stored to `P` only. -/
def StoresTo (P : SdObj → Int → Prop) (s : SdSt) (_ : Stop) (s' : SdSt) : Prop :=
  s.mem.StoresIn P s'.mem

/-- Stopping in a body that keeps to its variables adds no stores. -/
theorem KeepsMem.storesTo {s s₁ s' : SdSt} {e : Stop} (he : KeepsMem s₁ e s')
    (h : s.mem.StoresIn P s₁.mem) : StoresTo P s e s' :=
  h.trans (Mem.StoresIn.of_eq he)

theorem sdRxTo_spec (dst : SdObj × Int) (n : Nat)
    (hP : ∀ x, dst.2 ≤ x → x < dst.2 + n → P dst.1 x) (s : SdSt) :
    wp env (sdRxTo h dst n)
      (fun _ s' => ∃ d, s'.mem = s.mem.write dst.1 dst.2 d n ∧
        Wire (h.got ((List.range n).map d)) s s')
      (StoresTo P s) s := by
  unfold sdRxTo
  rw [wp_bind, wp_ask, wp_bind, wp_modifyMem, wp_retCode]
  refine ⟨fun _ => ⟨_, rfl, ?_⟩, fun _ => Mem.storesIn_write _ hP⟩
  rw [got_range]
  rfl

/-- The first `n` bytes of a block have been received to `dst`. -/
def Received (h : SdHandle) (dst : SdObj × Int) (s : SdSt) (n : Nat) (s' : SdSt) : Prop :=
  ∃ data : List Byte, data.length = n ∧ Wire (h.got data) s s' ∧
    s'.mem = s.mem.write dst.1 dst.2 (data.getD · 0) n

theorem received_getD (d : Nat → Byte) {n i : Nat} (hi : i < n) :
    ((List.range n).map d).getD i 0 = d i := by
  have hlen : i < ((List.range n).map d).length := by
    rwa [List.length_map, List.length_range]
  rw [List.getD_eq_getElem _ _ hlen, List.getElem_map, List.getElem_range]

theorem Received.chunk {dst : SdObj × Int} {s s₁ s₂ : SdSt} {n k : Nat} {d : Nat → Byte}
    (hrec : Received h dst s n s₁) (hmem : s₂.mem = s₁.mem.write dst.1 (dst.2 + n) d k)
    (hwire : Wire (h.got ((List.range k).map d)) s₁ s₂) : Received h dst s (n + k) s₂ := by
  obtain ⟨data, hlen, hwire₁, hmem₁⟩ := hrec
  refine ⟨data ++ (List.range k).map d, by simp [hlen], ?_, ?_⟩
  · rw [h.got_append]
    exact hwire₁.trans hwire
  have hold : s.mem.write dst.1 dst.2 (data.getD · 0) n =
      s.mem.write dst.1 dst.2 ((data ++ (List.range k).map d).getD · 0) n :=
    Mem.write_congr _ _ _ fun i hi => (List.getD_append _ _ _ _ (by omega)).symm
  rw [hmem, hmem₁, hold, ← Mem.write_write]
  refine Mem.write_congr _ _ _ fun i hi => ?_
  rw [List.getD_append_right _ _ _ _ (by omega), show n + i - data.length = i by omega,
    received_getD d hi]

/-- A block comes in chunks of a FIFO, the last one perhaps smaller. -/
theorem sdRxBlock_spec {rxDepth : Nat} (hdepth : 0 < rxDepth) (dst : SdObj × Int)
    (hP : ∀ x, dst.2 ≤ x → x < dst.2 + 512 → P dst.1 x) (s : SdSt) :
    wp env (sdRxBlock h rxDepth dst) (fun _ => Received h dst s 512) (StoresTo P s) s := by
  have hfifo : 0 < rxFifoBytes rxDepth := Nat.mul_pos (by omega) hdepth
  unfold sdRxBlock
  generalize rxFifoBytes rxDepth = f at hfifo
  have hstart : Received h dst s (min 512 (f * 0)) s := by
    rw [Nat.mul_zero, Nat.min_zero]
    exact ⟨[], rfl, wire_refl s, (Mem.write_zero ..).symm⟩
  refine wp_mono (wp_upTo (fun i => Received h dst s (min 512 (f * i))) ?_ hstart)
    (fun _ s' hrec => ?_) fun _ _ he => he
  · intro i hi s' hrec
    have hlt := rxChunk_lt hfifo hi
    rw [Nat.min_eq_right (Nat.le_of_lt hlt)] at hrec
    have hstored : s.mem.StoresIn P s'.mem := by
      obtain ⟨data, -, -, hmem⟩ := hrec
      rw [hmem]
      exact Mem.storesIn_write _ fun x hlo hhi => hP x hlo (by omega)
    have hrange : ∀ x, dst.2 + ((f * i : Nat) : Int) ≤ x →
        x < dst.2 + ((f * i : Nat) : Int) + (min f (512 - f * i) : Nat) → P dst.1 x := by
      intro x hlo hhi
      exact hP x (by omega) (by omega)
    refine wp_mono (sdRxTo_spec (dst.1, dst.2 + ((f * i : Nat) : Int)) _ hrange s')
      (fun _ s'' h' => ?_) fun _ _ he => hstored.trans he
    obtain ⟨d, hmem, hwire⟩ := h'
    rw [rxChunk_next hlt]
    exact hrec.chunk hmem hwire
  · rwa [rxChunks_end hfifo] at hrec

/-! ## One block of a read -/

variable {p : SdRead} {b : Nat}

/-- The part of block `b` that the caller asked for starts here, and ends at `hi b`. -/
def SdRead.lo (p : SdRead) (b : Nat) : Nat := if b = 0 then p.firstOffs else 0

def SdRead.hi (p : SdRead) (b : Nat) : Nat := if b = p.len - 1 then p.lastLen else 512

theorem SdRead.lo_eq : p.lo b = if p.firstBlock b then p.firstOffs else 0 := by
  unfold SdRead.lo SdRead.firstBlock
  by_cases hb : b = 0
  · by_cases ho : p.firstOffs = 0
    · simp [hb, ho]
    · simp [hb, ho]
  · simp [hb]

theorem SdRead.hi_eq : p.hi b = if p.lastBlock b then p.lastLen else 512 := by
  unfold SdRead.hi SdRead.lastBlock
  by_cases hb : b = p.len - 1
  · by_cases ho : p.lastLen = 512
    · simp [hb, ho]
    · simp [hb, ho]
  · simp [hb]

/-- All four ways of copying are one: the part asked for, or nothing to do. -/
theorem SdRead.copyOut_eq (m : SdMem) :
    p.copyOut b m = if p.firstBlock b || p.lastBlock b
      then m.copy (.caller, p.blockDst b + p.lo b) (.swap, p.lo b) (p.hi b - p.lo b) else m := by
  unfold SdRead.copyOut
  rw [lo_eq, hi_eq]
  cases p.firstBlock b with
  | true =>
    cases p.lastBlock b with
    | true => rfl
    | false => rfl
  | false =>
    cases p.lastBlock b with
    | true => simp
    | false => rfl

theorem range_map_getD {data : List Byte} {n : Nat} (hlen : data.length = n) :
    (List.range n).map (data.getD · 0) = data := by
  subst hlen
  refine List.ext_getElem (by simp) fun i hi₁ hi₂ => ?_
  rw [List.getElem_map, List.getElem_range, List.getD_eq_getElem _ _ hi₂]

theorem Received.bytesAt {dst : SdObj × Int} {s s' : SdSt} {data : List Byte}
    (hlen : data.length = 512) (hmem : s'.mem = s.mem.write dst.1 dst.2 (data.getD · 0) 512) :
    bytesAt s'.mem dst 512 = data := by
  rw [← range_map_getD hlen]
  refine List.map_congr_left fun i hi => ?_
  rw [hmem]
  exact Mem.get_write_at _ _ _ _ (List.mem_range.mp hi)

theorem SdRead.crc_spec (s : SdSt) :
    wp env (p.crc b)
      (fun _ s' => s'.mem = s.mem ∧ ∃ c, Wire (p.handle.got c) s s' ∧
        (p.checkCrc → c = beBytes16 (crc16 (bytesAt s.mem (p.blockBuf b) 512))))
      (KeepsMem s) s := by
  unfold SdRead.crc
  rw [wp_bind]
  refine wp_mono (sdRx_spec 2 s) (fun d s₁ h₁ => ?_) fun _ _ he => he
  obtain ⟨hmem, hwire⟩ := h₁
  rw [wp_bind, wp_getMem, wp_returnIf _ (by decide)]
  refine ⟨fun hok => ⟨hmem, _, hwire, fun hcheck => ?_⟩, fun _ => hmem⟩
  rw [← hmem]
  exact (le16_eq_sdCrc16_iff d _).mp (not_not.mp fun hne => hok ⟨hcheck, hne⟩)

/-- What one pass of the loop has done. -/
structure BlockRead (P : SdObj → Int → Prop) (p : SdRead) (b : Nat) (blk : SdBlock)
    (s s' : SdSt) : Prop where
  wire : Wire (p.handle.got blk.wire) s s'
  crc : p.checkCrc → blk.CrcOk
  stores : s.mem.StoresIn P s'.mem
  data : ∀ j, p.lo b ≤ j → j < p.hi b →
    s'.mem.get .caller (p.blockDst b + j) = blk.data.getD j 0
  below : ∀ x, x < p.blockDst b + p.lo b → s'.mem.get .caller x = s.mem.get .caller x

/-- Of a block in the right place the part asked for is copied out. -/
theorem SdRead.copyOut_spec (hlast : p.lastLen ≤ 512)
    (hcaller : ∀ x, p.blockDst b + p.lo b ≤ x → x < p.blockDst b + p.hi b → P .caller x)
    {s s' : SdSt} {data : List Byte}
    (hmem : s'.mem = s.mem.write (p.blockBuf b).1 (p.blockBuf b).2 (data.getD · 0) 512) :
    s'.mem.StoresIn P (p.copyOut b s'.mem) ∧
      (∀ j, p.lo b ≤ j → j < p.hi b →
        (p.copyOut b s'.mem).get .caller (p.blockDst b + j) = data.getD j 0) ∧
      ∀ x, x < p.blockDst b + p.lo b →
        (p.copyOut b s'.mem).get .caller x = s.mem.get .caller x := by
  have hlo := lo_eq (p := p) (b := b)
  have hhi := hi_eq (p := p) (b := b)
  rw [copyOut_eq]
  unfold blockBuf at hmem
  cases hswap : p.firstBlock b || p.lastBlock b with
  | true =>
    -- received into the swap buffer, and copied from there
    rw [hswap, if_pos rfl] at hmem
    rw [if_pos rfl]
    refine ⟨Mem.storesIn_write _ fun x hx hx' => hcaller x hx (by omega), ?_, ?_⟩
    · intro j hj hj'
      have hget : s'.mem.get .swap (0 + j) = data.getD j 0 := by
        rw [hmem]
        refine Mem.get_write_at _ _ _ _ ?_
        unfold hi at hj'
        split at hj'
        · omega
        · exact hj'
      show (Mem.write _ _ _ _ _).get _ _ = _
      rw [Mem.get_write, if_pos ⟨rfl, by omega, by omega⟩, ← hget]
      congr 1
      omega
    · intro x hx
      show (Mem.write _ _ _ _ _).get _ _ = _
      rw [Mem.get_write_outside _ _ _ _ (Or.inl hx), hmem]
      exact Mem.get_write_obj _ _ _ _ _ SdObj.noConfusion
  | false =>
    -- received in place: the whole block was asked for
    obtain ⟨hfirst, hlastb⟩ := Bool.or_eq_false_iff.mp hswap
    rw [hfirst, if_neg Bool.false_ne_true] at hlo
    rw [hlastb, if_neg Bool.false_ne_true] at hhi
    rw [hswap, if_neg Bool.false_ne_true] at hmem
    rw [if_neg Bool.false_ne_true, hlo, hhi]
    refine ⟨Mem.storesIn_refl _ _, ?_, ?_⟩
    · intro j _ hj
      rw [hmem]
      exact Mem.get_write_at _ _ _ _ hj
    · intro x hx
      rw [hmem]
      exact Mem.get_write_outside _ _ _ _ (Or.inl (by show x < p.blockDst b; omega))

theorem SdRead.blockBuf_mem
    (hcaller : ∀ x, p.blockDst b + p.lo b ≤ x → x < p.blockDst b + p.hi b → P .caller x)
    (hswap : ∀ x, 0 ≤ x → x < 512 → P .swap x) (x : Int) (hx : (p.blockBuf b).2 ≤ x)
    (hx' : x < (p.blockBuf b).2 + 512) : P (p.blockBuf b).1 x := by
  have hlo := lo_eq (p := p) (b := b)
  have hhi := hi_eq (p := p) (b := b)
  unfold blockBuf at hx hx' ⊢
  cases hbuf : p.firstBlock b || p.lastBlock b with
  | true =>
    rw [hbuf, if_pos rfl] at hx hx'
    rw [if_pos rfl]
    exact hswap x hx (by omega)
  | false =>
    obtain ⟨hfirst, hlast⟩ := Bool.or_eq_false_iff.mp hbuf
    rw [hfirst, if_neg Bool.false_ne_true] at hlo
    rw [hlast, if_neg Bool.false_ne_true] at hhi
    rw [hbuf, if_neg Bool.false_ne_true] at hx hx'
    rw [if_neg Bool.false_ne_true]
    exact hcaller x (by rw [hlo]; show p.blockDst b + 0 ≤ x; omega) (by rw [hhi]; exact hx')

theorem SdRead.block_spec (hdepth : 0 < p.rxDepth) (hlast : p.lastLen ≤ 512)
    (hcaller : ∀ x, p.blockDst b + p.lo b ≤ x → x < p.blockDst b + p.hi b → P .caller x)
    (hswap : ∀ x, 0 ≤ x → x < 512 → P .swap x) (s : SdSt) :
    wp env (p.block b) (fun _ s' => ∃ blk, BlockRead P p b blk s s') (StoresTo P s) s := by
  unfold block
  rw [wp_bind]
  refine wp_mono (sdPoll_spec _ _ s) (fun r s₁ h₁ => ?_)
    fun _ _ he => Mem.StoresIn.of_eq he
  obtain ⟨hmem₁, -, polls, hpolls, hwire₁⟩ := h₁
  have hkeep : s.mem.StoresIn P s₁.mem := Mem.StoresIn.of_eq hmem₁
  dsimp only
  rw [wp_bind, wp_returnIf _ (by decide)]
  refine ⟨fun _ => ?_, fun _ => hkeep⟩
  rw [wp_bind, wp_returnIf _ (by decide)]
  refine ⟨fun htoken => ?_, fun _ => hkeep⟩
  rw [wp_bind]
  have hbuf := blockBuf_mem hcaller hswap
  refine wp_mono (sdRxBlock_spec hdepth _ hbuf s₁) (fun _ s₂ h₂ => ?_)
    fun _ _ he => hkeep.trans he
  obtain ⟨data, hlen, hwire₂, hmem₂⟩ := h₂
  have hstores : s.mem.StoresIn P s₂.mem := by
    rw [hmem₂, hmem₁]
    exact Mem.storesIn_write _ hbuf
  rw [wp_bind]
  refine wp_mono (crc_spec s₂) (fun _ s₃ h₃ => ?_) fun _ _ he => he.storesTo hstores
  obtain ⟨hmem₃, c, hwire₃, hcrc⟩ := h₃
  rw [Received.bytesAt hlen hmem₂] at hcrc
  rw [hmem₁, ← hmem₃] at hmem₂
  obtain ⟨hcopy, hdata, hbelow⟩ := copyOut_spec (s := s) hlast hcaller hmem₂
  rw [wp_modifyMem]
  -- the polls before the token were all `0xFF`
  have hgap : polls = List.replicate polls.length 0xFF :=
    List.eq_replicate_iff.mpr ⟨rfl, fun x hx => eq_of_beq (hpolls x hx)⟩
  refine ⟨⟨polls.length, data, c, hlen⟩, ?_, hcrc, ?_, hdata, hbelow⟩
  · have hwire := (hwire₁.trans hwire₂).trans hwire₃
    rw [not_not.mp htoken, hgap, ← p.handle.got_append, ← p.handle.got_append] at hwire
    exact hwire
  · rw [← hmem₃] at hstores
    exact hstores.trans hcopy

/-! ## All blocks of a read -/

/-- The caller's `len` bytes at `buf`, and the swap buffer. -/
def InBuf (buf : Int) (len : Nat) : SdObj → Int → Prop
  | .caller, x => buf ≤ x ∧ x < buf + len
  | .swap, x => 0 ≤ x ∧ x < 512

/-- The blocks of `p` are those that the `len` bytes for `buf` lie in. -/
structure SdRead.Covers (p : SdRead) (buf : Int) (len : Nat) : Prop where
  base_eq : p.base = buf - p.firstOffs
  firstOffs_lt : p.firstOffs < 512
  len_pos : 0 < p.len
  lastLen_le : p.lastLen ≤ 512
  end_eq : p.firstOffs + len = 512 * (p.len - 1) + p.lastLen

/-- What a block hands to the caller is inside the caller's buffer. -/
theorem SdRead.Covers.caller {buf : Int} {len : Nat} (hp : p.Covers buf len) (hb : b < p.len)
    (x : Int) (hx : p.blockDst b + p.lo b ≤ x) (hx' : x < p.blockDst b + p.hi b) :
    InBuf buf len .caller x := by
  obtain ⟨hbase, hfirst, hlen, hlast, hend⟩ := hp
  unfold blockDst at hx hx'
  unfold lo at hx
  unfold hi at hx'
  rw [hbase] at hx hx'
  constructor
  · split at hx
    · omega
    · omega
  · split at hx'
    · omega
    · omega

/-- The first `b` blocks have been read: what was received, and where it was stored. -/
def BlocksRead (p : SdRead) (buf : Int) (len : Nat) (s : SdSt) (b : Nat) (s' : SdSt) : Prop :=
  ∃ blks : List SdBlock, blks.length = b ∧
    Wire (p.handle.got (blks.flatMap SdBlock.wire)) s s' ∧
    (p.checkCrc → ∀ blk ∈ blks, blk.CrcOk) ∧ s.mem.StoresIn (InBuf buf len) s'.mem ∧
    ∀ k < len, p.firstOffs + k < 512 * b →
      s'.mem.get .caller (buf + k) = (blks.flatMap SdBlock.data).getD (p.firstOffs + k) 0

theorem length_flatMap_data (blks : List SdBlock) :
    (blks.flatMap SdBlock.data).length = 512 * blks.length := by
  induction blks with
  | nil => rfl
  | cons blk blks ih =>
    rw [List.flatMap_cons, List.length_append, ih, blk.length_data, List.length_cons]
    omega

theorem BlocksRead.block {buf : Int} {len : Nat} (hp : p.Covers buf len)
    {s s₁ s₂ : SdSt} (h₁ : BlocksRead p buf len s b s₁) {blk : SdBlock}
    (h₂ : BlockRead (InBuf buf len) p b blk s₁ s₂) : BlocksRead p buf len s (b + 1) s₂ := by
  obtain ⟨blks, hlen, hwire, hcrc, hstores, hdata⟩ := h₁
  have hflat := length_flatMap_data blks
  rw [hlen] at hflat
  refine ⟨blks ++ [blk], by simp [hlen], ?_, ?_, hstores.trans h₂.stores, ?_⟩
  · rw [List.flatMap_append, List.flatMap_cons, List.flatMap_nil, List.append_nil,
      p.handle.got_append]
    exact hwire.trans h₂.wire
  · intro hcheck blk' hmem
    rcases List.mem_append.mp hmem with hmem | hmem
    · exact hcrc hcheck blk' hmem
    · rw [List.mem_singleton.mp hmem]
      exact h₂.crc hcheck
  · intro k hk hkb
    rw [List.flatMap_append, List.flatMap_cons, List.flatMap_nil, List.append_nil]
    obtain ⟨hbase, hfirst, hpos, hlast, hend⟩ := hp
    have hdst : p.blockDst b = buf - p.firstOffs + 512 * b := by
      unfold SdRead.blockDst
      rw [hbase]
    by_cases hold : p.firstOffs + k < 512 * b
    · -- a byte of an earlier block
      rw [List.getD_append _ _ _ _ (by omega), ← hdata k hk hold]
      exact h₂.below _ (by omega)
    · -- a byte of this block: it lies in the part that was asked for
      have hlo : p.lo b ≤ p.firstOffs + k - 512 * b := by
        unfold SdRead.lo
        split
        · omega
        · omega
      have hhi : p.firstOffs + k - 512 * b < p.hi b := by
        unfold SdRead.hi
        split
        · omega
        · omega
      have hbyte := h₂.data _ hlo hhi
      rw [List.getD_append_right _ _ _ _ (by omega), hflat, ← hbyte]
      congr 1
      omega

theorem blocks_spec (hdepth : 0 < p.rxDepth) {buf : Int} {len : Nat} (hp : p.Covers buf len)
    (s : SdSt) :
    wp env (upTo p.len p.block) (fun _ => BlocksRead p buf len s p.len)
      (StoresTo (InBuf buf len) s) s := by
  have hstart : BlocksRead p buf len s 0 s :=
    ⟨[], rfl, wire_refl s, fun _ _ hmem => absurd hmem List.not_mem_nil, Mem.storesIn_refl _ _,
      fun k _ hk => absurd hk (by omega)⟩
  refine wp_upTo (BlocksRead p buf len s) (fun b hb s' h' => ?_) hstart
  have hstores : s.mem.StoresIn (InBuf buf len) s'.mem := by
    obtain ⟨blks, -, -, -, hstores, -⟩ := h'
    exact hstores
  refine wp_mono (SdRead.block_spec hdepth hp.lastLen_le (hp.caller hb)
    (fun x hx hx' => ⟨hx, hx'⟩) s') (fun _ s'' h'' => ?_) fun _ _ he => hstores.trans he
  obtain ⟨blk, hblk⟩ := h''
  exact h'.block hp hblk

/-! ## A read -/

/-- A transfer, as the driver takes it apart. -/
structure SdTransfer where
  /-- The bytes polled before the response. -/
  polls : List Byte
  response : Byte
  blocks : List SdBlock
  /-- What comes behind CMD12. -/
  rest : List Byte

/-- What the card sends behind the read command, up to the end of the last block. -/
def SdTransfer.bytes (t : SdTransfer) : List Byte :=
  t.polls ++ [t.response] ++ t.blocks.flatMap SdBlock.wire

/-- The contents of the blocks, one after the other. -/
def SdTransfer.data (t : SdTransfer) : List Byte := t.blocks.flatMap SdBlock.data

/-- CMD17 for one block or CMD18 for more, and the number of the first. -/
def readHead (block : BitVec 32) (n : Nat) : List Byte :=
  (if n > 1 then 0x52 else 0x51) :: beBytes32 block

/-- The frame of a read, with its checksum. -/
def readFrame (block : BitVec 32) (n : Nat) : List Byte :=
  readHead block n ++ [(sdCrc7 (readHead block n) <<< 1) ||| 1]

/-- CMD12 ends a transfer of more than one block; then the chip select is released. -/
def finishEvents (h : SdHandle) (n : Nat) (rest : List Byte) : List SdEvent :=
  (if n > 1 then .sent h.csid [0x4C, 0, 0, 0, 0, 0x61] :: h.got rest else []) ++ h.freed

/-- A transfer on the bus, from the command to the release of the chip select. -/
def SdTransfer.events (h : SdHandle) (block : BitVec 32) (n : Nat) (t : SdTransfer) :
    List SdEvent :=
  .sent h.csid (readFrame block n) :: h.got t.bytes ++ finishEvents h n t.rest

/-- `n` blocks from number `block` on have been transferred, as `t`. -/
structure Transferred (h : SdHandle) (checkCrc : Bool) (block : BitVec 32) (n : Nat) (s s' : SdSt)
    (t : SdTransfer) : Prop where
  wire : Wire (t.events h block n) s s'
  polls : ∀ x ∈ t.polls, x.msb
  response : t.response.msb = false
  blocks : t.blocks.length = n
  crc : checkCrc → ∀ blk ∈ t.blocks, blk.CrcOk

theorem sdFinish_spec (junk : SdJunk) (n : Nat) (s : SdSt) :
    wp env (sdFinish h junk n)
      (fun _ s' => s'.mem = s.mem ∧ ∃ rest, Wire (finishEvents h n rest) s s')
      (KeepsMem s) s := by
  unfold sdFinish finishEvents
  rw [wp_ite]
  split
  · refine wp_mono (sdCmdCheck_spec _ _ _ s) (fun _ s' h' => ?_) fun _ _ he => he
    obtain ⟨hmem, _, _, _, _, hwire, -⟩ := h'
    exact ⟨hmem, _, hwire⟩
  · refine wp_mono (sdCsfree_spec s) (fun _ s' h' => ?_) fun _ _ he => he
    exact ⟨h'.1, [], h'.2⟩

/-- A command that is not CMD12 is not taken for it. -/
theorem sdBuildCmd_ne {opcode : Byte} (hop : opcode ≠ 0x4C) (arg : BitVec 32) :
    sdBuildCmd opcode arg &&& 0xFF ≠ 0x4C := by
  intro heq
  have hbyte : byteOf (sdBuildCmd opcode arg) 0 = opcode :=
    (List.cons.inj (sdBuildCmd_bytes opcode arg)).1
  have hlow := congrArg (BitVec.setWidth 8) heq
  rw [BitVec.setWidth_and] at hlow
  have hop' : opcode &&& 0xFF = 0x4C := by
    rw [← hbyte]
    exact hlow
  exact hop ((BitVec.and_allOnes (x := opcode)).symm.trans hop')

/-- The blocks of a read cover what the caller asked for. -/
theorem covers_read (h : SdHandle) (rxDepth : Nat) (buf : Int) (addr : Nat) {len : Nat}
    (hlen : 0 < len) (checkCrc : Bool) :
    SdRead.Covers ⟨h, rxDepth, buf - (addr % 512 : Nat), (len + addr % 512 + 511) / 512, addr % 512,
      if (addr + len) % 512 = 0 then 512 else (addr + len) % 512, checkCrc⟩ buf len := by
  have hmod := Nat.mod_lt addr (show 0 < 512 by omega)
  refine ⟨rfl, hmod, ?_, ?_, ?_⟩
  · dsimp only
    omega
  · dsimp only
    split
    · omega
    · omega
  · dsimp only
    split
    · omega
    · omega

theorem sdReadBlocks_spec {rxDepth : Nat} (hdepth : 0 < rxDepth) (junk : SdJunk) (buf : Int)
    (block : Nat) {n firstOffs lastLen len : Nat} {checkCrc : Bool}
    (hp : SdRead.Covers ⟨h, rxDepth, buf - firstOffs, n, firstOffs, lastLen, checkCrc⟩ buf len)
    (s : SdSt) :
    wp env (sdReadBlocks h rxDepth junk buf block n firstOffs lastLen checkCrc)
      (fun _ s' => s.mem.StoresIn (InBuf buf len) s'.mem ∧
        ∃ t, Transferred h checkCrc (BitVec.ofNat 32 block) n s s' t ∧
          ∀ k < len, s'.mem.get .caller (buf + k) = t.data.getD (firstOffs + k) 0)
      (StoresTo (InBuf buf len) s) s := by
  have hop : (if n > 1 then (0x52 : Byte) else 0x51) ≠ 0x4C := by
    split
    · decide
    · decide
  unfold sdReadBlocks
  rw [if_neg (Nat.pos_iff_ne_zero.mp hp.len_pos)]
  dsimp only
  rw [wp_bind]
  refine wp_mono (sdCmd_spec _ .r1 true s) (fun _ s₁ h₁ => ?_)
    fun _ _ he => Mem.StoresIn.of_eq he
  obtain ⟨hmem₁, stuff, polls, r, rest₁, hwire₁, hpolls, hr, hstuff, hrest₁⟩ := h₁
  rw [hstuff (sdBuildCmd_ne hop _), hrest₁ rfl, List.nil_append, List.append_nil,
    sdBuildCmd_bytes, if_pos rfl, List.append_nil] at hwire₁
  rw [wp_bind]
  refine wp_mono (blocks_spec hdepth hp s₁) (fun _ s₂ h₂ => ?_)
    fun _ _ he => (Mem.StoresIn.of_eq hmem₁).trans he
  obtain ⟨blks, hlen₂, hwire₂, hcrc, hstores, hdata⟩ := h₂
  rw [hmem₁] at hstores
  refine wp_mono (sdFinish_spec junk n s₂) (fun _ s₃ h₃ => ?_)
    fun _ _ he => he.storesTo hstores
  obtain ⟨hmem₃, rest, hwire₃⟩ := h₃
  rw [← hmem₃] at hstores hdata
  have hwire : Wire (SdTransfer.events h (BitVec.ofNat 32 block) n ⟨polls, r, blks, rest⟩)
      s s₃ := by
    unfold SdTransfer.events SdTransfer.bytes
    rw [h.got_append]
    exact (hwire₁.trans hwire₂).trans hwire₃
  refine ⟨hstores, ⟨polls, r, blks, rest⟩, ⟨hwire, hpolls, hr, hlen₂, hcrc⟩, fun k hk => ?_⟩
  refine hdata k hk ?_
  -- all `len` bytes end in the last block
  have hlast := hp.lastLen_le
  have hpos := hp.len_pos
  have hend := hp.end_eq
  dsimp only at hlast hpos hend ⊢
  omega

/-- What a caller of `spi_sdcard_read_checkcrc` gets with a return value of 0. -/
structure SdReadExact (h : SdHandle) (buf : Int) (addr len : Nat) (s s' : SdSt)
    (t : SdTransfer) : Prop where
  block : ∃ block, block.toNat = addr / 512 ∧
    Transferred h true block ((addr % 512 + len + 511) / 512) s s' t
  data : ∀ k < len, s'.mem.get .caller (buf + k) = t.data.getD (addr % 512 + k) 0

theorem sdReadCheckcrc_spec {rxDepth : Nat} (hdepth : 0 < rxDepth) (junk : SdJunk) (buf : Int)
    {addr len : Nat} (hrange : addr + len ≤ 2 ^ 41) (s : SdSt) :
    wp env (sdReadCheckcrc h rxDepth junk buf addr len)
      (fun _ s' => s.mem.StoresIn (InBuf buf len) s'.mem ∧
        (0 < len → ∃ t, SdReadExact h buf addr len s s' t))
      (StoresTo (InBuf buf len) s) s := by
  unfold sdReadCheckcrc sdRead
  rw [wp_ite]
  by_cases hlen : len = 0
  · rw [if_pos hlen]
    exact ⟨Mem.storesIn_refl _ _, fun hpos => absurd hlen (by omega)⟩
  · rw [if_neg hlen]
    have hcovers := covers_read h rxDepth buf addr (Nat.pos_of_ne_zero hlen) true
    refine wp_mono (sdReadBlocks_spec hdepth junk buf (addr / 512) hcovers s) (fun _ s' h' => ?_)
      fun _ _ he => he
    obtain ⟨hstores, t, ht, hdata⟩ := h'
    have hblock : (BitVec.ofNat 32 (addr / 512)).toNat = addr / 512 := by
      rw [BitVec.toNat_ofNat]
      omega
    rw [Nat.add_comm len (addr % 512)] at ht
    exact ⟨hstores, fun _ => ⟨t, ⟨_, hblock, ht⟩, hdata⟩⟩

/-- A read that returns 0 is exact and its CRCs are right, whatever the card sends; and
however a read ends, it has stored only to the caller's range and its swap buffer. -/
theorem sdReadCheckcrc_exact (env : Env SpiCall) (h : SdHandle) {rxDepth : Nat}
    (hdepth : 0 < rxDepth) (junk : SdJunk) (buf : Int) {addr len : Nat}
    (hrange : addr + len ≤ 2 ^ 41) {s s' : SdSt} {r : Except Stop Unit}
    (hrun : sdReadCheckcrc h rxDepth junk buf addr len env s = (r, s')) :
    (r = .ok () → 0 < len → ∃ t, SdReadExact h buf addr len s s' t) ∧
      s.mem.StoresIn (InBuf buf len) s'.mem := by
  have hspec : wp env (sdReadCheckcrc h rxDepth junk buf addr len) _ _ s :=
    sdReadCheckcrc_spec hdepth junk buf hrange s
  cases r with
  | ok =>
    obtain ⟨hstores, hexact⟩ := wp_ok hspec hrun
    exact ⟨fun _ => hexact, hstores⟩
  | error e =>
    exact ⟨fun hok => (nomatch hok), wp_error hspec hrun⟩

/-- A card that answers at once and whose blocks are all zero. -/
def zeroCard : Env SpiCall := fun t _ =>
  ⟨0, fun _ => if (rxBytes t).length = 1 then 0xFE else 0⟩

def sdStart : SdSt := ⟨[], ⟨fun _ _ => 0, [], []⟩⟩

/-- 100 bytes out of the middle of block 1. -/
theorem sdReadCheckcrc_exact_zeroCard : ∃ t, SdReadExact ⟨0, 1⟩ 0 600 100 sdStart
    (sdReadCheckcrc ⟨0, 1⟩ 64 ⟨0, 0⟩ 0 600 100 zeroCard sdStart).2 t := by
  have hrun : (sdReadCheckcrc ⟨0, 1⟩ 64 ⟨0, 0⟩ 0 600 100 zeroCard sdStart).1 = .ok () := by
    decide +kernel
  exact (sdReadCheckcrc_exact zeroCard ⟨0, 1⟩ (by omega) ⟨0, 0⟩ 0 (by omega) (run_eq hrun)).1
    rfl (by omega)

end Cheshire.Sw
