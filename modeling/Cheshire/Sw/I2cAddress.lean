import Mathlib.Data.Nat.Bitwise
import Cheshire.Sw.I2c

/-!
# Which device and block a chunk addresses

The control byte of a 24FC1025 is `1010 B A1 A0 R/W`, with bit 16 of the address for the
block and bits 18 and 17 for the chip. The driver masks bit 16 and shifts it by one, and
masks bits 20 and 24 and shifts them by four: what it selects is at bits 15, 16 and 20 of
a word that is passed on as a `uint8_t`. So the control byte is `0xA0` for every address
(`ctrl_byte_eq`), and addresses that differ by a multiple of 2^16 are one to the device.
-/

namespace Cheshire.Sw

open Firmware Firmware.Prog

variable {env : Env I2cCall}

/-! ## What a chunk queues -/

/-- The format bytes queued by the calls that succeeded, in order. -/
def queued : I2cTrace → List (Byte × I2cFmt)
  | [] => []
  | (.writeByte v fmt _, r) :: t => if r.ret = 0 then queued t ++ [(v, fmt)] else queued t
  | _ :: t => queued t

theorem queued_control {q : I2cCall} (hq : q.control) (r : Reply) (t : I2cTrace) :
    queued ((q, r) :: t) = queued t := by
  cases q with
  | getFifoLevels | spinTicks | hostSetEnabled => rfl
  | writeByte | readByte => cases hq

/-- The format bytes of the address phase: the control byte and the address. -/
def addressPhase (write : Bool) (addr : Nat) : List (Byte × I2cFmt) :=
  [(BitVec.ofNat 8 (ctrlWaddr addr), .start), (BitVec.ofNat 8 ((addr >>> 8) &&& 0xFF), .tx),
    (BitVec.ofNat 8 (addr &&& 0xFF), if write then .tx else .txStop)]

/-- A chunk starts with the address; a read goes on with the control byte for reading. -/
def chunkHead (write : Bool) (addr : Nat) : List (Byte × I2cFmt) :=
  addressPhase write addr ++
    if write then [] else [(BitVec.ofNat 8 (ctrlWaddr addr ||| 1), .start)]

/-- The head of a write has no stop condition. -/
theorem chunkHead_tx (addr : Nat) : ∀ x ∈ chunkHead true addr, x.2 ≠ .txStop := by
  intro x hx
  rcases List.mem_cons.mp hx with rfl | hx
  · exact I2cFmt.noConfusion
  rcases List.mem_cons.mp hx with rfl | hx
  · exact I2cFmt.noConfusion
  · rw [List.mem_singleton.mp hx]
    exact I2cFmt.noConfusion

/-- From `s` to `s'` these bytes were queued. -/
def Queued (l : List (Byte × I2cFmt)) (s s' : I2cSt) : Prop :=
  queued s'.calls = queued s.calls ++ l

theorem queued_refl (s : I2cSt) : Queued [] s s := (List.append_nil _).symm

theorem Queued.trans {l l' : List (Byte × I2cFmt)} {s s' s'' : I2cSt} (h : Queued l s s')
    (h' : Queued l' s' s'') : Queued (l ++ l') s s'' := by
  unfold Queued at h h' ⊢
  rw [h', h, List.append_assoc]

theorem queued_check {q : I2cCall} (hq : q.control) {y : I2cProg} {R : I2cSt → Prop} {s : I2cSt}
    (hy : ∀ s', Queued [] s s' → partially env y R s') :
    partially env (do let _ ← check q; y) R s := by
  unfold partially
  rw [wp_bind, wp_check]
  refine ⟨fun _ => hy _ ?_, fun _ => trivial⟩
  show queued ((q, _) :: s.calls) = _
  rw [queued_control hq, List.append_nil]

theorem waitVacated_queued : ∀ (polls : Nat) (s : I2cSt),
    partially env (waitVacated polls) (Queued [] s) s := by
  intro polls
  induction polls with
  | zero =>
    intro s
    exact trivial
  | succ polls ih =>
    intro s
    unfold partially waitVacated
    rw [wp_bind, wp_check]
    refine ⟨fun _ => ?_, fun _ => trivial⟩
    rw [wp_ite]
    split
    · exact (List.append_nil _).symm
    · exact ih _

theorem waitReceived_queued (len : Nat) : ∀ (polls : Nat) (s : I2cSt),
    partially env (waitReceived len polls) (Queued [] s) s := by
  intro polls
  induction polls with
  | zero =>
    intro s
    exact trivial
  | succ polls ih =>
    intro s
    unfold partially waitReceived
    rw [wp_bind, wp_check]
    refine ⟨fun _ => ?_, fun _ => trivial⟩
    rw [wp_ite]
    split
    · exact ih _
    · exact (List.append_nil _).symm

theorem i2cWriteByte_queued (v : Nat) (fmt : I2cFmt) (nak : Bool) (s : I2cSt) :
    partially env (i2cWriteByte v fmt nak)
      (fun s' => s'.mem = s.mem ∧ Queued [(BitVec.ofNat 8 v, fmt)] s s') s := by
  unfold partially i2cWriteByte
  rw [wp_bind, wp_check]
  exact ⟨fun hret => ⟨rfl, if_pos hret⟩, fun _ => trivial⟩

theorem i2cSendAddr_queued (addr : Nat) (write : Bool) (s : I2cSt) :
    partially env (i2cSendAddr addr write)
      (fun s' => s'.mem = s.mem ∧ Queued (addressPhase write addr) s s') s := by
  unfold i2cSendAddr
  refine partially_bind _ (i2cWriteByte_queued _ _ _ s) fun s₁ h₁ => ?_
  refine partially_bind _ (i2cWriteByte_queued _ _ _ s₁) fun s₂ h₂ => ?_
  refine wp_mono (i2cWriteByte_queued _ _ _ s₂) (fun _ s₃ h₃ => ?_) fun _ _ he => he
  exact ⟨h₃.1.trans (h₂.1.trans h₁.1), (h₁.2.trans h₂.2).trans h₃.2⟩

theorem i2cSendData_queued (p : Int) (s : I2cSt) :
    partially env (i2cSendData p)
      (fun s' => s'.mem = s.mem.look () p ∧ Queued [(s.mem.get () p, .tx)] s s') s := by
  unfold partially i2cSendData
  rw [wp_bind, wp_getMem, wp_bind, wp_modifyMem]
  refine wp_mono (i2cWriteByte_queued _ _ _ _) (fun _ s' h' => ?_) fun _ _ he => he
  obtain ⟨hmem, hq⟩ := h'
  rw [BitVec.ofNat_toNat, BitVec.setWidth_eq] at hq
  exact ⟨hmem, hq⟩

theorem i2cReadByte_queued (p : Int) (s : I2cSt) :
    partially env (i2cReadByte p) (Queued [] s) s := by
  unfold partially i2cReadByte
  rw [wp_bind, wp_check]
  exact ⟨fun _ => (List.append_nil _).symm, fun _ => trivial⟩

theorem i2cReadChunk_queued (polls : Nat) (buf : Int) (addr len : Nat) (s : I2cSt) :
    partially env (i2cReadChunk polls buf addr len)
      (Queued [(BitVec.ofNat 8 (ctrlWaddr addr ||| 1), .start), (BitVec.ofNat 8 len, .rx)] s)
      s := by
  unfold i2cReadChunk
  refine partially_bind _ (i2cWriteByte_queued _ _ _ s) fun s₁ h₁ => ?_
  refine partially_bind _ (i2cWriteByte_queued _ _ _ s₁) fun s₂ h₂ => ?_
  refine queued_check rfl fun s₃ h₃ => ?_
  refine partially_bind _ (waitReceived_queued len polls s₃) fun s₄ h₄ => ?_
  refine wp_upTo (fun _ => Queued _ s) (fun b _ s' h' => ?_)
    (((h₁.2.trans h₂.2).trans h₃).trans h₄)
  refine wp_mono (i2cReadByte_queued _ s') (fun _ s'' h'' => ?_) fun _ _ he => he
  have hq := h'.trans h''
  rwa [List.append_nil] at hq

/-- The data of a write goes out byte by byte. -/
theorem i2cSendBytes_queued (buf : Int) (n : Nat) (s : I2cSt) :
    partially env (upTo n fun b => i2cSendData (buf + b))
      (fun s' => ∃ l, Queued l s s' ∧ ∀ x ∈ l, x.2 = .tx) s := by
  refine wp_upTo (fun _ s' => ∃ l, Queued l s s' ∧ ∀ x ∈ l, x.2 = I2cFmt.tx) ?_
    ⟨[], queued_refl s, fun _ hx => absurd hx List.not_mem_nil⟩
  rintro b - s' ⟨l, hq, hl⟩
  refine wp_mono (i2cSendData_queued _ s') (fun _ s'' h'' => ?_) fun _ _ he => he
  refine ⟨_, hq.trans h''.2, fun x hx => ?_⟩
  rcases List.mem_append.mp hx with hx | hx
  · exact hl x hx
  · rw [List.mem_singleton.mp hx]

/-- A chunk queues its head first, and no write ends with a stop condition. -/
theorem i2cAccessChunk_queued (polls : Nat) (write : Bool) : ∀ (rounds : Nat) (buf : Int)
    (addr len : Nat) (s : I2cSt),
    partially env (i2cAccessChunk polls write rounds buf addr len)
      (fun s' => ∃ rest, Queued (chunkHead write addr ++ rest) s s' ∧
        (write → ∀ x ∈ rest, x.2 ≠ .txStop)) s := by
  intro rounds
  induction rounds with
  | zero =>
    intro buf addr len s
    exact trivial
  | succ rounds ih =>
    intro buf addr len s
    unfold i2cAccessChunk
    refine partially_bind _ (waitVacated_queued polls s) fun s₁ h₁ => ?_
    unfold partially
    rw [wp_bind, wp_ask]
    refine queued_check rfl fun s₂ h₂ => ?_
    refine partially_bind _ (i2cSendAddr_queued addr write s₂) fun s₃ h₃ => ?_
    have hspin : Queued [] s₁ s₂ := h₂
    have hhead : Queued (addressPhase write addr) s s₃ := (h₁.trans hspin).trans h₃.2
    unfold partially
    rw [wp_ite]
    cases write with
    | false =>
      rw [if_neg Bool.false_ne_true]
      refine wp_mono (i2cReadChunk_queued polls buf addr len s₃) (fun _ s₄ h₄ => ?_)
        fun _ _ he => he
      refine ⟨[(BitVec.ofNat 8 len, .rx)], ?_, fun hw => Bool.noConfusion hw⟩
      exact hhead.trans h₄
    | true =>
      rw [if_pos rfl]
      dsimp only
      refine partially_bind _ (i2cSendBytes_queued buf _ s₃) fun s₄ h₄ => ?_
      refine partially_bind _ (i2cSendData_queued _ s₄) fun s₅ h₅ => ?_
      refine queued_check rfl fun s₆ h₆ => ?_
      obtain ⟨l, hq₄, hl⟩ := h₄
      have hq := ((hhead.trans hq₄).trans h₅.2).trans h₆
      rw [List.append_nil, List.append_assoc] at hq
      have hdata : ∀ x ∈ l ++ [(s₄.mem.get () (buf + len - 1), I2cFmt.tx)], x.2 ≠ .txStop := by
        intro x hx
        rcases List.mem_append.mp hx with hx | hx
        · rw [hl x hx]
          exact I2cFmt.noConfusion
        · rw [List.mem_singleton.mp hx]
          exact I2cFmt.noConfusion
      unfold partially
      rw [wp_ite]
      split
      · -- the recursive call starts with a head of its own
        refine wp_mono (ih _ _ _ s₆) (fun _ s₇ h₇ => ?_) fun _ _ he => he
        obtain ⟨rest, hq₇, hrest⟩ := h₇
        have hq' := hq.trans hq₇
        rw [List.append_assoc] at hq'
        refine ⟨_, hq', fun hw x hx => ?_⟩
        rcases List.mem_append.mp hx with hx | hx
        · exact hdata x hx
        rcases List.mem_append.mp hx with hx | hx
        · exact chunkHead_tx _ x hx
        · exact hrest hw x hx
      · exact ⟨_, hq, fun _ => hdata⟩

/-! ## The control byte -/

/-- What is selected lies above the eight bits that are sent. -/
theorem testBit_ctrlWaddr (addr : Nat) {i : Nat} (hi : i < 8) :
    (ctrlWaddr addr).testBit i = (0xA0).testBit i := by
  have hblock : ∀ i < 8, (0x10000).testBit (1 + i) = false := by decide
  have hchip : ∀ i < 8, (0x1100000).testBit (4 + i) = false := by decide
  unfold ctrlWaddr
  rw [Nat.testBit_or, Nat.testBit_or, Nat.testBit_shiftRight, Nat.testBit_shiftRight,
    Nat.testBit_and, Nat.testBit_and, hblock i hi, hchip i hi, Bool.and_false, Bool.and_false,
    Bool.or_false, Bool.or_false]

/-- The control byte for writing, and for the address of a read. -/
theorem ctrl_byte_eq (addr : Nat) : BitVec.ofNat 8 (ctrlWaddr addr) = 0xA0 := by
  apply BitVec.eq_of_getLsbD_eq
  intro i hi
  show (BitVec.ofNat 8 _).getLsbD i = (BitVec.ofNat 8 0xA0).getLsbD i
  rw [BitVec.getLsbD_ofNat, BitVec.getLsbD_ofNat, testBit_ctrlWaddr addr hi]

/-- The control byte for reading is `0xA1` for every address, since the block bits are cut off. -/
theorem ctrl_byte_read_eq (addr : Nat) : BitVec.ofNat 8 (ctrlWaddr addr ||| 1) = 0xA1 := by
  apply BitVec.eq_of_getLsbD_eq
  intro i hi
  show (BitVec.ofNat 8 _).getLsbD i = (BitVec.ofNat 8 (0xA0 ||| 1)).getLsbD i
  rw [BitVec.getLsbD_ofNat, BitVec.getLsbD_ofNat, Nat.testBit_or, Nat.testBit_or,
    testBit_ctrlWaddr addr hi]

/-- The control byte `1010 B A1 A0 R/W` selects the block and the chip of the address. -/
structure Selects (addr : Nat) (ctrl : Byte) (read : Bool) : Prop where
  device : ctrl.extractLsb' 4 4 = 0b1010#4
  block : ctrl.getLsbD 3 = addr.testBit 16
  chip : ctrl.getLsbD 2 = addr.testBit 18 ∧ ctrl.getLsbD 1 = addr.testBit 17
  direction : ctrl.getLsbD 0 = read

theorem high_bits_iff {addr : Nat} (haddr : addr < 2 ^ 19) :
    (addr.testBit 16 = false ∧ addr.testBit 17 = false ∧ addr.testBit 18 = false) ↔
      addr < blockSize := by
  constructor
  · rintro ⟨h16, h17, h18⟩
    refine Nat.lt_pow_two_of_testBit addr (n := 16) fun i hi => ?_
    rcases Nat.lt_or_ge i 19 with hlt | hge
    · rcases show i = 16 ∨ i = 17 ∨ i = 18 by omega with rfl | rfl | rfl
      · exact h16
      · exact h17
      · exact h18
    · exact Nat.testBit_lt_two_pow (Nat.lt_of_lt_of_le haddr (Nat.pow_le_pow_right (by omega) hge))
  · intro hlt
    have hbit : ∀ i, 16 ≤ i → addr.testBit i = false := by
      intro i hi
      have hpow : 2 ^ 16 ≤ 2 ^ i := Nat.pow_le_pow_right (by omega) hi
      exact Nat.testBit_lt_two_pow (Nat.lt_of_lt_of_le hlt hpow)
    exact ⟨hbit 16 (by omega), hbit 17 (by omega), hbit 18 (by omega)⟩

/-- The byte that is sent selects the first block of the first device. -/
theorem selects_iff {addr : Nat} (haddr : addr < 2 ^ 19) :
    Selects addr 0xA0 false ↔ addr < blockSize := by
  rw [← high_bits_iff haddr]
  constructor
  · rintro ⟨-, hblock, ⟨hchip₁, hchip₀⟩, -⟩
    exact ⟨hblock.symm, hchip₀.symm, hchip₁.symm⟩
  · rintro ⟨hblock, hchip₀, hchip₁⟩
    exact ⟨rfl, hblock.symm, ⟨hchip₁.symm, hchip₀.symm⟩, rfl⟩

theorem selects_read {addr : Nat} (h : Selects addr 0xA0 false) : Selects addr 0xA1 true :=
  ⟨rfl, h.block, h.chip, rfl⟩

/-! ## Addresses on the bus -/

/-- A chunk at `addr` that returns 0 may queue these bytes. -/
def ChunkQueues (write : Bool) (addr : Nat) (l : List (Byte × I2cFmt)) : Prop :=
  ∃ env polls rounds buf len s s', 0 < len ∧
    i2cAccessChunk polls write rounds buf addr len env s = (.ok (), s') ∧ Queued l s s'

theorem ChunkQueues.head {write : Bool} {addr : Nat} {l : List (Byte × I2cFmt)}
    (h : ChunkQueues write addr l) : ∃ rest, l = chunkHead write addr ++ rest := by
  obtain ⟨env, polls, rounds, buf, len, s, s', -, hrun, hq⟩ := h
  obtain ⟨rest, hq', -⟩ := wp_ok (i2cAccessChunk_queued polls write rounds buf addr len s) hrun
  exact ⟨rest, List.append_cancel_left (hq.symm.trans hq')⟩

/-- An interface that accepts every call, and has received a byte as soon as one is asked
for. -/
def acceptingDif : Env I2cCall := fun t q =>
  match q with
  | .getFifoLevels => ⟨0, fun i => if i = 1 ∧ (queued t).any (·.2 == .rx) then 1 else 0⟩
  | _ => ⟨0, fun _ => 0⟩

/-- Every address can be accessed. -/
theorem exists_chunkQueues (write : Bool) (addr : Nat) : ∃ l, ChunkQueues write addr l := by
  have hrun : (i2cAccessChunk 1 write 1 0 addr 1 acceptingDif i2cStart).1 = .ok () := by
    cases write with
    | false => rfl
    | true => rfl
  exact ⟨_, acceptingDif, 1, 1, 0, 1, i2cStart, _, Nat.one_pos, run_eq hrun,
    (List.nil_append _).symm⟩

/-- The bytes of the address phase of a chunk: control byte, high and low address byte. -/
def sentAddress (l : List (Byte × I2cFmt)) : List Byte := (l.take 3).map Prod.fst

/-- Chunks at different addresses are different on the bus, whether they read or write. -/
def Distinguished (a b : Nat) : Prop :=
  a ≠ b → ∀ write write' l l', ChunkQueues write a l → ChunkQueues write' b l' →
    sentAddress l ≠ sentAddress l'

/-- The control bytes of a chunk select block and chip. -/
structure AddressSound (addr : Nat) : Prop where
  waddr : ∀ write l, ChunkQueues write addr l →
    ∃ ctrl, l[0]? = some (ctrl, .start) ∧ Selects addr ctrl false
  raddr : ∀ l, ChunkQueues false addr l →
    ∃ ctrl, l[3]? = some (ctrl, .start) ∧ Selects addr ctrl true

theorem ChunkQueues.sent {write : Bool} {addr : Nat} {l : List (Byte × I2cFmt)}
    (h : ChunkQueues write addr l) : sentAddress l =
      [0xA0, BitVec.ofNat 8 ((addr >>> 8) &&& 0xFF), BitVec.ofNat 8 (addr &&& 0xFF)] := by
  obtain ⟨rest, rfl⟩ := h.head
  rw [← ctrl_byte_eq addr]
  rfl

/-- The two address bytes are those of the address in its block. -/
theorem addr_bytes_mod (addr : Nat) :
    (addr >>> 8) &&& 0xFF = ((addr % blockSize) >>> 8) &&& 0xFF ∧
      addr &&& 0xFF = (addr % blockSize) &&& 0xFF := by
  have hmask : ∀ n, n &&& 0xFF = n % 256 := fun n => Nat.and_two_pow_sub_one_eq_mod n 8
  unfold blockSize
  rw [hmask, hmask, hmask, hmask, Nat.shiftRight_eq_div_pow, Nat.shiftRight_eq_div_pow]
  omega

theorem sent_inj {a b : Nat} (ha : a < blockSize) (hb : b < blockSize)
    (hhi : BitVec.ofNat 8 ((a >>> 8) &&& 0xFF) = BitVec.ofNat 8 ((b >>> 8) &&& 0xFF))
    (hlo : BitVec.ofNat 8 (a &&& 0xFF) = BitVec.ofNat 8 (b &&& 0xFF)) : a = b := by
  rw [← addr_bytes ha, ← addr_bytes hb, hhi, hlo]

/-- Only the low 16 bits of an address are told apart. -/
theorem distinguished_iff (a b : Nat) :
    Distinguished a b ↔ (a ≠ b → a % blockSize ≠ b % blockSize) := by
  have hlt : ∀ n, n % blockSize < blockSize := fun n => Nat.mod_lt n (by unfold blockSize; omega)
  obtain ⟨hahi, halo⟩ := addr_bytes_mod a
  obtain ⟨hbhi, hblo⟩ := addr_bytes_mod b
  constructor
  · intro h hne heq
    obtain ⟨l, hl⟩ := exists_chunkQueues true a
    obtain ⟨l', hl'⟩ := exists_chunkQueues true b
    refine h hne true true l l' hl hl' ?_
    rw [hl.sent, hl'.sent, hahi, halo, hbhi, hblo, heq]
  · intro h hne write write' l l' hl hl' heq
    rw [hl.sent, hl'.sent, hahi, halo, hbhi, hblo] at heq
    obtain ⟨-, heq⟩ := List.cons.inj heq
    obtain ⟨hhi, heq⟩ := List.cons.inj heq
    exact h hne (sent_inj (hlt a) (hlt b) hhi (List.cons.inj heq).1)

/-- The control bytes are right in the first block of the first device. -/
theorem addressSound_iff {addr : Nat} (haddr : addr < 2 ^ 19) :
    AddressSound addr ↔ addr < blockSize := by
  rw [← selects_iff haddr]
  constructor
  · rintro ⟨hwaddr, -⟩
    obtain ⟨l, hl⟩ := exists_chunkQueues true addr
    obtain ⟨ctrl, hctrl, hsel⟩ := hwaddr true l hl
    obtain ⟨rest, rfl⟩ := hl.head
    obtain ⟨rfl, -⟩ := Prod.mk.inj (Option.some.inj hctrl)
    rwa [ctrl_byte_eq] at hsel
  · intro hsel
    refine ⟨fun write l hl => ?_, fun l hl => ?_⟩
    · obtain ⟨rest, rfl⟩ := hl.head
      refine ⟨_, rfl, ?_⟩
      rwa [ctrl_byte_eq]
    · obtain ⟨rest, rfl⟩ := hl.head
      refine ⟨_, rfl, ?_⟩
      rw [ctrl_byte_read_eq]
      exact selects_read hsel

/-- Two addresses are told apart, and their control bytes select what they should, exactly
in the first block of the first device. -/
theorem i2cAddressing_iff {a b : Nat} (ha : a < 2 ^ 19) (hb : b < 2 ^ 19) :
    (Distinguished a b ∧ AddressSound a ∧ AddressSound b) ↔ a < blockSize ∧ b < blockSize := by
  rw [distinguished_iff, addressSound_iff ha, addressSound_iff hb]
  constructor
  · rintro ⟨-, hin⟩
    exact hin
  · rintro ⟨hina, hinb⟩
    refine ⟨fun hne => ?_, hina, hinb⟩
    rwa [Nat.mod_eq_of_lt hina, Nat.mod_eq_of_lt hinb]

/-- The last byte of the first block and the first byte of the device. -/
theorem i2cAddressing_first_block :
    Distinguished 0 0xFFFF ∧ AddressSound 0 ∧ AddressSound 0xFFFF :=
  (i2cAddressing_iff (by omega) (by omega)).mpr ⟨by decide, by decide⟩

/-- The first byte of the second block is addressed as byte 0 of the first, so the addresses are
not distinguished. -/
theorem i2cAddressing_second_block : ¬Distinguished 0 0x10000 ∧ ¬AddressSound 0x10000 := by
  constructor
  · rw [distinguished_iff]
    intro h
    exact h (by omega) rfl
  · rw [addressSound_iff (by omega)]
    exact Nat.lt_irrefl blockSize

end Cheshire.Sw
