import Cheshire.Sim.Slink

/-!
# Register accesses over the serial link

`slink_write_32` shifts its word into the lanes of the address and
`slink_poll_bit0` shifts a bus word back. The write shifts by bits, eight for each
lane; the poll shifts by lanes. So a write works at any address of a word, a poll
only where a bus word starts: in the upper half of one it gets a nibble of the word it
looks for, and below it 28 bits of the word in front (`slinkPollData_upper`).
-/

namespace Cheshire.Sim

open Span (Byte)
open Firmware (le32 le64 le32_bytes le32_congr)

/-! ## Words in a memory of bytes -/

def loadWord (m : Nat → Byte) (a : Nat) : BitVec 32 := le32 m a

def storeWord (m : Nat → Byte) (a : Nat) (v : BitVec 32) : Nat → Byte :=
  fun x => if a ≤ x ∧ x < a + 4 then v.extractLsb' (8 * (x - a)) 8 else m x

@[simp] theorem loadWord_storeWord (m : Nat → Byte) (a : Nat) (v : BitVec 32) :
    loadWord (storeWord m a v) a = v := by
  have hshift : le32 (storeWord m a v) a = le32 (fun j => v.extractLsb' (8 * j) 8) 0 := by
    unfold le32 storeWord
    simp
  exact hshift.trans (le32_bytes v)

theorem loadWord_storeWord_ne (m : Nat → Byte) {a b : Nat} (v : BitVec 32)
    (h : a + 4 ≤ b ∨ b + 4 ≤ a) : loadWord (storeWord m a v) b = loadWord m b := by
  refine le32_congr fun j hj => ?_
  unfold storeWord
  rw [if_neg (by omega)]

/-! ## The accesses -/

/-- `slink_write_32`: a burst of one beat, with the word in its byte lanes. -/
def slinkWrite32 (addr : Nat) (data : BitVec 32) : Option (Axi.Burst Byte) :=
  slinkWriteBeats addr 2 [data.setWidth 64 <<< (8 * (addr % 8))]

/-- `slink_read_beats` of one beat, which is the whole bus word. -/
def slinkReadBeat (m : Nat → Byte) (addr : Nat) : BitVec 64 := le64 m (Axi.alignDown addr 8)

/-- `beats[0] >> addr[AxiStrbBits-1:0]`, as a `word_bt`. -/
def slinkPollData (m : Nat → Byte) (addr : Nat) : BitVec 32 :=
  (slinkReadBeat m addr >>> (addr % 8)).setWidth 32

/-- `slink_poll_bit0` with `n` reads left, the next one the `i`-th, of memory `mem i`. -/
def slinkPollBit0 (mem : Nat → Nat → Byte) (addr : Nat) : Nat → Nat → Option (BitVec 32)
  | _, 0 => none
  | i, n + 1 =>
    let data := slinkPollData (mem i) addr
    if data.getLsbD 0 then some data else slinkPollBit0 mem addr (i + 1) n

/-- `data` is written to `addr` in memory `m`, and a poll of `addr` ends with its first read
and gives `data`. -/
def PollsBack (m : Nat → Byte) (addr : Nat) (data : BitVec 32) : Prop :=
  ∃ b, slinkWrite32 addr data = some b ∧
    slinkPollBit0 (fun _ => b.apply axiStrbWidth m) addr 0 1 = some data

/-- The word in front of `addr` repeats `data` above its low nibble, and `data` its own low nibble
at the top. -/
def Repeats (m : Nat → Byte) (addr : Nat) (data : BitVec 32) : Prop :=
  data.extractLsb' 0 4 = data.extractLsb' 28 4 ∧
    (loadWord m (addr - 4)).extractLsb' 4 28 = data.extractLsb' 0 28

instance (m : Nat → Byte) (addr : Nat) (data : BitVec 32) : Decidable (Repeats m addr data) :=
  inferInstanceAs (Decidable (_ ∧ _))

/-- A byte of a word in the lanes from `off` on. -/
theorem lane_byte (v : BitVec 32) {off e : Nat} (hoff : off ≤ e) (he : e < 8) :
    (v.setWidth 64 <<< (8 * off)).extractLsb' (8 * e) 8 = v.extractLsb' (8 * (e - off)) 8 := by
  apply BitVec.eq_of_getLsbD_eq
  intro j hj
  have hbit : 8 * e + j < 64 := by omega
  have hlow : ¬8 * e + j < 8 * off := by omega
  have hsub : 8 * e + j - 8 * off = 8 * (e - off) + j := by omega
  have hword : 8 * (e - off) + j < 64 := by omega
  simp only [BitVec.getLsbD_extractLsb', BitVec.getLsbD_shiftLeft, BitVec.getLsbD_setWidth, hj,
    hbit, hlow, hsub, hword, decide_true, decide_false, Bool.not_false, Bool.true_and]

/-- The strobes of a word: four lanes from its address on. -/
theorem slinkStrb_word (addr : Nat) {e : Nat} (he : e < 8) :
    (slinkStrb addr 2 0).getLsbD e = decide (addr % 8 ≤ e ∧ e < addr % 8 + 4) := by
  have hmask : ~~~(BitVec.allOnes 8 <<< (1 <<< 2)) = BitVec.ofNat 8 0xF := rfl
  have hnibble : ∀ k : Fin 8, (BitVec.ofNat 8 0xF).getLsbD k = decide (k.val < 4) := by decide
  unfold slinkStrb
  rw [if_pos rfl, hmask, BitVec.getLsbD_shiftLeft]
  by_cases hlane : addr % 8 ≤ e
  · have hrange : (e - addr % 8 < 4) = (addr % 8 ≤ e ∧ e < addr % 8 + 4) := by
      apply propext
      omega
    rw [hnibble ⟨e - addr % 8, by omega⟩, decide_eq_true he,
      decide_eq_false (Nat.not_lt.mpr hlane), Bool.not_false, Bool.true_and, Bool.true_and]
    simp only [hrange]
  · simp [hlane, Nat.lt_of_not_le hlane]

/-- A word written over the link is in memory as a hart's `sw` would put it there. -/
theorem slinkWrite32_apply {addr : Nat} (h : 4 ∣ addr) (v : BitVec 32) :
    ∃ b, slinkWrite32 addr v = some b ∧ ∀ m, b.apply axiStrbWidth m = storeWord m addr v := by
  refine ⟨_, rfl, fun m => ?_⟩
  funext x
  show Axi.lanes 8 m (Axi.alignDown addr 8)
    { data := fun e => (v.setWidth 64 <<< (8 * (addr % 8))).extractLsb' (8 * e) 8
      strb := fun e => (slinkStrb addr 2 0).getLsbD e } x = storeWord m addr v x
  unfold Axi.lanes storeWord
  rw [Axi.alignDown_eq]
  by_cases hx : addr ≤ x ∧ x < addr + 4
  · have hlane : x - (addr - addr % 8) < 8 := by omega
    have hbyte : x - (addr - addr % 8) - addr % 8 = x - addr := by omega
    have hstrb : addr % 8 ≤ x - (addr - addr % 8) ∧ x - (addr - addr % 8) < addr % 8 + 4 := by
      omega
    have hset := (slinkStrb_word addr hlane).trans (decide_eq_true hstrb)
    rw [if_pos hx, if_pos ⟨by omega, by omega, hset⟩, ← hbyte]
    exact lane_byte v hstrb.1 hlane
  · rw [if_neg hx, if_neg]
    rintro ⟨hlo, hhi, hset⟩
    have hstrb := of_decide_eq_true ((slinkStrb_word addr (by omega)).symm.trans hset)
    omega

/-- A poll at the start of a bus word reads the word there. -/
theorem slinkPollData_eq (m : Nat → Byte) {addr : Nat} (h : 8 ∣ addr) :
    slinkPollData m addr = loadWord m addr := by
  have hoff : addr % 8 = 0 := by omega
  unfold slinkPollData slinkReadBeat loadWord
  rw [Axi.alignDown_eq, hoff, Nat.sub_zero, BitVec.ushiftRight_zero]
  unfold le64
  rw [BitVec.setWidth_append_eq_right]

/-- A doubleword shifted down by four bits has the low nibble of its upper word on top of the
lower word. -/
theorem append_ushiftRight (hi lo : BitVec 32) :
    ((hi ++ lo : BitVec 64) >>> 4).setWidth 32 = hi.extractLsb' 0 4 ++ lo.extractLsb' 4 28 := by
  apply BitVec.eq_of_getLsbD_eq
  intro j hj
  simp only [BitVec.getLsbD_setWidth, BitVec.getLsbD_ushiftRight, BitVec.getLsbD_append,
    BitVec.getLsbD_extractLsb', hj, decide_true, Bool.true_and]
  rcases Nat.lt_or_ge j 28 with hlow | hhigh
  · rw [if_pos (by omega : 4 + j < 32), if_pos hlow, decide_eq_true hlow, Bool.true_and]
  · have hsub : 4 + j - 32 = 0 + (j - 28) := by omega
    rw [if_neg (by omega : ¬4 + j < 32), if_neg (Nat.not_lt.mpr hhigh),
      decide_eq_true (by omega : j - 28 < 4), Bool.true_and, hsub]

/-- A nibble on top of 28 bits is a given word exactly if both parts are that word's. -/
theorem append_eq_word {n : BitVec 4} {r : BitVec 28} {v : BitVec 32} :
    n ++ r = v ↔ n = v.extractLsb' 28 4 ∧ r = v.extractLsb' 0 28 := by
  constructor
  · rintro rfl
    exact ⟨BitVec.extractLsb'_append_eq_left.symm, BitVec.extractLsb'_append_eq_right.symm⟩
  · rintro ⟨rfl, rfl⟩
    exact (BitVec.extractLsb'_append_extractLsb'_eq_extractLsb' rfl).trans
      BitVec.extractLsb'_eq_self

/-- A poll in the upper half of a bus word reads a nibble of the word there, and the word in
front of it. -/
theorem slinkPollData_upper (m : Nat → Byte) {addr : Nat} (h : addr % 8 = 4) :
    slinkPollData m addr
      = (loadWord m addr).extractLsb' 0 4 ++ (loadWord m (addr - 4)).extractLsb' 4 28 := by
  have haddr : addr - 4 + 4 = addr := by omega
  unfold slinkPollData slinkReadBeat loadWord
  rw [Axi.alignDown_eq, h]
  unfold le64
  rw [append_ushiftRight, haddr]

/-! ## Polling for a word that was written -/

/-- The poll goes on for as long as the bit it looks at is not set. -/
theorem slinkPollBit0_none {mem : Nat → Nat → Byte} {addr : Nat}
    (h : ∀ i, (slinkPollData (mem i) addr).getLsbD 0 = false) :
    ∀ n i, slinkPollBit0 mem addr i n = none := by
  intro n
  induction n with
  | zero => exact fun _ => rfl
  | succ n ih =>
    intro i
    unfold slinkPollBit0
    simp only [h, Bool.false_eq_true, if_false]
    exact ih (i + 1)

/-- What a poll gets that ends with its first read. -/
theorem slinkPollBit0_one {mem : Nat → Nat → Byte} {addr i : Nat} {data : BitVec 32}
    (hbit : data.getLsbD 0 = true) :
    slinkPollBit0 mem addr i 1 = some data ↔ slinkPollData (mem i) addr = data := by
  show (if (slinkPollData (mem i) addr).getLsbD 0 then some (slinkPollData (mem i) addr)
    else none) = some data ↔ _
  constructor
  · intro hpoll
    split at hpoll
    · exact Option.some.inj hpoll
    · cases hpoll
  · intro hdata
    rw [hdata, if_pos hbit]

variable {m : Nat → Byte} {addr : Nat} {data : BitVec 32}

theorem pollsBack_stored (h : 4 ∣ addr) (hbit : data.getLsbD 0 = true) :
    PollsBack m addr data ↔ slinkPollData (storeWord m addr data) addr = data := by
  obtain ⟨b, hb, happly⟩ := slinkWrite32_apply h data
  unfold PollsBack
  constructor
  · rintro ⟨b', hb', hpoll⟩
    obtain rfl : b = b' := Option.some.inj (hb.symm.trans hb')
    rw [happly, slinkPollBit0_one hbit] at hpoll
    exact hpoll
  · intro hpoll
    refine ⟨b, hb, ?_⟩
    rw [happly, slinkPollBit0_one hbit]
    exact hpoll

/-- A poll in the upper half of a bus word sees the low nibble of the data stored there on top of
the word below. -/
theorem slinkPollData_stored_upper (m : Nat → Byte) (h : addr % 8 = 4) (data : BitVec 32) :
    slinkPollData (storeWord m addr data) addr
      = data.extractLsb' 0 4 ++ (loadWord m (addr - 4)).extractLsb' 4 28 := by
  rw [slinkPollData_upper _ h, loadWord_storeWord, loadWord_storeWord_ne m data (by omega)]

/-- A written word is polled back exactly at the start of a bus word, or where the word in front
of it repeats it. -/
theorem slinkPollBit0_write32_iff (m : Nat → Byte) (addr : Nat) (data : BitVec 32)
    (h : 4 ∣ addr) (hbit : data.getLsbD 0 = true) :
    PollsBack m addr data ↔ 8 ∣ addr ∨ Repeats m addr data := by
  rw [pollsBack_stored h hbit]
  by_cases hword : 8 ∣ addr
  · rw [slinkPollData_eq _ hword, loadWord_storeWord]
    exact iff_of_true rfl (Or.inl hword)
  · rw [slinkPollData_stored_upper m (by omega), append_eq_word]
    exact ⟨Or.inr, fun hdata => hdata.resolve_left hword⟩

/-- Scratch register 2, the one that is polled, is at the start of a bus word. -/
theorem slinkPollBit0_write32_scratch2 : PollsBack (fun _ => 0xff) 0x0300_0008 1 :=
  (slinkPollBit0_write32_iff (fun _ => 0xff) 0x0300_0008 1 (by decide) rfl).mpr
    (Or.inl (by decide))

/-- Whatever the memory, it takes the start of a bus word. -/
theorem pollsBack_all_iff (h : 4 ∣ addr) (hbit : data.getLsbD 0 = true) :
    (∀ m, PollsBack m addr data) ↔ 8 ∣ addr := by
  constructor
  · intro hall
    by_contra hword
    have hpoll := (pollsBack_stored h hbit).mp (hall fun _ => 0)
    rw [slinkPollData_stored_upper _ (by omega)] at hpoll
    -- zeros are in front, and bit 0 of `data` would have to be among them
    have hzero : loadWord (fun _ => 0) (addr - 4) = 0 := by
      show (0 : Byte) ++ (0 : Byte) ++ (0 : Byte) ++ (0 : Byte) = (0 : BitVec 32)
      decide
    rw [← hpoll, hzero, BitVec.getLsbD_append, if_pos (by decide)] at hbit
    exact absurd hbit (by decide)
  · intro hword m
    rw [pollsBack_stored h hbit, slinkPollData_eq _ hword, loadWord_storeWord]

/-- Scratch register 1 is not: with zeros in front of it, a poll for the 1 that was written
there never ends. -/
theorem slinkPollBit0_write32_upper : 4 ∣ 0x0300_0004 ∧ (1 : BitVec 32).getLsbD 0 = true ∧
    ¬PollsBack (fun _ => 0) 0x0300_0004 1 ∧
    ∃ b, slinkWrite32 0x0300_0004 1 = some b ∧ ∀ n,
      slinkPollBit0 (fun _ => b.apply axiStrbWidth fun _ => 0) 0x0300_0004 0 n = none := by
  obtain ⟨b, hb, happly⟩ := slinkWrite32_apply (show 4 ∣ 0x0300_0004 by decide) 1
  have hpoll : slinkPollData (storeWord (fun _ => 0) 0x0300_0004 1) 0x0300_0004 = 0x1000_0000 :=
    slinkPollData_stored_upper _ (by decide) _
  refine ⟨by decide, rfl, fun hback => ?_, b, hb, fun n => slinkPollBit0_none (fun _ => ?_) n 0⟩
  · rw [pollsBack_stored (by decide) rfl, hpoll] at hback
    exact absurd hback (by decide)
  · rw [happly, hpoll]
    decide

end Cheshire.Sim
