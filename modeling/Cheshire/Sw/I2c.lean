import Cheshire.Lib.Mem
import Cheshire.Sw.I2cBus

/-!
# `i2c_24fc1025.c`: the EEPROM driver

An access is cut at multiples of the FIFO depth: a head chunk up to the first
such address, if `addr` is not one itself, and then chunks that start at one. Each
chunk is one transaction on the bus.

The chunks are exact, but the head chunk always runs to the end of its FIFO-sized
window, however short the access is. `i2cRead_exact_iff` says what this means: a
read that succeeds is exact unless it ends before that window does, and then it
writes past the caller's buffer.
-/

namespace Cheshire.Sw

open Firmware Firmware.Prog

/-- `I2C_PARAM_FIFO_DEPTH`, which is also the length of a chunk. -/
def i2cFifoDepth : Nat := 64

/-- The caller's memory; offsets are addresses in it. -/
abbrev CallerMem := Mem Unit

abbrev I2cProg := Prog I2cCall CallerMem Unit

/-- `do .. while (lfmt || lrx || ltx || lacq)`, for at most `polls` polls. -/
def waitVacated : (polls : Nat) → I2cProg
  | 0 => stop .spin
  | polls + 1 => do
    let d ← check .getFifoLevels
    if vacated d then pure () else waitVacated polls

/-- `do .. while (lrx < len)`, for at most `polls` polls. -/
def waitReceived (len : Nat) : (polls : Nat) → I2cProg
  | 0 => stop .spin
  | polls + 1 => do
    let d ← check .getFifoLevels
    if (lrx d).toNat < len then waitReceived len polls else pure ()

/-- The control byte for a write to `addr`, with block and chip selects. -/
def ctrlWaddr (addr : Nat) : Nat :=
  0xA0 ||| ((addr &&& 0x10000) >>> 1) ||| ((addr &&& 0x1100000) >>> 4)

/-- `dif_i2c_write_byte(i2c, v, fmt, suppress_nak)`; `v` is passed as a `uint8_t`. -/
def i2cWriteByte (v : Nat) (fmt : I2cFmt) (suppressNak : Bool) : I2cProg := do
  let _ ← check (.writeByte (BitVec.ofNat 8 v) fmt suppressNak)

/-- Queue the control byte and the two bytes of the address. -/
def i2cSendAddr (addr : Nat) (write : Bool) : I2cProg := do
  i2cWriteByte (ctrlWaddr addr) .start true
  i2cWriteByte ((addr >>> 8) &&& 0xFF) .tx true
  i2cWriteByte (addr &&& 0xFF) (if write then .tx else .txStop) true

/-- Send the byte of the caller's buffer at `p`. -/
def i2cSendData (p : Int) : I2cProg := do
  let m ← getMem
  modifyMem (·.look () p)
  i2cWriteByte (m.get () p).toNat .tx true

/-- Take one byte and store it at `p`. -/
def i2cReadByte (p : Int) : I2cProg := do
  let d ← check .readByte
  modifyMem (·.put () p (d 0))

/-- The read branch of `access_chunk`: the request, the wait and the bytes. -/
def i2cReadChunk (polls : Nat) (buf : Int) (addr len : Nat) : I2cProg := do
  i2cWriteByte (ctrlWaddr addr ||| 1) .start true
  i2cWriteByte len .rx false
  let _ ← check (.hostSetEnabled true)
  waitReceived len polls
  upTo len fun b => i2cReadByte (buf + b)

/-- `__i2c_24fc1025_access_chunk`. A write of more than half a FIFO calls the function
again for the rest, at most `rounds` times. -/
def i2cAccessChunk (polls : Nat) (write : Bool) : (rounds : Nat) → Int → Nat → Nat → I2cProg
  | 0, _, _, _ => stop .spin
  | rounds + 1, buf, addr, len => do
    waitVacated polls
    let _ ← ask (.spinTicks 1)
    let _ ← check (.hostSetEnabled false)
    i2cSendAddr addr write
    if write then do
      let halfFill := i2cFifoDepth / 2
      upTo (min (len - 1) halfFill) fun b => i2cSendData (buf + b)
      i2cSendData (buf + len - 1)
      let _ ← check (.hostSetEnabled true)
      if halfFill < len then
        i2cAccessChunk polls write rounds (buf + len) (addr + len) (len - halfFill)
      else pure ()
    else i2cReadChunk polls buf addr len

/-- `addr_offs`, the address's place in its page of 64 bytes. -/
def i2cAddrOffs (addr : Nat) : Nat := addr % i2cFifoDepth

/-- The length of the head chunk, 0 if there is none. -/
def i2cHeadLen (addr : Nat) : Nat :=
  if i2cAddrOffs addr = 0 then 0 else i2cFifoDepth - i2cAddrOffs addr

/-- `if (addr_offs)`: the head chunk, whose length does not depend on `len`. -/
def i2cHead (polls : Nat) (write : Bool) (buf : Int) (addr : Nat) : I2cProg :=
  if i2cAddrOffs addr = 0 then pure ()
  else i2cAccessChunk polls write (i2cHeadLen addr) buf addr (i2cHeadLen addr)

/-- The pass of the loop with this `offs`. -/
def i2cAlignedChunk (polls : Nat) (write : Bool) (buf : Int) (addr len offs : Nat) : I2cProg :=
  let chunkLen := min i2cFifoDepth (len - offs)
  i2cAccessChunk polls write chunkLen (buf + offs) (addr + offs) chunkLen

/-- `__i2c_24fc1025_access`; the loop is `for (; offs < len; offs += I2C_PARAM_FIFO_DEPTH)`. -/
def i2cAccess (polls : Nat) (buf : Int) (addr len : Nat) (write : Bool) : I2cProg := do
  retCode (if 128 % i2cFifoDepth = 0 then 0 else 0x13)
  i2cHead polls write buf addr
  let offs := i2cHeadLen addr
  upTo ((len - offs + (i2cFifoDepth - 1)) / i2cFifoDepth) fun i =>
    i2cAlignedChunk polls write buf addr len (offs + i2cFifoDepth * i)

/-- `i2c_24fc1025_read`, the access without the write flag. -/
def i2cRead (polls : Nat) (buf : Int) (addr len : Nat) : I2cProg :=
  i2cAccess polls buf addr len false

/-- `i2c_24fc1025_write`, the access with the write flag. -/
def i2cWrite (polls : Nat) (buf : Int) (addr len : Nat) : I2cProg :=
  i2cAccess polls buf addr len true

/-! ## What one chunk reads -/

section

variable {image : Nat → Byte} {env : Env I2cCall} {arrived : I2cTrace → Nat}

abbrev I2cSt := St I2cCall CallerMem

/-- The calls since `s` changed neither memory nor bus. -/
def Unchanged (image : Nat → Byte) (s s' : I2cSt) : Prop :=
  s'.mem = s.mem ∧ bus image s'.calls = bus image s.calls

/-- Partial correctness: if the body ends normally, `R` holds of the state then. -/
def partially (env : Env I2cCall) (x : I2cProg) (R : I2cSt → Prop) (s : I2cSt) : Prop :=
  wp env x (fun _ => R) (fun _ _ => True) s

theorem partially_bind {x y : I2cProg} {R : I2cSt → Prop} {s : I2cSt} (P : I2cSt → Prop)
    (hx : partially env x P s) (hy : ∀ s', P s' → partially env y R s') :
    partially env (do x; y) R s := by
  unfold partially
  rw [wp_bind]
  exact wp_mono hx (fun _ s' hs' => hy s' hs') fun _ _ he => he

theorem partially_control (image : Nat → Byte) {q : I2cCall} (hq : q.control) {y : I2cProg}
    {R : I2cSt → Prop} {s : I2cSt} (hy : ∀ s', Unchanged image s s' → partially env y R s') :
    partially env (do let _ ← check q; y) R s := by
  unfold partially
  rw [wp_bind, wp_check]
  exact ⟨fun _ => hy _ ⟨rfl, bus_control hq _⟩, fun _ => trivial⟩

theorem waitVacated_spec (hdif : Delivers image env arrived) : ∀ (polls : Nat) (s : I2cSt),
    partially env (waitVacated polls)
      (fun s' => Unchanged image s s' ∧
        (bus image s'.calls).taken = (bus image s'.calls).due.length) s := by
  intro polls
  induction polls with
  | zero =>
    intro s
    exact trivial
  | succ polls ih =>
    intro s
    unfold partially waitVacated
    rw [wp_bind, wp_check]
    refine ⟨fun hret => ?_, fun _ => trivial⟩
    have hbus : bus image ((.getFifoLevels, env s.calls .getFifoLevels) :: s.calls)
        = bus image s.calls := bus_control rfl _
    rw [wp_ite]
    split
    · next hvac =>
      refine ⟨⟨rfl, hbus⟩, ?_⟩
      rw [hbus]
      exact hdif.vacated_taken s.calls hret hvac
    · refine wp_mono (ih _) (fun _ s' hs' => ?_) fun _ _ he => he
      exact ⟨⟨hs'.1.1, hs'.1.2.trans hbus⟩, hs'.2⟩

theorem waitReceived_spec (hdif : Delivers image env arrived) (len : Nat) :
    ∀ (polls : Nat) (s : I2cSt), partially env (waitReceived len polls)
      (fun s' => Unchanged image s s' ∧ (bus image s.calls).taken + len ≤ arrived s'.calls) s := by
  intro polls
  induction polls with
  | zero =>
    intro s
    exact trivial
  | succ polls ih =>
    intro s
    unfold partially waitReceived
    rw [wp_bind, wp_check]
    refine ⟨fun hret => ?_, fun _ => trivial⟩
    have hbus : bus image ((.getFifoLevels, env s.calls .getFifoLevels) :: s.calls)
        = bus image s.calls := bus_control rfl _
    rw [wp_ite]
    split
    · refine wp_mono (ih _) (fun _ s' hs' => ?_) fun _ _ he => he
      obtain ⟨⟨hmem, hb⟩, harr⟩ := hs'
      rw [hbus] at hb harr
      exact ⟨⟨hmem, hb⟩, harr⟩
    · next hlen =>
      have hlrx := hdif.lrx_le s.calls hret
      have hmono := hdif.arrived_mono s.calls (.getFifoLevels, env s.calls .getFifoLevels)
      refine ⟨⟨rfl, hbus⟩, ?_⟩
      show _ ≤ arrived ((.getFifoLevels, env s.calls .getFifoLevels) :: s.calls)
      omega

theorem i2cWriteByte_spec (image : Nat → Byte) (v : Nat) (fmt : I2cFmt) (nak : Bool) (s : I2cSt) :
    partially env (i2cWriteByte v fmt nak)
      (fun s' => s'.mem = s.mem ∧
        bus image s'.calls = (bus image s.calls).fmt (BitVec.ofNat 8 v) fmt) s := by
  unfold partially i2cWriteByte
  rw [wp_bind, wp_check]
  exact ⟨fun hret => ⟨rfl, bus_fmt hret⟩, fun _ => trivial⟩

/-- Addresses in the first block select no other block or chip. -/
theorem ctrlWaddr_eq {addr : Nat} (h : addr < blockSize) : ctrlWaddr addr = 0xA0 := by
  have hzero : ∀ m, addr &&& m <<< 16 = 0 := by
    intro m
    apply Nat.eq_of_testBit_eq
    intro i
    rw [Nat.testBit_and, Nat.testBit_shiftLeft, Nat.zero_testBit]
    rcases Nat.lt_or_ge i 16 with hi | hi
    · rw [decide_eq_false (by omega), Bool.false_and, Bool.and_false]
    · have hpow : 2 ^ 16 ≤ 2 ^ i := Nat.pow_le_pow_right (by omega) hi
      rw [Nat.testBit_lt_two_pow (Nat.lt_of_lt_of_le h hpow), Bool.false_and]
  have hblock : addr &&& 0x10000 = 0 := hzero 1
  have hchip : addr &&& 0x1100000 = 0 := hzero 0x110
  unfold ctrlWaddr
  rw [hblock, hchip]
  rfl

/-- The two address bytes, put together by the device, make up the address again. -/
theorem addr_bytes {addr : Nat} (h : addr < blockSize) :
    ((BitVec.ofNat 8 ((addr >>> 8) &&& 0xFF)) ++ (BitVec.ofNat 8 (addr &&& 0xFF)) :
      BitVec 16).toNat = addr := by
  have hmask : ∀ n, n &&& 0xFF = n % 256 := fun n => Nat.and_two_pow_sub_one_eq_mod n 8
  unfold blockSize at h
  rw [BitVec.toNat_append, BitVec.toNat_ofNat, BitVec.toNat_ofNat, hmask, hmask,
    ← Nat.shiftLeft_add_eq_or_of_lt (Nat.mod_lt _ (by omega)), Nat.shiftLeft_eq,
    Nat.shiftRight_eq_div_pow]
  omega

/-- A read's address phase sets the device's address counter and changes nothing in memory. -/
theorem i2cSendAddr_spec (image : Nat → Byte) {addr : Nat} (h : addr < blockSize) (s : I2cSt) :
    partially env (i2cSendAddr addr false)
      (fun s' => s'.mem = s.mem ∧
        bus image s'.calls = { bus image s.calls with phase := .idle, ptr := addr }) s := by
  unfold i2cSendAddr
  refine partially_bind _ (i2cWriteByte_spec image _ _ _ s) fun s₁ h₁ => ?_
  refine partially_bind _ (i2cWriteByte_spec image _ _ _ s₁) fun s₂ h₂ => ?_
  refine wp_mono (i2cWriteByte_spec image _ _ _ s₂) (fun _ s₃ h₃ => ?_) fun _ _ he => he
  obtain ⟨hmem₁, hbus₁⟩ := h₁
  obtain ⟨hmem₂, hbus₂⟩ := h₂
  obtain ⟨hmem₃, hbus₃⟩ := h₃
  refine ⟨hmem₃.trans (hmem₂.trans hmem₁), ?_⟩
  rw [hbus₃, hbus₂, hbus₁, ctrlWaddr_eq h]
  refine (Bus.fmt_address _ _ _).trans ?_
  rw [addr_bytes h]

/-- One byte taken, the next one due, goes to `p`. -/
theorem i2cReadByte_spec (hdif : Delivers image env arrived) (p : Int) (v : Byte) (s : I2cSt)
    (harr : (bus image s.calls).taken < arrived s.calls)
    (hdue : (bus image s.calls).due[(bus image s.calls).taken]? = some v) :
    partially env (i2cReadByte p)
      (fun s' => s'.mem = s.mem.put () p v ∧
        bus image s'.calls = { bus image s.calls with taken := (bus image s.calls).taken + 1 } ∧
        arrived s.calls ≤ arrived s'.calls) s := by
  unfold partially i2cReadByte
  rw [wp_bind, wp_check]
  refine ⟨fun hret => ?_, fun _ => trivial⟩
  rw [wp_modifyMem]
  have hbyte := hdif.in_order s.calls hret harr
  rw [hdue] at hbyte
  obtain ⟨hlt, -⟩ := List.getElem?_eq_some_iff.mp hdue
  refine ⟨?_, ?_, hdif.arrived_mono _ _⟩
  · rw [Option.some.inj hbyte]
  · show bus image ((.readByte, _) :: s.calls) = _
    rw [bus_read hret, Nat.min_eq_left hlt]

/-- The loop takes the bytes that are due and writes them to memory in the order in which the
device sends them. -/
theorem i2cReadBytes_spec (hdif : Delivers image env arrived) (buf : Int) (len : Nat)
    (d : Nat → Byte) (s : I2cSt) (harr : (bus image s.calls).taken + len ≤ arrived s.calls)
    (hdue : ∀ k < len, (bus image s.calls).due[(bus image s.calls).taken + k]? = some (d k)) :
    partially env (upTo len fun b => i2cReadByte (buf + b))
      (fun s' => s'.mem = s.mem.write () buf d len ∧
        bus image s'.calls = { bus image s.calls with taken := (bus image s.calls).taken + len })
      s := by
  refine wp_mono (wp_upTo (fun i s' => s'.mem = s.mem.write () buf d i ∧
    bus image s'.calls = { bus image s.calls with taken := (bus image s.calls).taken + i } ∧
    arrived s.calls ≤ arrived s'.calls) ?_ ⟨(Mem.write_zero ..).symm, rfl, Nat.le_refl _⟩)
    (fun _ s' h => ⟨h.1, h.2.1⟩) fun _ _ he => he
  intro i hi s' ⟨hmem, hbus, hmono⟩
  have htaken : (bus image s'.calls).taken = (bus image s.calls).taken + i := by rw [hbus]
  refine wp_mono (i2cReadByte_spec hdif (buf + i) (d i) s' (by omega) ?_) (fun _ s'' h => ?_)
    fun _ _ he => he
  · rw [hbus]
    exact hdue i hi
  · obtain ⟨hmem', hbus', hmono'⟩ := h
    refine ⟨?_, ?_, Nat.le_trans hmono hmono'⟩
    · rw [hmem', hmem, Mem.write_put]
    · rw [hbus', hbus]
      rfl

/-- `len` bytes from `addr` on went to `buf`, in one read transaction. -/
structure ChunkRead (image : Nat → Byte) (buf : Int) (addr len : Nat) (s s' : I2cSt) : Prop where
  mem_eq : s'.mem = s.mem.write () buf (fun k => (bus image s.calls).cells (addr + k)) len
  cells_eq : (bus image s'.calls).cells = (bus image s.calls).cells
  reads_eq : (bus image s'.calls).reads = (addr, len) :: (bus image s.calls).reads

theorem readOut_getElem? {cells : Nat → Byte} {a n k : Nat} (hk : k < n) (h : a + n ≤ blockSize) :
    (readOut cells a n)[k]? = some (cells (a + k)) := by
  unfold readOut
  rw [List.getElem?_map, List.getElem?_range hk, Option.map_some, Nat.mod_eq_of_lt (by omega)]

theorem i2cReadChunk_spec (hdif : Delivers image env arrived) (polls : Nat) (buf : Int)
    {addr len : Nat} (hlen : 0 < len ∧ len ≤ i2cFifoDepth) (h : addr + len ≤ blockSize) (s : I2cSt)
    (hptr : (bus image s.calls).ptr = addr)
    (htaken : (bus image s.calls).taken = (bus image s.calls).due.length) :
    partially env (i2cReadChunk polls buf addr len) (ChunkRead image buf addr len s) s := by
  have hv : (BitVec.ofNat 8 len).toNat = len := by
    unfold i2cFifoDepth at hlen
    rw [BitVec.toNat_ofNat]
    omega
  have hne : BitVec.ofNat 8 len ≠ 0 := by
    intro hzero
    rw [hzero] at hv
    have : (0 : Byte).toNat = 0 := rfl
    omega
  unfold i2cReadChunk
  rw [ctrlWaddr_eq (by omega)]
  refine partially_bind _ (i2cWriteByte_spec image _ _ _ s) fun s₁ h₁ => ?_
  refine partially_bind _ (i2cWriteByte_spec image _ _ _ s₁) fun s₂ h₂ => ?_
  obtain ⟨hmem₁, hbus₁⟩ := h₁
  obtain ⟨hmem₂, hbus₂⟩ := h₂
  have hreq := hbus₂.trans ((congrArg (Bus.fmt · _ _) hbus₁).trans (Bus.fmt_request _ hne))
  rw [hv, hptr] at hreq
  refine partially_control image rfl fun s₃ h₃ => ?_
  refine partially_bind _ (waitReceived_spec hdif len polls s₃) fun s₄ h₄ => ?_
  obtain ⟨hmem₃, hbus₃⟩ := h₃
  obtain ⟨⟨hmem₄, hbus₄⟩, harr⟩ := h₄
  have hmem : s₄.mem = s.mem := hmem₄.trans (hmem₃.trans (hmem₂.trans hmem₁))
  have hbus := hbus₄.trans (hbus₃.trans hreq)
  refine wp_mono (i2cReadBytes_spec hdif buf len
    (fun k => (bus image s.calls).cells (addr + k)) s₄ ?_ ?_) (fun _ s' h' => ?_) fun _ _ he => he
  · rwa [hbus₄]
  · intro k hk
    rw [hbus]
    show (_ ++ _)[(bus image s.calls).taken + k]? = _
    rw [htaken, List.getElem?_append_right (Nat.le_add_right _ _), Nat.add_sub_cancel_left]
    exact readOut_getElem? hk h
  · obtain ⟨hmem', hbus'⟩ := h'
    refine ⟨?_, ?_, ?_⟩
    · rw [hmem', hmem]
    · rw [hbus', hbus]
    · rw [hbus', hbus]

theorem i2cAccessChunk_spec (hdif : Delivers image env arrived) (polls rounds : Nat) (buf : Int)
    {addr len : Nat} (hlen : 0 < len ∧ len ≤ i2cFifoDepth) (h : addr + len ≤ blockSize)
    (s : I2cSt) :
    partially env (i2cAccessChunk polls false rounds buf addr len)
      (ChunkRead image buf addr len s) s := by
  cases rounds with
  | zero => exact trivial
  | succ rounds =>
    unfold i2cAccessChunk
    refine partially_bind _ (waitVacated_spec hdif polls s) fun s₁ h₁ => ?_
    obtain ⟨⟨hmem₁, hbus₁⟩, htaken⟩ := h₁
    unfold partially
    rw [wp_bind, wp_ask]
    refine partially_control image rfl fun s₂ h₂ => ?_
    refine partially_bind _ (i2cSendAddr_spec image (by omega) s₂) fun s₃ h₃ => ?_
    obtain ⟨hmem₂, hbus₂⟩ := h₂
    obtain ⟨hmem₃, hbus₃⟩ := h₃
    have hmem : s₃.mem = s.mem := hmem₃.trans (hmem₂.trans hmem₁)
    have hspin : bus image s₂.calls = bus image s.calls :=
      hbus₂.trans ((bus_control (q := .spinTicks 1) rfl _).trans hbus₁)
    have hbus : bus image s₃.calls = { bus image s.calls with phase := .idle, ptr := addr } := by
      rw [hbus₃, hspin]
    refine wp_mono (i2cReadChunk_spec hdif polls buf hlen h s₃ ?_ ?_) (fun _ s' h' => ?_)
      fun _ _ he => he
    · rw [hbus]
    · rw [hbus]
      rwa [hbus₁] at htaken
    · obtain ⟨hmem', hcells, hreads⟩ := h'
      rw [hbus] at hmem' hcells hreads
      rw [hmem] at hmem'
      exact ⟨hmem', hcells, hreads⟩

/-! ## What a read reads -/

/-- The transaction stays in one FIFO-sized window of the device. -/
def InWindow (p : Nat × Nat) : Prop := p.1 % i2cFifoDepth + p.2 ≤ i2cFifoDepth

/-- The first `n` bytes from `addr` on are at `buf`, and nothing else was written. -/
structure ReadTo (image : Nat → Byte) (buf : Int) (addr n : Nat) (s s' : I2cSt) : Prop where
  mem_eq : s'.mem = s.mem.write () buf (fun k => (bus image s.calls).cells (addr + k)) n
  cells_eq : (bus image s'.calls).cells = (bus image s.calls).cells
  reads_eq : ∃ new, (bus image s'.calls).reads = new ++ (bus image s.calls).reads ∧
    ∀ p ∈ new, InWindow p

/-- A further chunk, right behind what has been read. -/
theorem ReadTo.chunk {buf : Int} {addr n len : Nat} {s s₁ s₂ : I2cSt}
    (h : ReadTo image buf addr n s s₁) (h' : ChunkRead image (buf + n) (addr + n) len s₁ s₂)
    (hwin : InWindow (addr + n, len)) : ReadTo image buf addr (n + len) s s₂ := by
  obtain ⟨hmem, hcells, new, hreads, hnew⟩ := h
  obtain ⟨hmem', hcells', hreads'⟩ := h'
  refine ⟨?_, hcells'.trans hcells, (addr + n, len) :: new, ?_, ?_⟩
  · rw [hmem', hmem, hcells, ← Mem.write_write]
    simp only [Nat.add_assoc]
  · rw [hreads', hreads]
    rfl
  · intro p hp
    rcases List.mem_cons.mp hp with rfl | hp
    · exact hwin
    · exact hnew p hp

theorem headLen_cases (addr : Nat) : addr % 64 = 0 ∧ i2cHeadLen addr = 0 ∨
    addr % 64 ≠ 0 ∧ i2cHeadLen addr = 64 - addr % 64 := by
  unfold i2cHeadLen i2cAddrOffs i2cFifoDepth
  split
  · next h => exact Or.inl ⟨h, rfl⟩
  · next h => exact Or.inr ⟨h, rfl⟩

theorem i2cHead_spec (hdif : Delivers image env arrived) (polls : Nat) (buf : Int) {addr : Nat}
    (h : addr ≤ blockSize) (s : I2cSt) :
    partially env (i2cHead polls false buf addr) (ReadTo image buf addr (i2cHeadLen addr) s) s := by
  have hstart : ReadTo image buf addr 0 s s :=
    ⟨(Mem.write_zero ..).symm, rfl, [], rfl, fun _ hp => absurd hp List.not_mem_nil⟩
  unfold partially i2cHead
  rw [wp_ite]
  rcases headLen_cases addr with ⟨hoffs, hlen⟩ | ⟨hoffs, hlen⟩
  · rw [if_pos (c := i2cAddrOffs addr = 0) hoffs, hlen]
    exact hstart
  · rw [if_neg (c := i2cAddrOffs addr = 0) hoffs]
    unfold blockSize at h
    have hchunk : 0 < i2cHeadLen addr ∧ i2cHeadLen addr ≤ i2cFifoDepth := by
      unfold i2cFifoDepth
      omega
    have hend : addr + i2cHeadLen addr ≤ blockSize := by
      unfold blockSize
      omega
    have hwin : InWindow (addr + 0, i2cHeadLen addr) := by
      show (addr + 0) % 64 + i2cHeadLen addr ≤ 64
      omega
    refine wp_mono (i2cAccessChunk_spec hdif polls _ buf hchunk hend s) (fun _ s' h' => ?_)
      fun _ _ he => he
    rw [← Int.add_zero buf, ← Nat.add_zero addr] at h'
    have hread := hstart.chunk h' hwin
    rwa [Nat.zero_add] at hread

theorem i2cAlignedChunk_spec (hdif : Delivers image env arrived) (polls : Nat) (buf : Int)
    {addr len offs : Nat} (hrange : addr + len ≤ blockSize) (hlt : offs < len)
    (hal : (addr + offs) % 64 = 0) {s s' : I2cSt} (h : ReadTo image buf addr offs s s') :
    partially env (i2cAlignedChunk polls false buf addr len offs)
      (ReadTo image buf addr (offs + min 64 (len - offs)) s) s' := by
  have hwin : InWindow (addr + offs, min 64 (len - offs)) := by
    show (addr + offs) % 64 + min 64 _ ≤ 64
    omega
  have hchunk : 0 < min 64 (len - offs) ∧ min 64 (len - offs) ≤ i2cFifoDepth := by
    unfold i2cFifoDepth
    omega
  refine wp_mono (i2cAccessChunk_spec hdif polls _ _ hchunk (by omega) s') (fun _ s'' h'' => ?_)
    fun _ _ he => he
  exact h.chunk h'' hwin

/-- A read that returns 0 reads `len` bytes or the head chunk, whichever is more. -/
theorem i2cRead_spec (hdif : Delivers image env arrived) (polls : Nat) (buf : Int)
    {addr len : Nat} (hrange : addr + len ≤ blockSize) (s : I2cSt) :
    partially env (i2cRead polls buf addr len)
      (ReadTo image buf addr (max len (i2cHeadLen addr)) s) s := by
  have hhead := headLen_cases addr
  unfold i2cRead i2cAccess
  refine partially_bind (· = s) rfl fun s₀ h₀ => ?_
  subst h₀
  refine partially_bind _ (i2cHead_spec hdif polls buf (by omega) s₀) fun s₁ h₁ => ?_
  refine wp_mono (wp_upTo (fun i => ReadTo image buf addr
    (i2cHeadLen addr + min (64 * i) (len - i2cHeadLen addr)) s₀) ?_ ?_) (fun _ s' h' => ?_)
    fun _ _ he => he
  · -- behind the head chunk every chunk starts at a multiple of 64
    intro i hi s' h'
    unfold i2cFifoDepth at hi
    rw [show min (64 * i) (len - i2cHeadLen addr) = 64 * i by omega] at h'
    have hchunk := i2cAlignedChunk_spec hdif polls buf hrange (by omega) (by omega) h'
    rwa [show i2cHeadLen addr + 64 * i + min 64 (len - (i2cHeadLen addr + 64 * i)) =
      i2cHeadLen addr + min (64 * (i + 1)) (len - i2cHeadLen addr) by omega] at hchunk
  · exact h₁
  · -- the loop ends at `len`, or is not entered by a head chunk that goes beyond
    unfold i2cFifoDepth at h'
    rwa [show i2cHeadLen addr + min (64 * ((len - i2cHeadLen addr + 63) / 64))
      (len - i2cHeadLen addr) = max len (i2cHeadLen addr) by omega] at h'

/-- The claim a caller relies on: `len` bytes of the device, and no store elsewhere. -/
structure ReadExact (image : Nat → Byte) (buf : Int) (addr len : Nat) (s s' : I2cSt) : Prop where
  data : ∀ k < len, s'.mem.get () (buf + k) = (bus image s.calls).cells (addr + k)
  stores : ∃ new, s'.mem.stores = new ++ s.mem.stores ∧ ∀ p ∈ new, buf ≤ p.2 ∧ p.2 < buf + len
  reads : ∃ new, (bus image s'.calls).reads = new ++ (bus image s.calls).reads ∧
    ∀ p ∈ new, InWindow p

/-- A read that ends in its first window, but not at its end, is not exact. -/
theorem i2cRead_overruns (hdif : Delivers image env arrived) {polls : Nat} {buf : Int}
    {addr len : Nat} (hrange : addr + len ≤ blockSize) {s s' : I2cSt}
    (hrun : i2cRead polls buf addr len env s = (.ok (), s'))
    (hshort : addr % 64 ≠ 0 ∧ len < 64 - addr % 64) : ¬ReadExact image buf addr len s s' := by
  intro ⟨_, ⟨new, hnew, hin⟩, _⟩
  obtain ⟨hmem, -, -⟩ := wp_ok (i2cRead_spec hdif polls buf hrange s) hrun
  have hhead := headLen_cases addr
  have hlog : new = Mem.writeLog () buf (max len (i2cHeadLen addr)) := by
    rw [hmem, Mem.stores_write] at hnew
    exact (List.append_cancel_right hnew).symm
  -- the head chunk stores at `buf + len`
  have hover : ((), buf + (len : Int)) ∈ new := by
    rw [hlog, Mem.mem_writeLog]
    exact ⟨rfl, by show buf ≤ buf + len; omega, by show buf + (len : Int) < _; omega⟩
  exact Int.lt_irrefl _ (hin _ hover).2

/-- A read that returns 0 is exact if and only if it does not end before the first
FIFO-sized window does. -/
theorem i2cRead_exact_iff (hdif : Delivers image env arrived) {polls : Nat} {buf : Int}
    {addr len : Nat} (hrange : addr + len ≤ blockSize) {s s' : I2cSt}
    (hrun : i2cRead polls buf addr len env s = (.ok (), s')) :
    ReadExact image buf addr len s s' ↔ addr % 64 = 0 ∨ 64 - addr % 64 ≤ len := by
  constructor
  · intro hexact
    have hnot := mt (i2cRead_overruns hdif hrange hrun) (not_not.mpr hexact)
    omega
  · intro hcond
    obtain ⟨hmem, -, hreads⟩ := wp_ok (i2cRead_spec hdif polls buf hrange s) hrun
    have hhead := headLen_cases addr
    rw [show max len (i2cHeadLen addr) = len by omega] at hmem
    refine ⟨?_, ⟨Mem.writeLog () buf len, ?_, ?_⟩, hreads⟩
    · intro k hk
      rw [hmem, Mem.get_write_at _ _ _ _ hk]
    · rw [hmem, Mem.stores_write]
    · intro p hp
      exact (Mem.mem_writeLog.mp hp).2

end

/-- An EEPROM that holds 0, 1, 2, .. over and over. -/
def countingImage : Nat → Byte := fun a => BitVec.ofNat 8 a

def i2cStart : I2cSt := ⟨[], ⟨fun _ _ => 0, [], []⟩⟩

/-- The eight bytes of the GPT signature. -/
theorem i2cRead_exact_signature :
    ReadExact countingImage 0 0x200 8 i2cStart
      (i2cRead 1 0 0x200 8 (promptDif countingImage) i2cStart).2 := by
  have hrun : (i2cRead 1 0 0x200 8 (promptDif countingImage) i2cStart).1 = .ok () := by
    decide +kernel
  exact (i2cRead_exact_iff (promptDif_delivers countingImage) (by decide) (run_eq hrun)).mpr
    (by omega)

/-- The sixteen bytes of the GPT header fields: 56 bytes are stored. -/
theorem i2cRead_overruns_header :
    (i2cRead 1 0 0x248 16 (promptDif countingImage) i2cStart).1 = .ok () ∧
      ¬ReadExact countingImage 0 0x248 16 i2cStart
        (i2cRead 1 0 0x248 16 (promptDif countingImage) i2cStart).2 := by
  have hrun : (i2cRead 1 0 0x248 16 (promptDif countingImage) i2cStart).1 = .ok () := by
    decide +kernel
  exact ⟨hrun, i2cRead_overruns (promptDif_delivers countingImage) (by decide) (run_eq hrun)
    (by omega)⟩

end Cheshire.Sw
