import Cheshire.Lib.Prog

/-!
# The I2C device interface and the EEPROM behind it

The driver talks to a DIF that is not part of this repository: it queues format
bytes, which the host controller turns into bus traffic in order, and takes
received bytes out of a FIFO. The calls are `I2cCall`; the environment answers
them in any way at all.

What the queued bytes mean to the EEPROM is `bus`, a fold over the calls that
succeeded: the address phase, the cells, the bytes the device has to return
(`due`), how many of them the driver has taken (`taken`), and the range each read
transaction covers. `Delivers` is what is assumed of the DIF: received bytes are
handed over in order, and the FIFO levels do not promise more than has arrived.
-/

namespace Cheshire.Sw

open Firmware

/-- The `kDifI2cFmt` of a byte, as far as the driver uses them. -/
inductive I2cFmt where
  | start
  | tx
  | txStop
  | rx
  deriving DecidableEq, Repr

/-- The DIF calls on the I2C handle, and `clint_spin_ticks`. -/
inductive I2cCall where
  /-- Delivers the four levels: fmt, rx, tx, acq. -/
  | getFifoLevels
  | spinTicks (n : Nat)
  | hostSetEnabled (on : Bool)
  | writeByte (v : Byte) (fmt : I2cFmt) (suppressNak : Bool)
  /-- Delivers one byte. -/
  | readByte
  deriving DecidableEq, Repr

abbrev I2cTrace := Trace I2cCall

/-! ## The EEPROM on the bus -/

/-- What the device takes the next byte on the bus for. -/
inductive BusPhase where
  /-- Not addressed. -/
  | idle
  | addrHi
  | addrLo (hi : Byte)
  /-- Data to be stored at the next stop condition, newest first. -/
  | writing (data : List Byte)
  | reading
  deriving DecidableEq, Repr

structure Bus where
  phase : BusPhase
  /-- The device's address counter. -/
  ptr : Nat
  cells : Nat → Byte
  /-- The bytes of all reads requested so far, in order. -/
  due : List Byte
  /-- How many of them have been taken out of the FIFO. -/
  taken : Nat
  /-- First address and length of each read transaction, newest first. -/
  reads : List (Nat × Nat)

/-- The bytes of one block, which 16 address bits reach. -/
def blockSize : Nat := 0x1_0000

/-- `n` bytes from address `a` on; the counter wraps at the end of the block. -/
def readOut (cells : Nat → Byte) (a n : Nat) : List Byte :=
  (List.range n).map fun i => cells ((a + i) % blockSize)

/-- The cells after `data`, newest first, is stored from `a` on. -/
def storeAt (cells : Nat → Byte) (a : Nat) (data : List Byte) : Nat → Byte := fun b =>
  if a ≤ b then data.reverse.getD (b - a) (cells b) else cells b

/-- The number of bytes an `rx` format byte asks for. -/
def rxLen (v : Byte) : Nat := if v = 0 then 256 else v.toNat

/-- A data or address byte arrives at the device. -/
def Bus.byte (b : Bus) (v : Byte) : Bus :=
  match b.phase with
  | .addrHi => { b with phase := .addrLo v }
  | .addrLo hi => { b with phase := .writing [], ptr := (hi ++ v).toNat }
  | .writing data => { b with phase := .writing (v :: data) }
  | _ => b

/-- A stop condition: data that came in is stored. -/
def Bus.stop (b : Bus) : Bus :=
  match b.phase with
  | .writing data => { b with phase := .idle, cells := storeAt b.cells b.ptr data }
  | _ => { b with phase := .idle }

/-- The device returns `n` bytes from its address counter on. -/
def Bus.request (b : Bus) (n : Nat) : Bus :=
  match b.phase with
  | .reading =>
    { b with
      due := b.due ++ readOut b.cells b.ptr n
      reads := (b.ptr, n) :: b.reads
      ptr := (b.ptr + n) % blockSize }
  | _ => b

/-- One format byte. The control bytes are those of the first block of the first
device. -/
def Bus.fmt (b : Bus) (v : Byte) : I2cFmt → Bus
  | .start =>
    { b with phase := if v = 0xA0 then .addrHi else if v = 0xA1 then .reading else .idle }
  | .tx => b.byte v
  | .txStop => (b.byte v).stop
  | .rx => b.request (rxLen v)

/-- One call; a call that failed does nothing. Out of an empty FIFO nothing is taken. -/
def Bus.next (b : Bus) (c : I2cCall × Reply) : Bus :=
  if c.2.ret = 0 then
    match c.1 with
    | .writeByte v fmt _ => b.fmt v fmt
    | .readByte => { b with taken := min (b.taken + 1) b.due.length }
    | _ => b
  else b

/-- The device holds `image` before the first call. -/
def bus (image : Nat → Byte) : I2cTrace → Bus
  | [] => ⟨.idle, 0, image, [], 0, []⟩
  | c :: t => (bus image t).next c

theorem bus_fmt {image : Nat → Byte} {t : I2cTrace} {v : Byte} {fmt : I2cFmt} {nak : Bool}
    {r : Reply} (h : r.ret = 0) :
    bus image ((.writeByte v fmt nak, r) :: t) = (bus image t).fmt v fmt :=
  if_pos h

theorem bus_read {image : Nat → Byte} {t : I2cTrace} {r : Reply} (h : r.ret = 0) :
    bus image ((.readByte, r) :: t) =
      { bus image t with taken := min ((bus image t).taken + 1) (bus image t).due.length } :=
  if_pos h

theorem storeAt_nil (cells : Nat → Byte) (a : Nat) : storeAt cells a [] = cells := by
  funext b
  exact ite_self _

/-- The address phase of a read. -/
theorem Bus.fmt_address (b : Bus) (hi lo : Byte) :
    ((b.fmt 0xA0 .start).fmt hi .tx).fmt lo .txStop =
      { b with phase := .idle, ptr := (hi ++ lo).toNat } := by
  have hcells := storeAt_nil b.cells (hi ++ lo).toNat
  exact congrArg (fun c => { b with phase := .idle, ptr := (hi ++ lo).toNat, cells := c }) hcells

/-- A start with the control byte for reading and a count `v` make `v` bytes due from the address
counter on. -/
theorem Bus.fmt_request (b : Bus) {v : Byte} (hv : v ≠ 0) :
    (b.fmt 0xA1 .start).fmt v .rx =
      { b with
        phase := .reading
        due := b.due ++ readOut b.cells b.ptr v.toNat
        reads := (b.ptr, v.toNat) :: b.reads
        ptr := (b.ptr + v.toNat) % blockSize } := by
  have hlen : rxLen v = v.toNat := if_neg hv
  show (b.fmt 0xA1 .start).request (rxLen v) = _
  rw [hlen]
  rfl

/-- The calls that neither queue a byte nor take one. -/
def I2cCall.control : I2cCall → Bool
  | .getFifoLevels | .spinTicks _ | .hostSetEnabled _ => true
  | _ => false

theorem bus_control {image : Nat → Byte} {t : I2cTrace} {q : I2cCall} (hq : q.control) (r : Reply) :
    bus image ((q, r) :: t) = bus image t := by
  show (if r.ret = 0 then _ else _) = _
  cases q with
  | getFifoLevels | spinTicks | hostSetEnabled => exact ite_self _
  | writeByte | readByte => cases hq

/-! ## The DIF -/

def lfmt (d : Nat → Byte) : Byte := d 0

def lrx (d : Nat → Byte) : Byte := d 1

def ltx (d : Nat → Byte) : Byte := d 2

def lacq (d : Nat → Byte) : Byte := d 3

/-- `!(lfmt || lrx || ltx || lacq)`: all four FIFOs are empty. -/
def vacated (d : Nat → Byte) : Prop := lfmt d = 0 ∧ lrx d = 0 ∧ ltx d = 0 ∧ lacq d = 0

instance (d : Nat → Byte) : Decidable (vacated d) := by
  unfold vacated
  infer_instance

/-- What the DIF does, `arrived t` being the number of bytes received so far. -/
structure Delivers (image : Nat → Byte) (env : Env I2cCall) (arrived : I2cTrace → Nat) : Prop where
  arrived_mono : ∀ t c, arrived t ≤ arrived (c :: t)
  /-- The RX FIFO holds only bytes that have arrived and were not taken yet. -/
  lrx_le : ∀ t, (env t .getFifoLevels).ret = 0 →
    (bus image t).taken + (lrx (env t .getFifoLevels).out).toNat ≤ arrived t
  /-- With all FIFOs empty every byte asked for has arrived and was taken. -/
  vacated_taken : ∀ t, (env t .getFifoLevels).ret = 0 → vacated (env t .getFifoLevels).out →
    (bus image t).taken = (bus image t).due.length
  /-- Bytes that have arrived are handed over in order. -/
  in_order : ∀ t, (env t .readByte).ret = 0 → (bus image t).taken < arrived t →
    (bus image t).due[(bus image t).taken]? = some ((env t .readByte).out 0)

/-- A DIF and a bus without delay or error. -/
def promptDif (image : Nat → Byte) : Env I2cCall := fun t q =>
  match q with
  | .getFifoLevels =>
    ⟨0, fun i => if i = 1 then
      BitVec.ofNat 8 (min 255 ((bus image t).due.length - (bus image t).taken)) else 0⟩
  | .readByte => ⟨0, fun _ => (bus image t).due.getD (bus image t).taken 0⟩
  | _ => ⟨0, fun _ => 0⟩

theorem Bus.byte_due (b : Bus) (v : Byte) :
    (b.byte v).due = b.due ∧ (b.byte v).taken = b.taken := by
  unfold Bus.byte
  split
  all_goals exact ⟨rfl, rfl⟩

theorem Bus.stop_due (b : Bus) : b.stop.due = b.due ∧ b.stop.taken = b.taken := by
  unfold Bus.stop
  split
  all_goals exact ⟨rfl, rfl⟩

/-- Bytes due are only added, and taken by reads alone. -/
theorem Bus.fmt_due (b : Bus) (v : Byte) (fmt : I2cFmt) :
    b.due.length ≤ (b.fmt v fmt).due.length ∧ (b.fmt v fmt).taken = b.taken := by
  cases fmt with
  | start => exact ⟨Nat.le_refl _, rfl⟩
  | tx =>
    obtain ⟨hdue, htaken⟩ := b.byte_due v
    exact ⟨Nat.le_of_eq (congrArg List.length hdue.symm), htaken⟩
  | txStop =>
    obtain ⟨hdue, htaken⟩ := b.byte_due v
    obtain ⟨hdue', htaken'⟩ := (b.byte v).stop_due
    exact ⟨Nat.le_of_eq (congrArg List.length (hdue'.trans hdue).symm), htaken'.trans htaken⟩
  | rx =>
    show _ ≤ (b.request _).due.length ∧ (b.request _).taken = _
    unfold Bus.request
    split
    · refine ⟨?_, rfl⟩
      rw [List.length_append]
      exact Nat.le_add_right _ _
    · exact ⟨Nat.le_refl _, rfl⟩

theorem due_mono (image : Nat → Byte) (t : I2cTrace) (c : I2cCall × Reply) :
    (bus image t).due.length ≤ (bus image (c :: t)).due.length := by
  show _ ≤ ((bus image t).next c).due.length
  unfold Bus.next
  split
  · split
    · exact ((bus image t).fmt_due _ _).1
    · exact Nat.le_refl _
    · exact Nat.le_refl _
  · exact Nat.le_refl _

theorem taken_le (image : Nat → Byte) (t : I2cTrace) :
    (bus image t).taken ≤ (bus image t).due.length := by
  induction t with
  | nil => exact Nat.le_refl _
  | cons c t ih =>
    show ((bus image t).next c).taken ≤ ((bus image t).next c).due.length
    unfold Bus.next
    split
    · split
      · next v fmt _ _ =>
        obtain ⟨hdue, htaken⟩ := (bus image t).fmt_due v fmt
        rw [htaken]
        exact Nat.le_trans ih hdue
      · exact Nat.min_le_right _ _
      · exact ih
    · exact ih

theorem promptDif_lrx (image : Nat → Byte) (t : I2cTrace) :
    (lrx (promptDif image t .getFifoLevels).out).toNat =
      min 255 ((bus image t).due.length - (bus image t).taken) := by
  show (BitVec.ofNat 8 _).toNat = _
  rw [BitVec.toNat_ofNat, Nat.mod_eq_of_lt (by omega)]

theorem promptDif_delivers (image : Nat → Byte) :
    Delivers image (promptDif image) fun t => (bus image t).due.length where
  arrived_mono := due_mono image
  lrx_le t _ := by
    have hle := taken_le image t
    rw [promptDif_lrx]
    omega
  vacated_taken t _ h := by
    have hle := taken_le image t
    have hlrx := promptDif_lrx image t
    rw [h.2.1] at hlrx
    have hzero : (0 : Byte).toNat = 0 := rfl
    omega
  in_order t _ h := by
    show _ = some ((bus image t).due.getD (bus image t).taken 0)
    rw [List.getD_eq_getElem?_getD, List.getElem?_eq_getElem h]
    rfl

end Cheshire.Sw
