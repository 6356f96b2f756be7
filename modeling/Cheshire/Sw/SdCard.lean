import Cheshire.Lib.Mem
import Cheshire.Sw.SdCrc

/-!
# `spi_sdcard.c`: commands and block reads

Everything on the SPI bus is a segment: bytes sent, bytes received, or dummy cycles.
The SPI host's DIF is not part of this repository; a segment is a call, and the
environment answers it with any return value and, for a receiving segment, any bytes.

A command is a six-byte frame, and then bytes are polled until a response comes. A block
read sends one command, and for each block polls for a token, receives the 512 bytes in
chunks of at most a FIFO, and then the CRC. The first and the last block go through a
swap buffer if only part of them is asked for.
-/

namespace Cheshire.Sw

open Firmware Firmware.Prog

inductive SpiSeg where
  | tx (data : List Byte)
  | rx (len : Nat)
  | dummy (cycles : Nat)
  deriving DecidableEq, Repr

/-- `dif_spi_host_transaction`, or `.._csaat`, of one segment. -/
structure SpiCall where
  csid : Nat
  csaat : Bool
  seg : SpiSeg
  deriving DecidableEq, Repr

/-- `spi_sdcard_t`: the fields the transfers read. -/
structure SdHandle where
  csid : Nat
  csidDummy : Nat

/-- The caller's memory, and the `swap` buffer of `__spi_sdcard_read`. The other
variables that bytes are received into hold one value and are not in memory here. -/
inductive SdObj where
  | caller
  | swap
  deriving DecidableEq, Repr

abbrev SdMem := Mem SdObj

abbrev SdSt := St SpiCall SdMem

abbrev SdProg := Prog SpiCall SdMem

/-- Byte `k` of a word, the least significant one first. -/
def byteOf (v : BitVec 64) (k : Nat) : Byte := (v >>> (8 * k)).setWidth 8

/-- The first `n` bytes of a word in memory. -/
def leBytes (v : BitVec 64) (n : Nat) : List Byte := (List.range n).map (byteOf v)

/-! ## Segments -/

/-- `__spi_sdcard_xfer_csaat(handle, NULL, tx, len)`. -/
def sdTx (h : SdHandle) (data : List Byte) : SdProg Unit := do
  let r ← ask ⟨h.csid, true, .tx data⟩
  retCode r.ret

/-- `__spi_sdcard_xfer_csaat(handle, rx, NULL, len)` into variables. -/
def sdRx (h : SdHandle) (len : Nat) : SdProg (Nat → Byte) := check ⟨h.csid, true, .rx len⟩

/-- `__spi_sdcard_xfer_csaat(handle, rx, NULL, len)` into memory. A segment that fails may
have been received all the same. -/
def sdRxTo (h : SdHandle) (dst : SdObj × Int) (len : Nat) : SdProg Unit := do
  let r ← ask ⟨h.csid, true, .rx len⟩
  modifyMem fun m => m.write dst.1 dst.2 r.out len
  retCode r.ret

/-- `__spi_sdcard_csfree`: eight dummy clocks at the dummy chip select, so that the card lets go
of the bus. -/
def sdCsfree (h : SdHandle) : SdProg Unit := do
  let r ← ask ⟨h.csidDummy, false, .dummy 8⟩
  retCode r.ret

/-- `do CHECK_CALL(xfer one byte) while (--timeout && again(byte))`: the last byte, and
what is left of the timeout. -/
def sdPoll (h : SdHandle) (again : Byte → Bool) : (timeout : Nat) → SdProg (Byte × Nat)
  | 0 => stop .spin
  | timeout + 1 => do
    let d ← sdRx h 1
    if timeout ≠ 0 ∧ again (d 0) then sdPoll h again timeout else pure (d 0, timeout)

/-! ## Commands -/

inductive SdResp where
  | r1
  | r1b
  | r2
  | r3
  | r7
  deriving DecidableEq, Repr

/-- `__spi_sdcard_resp_len`, the bytes of a response by its type. -/
def SdResp.len : SdResp → Nat
  | .r1 => 1
  | .r1b => 1
  | .r2 => 2
  | .r3 => 5
  | .r7 => 5

/-- `__spi_sdcard_r1b_timeout`, in polls. -/
def sdR1bTimeout : Nat := 10000

/-- `__spi_sdcard_data_timeout`, in polls. -/
def sdDataTimeout : Nat := 10000

/-- What follows the first byte of a response: the bytes behind it. -/
def sdRespRest (h : SdHandle) (resp : SdResp) : SdProg (List Byte) := do
  if resp = .r1b then do
    let (_, timeout) ← sdPoll h (· == 0) sdR1bTimeout
    retCode (if timeout = 0 then 0x13 else 0)
    pure []
  else if resp.len - 1 ≠ 0 then do
    let d ← sdRx h (resp.len - 1)
    pure ((List.range (resp.len - 1)).map d)
  else pure []

/-- The stuff byte behind CMD12, which is received and discarded. -/
def sdStuffByte (h : SdHandle) (cmd : BitVec 64) : SdProg Unit :=
  if cmd &&& 0xFF = 0x4C then do let _ ← sdRx h 1 else pure ()

def sdRelease (h : SdHandle) (csaat : Bool) : SdProg Unit := if csaat then pure () else sdCsfree h

/-- `__spi_sdcard_cmd`: the response, as it is stored to `rdata`. -/
def sdCmd (h : SdHandle) (cmd : BitVec 64) (resp : SdResp) (csaat : Bool) : SdProg (List Byte) := do
  sdTx h (leBytes cmd 6)
  sdStuffByte h cmd
  let (r, timeout) ← sdPoll h (·.msb) 8
  retCode (if timeout = 0 then 0x12 else 0)
  let rest ← sdRespRest h resp
  sdRelease h csaat
  pure (r :: rest)

/-- A 64-bit variable that held `v` after `bytes` have been stored to its start. -/
def overlay (v : BitVec 64) (bytes : List Byte) : BitVec 64 :=
  le64 (fun i => bytes.getD i (byteOf v i)) 0

/-- What C leaves open in `__spi_sdcard_cmd_check`, and anything may be: what the uninitialised
`buf` holds, and the mask of a five-byte response. -/
structure SdJunk where
  buf : BitVec 64
  mask : BitVec 64

/-- `(1 << (8UL * len)) - 1`. The 1 is an `int`, so the shift by 40 has no value in C: an
optimizer may fold the mask to all ones, and a shift of a word on RV64 makes it `0xFF`. -/
def sdRespMask (junk : SdJunk) (resp : SdResp) : BitVec 64 :=
  if 8 * resp.len < 32 then (((1 : BitVec 32) <<< (8 * resp.len)) - 1).signExtend 64
  else junk.mask

/-- `__spi_sdcard_cmd_check`: a command, its response, and the comparison under the mask. -/
def sdCmdCheck (h : SdHandle) (cmd : BitVec 64) (resp : SdResp) (junk : SdJunk)
    (checkExp : Option (BitVec 64)) : SdProg Unit := do
  let rdata ← sdCmd h cmd resp false
  let buf := overlay junk.buf rdata
  let respMask := sdRespMask junk resp
  match checkExp with
  | none => pure ()
  | some exp =>
    retCode (if buf &&& respMask ≠ exp &&& respMask then (buf &&& respMask).setWidth 32 else 0)

/-- The opcode and the argument, which is big-endian. -/
def sdCmdWord (opcode : Byte) (arg : BitVec 32) : BitVec 64 :=
  let a : BitVec 64 := arg.setWidth 64
  opcode.setWidth 64 ||| (((a >>> 24) &&& 0xFF) <<< 8) ||| (((a >>> 16) &&& 0xFF) <<< 16)
    ||| (((a >>> 8) &&& 0xFF) <<< 24) ||| (((a >>> 0) &&& 0xFF) <<< 32)

/-- `__spi_sdcard_build_cmd`: opcode, argument and the checksum byte. -/
def sdBuildCmd (opcode : Byte) (arg : BitVec 32) : BitVec 64 :=
  let cmd := sdCmdWord opcode arg
  let crcbyte := ((sdCrc7 (leBytes cmd 5)).setWidth 64 <<< 1) ||| 1
  (crcbyte <<< 40) ||| cmd

/-! ## Block reads -/

/-- `4 * SPI_HOST_PARAM_RX_DEPTH`, the most that one transfer receives. -/
def rxFifoBytes (rxDepth : Nat) : Nat := 4 * rxDepth

/-- Each chunk of `len` bytes starts inside them. -/
theorem rxChunk_lt {len f i : Nat} (hfifo : 0 < f) (hi : i < (len + (f - 1)) / f) :
    f * i < len := by
  have hle := (Nat.le_div_iff_mul_le hfifo).mp (Nat.succ_le_of_lt hi)
  rw [Nat.succ_mul, Nat.mul_comm] at hle
  omega

theorem rxChunk_next {len f i : Nat} (hlt : f * i < len) :
    min len (f * (i + 1)) = f * i + min f (len - f * i) := by
  rw [Nat.mul_succ]
  omega

/-- The number of chunks that the driver computes is enough to reach the end of what is received. -/
theorem rxChunks_end {len f : Nat} (hfifo : 0 < f) :
    min len (f * ((len + (f - 1)) / f)) = len := by
  have hmod := Nat.div_add_mod (len + (f - 1)) f
  have hlt := Nat.mod_lt (len + (f - 1)) hfifo
  omega

/-- Receive a block to `dst`, in chunks of at most a FIFO. -/
def sdRxBlock (h : SdHandle) (rxDepth : Nat) (dst : SdObj × Int) : SdProg Unit :=
  upTo ((512 + (rxFifoBytes rxDepth - 1)) / rxFifoBytes rxDepth) fun i =>
    let offs := rxFifoBytes rxDepth * i
    sdRxTo h (dst.1, dst.2 + offs) (min (rxFifoBytes rxDepth) (512 - offs))

/-- The `n` bytes at offset `p` of an object. -/
def bytesAt (m : SdMem) (p : SdObj × Int) (n : Nat) : List Byte :=
  (List.range n).map fun i => m.get p.1 (p.2 + (i : Nat))

/-- The arguments of `__spi_sdcard_read_blocks` that its loop reads. -/
structure SdRead where
  handle : SdHandle
  rxDepth : Nat
  /-- `buf`, moved to the start of the first block. -/
  base : Int
  len : Nat
  firstOffs : Nat
  lastLen : Nat
  checkCrc : Bool

def SdRead.firstBlock (p : SdRead) (b : Nat) : Bool := b == 0 && p.firstOffs != 0

def SdRead.lastBlock (p : SdRead) (b : Nat) : Bool := b == p.len - 1 && p.lastLen != 512

def SdRead.blockDst (p : SdRead) (b : Nat) : Int := p.base + 512 * b

/-- `block_buf`: the swap buffer for a first or last block that is not read as a whole, else the
caller's. -/
def SdRead.blockBuf (p : SdRead) (b : Nat) : SdObj × Int :=
  if p.firstBlock b || p.lastBlock b then (.swap, 0) else (.caller, p.blockDst b)

/-- The contents of a buffered block that the caller asked for go to the destination. -/
def SdRead.copyOut (p : SdRead) (b : Nat) (m : SdMem) : SdMem :=
  if p.firstBlock b && p.lastBlock b then
    m.copy (.caller, p.blockDst b + p.firstOffs) (.swap, p.firstOffs) (p.lastLen - p.firstOffs)
  else if p.firstBlock b then
    m.copy (.caller, p.blockDst b + p.firstOffs) (.swap, p.firstOffs) (512 - p.firstOffs)
  else if p.lastBlock b then
    m.copy (.caller, p.blockDst b) (.swap, 0) p.lastLen
  else m

/-- Receive the CRC of the block in `block_buf` and check it. -/
def SdRead.crc (p : SdRead) (b : Nat) : SdProg Unit := do
  let d ← sdRx p.handle 2
  let m ← getMem
  retCode (if p.checkCrc ∧ le16 d ≠ sdCrc16 (bytesAt m (p.blockBuf b) 512) then 0x21 else 0)

/-- The loop body of `__spi_sdcard_read_blocks`. -/
def SdRead.block (p : SdRead) (b : Nat) : SdProg Unit := do
  let (token, timeout) ← sdPoll p.handle (· == 0xFF) sdDataTimeout
  retCode (if timeout = 0 then 0x19 else 0)
  retCode (if token ≠ 0xFE then 0x20 else 0)
  sdRxBlock p.handle p.rxDepth (p.blockBuf b)
  p.crc b
  modifyMem (p.copyOut b)

/-- CMD12 ends a transfer of more than one block. `junk` is a stack variable. -/
def sdFinish (h : SdHandle) (junk : SdJunk) (len : Nat) : SdProg Unit :=
  if len > 1 then sdCmdCheck h 0x61000000004C .r1b junk none else sdCsfree h

/-- `__spi_sdcard_read_blocks`: the command, the blocks, and the end of the read. -/
def sdReadBlocks (h : SdHandle) (rxDepth : Nat) (junk : SdJunk) (buf : Int) (block len : Nat)
    (firstOffs lastLen : Nat) (checkCrc : Bool) : SdProg Unit :=
  if len = 0 then pure ()
  else do
    let cmd := sdBuildCmd (if len > 1 then 0x52 else 0x51) (BitVec.ofNat 32 block)
    let _ ← sdCmd h cmd .r1 true
    upTo len (SdRead.block ⟨h, rxDepth, buf - firstOffs, len, firstOffs, lastLen, checkCrc⟩)
    sdFinish h junk len

/-- `__spi_sdcard_read`, which turns a byte range into blocks with offsets. -/
def sdRead (h : SdHandle) (rxDepth : Nat) (junk : SdJunk) (buf : Int) (addr len : Nat)
    (checkCrc : Bool) : SdProg Unit :=
  if len = 0 then pure ()
  else
    let pteOffs := (addr + len) % 512
    let lastLen := if pteOffs = 0 then 512 else pteOffs
    let lenBlocks := (len + addr % 512 + 511) / 512
    sdReadBlocks h rxDepth junk buf (addr / 512) lenBlocks (addr % 512) lastLen checkCrc

/-- `spi_sdcard_read_checkcrc`, a read with the checksums of the blocks checked. -/
def sdReadCheckcrc (h : SdHandle) (rxDepth : Nat) (junk : SdJunk) (buf : Int) (addr len : Nat) :
    SdProg Unit :=
  sdRead h rxDepth junk buf addr len true

/-- `spi_sdcard_read_ignorecrc`, a read without a check of the checksums. -/
def sdReadIgnorecrc (h : SdHandle) (rxDepth : Nat) (junk : SdJunk) (buf : Int) (addr len : Nat) :
    SdProg Unit :=
  sdRead h rxDepth junk buf addr len false

end Cheshire.Sw
