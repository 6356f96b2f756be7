import Cheshire.Sim.ElfFile

/-!
# `elfloader.cpp`: the loader and its globals

`read_elf` maps a file and hands it to `load_elf`, which records the loadable
segments in globals that live as long as the simulation: a list of addresses and
sizes, a map from addresses to contents, and the entry point. `get_section` walks
the list with a cursor of its own, `read_section` copies out of the map.

A run of the loader may stop early. A failed assertion ends the process; a read
outside the file or an overflow of an `int` leaves nothing to say.
-/

namespace Cheshire.Sim

open Scan

structure Globals where
  /-- `std::vector<std::pair<uint64_t, uint64_t>> sections` -/
  sections : List (Nat × Nat) := []
  /-- `std::map<uint64_t, std::vector<uint8_t>> mems` -/
  mems : Nat → Option (List Byte) := fun _ => none
  entry : Nat := 0
  sectionIndex : Nat := 0

/-- `mems.insert(std::make_pair(address, mem))`: an address that is there stays. -/
def Globals.insert (g : Globals) (address : Nat) (mem : List Byte) : Globals :=
  { g with
    mems := fun a => if a = address then some ((g.mems address).getD mem) else g.mems a }

/-- `for (int i = 0; i < len; i++) mem.push_back(buf[i])` from index `i` on, `n` bytes left. -/
def copyFrom (b : List Byte) (buf : Nat) : Nat → Nat → Except Stop (List Byte)
  | _, 0 => .ok []
  | i, n + 1 => do
    let datum ← fetch b (ptr (buf + i)) 1
    -- `i++`
    if i + 1 = 2 ^ 31 then .error .undefined
    else
      let mem ← copyFrom b buf (i + 1) n
      .ok (BitVec.ofNat 8 datum :: mem)

def write (f : File) (g : Globals) (address len buf : Nat) : Except Stop Globals := do
  let mem ← copyFrom f.bytes buf 0 len
  .ok (g.insert address mem)

/-- The address and size of the next section, and the globals then. -/
def getSection (g : Globals) : Except Stop (Option (Nat × Nat) × Globals) :=
  match g.sections[g.sectionIndex]? with
  | some s =>
    -- `section_index++`
    if g.sectionIndex + 1 = 2 ^ 31 then .error .undefined
    else .ok (some s, { g with sectionIndex := g.sectionIndex + 1 })
  | none => .ok (none, g)

/-- The copy loop of `read_section`: `k` bytes are copied, `len` more fit. -/
def copyOut (buf : Nat → Byte) : Nat → List Byte → Nat → BitVec 8 × (Nat → Byte)
  | _, [], _ => (0, buf)
  | _, _ :: _, 0 => (-1, buf)
  | k, datum :: data, len + 1 =>
    copyOut (fun j => if j = k then datum else buf j) (k + 1) data len

/-- The return value and the buffer, an array of `len` bytes. -/
def readSection (g : Globals) (address : Nat) (buffer : Nat → Byte) (len : Nat) :
    BitVec 8 × (Nat → Byte) :=
  match g.mems address with
  | none => (-1, buffer)
  | some mem => copyOut buffer 0 mem len

/-- The errors that `load_elf` reports, by the check that failed. -/
inductive Rejected where
  | phdrs
  | shdrs
  | shstrndx
  | shstrtab
  deriving DecidableEq, Repr

/-- `if (ph[i].p_filesz)`: the check and the copy of a segment, for the header at `ph`. -/
def loadSegment (c : ElfClass) (f : File) (ph memsz filesz : Nat) (g : Globals) :
    Except Stop Globals :=
  if filesz ≠ 0 then do
    let offset ← f.load ph c.pOffset
    -- the sum has the type of its operands
    assert ((offset + filesz) % 2 ^ (8 * c.word) ≤ f.size)
    let paddr ← f.load ph c.pPaddr
    write f { g with sections := g.sections ++ [(paddr, memsz)] } paddr filesz offset
  else .ok g

/-- The body of the loop over the program headers; `ph` is where `ph[i]` is. -/
def loadPhdr (c : ElfClass) (f : File) (ph : Nat) (g : Globals) : Except Stop Globals := do
  let type ← f.load ph c.pType
  if type = 1 then
    let memsz ← f.load ph c.pMemsz
    if memsz ≠ 0 then
      let filesz ← f.load ph c.pFilesz
      let g ← loadSegment c f ph memsz filesz g
      -- the warning about the bytes that are not preloaded
      if filesz < memsz then
        let _ ← f.load ph c.pPaddr
        .ok g
      else .ok g
    else .ok g
  else .ok g

/-- `for (unsigned int i = 0; i < eh->e_phnum; i++)`, from the header at `ph` on. -/
def loadPhdrs (c : ElfClass) (f : File) : Nat → Nat → Globals → Except Stop Globals
  | _, 0, g => .ok g
  | ph, n + 1, g => do
    let g ← loadPhdr c f ph g
    loadPhdrs c f (ph + c.phdrSize) n g

/-- `".strtab"` and `".symtab"`. -/
def strtabName : List Byte := [0x2e, 0x73, 0x74, 0x72, 0x74, 0x61, 0x62]
def symtabName : List Byte := [0x2e, 0x73, 0x79, 0x6d, 0x74, 0x61, 0x62]

/-- The loop over the section headers, from the `i`th at `sh` on. The locals `strtabidx` and
`symtabidx` are its result, which nothing uses. -/
def scanNames (c : ElfClass) (f : File) (shstrtab : Nat) :
    Nat → Nat → Nat → Nat × Nat → Except Stop (Nat × Nat)
  | _, _, 0, idx => .ok idx
  | i, sh, n + 1, idx => do
    let name ← f.load sh c.shName
    let s ← string f.bytes (ptr (shstrtab + name))
    if s = strtabName then
      let _ ← f.load sh c.shOffset
      scanNames c f shstrtab (i + 1) (sh + c.shdrSize) n (i, idx.2)
    else
      let s ← string f.bytes (ptr (shstrtab + name))
      if s = symtabName then
        let _ ← f.load sh c.shOffset
        scanNames c f shstrtab (i + 1) (sh + c.shdrSize) n (idx.1, i)
      else scanNames c f shstrtab (i + 1) (sh + c.shdrSize) n idx

/-- `load_elf` from the section headers on, which only checks and looks up names. -/
def loadShdrs (c : ElfClass) (f : File) : Except Stop (Option Rejected) := do
  let shoff ← f.load 0 c.eShoff
  let shnum ← f.load 0 c.eShnum
  if f.size < (shoff + shnum * c.shdrSize) % 2 ^ 64 then .ok (some .shdrs)
  else
    let shstrndx ← f.load 0 c.eShstrndx
    if shnum ≤ shstrndx then .ok (some .shstrndx)
    else
      let offset ← f.load (shoff + shstrndx * c.shdrSize) c.shOffset
      let size ← f.load (shoff + shstrndx * c.shdrSize) c.shSize
      if f.size < (offset + size) % 2 ^ (8 * c.word) then .ok (some .shstrtab)
      else
        let _ ← scanNames c f offset 0 shoff shnum (0, 0)
        .ok none

/-- `load_elf`, with the error it reported. It returns nothing to its caller. -/
def loadElf (c : ElfClass) (f : File) (g : Globals) : Except Stop (Option Rejected × Globals) := do
  let phoff ← f.load 0 c.ePhoff
  let phnum ← f.load 0 c.ePhnum
  if f.size < (phoff + phnum * c.phdrSize) % 2 ^ 64 then .ok (some .phdrs, g)
  else
    let entry ← f.load 0 c.eEntry
    let g ← loadPhdrs c f phoff phnum { g with entry := entry }
    let rejected ← loadShdrs c f
    .ok (rejected, g)

/-- What `open`, `fstat` and `mmap` make of a file name. -/
inductive Opened where
  | noFile
  | noStat
  | noMap
  | mapped (f : File)

/-- `read_elf`, with what `load_elf` rejected. -/
def readElfLog (o : Opened) (g : Globals) :
    Except Stop ((Option Rejected × BitVec 8) × Globals) :=
  match o with
  | .noFile | .noStat | .noMap => .ok ((none, -1), g)
  | .mapped f =>
    if f.size < 64 then .ok ((none, -1), g)
    else
      match f.elfClass? with
      | none => .ok ((none, -1), g)
      | some c => do
        let (rejected, g) ← loadElf c f g
        -- `retval` is still what it was
        .ok ((rejected, 0), g)

def readElf (o : Opened) (g : Globals) : Except Stop (BitVec 8 × Globals) := do
  let r ← readElfLog o g
  .ok (r.1.2, r.2)

end Cheshire.Sim
