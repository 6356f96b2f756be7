import Cheshire.Lib.Scan

/-!
# `elfloader.cpp`: the header structs

The loader casts the mapped file to the structs of one of the two classes and is
a template over them. A struct is its size and, for each member the loader uses,
the member's offset and width; `ElfClass` gives these for both classes. A member
has the value of its bytes, so its C type is its width.

`Ehdr`, `Phdr` and `Shdr` are the used members of a header with their values.
They are what conditions on a file are stated in: the loader's own reads go
through `Scan.fetch`.
-/

namespace Cheshire.Sim

open Scan

/-- A mapped file. `st_size` is an `off_t`, a signed 64-bit number. -/
structure File where
  bytes : List Byte
  size_lt : bytes.length < 2 ^ 63

/-- `size_t size`, the length of the mapped file. -/
def File.size (f : File) : Nat := f.bytes.length

/-- `IS_ELF32` or `IS_ELF64`, which of the two header layouts the file has. -/
inductive ElfClass where
  | elf32
  | elf64
  deriving DecidableEq, Repr

/-- A struct member, its offset and its width in bytes. -/
structure Member where
  off : Nat
  width : Nat

namespace ElfClass

/-- The bytes of an address, an offset or a size: `uint32_t` or `uint64_t`. -/
def word : ElfClass → Nat
  | .elf32 => 4
  | .elf64 => 8

/-! `Elf32_Ehdr`, `Elf64_Ehdr` -/

def eEntry : ElfClass → Member
  | .elf32 => ⟨24, 4⟩
  | .elf64 => ⟨24, 8⟩

def ePhoff : ElfClass → Member
  | .elf32 => ⟨28, 4⟩
  | .elf64 => ⟨32, 8⟩

def eShoff : ElfClass → Member
  | .elf32 => ⟨32, 4⟩
  | .elf64 => ⟨40, 8⟩

def ePhnum : ElfClass → Member
  | .elf32 => ⟨44, 2⟩
  | .elf64 => ⟨56, 2⟩

def eShnum : ElfClass → Member
  | .elf32 => ⟨48, 2⟩
  | .elf64 => ⟨60, 2⟩

def eShstrndx : ElfClass → Member
  | .elf32 => ⟨50, 2⟩
  | .elf64 => ⟨62, 2⟩

/-! `Elf32_Phdr`, `Elf64_Phdr` -/

def phdrSize : ElfClass → Nat
  | .elf32 => 32
  | .elf64 => 56

def pType (_ : ElfClass) : Member := ⟨0, 4⟩

def pOffset : ElfClass → Member
  | .elf32 => ⟨4, 4⟩
  | .elf64 => ⟨8, 8⟩

def pPaddr : ElfClass → Member
  | .elf32 => ⟨12, 4⟩
  | .elf64 => ⟨24, 8⟩

def pFilesz : ElfClass → Member
  | .elf32 => ⟨16, 4⟩
  | .elf64 => ⟨32, 8⟩

def pMemsz : ElfClass → Member
  | .elf32 => ⟨20, 4⟩
  | .elf64 => ⟨40, 8⟩

/-! `Elf32_Shdr`, `Elf64_Shdr` -/

def shdrSize : ElfClass → Nat
  | .elf32 => 40
  | .elf64 => 64

def shName (_ : ElfClass) : Member := ⟨0, 4⟩

def shOffset : ElfClass → Member
  | .elf32 => ⟨16, 4⟩
  | .elf64 => ⟨24, 8⟩

def shSize : ElfClass → Member
  | .elf32 => ⟨20, 4⟩
  | .elf64 => ⟨32, 8⟩

end ElfClass

/-- Where the pointer `buf + p` points in the file: pointers have 64 bits. -/
def ptr (p : Nat) : Nat := p % 2 ^ 64

/-- Read member `m` of the struct at `buf + p`. -/
def File.load (f : File) (p : Nat) (m : Member) : Except Stop Nat :=
  fetch f.bytes (ptr (p + m.off)) m.width

/-- The value of member `m` of the struct at `buf + p`. -/
def File.value (f : File) (p : Nat) (m : Member) : Nat := field f.bytes (ptr (p + m.off)) m.width

structure Ehdr where
  entry : Nat
  phoff : Nat
  shoff : Nat
  phnum : Nat
  shnum : Nat
  shstrndx : Nat
  deriving DecidableEq, Repr

structure Phdr where
  type : Nat
  offset : Nat
  paddr : Nat
  filesz : Nat
  memsz : Nat
  deriving DecidableEq, Repr

structure Shdr where
  name : Nat
  offset : Nat
  size : Nat
  deriving DecidableEq, Repr

def File.ehdr (f : File) (c : ElfClass) : Ehdr where
  entry := f.value 0 c.eEntry
  phoff := f.value 0 c.ePhoff
  shoff := f.value 0 c.eShoff
  phnum := f.value 0 c.ePhnum
  shnum := f.value 0 c.eShnum
  shstrndx := f.value 0 c.eShstrndx

/-- The members that `load_elf` uses of the program header at `p`. -/
def File.phdrAt (f : File) (c : ElfClass) (p : Nat) : Phdr where
  type := f.value p c.pType
  offset := f.value p c.pOffset
  paddr := f.value p c.pPaddr
  filesz := f.value p c.pFilesz
  memsz := f.value p c.pMemsz

/-- The members that `load_elf` uses of the section header at `p`. -/
def File.shdrAt (f : File) (c : ElfClass) (p : Nat) : Shdr where
  name := f.value p c.shName
  offset := f.value p c.shOffset
  size := f.value p c.shSize

/-- `IS_ELF32(hdr)`, `IS_ELF64(hdr)`, of a file that has a header. -/
def File.elfClass? (f : File) : Option ElfClass :=
  if f.bytes.take 4 = [0x7f, 0x45, 0x4c, 0x46] then
    if f.bytes[4]? = some 1 then some .elf32
    else if f.bytes[4]? = some 2 then some .elf64
    else none
  else none

/-! ## Writing an ELF64 file -/

def File.ofBytes (bytes : List Byte) (h : bytes.length < 2 ^ 63) : File := ⟨bytes, h⟩

/-- An `Elf64_Ehdr` with these members and zeros in the others. -/
def ehdrBytes (h : Ehdr) : List Byte :=
  [0x7f, 0x45, 0x4c, 0x46, 2] ++ List.replicate 19 0 ++ bytesOf 8 h.entry ++ bytesOf 8 h.phoff
    ++ bytesOf 8 h.shoff ++ List.replicate 8 0 ++ bytesOf 2 h.phnum ++ List.replicate 2 0
    ++ bytesOf 2 h.shnum ++ bytesOf 2 h.shstrndx

/-- The bytes of an `Elf64_Phdr` with these members, the others zero. -/
def phdrBytes (h : Phdr) : List Byte :=
  bytesOf 4 h.type ++ List.replicate 4 0 ++ bytesOf 8 h.offset ++ List.replicate 8 0
    ++ bytesOf 8 h.paddr ++ bytesOf 8 h.filesz ++ bytesOf 8 h.memsz ++ List.replicate 8 0

/-- The bytes of an `Elf64_Shdr` with these members, the others zero. -/
def shdrBytes (h : Shdr) : List Byte :=
  bytesOf 4 h.name ++ List.replicate 20 0 ++ bytesOf 8 h.offset ++ bytesOf 8 h.size
    ++ List.replicate 24 0

end Cheshire.Sim
