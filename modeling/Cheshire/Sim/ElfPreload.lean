import Mathlib.Data.List.Pairwise
import Cheshire.Sim.ElfSections
import Cheshire.Sim.Jtag
import Cheshire.Sim.Slink
import Cheshire.Sim.UartLockstep

/-!
# From an ELF file to memory

`jtag_elf_preload`, `uart_debug_elf_preload` and `slink_elf_preload` read the file with the
same loop and write each section their own way: the UART its bytes, JTAG and the serial link
whole words, so up to eight bytes behind it are lost.

In a file whose segments are in the order of their addresses a section is written behind all
bytes it may clear. All three tasks then leave the same image (`elfPreload_agrees`): the bytes
of the file, and zeros up to the size in memory.
-/

namespace Cheshire.Sim

open Span (Run Address Memory nth overlay store Within)
open Scan (Byte)

/-! ## The loop of the three tasks -/

theorem getSection_some {g g' : Globals} {sec : Nat × Nat} (h : getSection g = .ok (some sec, g')) :
    g'.sections = g.sections ∧ g'.sectionIndex = g.sectionIndex + 1 ∧
      g.sectionIndex < g.sections.length := by
  unfold getSection at h
  split at h
  next s hs =>
    split at h
    next => cases h
    next =>
      cases h
      exact ⟨rfl, rfl, (List.getElem?_eq_some_iff.mp hs).1⟩
  next => cases h

/-- `while (get_section(sec_addr, sec_len))`: the sections as they are read, into arrays that
start out as zeros; `none` is `$fatal`. -/
def elfSections (g : Globals) : Except Scan.Stop (Option (List (Nat × List Byte) × Globals)) :=
  match _h : getSection g with
  | .error e => .error e
  | .ok (none, g') => .ok (some ([], g'))
  | .ok (some (secAddr, secLen), g') =>
    let (ret, bf) := readSection g' secAddr (fun _ => 0) secLen
    if ret ≠ 0 then .ok none
    else
      match elfSections g' with
      | .error e => .error e
      | .ok none => .ok none
      | .ok (some (secs, g'')) => .ok (some ((secAddr, (List.range secLen).map bf) :: secs, g''))
termination_by g.sections.length - g.sectionIndex
decreasing_by
  obtain ⟨hsec, hidx, hlt⟩ := getSection_some _h
  rw [hsec, hidx]
  omega

/-- What the tasks get of a file: its sections, and `get_entry`. -/
def elfRead (o : Opened) (g : Globals) :
    Except Scan.Stop (Option (List (Nat × List Byte) × Nat)) := do
  let (ret, g) ← readElf o g
  if ret ≠ 0 then .ok none
  else
    let r ← elfSections g
    .ok (r.map fun r => (r.1, r.2.entry))

/-! ## Segments and sections -/

/-- Byte `k` of a segment in memory, zero behind the data of the file. -/
def Segment.byte (seg : Segment) (k : Nat) : Byte := seg.data.getD k 0

/-- `bf`, the buffer that a section of this segment is read into. -/
def Segment.bytes (seg : Segment) : List Byte := (List.range seg.memsz).map seg.byte

def Segment.addr (seg : Segment) : Address := BitVec.ofNat 64 seg.paddr

/-- The write of a segment, with what is written behind it. -/
def Segment.run (room : Segment → Nat) (seg : Segment) : Run := ⟨seg.addr, seg.byte, room seg⟩

/-- A file that can be preloaded: its segments ascend, and an `int` can count their bytes. -/
structure Elf.Preloadable (e : Elf) : Prop where
  ordered : e.segments.Pairwise fun s t => s.paddr + s.memsz ≤ t.paddr
  counts : e.Counts
  space : ∀ seg ∈ e.segments, seg.paddr + seg.memsz + 8 ≤ 2 ^ 64
  size : ∀ seg ∈ e.segments, seg.memsz < 2 ^ 62

/-- The segments are in memory, and what is further than `room` behind the start of each is as
it was. -/
structure Elf.LoadedIn (e : Elf) (room : Segment → Nat) (m m' : Memory) : Prop where
  holds : ∀ seg ∈ e.segments, ∀ k < seg.memsz, m' (nth seg.addr k) = seg.byte k
  keeps : ∀ x, (∀ seg ∈ e.segments, ¬Within seg.addr (room seg) x) → m' x = m x

namespace Elf

variable {e : Elf}

theorem segment_sizes {seg : Segment} (hseg : seg ∈ e.segments) :
    0 < seg.memsz ∧ seg.data.length ≤ seg.memsz := by
  obtain ⟨h, hh, hl, rfl⟩ := mem_segmentsOf.mp hseg
  have hlen := e.length_data hh hl
  have hle := (e.wf.segments h hh hl).2
  refine ⟨Nat.pos_of_ne_zero hl.2.1, ?_⟩
  show (e.file.data h).length ≤ h.memsz
  omega

/-- There are no more segments than program headers. -/
theorem length_segments_lt (e : Elf) : e.segments.length < 2 ^ 16 := by
  have hphdrs : ∀ n ph, (e.file.phdrsFrom e.cls ph n).length = n := by
    intro n
    induction n with
    | zero => exact fun _ => rfl
    | succ n ih => exact fun ph => congrArg (· + 1) (ih _)
  have hnum := (ehdr_lt e.file e.cls).2.2.1
  have hlen : (e.file.phdrs e.cls).length = (e.file.ehdr e.cls).phnum := hphdrs _ _
  have hfilter := List.length_filter_le (fun h => decide h.Loadable) (e.file.phdrs e.cls)
  unfold segments File.segmentsOf
  rw [List.length_map]
  omega

/-- No two segments of a preloadable file start at the same address, so a segment is the first at
its own. -/
theorem Preloadable.firstAt_eq (h : e.Preloadable) {seg : Segment} (hseg : seg ∈ e.segments) :
    firstAt e.segments seg.paddr = some seg := by
  have hsizes : ∀ s ∈ e.segments, 0 < s.memsz := fun s hs => (segment_sizes hs).1
  have hordered := h.ordered
  generalize e.segments = segs at hseg hsizes hordered
  induction segs with
  | nil => exact absurd hseg List.not_mem_nil
  | cons s segs ih =>
    obtain ⟨hs, hrest⟩ := List.pairwise_cons.mp hordered
    rcases List.mem_cons.mp hseg with rfl | hseg
    · exact firstAt_cons_self seg segs
    · have hpos := hsizes s List.mem_cons_self
      have hle := hs seg hseg
      rw [firstAt_cons_ne (by omega)]
      exact ih hseg (fun t ht => hsizes t (List.mem_cons_of_mem s ht)) hrest

theorem Preloadable.addr_toNat (h : e.Preloadable) {seg : Segment} (hseg : seg ∈ e.segments) :
    seg.addr.toNat = seg.paddr := by
  have hspace := h.space seg hseg
  unfold Segment.addr
  rw [BitVec.toNat_ofNat, Nat.mod_eq_of_lt (by omega)]

/-- Segments that ascend, each with up to eight bytes more than it has. -/
theorem Preloadable.loadedIn (h : e.Preloadable) {room : Segment → Nat}
    (hroom : ∀ seg ∈ e.segments, seg.memsz ≤ room seg ∧ room seg ≤ seg.memsz + 8) (m : Memory) :
    e.LoadedIn room m (overlay (e.segments.map (Segment.run room)) m) := by
  refine ⟨?_, fun x hx => ?_⟩
  · refine Span.overlay_ascending (h.ordered.imp_of_mem fun {s t} hs ht hle => ?_)
      (fun seg hseg => ?_) m
    · show s.addr.toNat + s.memsz ≤ t.addr.toNat
      rw [h.addr_toNat hs, h.addr_toNat ht]
      exact hle
    · have hspace := h.space seg hseg
      obtain ⟨hlo, hhi⟩ := hroom seg hseg
      refine ⟨hlo, ?_⟩
      show seg.addr.toNat + room seg ≤ 2 ^ 64
      rw [h.addr_toNat hseg]
      omega
  · refine Span.overlay_outside _ m fun r hr => ?_
    obtain ⟨seg, hseg, rfl⟩ := List.mem_map.mp hr
    exact hx seg hseg

end Elf

/-! ## Reading the file -/

theorem elfSections_done {g : Globals} (h : getSection g = .ok (none, g)) :
    elfSections g = .ok (some ([], g)) := by
  rw [elfSections]
  split
  next he => cases h.symm.trans he
  next he =>
    cases h.symm.trans he
    rfl
  next he => cases h.symm.trans he

theorem elfSections_next {g g' g'' : Globals} {a len : Nat} {bf : Nat → Byte}
    {secs : List (Nat × List Byte)} (h : getSection g = .ok (some (a, len), g'))
    (hread : readSection g' a (fun _ => 0) len = (0, bf))
    (hrest : elfSections g' = .ok (some (secs, g''))) :
    elfSections g = .ok (some ((a, (List.range len).map bf) :: secs, g'')) := by
  rw [elfSections]
  split
  next he => cases h.symm.trans he
  next he => cases h.symm.trans he
  next he =>
    cases h.symm.trans he
    rw [hread]
    dsimp only
    rw [if_neg (not_not.mpr rfl), hrest]

/-- The loop goes on over the segments that are left, each read back as it is. -/
theorem Inv.elfSections_eq : ∀ (n : Nat) {s : Session}, Inv s →
    s.loaded.length - s.returned.length = n → s.loaded.length < 2 ^ 31 →
    (∀ seg ∈ s.loaded, firstAt s.loaded seg.paddr = some seg) →
    ∃ g', elfSections s.g = .ok (some
      ((s.loaded.drop s.returned.length).map fun seg => (seg.paddr, seg.bytes), g')) ∧
      g'.entry = s.g.entry := by
  intro n
  induction n with
  | zero =>
    intro s hi hn _ _
    have hlen : s.loaded.length ≤ s.returned.length := by omega
    have hget := hi.getSection
    rw [List.getElem?_eq_none hlen] at hget
    rw [List.drop_eq_nil_of_le hlen]
    exact ⟨s.g, elfSections_done hget, rfl⟩
  | succ n ih =>
    intro s hi hn hlt hfirst
    have hnext : s.returned.length < s.loaded.length := by omega
    have hget := hi.getSection
    rw [List.getElem?_eq_getElem hnext] at hget
    have hseg := List.getElem_mem hnext
    rw [List.drop_eq_getElem_cons hnext]
    generalize s.loaded[s.returned.length] = seg at hget hseg
    dsimp only at hget
    rw [if_neg (by omega)] at hget
    have hstep : s.step .getSection = some { s with
        g := { s.g with sectionIndex := s.returned.length + 1 }
        returned := s.returned ++ [(seg.paddr, seg.memsz)] } := by
      unfold Session.step
      simp only [hget]
    obtain ⟨hi', -, hreturned⟩ := hi.step_getSection hstep
    rw [if_pos hnext] at hreturned
    -- `read_section` looks the segment up by its address, and finds this one
    have hmem : s.g.mems seg.paddr = some seg.data := by
      rw [hi.mems, hfirst seg hseg]
      rfl
    have hread := (@readSection_iff { s.g with sectionIndex := s.returned.length + 1 } seg seg.data
      hmem (hi.size seg hseg)).mpr rfl fun _ => 0
    obtain ⟨g', hrest, hentry⟩ := ih hi' (by
      rw [hreturned]
      show s.loaded.length - (s.returned.length + 1) = n
      omega) hlt hfirst
    rw [hreturned] at hrest
    refine ⟨g', (elfSections_next hget hread hrest).trans ?_, hentry⟩
    have himage : seg.image (fun _ => 0) = seg.byte := by
      funext k
      exact List.getD_eq_getElem?_getD.symm
    rw [himage]
    rfl

/-- The three tasks get the segments of the file, with zeros up to their size in memory. -/
theorem Elf.Preloadable.elfRead_eq {e : Elf} (h : e.Preloadable) :
    elfRead (.mapped e.file) {} = .ok (some
      (e.segments.map fun seg => (seg.paddr, seg.bytes), (e.file.ehdr e.cls).entry)) := by
  obtain ⟨hi, hloaded, hreturned⟩ := start_inv.readElf h.counts (step_readElf h.counts)
  have hlt := e.length_segments_lt
  obtain ⟨g', hsections, hentry⟩ := hi.elfSections_eq _ rfl
    (by rw [hloaded]; exact Nat.lt_trans hlt (by decide))
    (by rw [hloaded]; exact fun seg hseg => h.firstAt_eq hseg)
  rw [hloaded, hreturned] at hsections
  unfold elfRead
  rw [e.readElf_eq h.counts]
  show (do let r ← elfSections _; Except.ok _ : Except Scan.Stop _) = _
  rw [hsections]
  show Except.ok (some (_, g'.entry)) = _
  rw [hentry, recordAll_entry]
  rfl

/-! ## Sections -/

/-- The sizes of a segment that is a `Section`. -/
structure Segment.Sized (seg : Segment) : Prop where
  pos : 0 < seg.memsz
  fits : seg.data.length ≤ seg.memsz
  lt : seg.memsz < 2 ^ 62

theorem length_bytes (seg : Segment) : seg.bytes.length = seg.memsz := by
  unfold Segment.bytes
  rw [List.length_map, List.length_range]

/-- What `get_section` and `read_section` make of a segment. -/
def Segment.section (seg : Segment) (h : seg.Sized) : Section where
  addr := seg.addr
  bf := seg.bytes
  length_pos := by
    rw [length_bytes]
    exact h.pos
  length_lt := by
    rw [length_bytes]
    exact h.lt

theorem section_len {seg : Segment} (h : seg.Sized) : (seg.section h).len = seg.memsz :=
  length_bytes seg

theorem section_byte {seg : Segment} (h : seg.Sized) : (seg.section h).byte = seg.byte := by
  funext k
  show seg.bytes.getD k 0 = seg.data.getD k 0
  unfold Segment.bytes
  rw [List.getD_eq_getElem?_getD, List.getElem?_map]
  by_cases hk : k < seg.memsz
  · rw [List.getElem?_range hk]
    rfl
  · have hfits := h.fits
    rw [List.getElem?_eq_none (by rw [List.length_range]; omega), List.getD_eq_getElem?_getD,
      List.getElem?_eq_none (by omega)]
    rfl

/-- A segment that JTAG can write in doublewords, as a section. -/
def Segment.alignedSection (seg : Segment) (h : seg.Sized ∧ seg.paddr % 8 = 0) :
    AlignedSection where
  toSection := seg.section h.1
  aligned := by
    have haligned := h.2
    show (BitVec.ofNat 64 seg.paddr).toNat % 8 = 0
    rw [BitVec.toNat_ofNat]
    omega

namespace Elf

variable {e : Elf}

theorem Preloadable.sized (h : e.Preloadable) : ∀ seg ∈ e.segments, seg.Sized := fun seg hseg =>
  ⟨(segment_sizes hseg).1, (segment_sizes hseg).2, h.size seg hseg⟩

/-- The sections the UART and the serial link write. -/
def sections (e : Elf) (h : e.Preloadable) : List Section := e.segments.pmap Segment.section h.sized

/-- The sections that JTAG writes, in the order of the file. -/
def alignedSections (e : Elf) (h : e.Preloadable) (haligned : ∀ seg ∈ e.segments, seg.paddr % 8 = 0) :
    List AlignedSection :=
  e.segments.pmap Segment.alignedSection fun seg hseg => ⟨h.sized seg hseg, haligned seg hseg⟩

theorem Preloadable.apart (h : e.Preloadable) : (e.sections h).Pairwise Section.Apart := by
  have hle : e.segments.Pairwise fun s t =>
      s.addr.toNat + s.memsz ≤ t.addr.toNat ∧ t.addr.toNat + t.memsz ≤ 2 ^ 64 := by
    refine h.ordered.imp_of_mem fun {s t} hs ht hle => ?_
    have hspace := h.space t ht
    rw [h.addr_toNat hs, h.addr_toNat ht]
    omega
  refine hle.pmap h.sized fun s hs t ht hst => apart_of_le ?_ ?_
  · rw [section_len]
    exact hst.1
  · rw [section_len]
    exact hst.2

/-- What `uart_debug_elf_preload` preloads, with `UartBurstBytes`. -/
def image (e : Elf) (h : e.Preloadable) (burst : Nat) (hburst : 0 < burst ∧ burst < 2 ^ 31) :
    Uart.Image where
  sections := e.sections h
  apart := h.apart
  burst := burst
  burst_pos := hburst.1
  block_lt := fun s _ => by
    have hlt := hburst.2
    omega

/-! ## The three ways to write them -/

theorem loadedIn_of_loaded (h : e.Preloadable) {m m' : Memory}
    (hloaded : Uart.Loaded (e.sections h) m m') : e.LoadedIn Segment.memsz m m' := by
  refine ⟨fun seg hseg k hk => ?_, fun x hx => hloaded.2 x fun s hs => ?_⟩
  · have hbyte := hloaded.1 _ (List.mem_pmap_of_mem hseg) k (by rw [section_len]; exact hk)
    rw [section_byte] at hbyte
    exact hbyte
  · obtain ⟨seg, hseg, rfl⟩ := List.mem_pmap.mp hs
    rw [section_len]
    exact hx seg hseg

end Elf

theorem jtagElfPreload_overlay : ∀ (secs : List AlignedSection) (b : SysBus),
    (jtagElfPreload b secs).mem = overlay (secs.map fun s => ⟨s.addr, s.byte, s.span⟩) b.mem
  | [], _ => rfl
  | s :: secs, b => by
    refine (jtagElfPreload_overlay secs (jtagSection b s)).trans ?_
    rw [jtagSection_mem]
    rfl

/-- The number of bytes that JTAG writes for a segment, the extra word included. -/
def jtagRoom (seg : Segment) : Nat := 8 * (seg.memsz / 8 + 1)

theorem Elf.Preloadable.jtag {e : Elf} (h : e.Preloadable)
    (haligned : ∀ seg ∈ e.segments, seg.paddr % 8 = 0) (b : SysBus) :
    e.LoadedIn jtagRoom b.mem (jtagElfPreload b (e.alignedSections h haligned)).mem := by
  have hruns : (e.alignedSections h haligned).map (fun s => (⟨s.addr, s.byte, s.span⟩ : Run))
      = e.segments.map (Segment.run jtagRoom) := by
    unfold Elf.alignedSections
    rw [List.map_pmap, ← @List.pmap_eq_map _ _ (fun seg => seg.Sized ∧ seg.paddr % 8 = 0) _ _
      fun seg hseg => ⟨h.sized seg hseg, haligned seg hseg⟩]
    refine List.pmap_congr_left _ fun seg _ hs _ => ?_
    show (⟨seg.addr, (seg.section hs.1).byte, 8 * ((seg.section hs.1).len / 8 + 1)⟩ : Run) = _
    rw [section_byte, section_len]
    rfl
  rw [jtagElfPreload_overlay, hruns]
  refine h.loadedIn (fun seg _ => ?_) b.mem
  unfold jtagRoom
  omega

/-- The loop of `slink_elf_preload` over the sections; a fatal write ends it. -/
def slinkElfPreloads (w : AddrT) : List Section → Option (List (Axi.Burst Byte))
  | [] => some []
  | s :: secs => do
    let bursts ← slinkElfPreload w s
    let rest ← slinkElfPreloads w secs
    some (bursts ++ rest)

/-- Up to where the last beat of a section goes. -/
def slinkSpan (s : Section) : Nat := 8 * ((s.busOffset + s.len + 7) / 8) - s.busOffset

section slink

variable {w : AddrT} {s : Section}

/-- Together the bursts of a section leave nothing out, up to the end of the last beat. -/
theorem SlinkFits.covered_iff (h : SlinkFits w s) {x : Nat} :
    (∃ j < s.len / 1024 + 1, Covered s (0 + 1024 * j) x) ↔
      s.addr.toNat ≤ x ∧ x < s.addr.toNat + slinkSpan s := by
  have hoff : s.busOffset = s.addr.toNat % 8 := rfl
  have hfirst := h.first
  have hlast := h.last
  have hpos := s.len_pos
  unfold Covered slinkSpan beatCount
  constructor
  · intro hcov
    obtain ⟨j, hj, hlo, hhi⟩ := hcov
    omega
  · intro hx
    refine ⟨(x - s.addr.toNat) / 1024, ?_, ?_, ?_⟩
    · omega
    · omega
    · omega

/-- The bursts of one section are legal and leave in memory what a single write of its padded
bytes would. -/
theorem SlinkFits.store (h : SlinkFits w s) (hspace : s.addr.toNat + s.len + 8 ≤ 2 ^ 64) :
    ∃ bursts, slinkElfPreload w s = some bursts ∧ (∀ b ∈ bursts, b.Legal) ∧
      ∀ m : Nat → Byte, (fun x : Address => slinkMemory bursts m x.toNat)
        = Span.store (fun x => m x.toNat) s.addr s.byte (slinkSpan s) := by
  refine ⟨burstsFrom w s 0 (s.len / 1024 + 1), slinkElfPreload_eq.mpr
    ⟨fun j hj => h.burst_lt hj, rfl⟩, fun b hb => ?_, fun m => ?_⟩
  · obtain ⟨j, hj, rfl⟩ := mem_burstsFrom.mp hb
    rw [Nat.zero_add]
    exact h.burst_legal hj
  · funext x
    have hstart : ∀ j < s.len / 1024 + 1, s.addr.toNat + (0 + 1024 * j) < 2 ^ w.width := by
      intro j hj
      rw [Nat.zero_add]
      exact h.start_lt hj
    rw [slinkMemory_eq x.toNat _ _ m (Nat.dvd_zero 8) hstart]
    have hspan : slinkSpan s ≤ s.len + 7 := by
      unfold slinkSpan
      omega
    have hin := @Span.within_iff_le s.addr x (slinkSpan s) (by omega)
    unfold Span.store
    by_cases hx : Within s.addr (slinkSpan s) x
    · have hle := (hin.mp hx).1
      have hdiff : (x - s.addr).toNat = x.toNat - s.addr.toNat :=
        BitVec.toNat_sub_of_le (BitVec.le_def.mpr hle)
      rw [if_pos (h.covered_iff.mpr (hin.mp hx)), if_pos hx, hdiff]
    · rw [if_neg fun hcov => hx (hin.mpr (h.covered_iff.mp hcov)), if_neg hx]

/-- The bursts of all sections leave in memory what one write for each, in the same order, would. -/
theorem slinkElfPreloads_overlay : ∀ (secs : List Section),
    (∀ s ∈ secs, SlinkFits w s ∧ s.addr.toNat + s.len + 8 ≤ 2 ^ 64) →
    ∃ bursts, slinkElfPreloads w secs = some bursts ∧ (∀ b ∈ bursts, b.Legal) ∧
      ∀ m : Nat → Byte, (fun x : Address => slinkMemory bursts m x.toNat)
        = overlay (secs.map fun s => ⟨s.addr, s.byte, slinkSpan s⟩) fun x => m x.toNat
  | [], _ => ⟨[], rfl, fun _ hb => absurd hb List.not_mem_nil, fun _ => rfl⟩
  | s :: secs, h => by
    obtain ⟨⟨hfits, hspace⟩, hrest⟩ := List.forall_mem_cons.mp h
    obtain ⟨bs, hbs, hlegal, hmem⟩ := hfits.store hspace
    obtain ⟨bs', hbs', hlegal', hmem'⟩ := slinkElfPreloads_overlay secs hrest
    refine ⟨bs ++ bs', ?_, fun b hb => ?_, fun m => ?_⟩
    · unfold slinkElfPreloads
      rw [hbs, hbs']
      rfl
    · rcases List.mem_append.mp hb with hb | hb
      · exact hlegal b hb
      · exact hlegal' b hb
    · have happend : slinkMemory (bs ++ bs') m = slinkMemory bs' (slinkMemory bs m) :=
        List.foldl_append
      rw [happend, hmem' (slinkMemory bs m), hmem m]
      rfl

end slink

/-- The bytes the serial link writes for a segment. -/
def slinkRoom (seg : Segment) : Nat :=
  8 * ((seg.paddr % 8 + seg.memsz + 7) / 8) - seg.paddr % 8

theorem Elf.Preloadable.slink {e : Elf} (h : e.Preloadable) {w : AddrT}
    (hfits : ∀ s ∈ e.sections h, SlinkFits w s) :
    ∃ bursts, slinkElfPreloads w (e.sections h) = some bursts ∧ (∀ b ∈ bursts, b.Legal) ∧
      ∀ m : Nat → Byte, e.LoadedIn slinkRoom (fun x => m x.toNat)
        fun x => slinkMemory bursts m x.toNat := by
  obtain ⟨bursts, hbursts, hlegal, hmem⟩ := @slinkElfPreloads_overlay w (e.sections h)
    fun s hs => by
    refine ⟨hfits s hs, ?_⟩
    obtain ⟨seg, hseg, rfl⟩ := List.mem_pmap.mp hs
    show seg.addr.toNat + _ + 8 ≤ _
    rw [section_len, h.addr_toNat hseg]
    exact h.space seg hseg
  -- each section is written up to the end of its last bus word
  have hruns : (e.sections h).map (fun s => (⟨s.addr, s.byte, slinkSpan s⟩ : Run))
      = e.segments.map (Segment.run slinkRoom) := by
    unfold Elf.sections
    rw [List.map_pmap, ← List.pmap_eq_map h.sized]
    refine List.pmap_congr_left _ fun seg hseg hs _ => ?_
    have hoff : (seg.section hs).busOffset = seg.paddr % 8 :=
      congrArg (· % 8) (h.addr_toNat hseg)
    show (⟨seg.addr, _, slinkSpan _⟩ : Run) = _
    unfold slinkSpan
    rw [section_byte, section_len, hoff]
    rfl
  refine ⟨bursts, hbursts, hlegal, fun m => ?_⟩
  rw [hmem m, hruns]
  refine h.loadedIn (fun seg _ => ?_) _
  unfold slinkRoom
  omega

/-! ## All three -/

/-- What the tasks do with a file that can be preloaded: they get its segments and its entry
point, and each leaves the segments in memory. -/
structure ElfPreloads (e : Elf) (h : e.Preloadable) : Prop where
  reads : elfRead (.mapped e.file) {} = .ok (some
    (e.segments.map fun seg => (seg.paddr, seg.bytes), (e.file.ehdr e.cls).entry))
  /-- By the time the boot ROM jumps, in any order of steps; and a run can always go on to it. -/
  uart : ∀ burst hburst invoke m acts l,
    Transition.run (Uart.uartPair invoke).step (Uart.uartStart
      (Uart.uartDebugElfPreload (e.image h burst hburst))
      (Uart.uartExec (BitVec.ofNat 64 (e.file.ehdr e.cls).entry) ++ Uart.uartWait) m) acts = some l →
    (∀ a, l.server.jumped = some a →
      a = BitVec.ofNat 64 (e.file.ehdr e.cls).entry ∧ e.LoadedIn Segment.memsz m l.server.mem) ∧
    ∃ l', Transition.Leads (Uart.uartPair invoke).step l l' ∧ l'.server.jumped ≠ none
  jtag : ∀ haligned b,
    e.LoadedIn jtagRoom b.mem (jtagElfPreload b (e.alignedSections h haligned)).mem
  slink : ∀ w, (∀ s ∈ e.sections h, SlinkFits w s) →
    ∃ bursts, slinkElfPreloads w (e.sections h) = some bursts ∧ (∀ b ∈ bursts, b.Legal) ∧
      ∀ m : Nat → Byte, e.LoadedIn slinkRoom (fun x => m x.toNat)
        fun x => slinkMemory bursts m x.toNat

theorem elfPreload_agrees (e : Elf) (h : e.Preloadable) : ElfPreloads e h := by
  refine ⟨h.elfRead_eq, fun burst hburst invoke m acts l hrun => ?_, h.jtag, fun w => h.slink⟩
  have hpreloads := Uart.run_preloads (e.image h burst hburst) _ hrun
  obtain ⟨l', hleads, hjumped⟩ := hpreloads.completes
  refine ⟨fun a ha => ?_, l', hleads, by simp [hjumped]⟩
  obtain ⟨hentry, hloaded⟩ := hpreloads.jumps a ha
  exact ⟨hentry, Elf.loadedIn_of_loaded h hloaded⟩

/-- Two segments, the first with two bytes in the file and four in memory. -/
def ascendingElf : Elf where
  file := File.ofBytes
    (ehdrBytes ⟨0x10000000, 64, 189, 2, 1, 0⟩ ++ phdrBytes ⟨1, 176, 0x10000000, 2, 4⟩
      ++ phdrBytes ⟨1, 178, 0x10000008, 1, 8⟩ ++ [0x11, 0x22, 0x33]
      ++ [0, 0x2e, 0x73, 0x74, 0x72, 0x74, 0x61, 0x62, 0, 0] ++ shdrBytes ⟨1, 179, 9⟩)
    (by decide +kernel)
  cls := .elf64
  wf := ⟨by decide +kernel, by decide +kernel, by decide +kernel, by decide +kernel,
    by decide +kernel⟩

theorem ascendingElf_segments :
    ascendingElf.segments = [⟨0x10000000, 4, [0x11, 0x22]⟩, ⟨0x10000008, 8, [0x33]⟩] := by
  decide +kernel

theorem ascendingElf_preloadable : ascendingElf.Preloadable := by
  refine ⟨?_, ?_, ?_, ?_⟩
  · rw [ascendingElf_segments]
    decide
  · unfold Elf.Counts
    rw [ascendingElf_segments]
    decide
  · rw [ascendingElf_segments]
    decide
  · rw [ascendingElf_segments]
    decide

theorem elfPreload_agrees_ascending :
    ∃ h : ascendingElf.Preloadable, ElfPreloads ascendingElf h :=
  ⟨ascendingElf_preloadable, elfPreload_agrees ascendingElf ascendingElf_preloadable⟩

end Cheshire.Sim
