import Cheshire.Sim.ElfLoader

/-!
# What `load_elf` does with the program headers

The loop over the program headers in terms of the headers' values. A segment
whose bytes lie in the file is recorded (`loadPhdrs_eq`); the loop stays inside
the file as long as every segment before the first failed assertion does
(`safe_loadPhdrs`). The assertion is weaker than that: its sum can wrap.
-/

namespace Cheshire.Sim

open Scan

/-! ## The copy loop -/

theorem ptr_eq {p : Nat} (h : p < 2 ^ 64) : ptr p = p := Nat.mod_eq_of_lt h

/-- The copy loop is defined exactly if the bytes are there and its `int` can count them: a
pointer that wraps has been outside before. -/
theorem safe_copyFrom (f : File) (buf : Nat) : ∀ (n i : Nat), i < 2 ^ 31 → buf + i < 2 ^ 64 →
    (Safe (copyFrom f.bytes buf i n) ↔ n = 0 ∨ buf + i + n ≤ f.size ∧ i + n < 2 ^ 31)
  | 0, i, _, _ => iff_of_true (safe_ok _) (Or.inl rfl)
  | n + 1, i, hi, hbuf => by
    have hsize : f.size < 2 ^ 63 := f.size_lt
    have hstep : i + 1 ≠ 2 ^ 31 → buf + i + 1 ≤ f.size → (Safe (copyFrom f.bytes buf (i + 1) n) ↔
        n = 0 ∨ buf + (i + 1) + n ≤ f.size ∧ i + 1 + n < 2 ^ 31) :=
      fun hne hbyte => safe_copyFrom f buf n (i + 1) (by omega) (by omega)
    unfold copyFrom
    rw [safe_fetch_bind, safe_ite, safe_bind, ptr_eq hbuf, show f.bytes.length = f.size from rfl]
    simp only [not_safe_undefined, safe_ok, implies_true, and_true, imp_false]
    constructor
    · rintro ⟨hbyte, hne, hrest⟩
      have h := (hstep hne hbyte).mp (hrest hne)
      omega
    · intro h
      have hne : i + 1 ≠ 2 ^ 31 := by omega
      have hbyte : buf + i + 1 ≤ f.size := by omega
      exact ⟨hbyte, hne, fun _ => (hstep hne hbyte).mpr (by omega)⟩

theorem field_one {b : List Byte} {off : Nat} (h : off < b.length) :
    BitVec.ofNat 8 (field b off 1) = b[off] := by
  unfold field
  rw [slice_succ h, slice_zero]
  unfold number number
  rw [Nat.mul_zero, Nat.add_zero, BitVec.ofNat_toNat, BitVec.setWidth_eq]

theorem copyFrom_eq (f : File) (buf : Nat) : ∀ (n i : Nat), buf + i + n ≤ f.size →
    i + n < 2 ^ 31 → copyFrom f.bytes buf i n = .ok (slice f.bytes (buf + i) n)
  | 0, i, _, _ => by
    rw [slice_zero]
    rfl
  | n + 1, i, hlen, hint => by
    have ih := copyFrom_eq f buf n (i + 1) (by omega) (by omega)
    have hsize : f.size < 2 ^ 63 := f.size_lt
    have hbyte : buf + i < f.bytes.length := by
      have hlen : buf + i + (n + 1) ≤ f.bytes.length := hlen
      omega
    unfold copyFrom
    rw [ptr_eq (by omega), fetch_bind hbyte, if_neg (by omega), ih, slice_succ hbyte,
      field_one hbyte, Nat.add_assoc]
    rfl

/-! ## One header -/

/-- `PT_LOAD`, and neither size is zero: what `load_elf` records. -/
def Phdr.Loadable (h : Phdr) : Prop := h.type = 1 ∧ h.memsz ≠ 0 ∧ h.filesz ≠ 0

instance (h : Phdr) : Decidable h.Loadable := inferInstanceAs (Decidable (_ ∧ _))

/-- The assertion on a segment, in the type of its operands. -/
def File.Asserted (f : File) (c : ElfClass) (h : Phdr) : Prop :=
  (h.offset + h.filesz) % 2 ^ (8 * c.word) ≤ f.size

/-- The file holds the bytes of the segment, and an `int` can count them. -/
def File.Holds (f : File) (h : Phdr) : Prop :=
  h.offset + h.filesz ≤ f.size ∧ h.filesz < 2 ^ 31

instance (f : File) (c : ElfClass) (h : Phdr) : Decidable (f.Asserted c h) :=
  inferInstanceAs (Decidable (_ ≤ _))

instance (f : File) (h : Phdr) : Decidable (f.Holds h) := inferInstanceAs (Decidable (_ ∧ _))

/-- The bytes that the file holds for a segment. -/
def File.data (f : File) (h : Phdr) : List Byte := slice f.bytes h.offset h.filesz

/-- A segment whose bytes are there passes the assertion. -/
theorem File.Holds.asserted {f : File} {h : Phdr} (hh : f.Holds h) (c : ElfClass) :
    f.Asserted c h := Nat.le_trans (Nat.mod_le _ _) hh.1

/-- A loadable segment: where it goes, its size there, and its bytes in the file. -/
structure Segment where
  paddr : Nat
  memsz : Nat
  data : List Byte
  deriving DecidableEq, Repr

def File.segment (f : File) (h : Phdr) : Segment := ⟨h.paddr, h.memsz, f.data h⟩

/-- The globals of the library with one more segment recorded. -/
def Globals.record (g : Globals) (s : Segment) : Globals :=
  Globals.insert { g with sections := g.sections ++ [(s.paddr, s.memsz)] } s.paddr s.data

variable {c : ElfClass} {f : File} {ph : Nat}

/-- The struct at `p` of `n` bytes lies in the file. -/
def File.Has (f : File) (p n : Nat) : Prop := p + n ≤ f.size

instance (f : File) (p n : Nat) : Decidable (f.Has p n) := inferInstanceAs (Decidable (_ ≤ _))

/-- The first entry of a table, and the rest of it. -/
theorem File.Has.split {f : File} {p n size : Nat} (h : f.Has p ((n + 1) * size)) :
    f.Has p size ∧ f.Has (p + size) (n * size) := by
  unfold File.Has at *
  rw [Nat.succ_mul] at h
  omega

theorem load_bind {α : Type} {p n : Nat} (h : f.Has p n) {m : Member} (hm : m.off + m.width ≤ n)
    (k : Nat → Except Stop α) : (f.load p m >>= k) = k (f.value p m) := by
  have hlen : p + n ≤ f.bytes.length := h
  have hptr : ptr (p + m.off) ≤ p + m.off := Nat.mod_le _ _
  exact fetch_bind (by omega) k

theorem value_lt (f : File) (p : Nat) (m : Member) : f.value p m < 2 ^ (8 * m.width) :=
  field_lt f.bytes _ _

theorem phdrAt_offset_lt (f : File) (c : ElfClass) (p : Nat) :
    (f.phdrAt c p).offset < 2 ^ 64 := by
  have h := value_lt f p c.pOffset
  cases c
  · exact Nat.lt_trans h (by decide)
  · exact h

theorem pMembers_le (c : ElfClass) : c.pType.off + c.pType.width ≤ c.phdrSize ∧
    c.pOffset.off + c.pOffset.width ≤ c.phdrSize ∧ c.pPaddr.off + c.pPaddr.width ≤ c.phdrSize ∧
    c.pFilesz.off + c.pFilesz.width ≤ c.phdrSize ∧ c.pMemsz.off + c.pMemsz.width ≤ c.phdrSize := by
  cases c <;> decide

/-- What the loop body does with a header that lies in the file: check and write it if it is
loadable, else nothing. -/
theorem loadPhdr_eq (hin : f.Has ph c.phdrSize) (g : Globals) :
    loadPhdr c f ph g = if (f.phdrAt c ph).Loadable then
      if f.Asserted c (f.phdrAt c ph) then
        write f { g with sections := g.sections ++ [((f.phdrAt c ph).paddr, (f.phdrAt c ph).memsz)] }
          (f.phdrAt c ph).paddr (f.phdrAt c ph).filesz (f.phdrAt c ph).offset
      else .error .abort
    else .ok g := by
  obtain ⟨htype, hoffset, hpaddr, hfilesz, hmemsz⟩ := pMembers_le c
  -- the warning reads a member and changes nothing
  have hwarn : ∀ x : Except Stop Globals, (do
      let g ← x
      if f.value ph c.pFilesz < f.value ph c.pMemsz then
        let _ ← f.load ph c.pPaddr
        .ok g
      else .ok g) = x := by
    intro x
    cases x with
    | error e => rfl
    | ok g =>
      show (if _ then (f.load ph c.pPaddr >>= fun _ => .ok g) else .ok g) = _
      rw [load_bind hin hpaddr]
      exact ite_self _
  unfold loadPhdr
  simp only [load_bind hin htype, load_bind hin hmemsz, load_bind hin hfilesz, hwarn]
  by_cases h1 : f.value ph c.pType = 1
  · by_cases h2 : f.value ph c.pMemsz = 0
    · have hl : ¬(f.phdrAt c ph).Loadable := fun h => h.2.1 h2
      rw [if_pos h1, if_neg (not_not_intro h2), if_neg hl]
    · rw [if_pos h1, if_pos h2]
      unfold loadSegment
      by_cases h3 : f.value ph c.pFilesz = 0
      · have hl : ¬(f.phdrAt c ph).Loadable := fun h => h.2.2 h3
        rw [if_neg (not_not_intro h3), if_neg hl]
      · have hl : (f.phdrAt c ph).Loadable := ⟨h1, h2, h3⟩
        rw [if_pos h3, if_pos hl]
        simp only [load_bind hin hoffset, load_bind hin hpaddr, assert_bind]
        rfl
  · have hl : ¬(f.phdrAt c ph).Loadable := fun h => h1 h.1
    rw [if_neg h1, if_neg hl]

theorem write_eq {h : Phdr} (hh : f.Holds h) (g : Globals) :
    write f g h.paddr h.filesz h.offset = .ok (g.insert h.paddr (f.data h)) := by
  have hcopy := copyFrom_eq f h.offset h.filesz 0 hh.1 (by have := hh.2; omega)
  unfold write
  rw [hcopy]
  rfl

theorem safe_write {h : Phdr} (hl : h.Loadable) (hoff : h.offset < 2 ^ 64) (g : Globals) :
    Safe (write f g h.paddr h.filesz h.offset) ↔ f.Holds h := by
  have hcopy := safe_copyFrom f h.offset h.filesz 0 (by decide) hoff
  unfold write
  rw [safe_bind, hcopy]
  simp only [safe_ok, implies_true, and_true, hl.2.2, false_or, Nat.zero_add, Nat.add_zero]
  exact Iff.rfl

/-! ## The loop -/

/-- The `n` program headers that follow each other from `ph` on. -/
def File.phdrsFrom (f : File) (c : ElfClass) : Nat → Nat → List Phdr
  | _, 0 => []
  | ph, n + 1 => f.phdrAt c ph :: f.phdrsFrom c (ph + c.phdrSize) n

/-- The segments of the loadable ones of the headers. -/
def File.segmentsOf (f : File) (hs : List Phdr) : List Segment :=
  (hs.filter fun h => decide h.Loadable).map f.segment

theorem segmentsOf_cons_pos {h : Phdr} (hl : h.Loadable) (hs : List Phdr) :
    f.segmentsOf (h :: hs) = f.segment h :: f.segmentsOf hs := by
  unfold File.segmentsOf
  simp [hl]

theorem segmentsOf_cons_neg {h : Phdr} (hl : ¬h.Loadable) (hs : List Phdr) :
    f.segmentsOf (h :: hs) = f.segmentsOf hs := by
  unfold File.segmentsOf
  simp [hl]

def Globals.recordAll (g : Globals) (segs : List Segment) : Globals := segs.foldl Globals.record g

/-- The file holds every loadable segment up to the first whose assertion fails. -/
def File.HoldsAsserted (f : File) (c : ElfClass) : List Phdr → Prop
  | [] => True
  | h :: hs => (h.Loadable → f.Asserted c h → f.Holds h) ∧
      ((h.Loadable → f.Asserted c h) → f.HoldsAsserted c hs)

instance decidableHoldsAsserted (f : File) (c : ElfClass) :
    ∀ hs : List Phdr, Decidable (f.HoldsAsserted c hs)
  | [] => .isTrue trivial
  | _ :: hs =>
    have := decidableHoldsAsserted f c hs
    inferInstanceAs (Decidable (_ ∧ _))

theorem loadPhdrs_eq : ∀ (n ph : Nat) (g : Globals), f.Has ph (n * c.phdrSize) →
    (∀ h ∈ f.phdrsFrom c ph n, h.Loadable → f.Holds h) →
    loadPhdrs c f ph n g = .ok (g.recordAll (f.segmentsOf (f.phdrsFrom c ph n)))
  | 0, _, _, _, _ => rfl
  | n + 1, ph, g, hin, hall => by
    obtain ⟨hhead, htail⟩ := hin.split
    have ih := fun g => loadPhdrs_eq n (ph + c.phdrSize) g htail
      (fun h hh => hall h (List.mem_cons_of_mem _ hh))
    unfold loadPhdrs File.phdrsFrom
    rw [loadPhdr_eq hhead]
    by_cases hl : (f.phdrAt c ph).Loadable
    · have hholds := hall _ (List.mem_cons_self ..) hl
      rw [if_pos hl, if_pos (hholds.asserted c), write_eq hholds,
        segmentsOf_cons_pos hl]
      exact ih _
    · rw [if_neg hl, segmentsOf_cons_neg hl]
      exact ih g

theorem safe_loadPhdrs : ∀ (n ph : Nat) (g : Globals), f.Has ph (n * c.phdrSize) →
    (Safe (loadPhdrs c f ph n g) ↔ f.HoldsAsserted c (f.phdrsFrom c ph n))
  | 0, _, _, _ => iff_of_true (safe_ok _) trivial
  | n + 1, ph, g, hin => by
    obtain ⟨hhead, htail⟩ := hin.split
    have ih := fun g => safe_loadPhdrs n (ph + c.phdrSize) g htail
    unfold loadPhdrs File.phdrsFrom File.HoldsAsserted
    rw [safe_bind, loadPhdr_eq hhead]
    simp only [ih]
    by_cases hl : (f.phdrAt c ph).Loadable
    · rw [if_pos hl]
      by_cases ha : f.Asserted c (f.phdrAt c ph)
      · rw [if_pos ha, safe_write hl (phdrAt_offset_lt f c ph)]
        constructor
        · rintro ⟨hholds, hrest⟩
          exact ⟨fun _ _ => hholds, fun _ => hrest _ (write_eq hholds _)⟩
        · intro h
          exact ⟨h.1 hl ha, fun _ _ => h.2 fun _ => ha⟩
      · rw [if_neg ha]
        exact iff_of_true ⟨safe_abort, nofun⟩ ⟨fun _ ha' => absurd ha' ha, fun h => absurd (h hl) ha⟩
    · rw [if_neg hl]
      constructor
      · intro h
        exact ⟨fun hl' => absurd hl' hl, fun _ => h.2 g rfl⟩
      · intro h
        exact ⟨safe_ok g, fun _ _ => h.2 fun hl' => absurd hl' hl⟩

/-! ## The globals afterwards -/

/-- The first of the segments at an address. -/
def firstAt (segs : List Segment) (a : Nat) : Option Segment :=
  segs.find? fun s => decide (s.paddr = a)

theorem firstAt_cons_self (s : Segment) (segs : List Segment) :
    firstAt (s :: segs) s.paddr = some s := by
  unfold firstAt
  simp

theorem firstAt_cons_ne {s : Segment} {a : Nat} (h : s.paddr ≠ a) (segs : List Segment) :
    firstAt (s :: segs) a = firstAt segs a := by
  unfold firstAt
  simp [h]

theorem recordAll_entry (segs : List Segment) (g : Globals) :
    (g.recordAll segs).entry = g.entry := by
  induction segs generalizing g with
  | nil => rfl
  | cons s segs ih => exact ih (g.record s)

theorem recordAll_sectionIndex (segs : List Segment) (g : Globals) :
    (g.recordAll segs).sectionIndex = g.sectionIndex := by
  induction segs generalizing g with
  | nil => rfl
  | cons s segs ih => exact ih (g.record s)

theorem recordAll_sections (segs : List Segment) (g : Globals) :
    (g.recordAll segs).sections = g.sections ++ segs.map fun s => (s.paddr, s.memsz) := by
  induction segs generalizing g with
  | nil => exact (List.append_nil _).symm
  | cons s segs ih =>
    refine (ih (g.record s)).trans ?_
    rw [List.map_cons, List.append_cons]
    rfl

/-- An address that was there keeps its content; a new one gets the first segment's. -/
theorem recordAll_mems (segs : List Segment) (g : Globals) (a : Nat) :
    (g.recordAll segs).mems a = (g.mems a).or ((firstAt segs a).map Segment.data) := by
  induction segs generalizing g with
  | nil => exact (Option.or_none).symm
  | cons s segs ih =>
    refine (ih (g.record s)).trans ?_
    have hrec : (g.record s).mems a
        = if a = s.paddr then some ((g.mems s.paddr).getD s.data) else g.mems a := rfl
    rw [hrec]
    by_cases ha : s.paddr = a
    · subst ha
      rw [if_pos rfl, firstAt_cons_self]
      cases g.mems s.paddr <;> rfl
    · rw [if_neg (fun h => ha h.symm), firstAt_cons_ne ha]

end Cheshire.Sim
