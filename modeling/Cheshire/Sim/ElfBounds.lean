import Cheshire.Sim.ElfSegments

/-!
# Where `load_elf` reads

Four checks compare the file size with sums of header fields. Three of the sums
can wrap: the ends of the two header tables in 64 bits, the ends of segments and
of the name table in the width of their class. The names themselves are not
checked at all, although the loop computes how long they may be.

`readElf_safe_iff` is exact: the loader reads inside the file if the tables and
segments it goes through end in it without wrapping and every name ends in it.
-/

namespace Cheshire.Sim

open Scan

/-- The `n` section headers that follow each other from `sh` on. -/
def File.shdrsFrom (f : File) (c : ElfClass) : Nat → Nat → List Shdr
  | _, 0 => []
  | sh, n + 1 => f.shdrAt c sh :: f.shdrsFrom c (sh + c.shdrSize) n

/-- `ph[0]` .. `ph[e_phnum - 1]`, all program headers of the file. -/
def File.phdrs (f : File) (c : ElfClass) : List Phdr :=
  f.phdrsFrom c (f.ehdr c).phoff (f.ehdr c).phnum

/-- `sh[0]` .. `sh[e_shnum - 1]`, all section headers of the file. -/
def File.shdrs (f : File) (c : ElfClass) : List Shdr :=
  f.shdrsFrom c (f.ehdr c).shoff (f.ehdr c).shnum

/-- The section header of the name table, which `e_shstrndx` points to. -/
def File.nameTable (f : File) (c : ElfClass) : Shdr :=
  f.shdrAt c ((f.ehdr c).shoff + (f.ehdr c).shstrndx * c.shdrSize)

/-! The four checks, in the arithmetic of their operands -/

def File.PhdrsChecked (f : File) (c : ElfClass) : Prop :=
  ((f.ehdr c).phoff + (f.ehdr c).phnum * c.phdrSize) % 2 ^ 64 ≤ f.size

def File.ShdrsChecked (f : File) (c : ElfClass) : Prop :=
  ((f.ehdr c).shoff + (f.ehdr c).shnum * c.shdrSize) % 2 ^ 64 ≤ f.size

def File.IndexChecked (f : File) (c : ElfClass) : Prop :=
  (f.ehdr c).shstrndx < (f.ehdr c).shnum

def File.TableChecked (f : File) (c : ElfClass) : Prop :=
  ((f.nameTable c).offset + (f.nameTable c).size) % 2 ^ (8 * c.word) ≤ f.size

instance (f : File) (c : ElfClass) : Decidable (f.PhdrsChecked c) :=
  inferInstanceAs (Decidable (_ ≤ _))

instance (f : File) (c : ElfClass) : Decidable (f.ShdrsChecked c) :=
  inferInstanceAs (Decidable (_ ≤ _))

instance (f : File) (c : ElfClass) : Decidable (f.IndexChecked c) :=
  inferInstanceAs (Decidable (_ < _))

instance (f : File) (c : ElfClass) : Decidable (f.TableChecked c) :=
  inferInstanceAs (Decidable (_ ≤ _))

/-- No assertion that `load_elf` makes on a loadable segment fails. -/
def File.AllAsserted (f : File) (c : ElfClass) : Prop :=
  ∀ h ∈ f.phdrs c, h.Loadable → f.Asserted c h

/-- The member of a struct at `buf + p` lies in the file. -/
def File.HasMember (f : File) (p : Nat) (m : Member) : Prop := f.Has (ptr (p + m.off)) m.width

/-- The name table's place, as far as its header says, is in the file. -/
def File.HasNameTable (f : File) (c : ElfClass) : Prop :=
  f.HasMember ((f.ehdr c).shoff + (f.ehdr c).shstrndx * c.shdrSize) c.shOffset ∧
    f.HasMember ((f.ehdr c).shoff + (f.ehdr c).shstrndx * c.shdrSize) c.shSize

/-- If the checks before it pass, the name table's header is read in the file; if the loop
over the section headers is reached, these lie in the file and the names end in it. -/
def File.NamesInside (f : File) (c : ElfClass) : Prop :=
  f.ShdrsChecked c → f.IndexChecked c → f.HasNameTable c ∧
    (f.TableChecked c → f.Has (f.ehdr c).shoff ((f.ehdr c).shnum * c.shdrSize) ∧
      ∀ h ∈ f.shdrs c, Terminated f.bytes (ptr ((f.nameTable c).offset + h.name)))

/-- Unless the file is rejected at once, the program headers and the segments they load lie
in the file, and so do the names if no assertion fails before. -/
def File.ReadsInside (f : File) (c : ElfClass) : Prop :=
  f.PhdrsChecked c →
    f.Has (f.ehdr c).phoff ((f.ehdr c).phnum * c.phdrSize) ∧
    f.HoldsAsserted c (f.phdrs c) ∧
    (f.AllAsserted c → f.NamesInside c)

instance (f : File) (c : ElfClass) : Decidable (f.AllAsserted c) :=
  inferInstanceAs (Decidable (∀ h ∈ f.phdrs c, h.Loadable → f.Asserted c h))

instance (f : File) (p : Nat) (m : Member) : Decidable (f.HasMember p m) :=
  inferInstanceAs (Decidable (f.Has _ _))

instance (f : File) (c : ElfClass) : Decidable (f.HasNameTable c) :=
  inferInstanceAs (Decidable (_ ∧ _))

instance (f : File) (c : ElfClass) : Decidable (f.NamesInside c) :=
  inferInstanceAs (Decidable (_ → _ → _ ∧ (_ → _ ∧ ∀ h ∈ f.shdrs c, _)))

instance (f : File) (c : ElfClass) : Decidable (f.ReadsInside c) :=
  inferInstanceAs (Decidable (_ → _ ∧ _ ∧ (_ → _)))

variable {c : ElfClass} {f : File}

/-! ## The tables -/

theorem ehdr_lt (f : File) (c : ElfClass) : (f.ehdr c).phoff < 2 ^ 64 ∧
    (f.ehdr c).shoff < 2 ^ 64 ∧ (f.ehdr c).phnum < 2 ^ 16 ∧ (f.ehdr c).shnum < 2 ^ 16 := by
  have hphoff := value_lt f 0 c.ePhoff
  have hshoff := value_lt f 0 c.eShoff
  have hphnum := value_lt f 0 c.ePhnum
  have hshnum := value_lt f 0 c.eShnum
  cases c
  · exact ⟨Nat.lt_trans hphoff (by decide), Nat.lt_trans hshoff (by decide), hphnum, hshnum⟩
  · exact ⟨hphoff, hshoff, hphnum, hshnum⟩

/-- A checked table that begins in the file does not wrap, so it ends there too. -/
theorem has_of_checked {off n size : Nat} (hoff : off < 2 ^ 64) (hn : n < 2 ^ 16)
    (hsize : size ≤ 64) (hchk : (off + n * size) % 2 ^ 64 ≤ f.size)
    (hfirst : n = 0 ∨ off ≤ f.size) : f.Has off (n * size) := by
  have hf : f.size < 2 ^ 63 := f.size_lt
  have hmul : n * size ≤ 2 ^ 16 * 64 := Nat.mul_le_mul (by omega) hsize
  unfold File.Has
  rcases hfirst with rfl | hfirst
  · rw [Nat.zero_mul] at hchk ⊢
    omega
  · omega

theorem phdrSize_le (c : ElfClass) : c.phdrSize ≤ 64 := by cases c <;> decide

theorem shdrSize_le (c : ElfClass) : c.shdrSize ≤ 64 := by cases c <;> decide

theorem has_phdrs (hchk : f.PhdrsChecked c)
    (hfirst : (f.ehdr c).phnum = 0 ∨ (f.ehdr c).phoff ≤ f.size) :
    f.Has (f.ehdr c).phoff ((f.ehdr c).phnum * c.phdrSize) :=
  has_of_checked (ehdr_lt f c).1 (ehdr_lt f c).2.2.1 (phdrSize_le c) hchk hfirst

theorem has_shdrs (hchk : f.ShdrsChecked c)
    (hfirst : (f.ehdr c).shnum = 0 ∨ (f.ehdr c).shoff ≤ f.size) :
    f.Has (f.ehdr c).shoff ((f.ehdr c).shnum * c.shdrSize) :=
  has_of_checked (ehdr_lt f c).2.1 (ehdr_lt f c).2.2.2 (shdrSize_le c) hchk hfirst

/-! ## The program headers -/

theorem safe_load_bind {α : Type} (p : Nat) (m : Member) (k : Nat → Except Stop α) :
    Safe (f.load p m >>= k) ↔ f.HasMember p m ∧ Safe (k (f.value p m)) :=
  safe_fetch_bind f.bytes (ptr (p + m.off)) m.width k

theorem load_member {α : Type} {p : Nat} {m : Member} (h : f.HasMember p m)
    (k : Nat → Except Stop α) : (f.load p m >>= k) = k (f.value p m) := fetch_bind h k

/-- A member at the front of a struct that is in the file: so the struct begins there. -/
theorem File.HasMember.front {p : Nat} {m : Member} (h : f.HasMember p m) (hoff : m.off = 0)
    (hp : p < 2 ^ 64) : p ≤ f.size := by
  have h : ptr (p + m.off) + m.width ≤ f.size := h
  rw [hoff, Nat.add_zero, ptr_eq hp] at h
  omega

/-- A loop over program headers that is safe has none to read or starts inside the file. -/
theorem first_phdr {n ph : Nat} {g : Globals} (hph : ph < 2 ^ 64)
    (hs : Safe (loadPhdrs c f ph n g)) : n = 0 ∨ ph ≤ f.size := by
  cases n with
  | zero => exact Or.inl rfl
  | succ n =>
    unfold loadPhdrs loadPhdr at hs
    rw [safe_bind, safe_load_bind] at hs
    exact Or.inr (hs.1.1.front rfl hph)

/-- A loop over program headers that ends has passed the assertion of every header it loads. -/
theorem asserted_of_ok : ∀ (n ph : Nat) (g : Globals) {g' : Globals},
    f.Has ph (n * c.phdrSize) → loadPhdrs c f ph n g = .ok g' →
    ∀ h ∈ f.phdrsFrom c ph n, h.Loadable → f.Asserted c h
  | 0, _, _, _, _, _ => by
    intro h hh
    exact absurd hh List.not_mem_nil
  | n + 1, ph, g, g', hin, hok => by
    obtain ⟨hhead, htail⟩ := hin.split
    unfold loadPhdrs at hok
    intro h hh hl
    cases hg : loadPhdr c f ph g with
    | error e =>
      rw [hg] at hok
      cases hok
    | ok g₁ =>
      rw [hg] at hok
      rcases List.mem_cons.mp hh with rfl | hh
      · rw [loadPhdr_eq hhead, if_pos hl] at hg
        by_cases ha : f.Asserted c (f.phdrAt c ph)
        · exact ha
        · rw [if_neg ha] at hg
          cases hg
      · exact asserted_of_ok n (ph + c.phdrSize) g₁ htail hok h hh hl

theorem holds_of_asserted : ∀ {hs : List Phdr}, f.HoldsAsserted c hs →
    (∀ h ∈ hs, h.Loadable → f.Asserted c h) → ∀ h ∈ hs, h.Loadable → f.Holds h
  | [], _, _ => by
    intro h hh
    exact absurd hh List.not_mem_nil
  | h₀ :: hs, hholds, hall => by
    intro h hh hl
    rcases List.mem_cons.mp hh with rfl | hh
    · exact hholds.1 hl (hall _ (List.mem_cons_self ..) hl)
    · exact holds_of_asserted (hholds.2 (hall h₀ (List.mem_cons_self ..)))
        (fun h hh => hall h (List.mem_cons_of_mem _ hh)) h hh hl

theorem holdsAsserted_of_holds : ∀ {hs : List Phdr}, (∀ h ∈ hs, h.Loadable → f.Holds h) →
    f.HoldsAsserted c hs
  | [], _ => trivial
  | h₀ :: _, hall =>
    ⟨fun hl _ => hall h₀ (List.mem_cons_self ..) hl,
      fun _ => holdsAsserted_of_holds fun h hh => hall h (List.mem_cons_of_mem _ hh)⟩

/-! ## The section headers -/

theorem shMembers_le (c : ElfClass) : c.shName.off + c.shName.width ≤ c.shdrSize ∧
    c.shOffset.off + c.shOffset.width ≤ c.shdrSize ∧
    c.shSize.off + c.shSize.width ≤ c.shdrSize := by
  cases c <;> decide

/-- If every name ends in the file, the loop does. -/
theorem scanNames_ok (tab : Nat) : ∀ (n i sh : Nat) (idx : Nat × Nat),
    f.Has sh (n * c.shdrSize) →
    (∀ h ∈ f.shdrsFrom c sh n, Terminated f.bytes (ptr (tab + h.name))) →
    ∃ idx', scanNames c f tab i sh n idx = .ok idx'
  | 0, _, _, idx, _, _ => ⟨idx, rfl⟩
  | n + 1, i, sh, idx, hin, hterm => by
    obtain ⟨hname, hoffset, _⟩ := shMembers_le c
    obtain ⟨hhead, htail⟩ := hin.split
    obtain ⟨hhere, hrest⟩ := List.forall_mem_cons.mp hterm
    have hfirst : Terminated f.bytes (ptr (tab + f.value sh c.shName)) := hhere
    have ih := fun i idx => scanNames_ok tab n i (sh + c.shdrSize) idx htail hrest
    unfold scanNames
    simp only [load_bind hhead hname, load_bind hhead hoffset, string_bind hfirst]
    -- whatever the name is, the rest of the loop is the same
    split
    · exact ih _ _
    · split
      · exact ih _ _
      · exact ih _ _

/-- The names the loop has read end in the file. -/
theorem terminated_of_safe (tab : Nat) : ∀ (n i sh : Nat) (idx : Nat × Nat),
    f.Has sh (n * c.shdrSize) → Safe (scanNames c f tab i sh n idx) →
    ∀ h ∈ f.shdrsFrom c sh n, Terminated f.bytes (ptr (tab + h.name))
  | 0, _, _, _, _, _ => fun _ hh => absurd hh List.not_mem_nil
  | n + 1, i, sh, idx, hin, hs => by
    obtain ⟨hname, hoffset, _⟩ := shMembers_le c
    obtain ⟨hhead, htail⟩ := hin.split
    have ih := fun i idx => terminated_of_safe tab n i (sh + c.shdrSize) idx htail
    unfold scanNames at hs
    simp only [load_bind hhead hname, load_bind hhead hoffset] at hs
    obtain ⟨hfirst, hs⟩ := (safe_string_bind _ _ _).mp hs
    simp only [string_bind hfirst] at hs
    refine List.forall_mem_cons.mpr ⟨hfirst, ?_⟩
    split at hs
    · exact ih _ _ hs
    · split at hs
      · exact ih _ _ hs
      · exact ih _ _ hs

/-- The file header is in the file, so its members have their values. -/
theorem load_ehdr (h64 : f.Has 0 64) (c : ElfClass) {α : Type} (k : Nat → Except Stop α) :
    (f.load 0 c.eEntry >>= k) = k (f.ehdr c).entry ∧
    (f.load 0 c.ePhoff >>= k) = k (f.ehdr c).phoff ∧
    (f.load 0 c.eShoff >>= k) = k (f.ehdr c).shoff ∧
    (f.load 0 c.ePhnum >>= k) = k (f.ehdr c).phnum ∧
    (f.load 0 c.eShnum >>= k) = k (f.ehdr c).shnum ∧
    (f.load 0 c.eShstrndx >>= k) = k (f.ehdr c).shstrndx := by
  refine ⟨load_bind h64 ?_ k, load_bind h64 ?_ k, load_bind h64 ?_ k, load_bind h64 ?_ k,
    load_bind h64 ?_ k, load_bind h64 ?_ k⟩ <;> cases c <;> decide

theorem load_nameTable (htab : f.HasNameTable c) {α : Type} (k : Nat → Except Stop α) :
    (f.load ((f.ehdr c).shoff + (f.ehdr c).shstrndx * c.shdrSize) c.shOffset >>= k)
      = k (f.nameTable c).offset ∧
    (f.load ((f.ehdr c).shoff + (f.ehdr c).shstrndx * c.shdrSize) c.shSize >>= k)
      = k (f.nameTable c).size :=
  ⟨load_member htab.1 k, load_member htab.2 k⟩

/-- The loop reads the first section header before anything else. -/
theorem first_shdr {tab n i sh : Nat} {idx : Nat × Nat} (hsh : sh < 2 ^ 64)
    (hs : Safe (scanNames c f tab i sh n idx)) : n = 0 ∨ sh ≤ f.size := by
  cases n with
  | zero => exact Or.inl rfl
  | succ n =>
    unfold scanNames at hs
    rw [safe_load_bind] at hs
    exact Or.inr (hs.1.front rfl hsh)

/-- What the checks of the section headers report. -/
def File.verdict (f : File) (c : ElfClass) : Option Rejected :=
  if ¬f.ShdrsChecked c then some .shdrs
  else if ¬f.IndexChecked c then some .shstrndx
  else if ¬f.TableChecked c then some .shstrtab
  else none

/-- Inside the file the section headers decide the verdict and nothing else. -/
theorem loadShdrs_eq (h64 : f.Has 0 64) (hnames : f.NamesInside c) :
    loadShdrs c f = .ok (f.verdict c) := by
  unfold loadShdrs File.verdict
  simp only [load_ehdr h64 c]
  by_cases hchk : f.ShdrsChecked c
  · rw [if_neg (Nat.not_lt.mpr hchk), if_neg (not_not_intro hchk)]
    by_cases hidx : f.IndexChecked c
    · rw [if_neg (Nat.not_le.mpr hidx), if_neg (not_not_intro hidx)]
      obtain ⟨hname, hloop⟩ := hnames hchk hidx
      simp only [load_nameTable hname]
      by_cases htab : f.TableChecked c
      · obtain ⟨hin, hterm⟩ := hloop htab
        obtain ⟨idx, hok⟩ := scanNames_ok _ _ 0 _ (0, 0) hin hterm
        rw [if_neg (Nat.not_lt.mpr htab), if_neg (not_not_intro htab), hok]
        rfl
      · rw [if_pos (Nat.not_le.mp htab), if_pos htab]
    · rw [if_pos (Nat.not_lt.mp hidx), if_pos hidx]
  · rw [if_pos (Nat.not_le.mp hchk), if_pos hchk]

theorem safe_loadShdrs (h64 : f.Has 0 64) : Safe (loadShdrs c f) ↔ f.NamesInside c := by
  constructor
  · intro hs hchk hidx
    unfold loadShdrs at hs
    simp only [load_ehdr h64 c] at hs
    rw [if_neg (Nat.not_lt.mpr hchk), if_neg (Nat.not_le.mpr hidx)] at hs
    obtain ⟨hoffset, hrest⟩ := (safe_load_bind _ _ _).mp hs
    have hname : f.HasNameTable c := ⟨hoffset, ((safe_load_bind _ _ _).mp hrest).1⟩
    refine ⟨hname, fun htab => ?_⟩
    simp only [load_nameTable hname] at hs
    rw [if_neg (Nat.not_lt.mpr htab), safe_bind] at hs
    have hin := has_shdrs hchk (first_shdr (ehdr_lt f c).2.1 hs.1)
    exact ⟨hin, terminated_of_safe _ _ _ _ _ hin hs.1⟩
  · intro hnames
    rw [loadShdrs_eq h64 hnames]
    exact safe_ok _

/-! ## The whole loader -/

theorem safe_loadElf (h64 : f.Has 0 64) (g : Globals) :
    Safe (loadElf c f g) ↔ f.ReadsInside c := by
  unfold loadElf File.ReadsInside
  simp only [load_ehdr h64 c]
  by_cases hchk : f.PhdrsChecked c
  · rw [if_neg (Nat.not_lt.mpr hchk), forall_prop_of_true hchk]
    rw [safe_bind]
    simp only [safe_bind (loadShdrs c f), safe_loadShdrs h64, safe_ok, implies_true, and_true]
    constructor
    · rintro ⟨hs, hrest⟩
      have hin := has_phdrs hchk (first_phdr (ehdr_lt f c).1 hs)
      have hholds := (safe_loadPhdrs _ _ _ hin).mp hs
      refine ⟨hin, hholds, fun hall => ?_⟩
      exact hrest _ (loadPhdrs_eq _ _ _ hin (holds_of_asserted hholds hall))
    · rintro ⟨hin, hholds, hnames⟩
      refine ⟨(safe_loadPhdrs _ _ _ hin).mpr hholds, fun g' hg' => ?_⟩
      exact hnames (asserted_of_ok _ _ _ hin hg')
  · rw [if_pos (Nat.not_le.mp hchk)]
    exact iff_of_true (safe_ok _) fun h => absurd h hchk

/-- What is left of a file that is read inside its bounds and fails no assertion. -/
theorem loadElf_eq (h64 : f.Has 0 64) (hin : f.ReadsInside c) (hchk : f.PhdrsChecked c)
    (hall : f.AllAsserted c) (g : Globals) : loadElf c f g = .ok (f.verdict c,
      Globals.recordAll { g with entry := (f.ehdr c).entry } (f.segmentsOf (f.phdrs c))) := by
  obtain ⟨htab, hholds, hnames⟩ := hin hchk
  unfold loadElf
  simp only [load_ehdr h64 c]
  rw [if_neg (Nat.not_lt.mpr hchk),
    loadPhdrs_eq _ _ _ htab (holds_of_asserted hholds hall), loadShdrs_eq h64 (hnames hall)]
  rfl

/-- `read_elf` on a file with a header is `load_elf` and a zero. -/
theorem readElfLog_mapped (hsize : 64 ≤ f.size) (hclass : f.elfClass? = some c) (g : Globals) :
    readElfLog (.mapped f) g = (loadElf c f g >>= fun r => .ok ((r.1, 0), r.2)) := by
  unfold readElfLog
  simp only [if_neg (Nat.not_lt.mpr hsize), hclass]

/-- The loader reads inside the file exactly if the file keeps `ReadsInside`. -/
theorem readElf_safe_iff (hsize : 64 ≤ f.size) (hclass : f.elfClass? = some c) (g : Globals) :
    Safe (readElf (.mapped f) g) ↔ f.ReadsInside c := by
  have h64 : f.Has 0 64 := by unfold File.Has; omega
  unfold readElf
  rw [readElfLog_mapped hsize hclass, safe_bind, safe_bind, safe_loadElf h64]
  simp only [safe_ok, implies_true, and_true]

/-- One segment of four bytes, and a name table that holds its own name. -/
def smallElf : File :=
  File.ofBytes
    (ehdrBytes ⟨0x10000000, 64, 134, 1, 1, 0⟩ ++ phdrBytes ⟨1, 120, 0x10000000, 4, 8⟩
      ++ [0x73, 0x01, 0x02, 0x03] ++ [0, 0x2e, 0x73, 0x74, 0x72, 0x74, 0x61, 0x62, 0, 0]
      ++ shdrBytes ⟨1, 124, 9⟩)
    (by decide +kernel)

theorem readElf_safe_small : Safe (readElf (.mapped smallElf) {}) :=
  (@readElf_safe_iff .elf64 smallElf (by decide +kernel) (by decide +kernel) {}).mpr
    (by decide +kernel)

/-- A name table at the end of the address space: the name is at offset 0 of the file. -/
def wrappedName : File := File.ofBytes
  (ehdrBytes ⟨0, 64, 64, 0, 1, 0⟩ ++ shdrBytes ⟨16, 2 ^ 64 - 16, 16⟩) (by decide +kernel)

example : Safe (readElf (.mapped wrappedName) {}) := by decide +kernel

/-- A program header table that ends behind the last 64-bit offset. -/
def wrappedElf : File := File.ofBytes (ehdrBytes ⟨0, 2 ^ 64 - 56, 0, 1, 0, 0⟩) (by decide)

/-- The end of the table wraps to zero, and the check lets the loader read outside the file. -/
theorem readElf_unsafe_wrapped : 64 ≤ wrappedElf.size ∧ wrappedElf.elfClass? = some .elf64 ∧
    ¬Safe (readElf (.mapped wrappedElf) {}) := by
  refine ⟨by decide, by decide, ?_⟩
  decide +kernel

end Cheshire.Sim
