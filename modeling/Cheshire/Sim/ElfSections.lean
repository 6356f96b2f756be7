import Cheshire.Lib.Trans
import Cheshire.Sim.ElfBounds

/-!
# Sections over a history of calls

The list of sections, the map of contents and the cursor are never reset. Over any
history of calls the list holds every loadable segment in load order and the
cursor counts what was handed out (`Inv`), so `get_section` returns the segments
one by one. The map keeps the first content of an address, so a segment gets its
own bytes from `read_section` only if no other came before it at that address.

`sections_exact_iff` is exact for every history: each section comes with its own
data if and only if the first segment loaded at its address has that data.
-/

namespace Cheshire.Sim

open Scan

/-- The tables, segments and names of the file lie in it, and a segment is not larger in the
file than in memory. -/
structure WellFormed (f : File) (c : ElfClass) : Prop where
  size : 64 ≤ f.size
  cls : f.elfClass? = some c
  phdrs : f.Has (f.ehdr c).phoff ((f.ehdr c).phnum * c.phdrSize)
  segments : ∀ h ∈ f.phdrs c, h.Loadable → h.offset + h.filesz ≤ f.size ∧ h.filesz ≤ h.memsz
  names : f.NamesInside c

/-- A file with the class by which it is well formed. -/
structure Elf where
  file : File
  cls : ElfClass
  wf : WellFormed file cls

def Elf.segments (e : Elf) : List Segment := e.file.segmentsOf (e.file.phdrs e.cls)

inductive Call where
  | readElf (e : Elf)
  | getSection
  | readSection (address : Nat) (buffer : Nat → Byte) (len : Nat)

/-- The globals, with the segments of the files read and the sections returned so far, which
nothing reads. -/
structure Session where
  g : Globals := {}
  loaded : List Segment := []
  returned : List (Nat × Nat) := []

def Session.step (s : Session) : Call → Option Session
  | .readElf e =>
    match readElf (.mapped e.file) s.g with
    | .ok (_, g) => some { s with g := g, loaded := s.loaded ++ e.segments }
    | .error _ => none
  | .getSection =>
    match getSection s.g with
    | .ok (some sec, g) => some { s with g := g, returned := s.returned ++ [sec] }
    | .ok (none, g) => some { s with g := g }
    | .error _ => none
  | .readSection _ _ _ => some s

/-- The buffer with the segment's bytes in front. -/
def Segment.image (seg : Segment) (buffer : Nat → Byte) : Nat → Byte :=
  fun k => (seg.data[k]?).getD (buffer k)

/-- What a call has to do after `s`: a file is read without misbehaviour; the next section
returned is the next segment, and it is read back as it is in its file. -/
def CallSound (s : Session) : Call → Prop
  | .readElf e => Safe (readElf (.mapped e.file) s.g)
  | .getSection =>
    match s.loaded[s.returned.length]? with
    | none => getSection s.g = .ok (none, s.g)
    | some seg => ∃ g', getSection s.g = .ok (some (seg.paddr, seg.memsz), g') ∧
        ∀ buffer, readSection g' seg.paddr buffer seg.memsz = (0, seg.image buffer)
  | .readSection _ _ _ => True

/-- Every call of the history is sound where it happens. -/
def RunSound : Session → List Call → Prop
  | _, [] => True
  | s, c :: cs => CallSound s c ∧ ∀ s', s.step c = some s' → RunSound s' cs

/-- The condition on a call after `loaded` segments of which `n` were returned: the next
segment is the first at its address or repeats the first one's bytes. The sizes fit an `int`. -/
def CallCond (loaded : List Segment) (n : Nat) : Call → Prop
  | .readElf e => ∀ seg ∈ e.segments, seg.data.length < 2 ^ 31
  | .getSection => ∀ seg, loaded[n]? = some seg →
      n + 1 ≠ 2 ^ 31 ∧ (firstAt loaded seg.paddr).map Segment.data = some seg.data
  | .readSection _ _ _ => True

/-- The condition on a history, with what the calls so far load and return. -/
def RunCond : List Segment → Nat → List Call → Prop
  | _, _, [] => True
  | loaded, n, c :: cs => CallCond loaded n c ∧
      match c with
      | .readElf e => RunCond (loaded ++ e.segments) n cs
      | .getSection => RunCond loaded (if n < loaded.length then n + 1 else n) cs
      | .readSection _ _ _ => RunCond loaded n cs

/-! ## The invariant -/

/-- The globals hold what was loaded, and the cursor counts what was returned. -/
structure Inv (s : Session) : Prop where
  sections : s.g.sections = s.loaded.map fun seg => (seg.paddr, seg.memsz)
  mems : ∀ a, s.g.mems a = (firstAt s.loaded a).map Segment.data
  cursor : s.g.sectionIndex = s.returned.length
  size : ∀ seg ∈ s.loaded, seg.data.length ≤ seg.memsz

theorem start_inv : Inv {} := ⟨rfl, fun _ => rfl, rfl, fun _ h => absurd h List.not_mem_nil⟩

/-! ## Reading a file -/

theorem mem_segmentsOf {f : File} {hs : List Phdr} {seg : Segment} :
    seg ∈ f.segmentsOf hs ↔ ∃ h ∈ hs, h.Loadable ∧ f.segment h = seg := by
  unfold File.segmentsOf
  rw [List.mem_map]
  constructor
  · rintro ⟨h, hh, hseg⟩
    rw [List.mem_filter] at hh
    exact ⟨h, hh.1, of_decide_eq_true hh.2, hseg⟩
  · rintro ⟨h, hh, hl, hseg⟩
    exact ⟨h, List.mem_filter.mpr ⟨hh, decide_eq_true hl⟩, hseg⟩

namespace Elf

variable (e : Elf)

theorem phdrsChecked : e.file.PhdrsChecked e.cls :=
  Nat.le_trans (Nat.mod_le _ _) e.wf.phdrs

theorem length_data {h : Phdr} (hh : h ∈ e.file.phdrs e.cls) (hl : h.Loadable) :
    (e.file.data h).length = h.filesz :=
  length_slice (e.wf.segments h hh hl).1

/-- The sizes of all segments fit an `int`. -/
def Counts : Prop := ∀ seg ∈ e.segments, seg.data.length < 2 ^ 31

theorem counts_iff : e.Counts ↔ ∀ h ∈ e.file.phdrs e.cls, h.Loadable → e.file.Holds h := by
  constructor
  · intro hc h hh hl
    have hlen := hc _ (mem_segmentsOf.mpr ⟨h, hh, hl, rfl⟩)
    rw [show (e.file.segment h).data = e.file.data h from rfl, e.length_data hh hl] at hlen
    exact ⟨(e.wf.segments h hh hl).1, hlen⟩
  · intro hall seg hseg
    obtain ⟨h, hh, hl, rfl⟩ := mem_segmentsOf.mp hseg
    rw [show (e.file.segment h).data = e.file.data h from rfl, e.length_data hh hl]
    exact (hall h hh hl).2

theorem allAsserted : e.file.AllAsserted e.cls := fun h hh hl =>
  Nat.le_trans (Nat.mod_le _ _) (e.wf.segments h hh hl).1

theorem has_header : e.file.Has 0 64 := by
  have hsize := e.wf.size
  unfold File.Has
  omega

theorem readsInside_iff : e.file.ReadsInside e.cls ↔ e.Counts := by
  rw [counts_iff]
  constructor
  · intro h
    exact holds_of_asserted (h e.phdrsChecked).2.1 e.allAsserted
  · intro h _
    exact ⟨e.wf.phdrs, holdsAsserted_of_holds h, fun _ => e.wf.names⟩

/-- A file whose sizes fit is recorded in full. -/
theorem readElf_eq (h : e.Counts) (g : Globals) : readElf (.mapped e.file) g
    = .ok (0, Globals.recordAll { g with entry := (e.file.ehdr e.cls).entry } e.segments) := by
  unfold readElf
  rw [readElfLog_mapped e.wf.size e.wf.cls,
    loadElf_eq e.has_header (e.readsInside_iff.mpr h) e.phdrsChecked e.allAsserted]
  rfl

theorem safe_iff (g : Globals) : Safe (readElf (.mapped e.file) g) ↔ e.Counts := by
  constructor
  · intro h
    unfold readElf at h
    rw [readElfLog_mapped e.wf.size e.wf.cls, safe_bind, safe_bind, safe_loadElf e.has_header] at h
    exact e.readsInside_iff.mp h.1.1
  · intro h
    rw [e.readElf_eq h]
    exact safe_ok _

end Elf

/-! ## Reading a section back -/

/-- The copy loop fits the data into the buffer, or reports that it does not. -/
theorem copyOut_ret : ∀ (data : List Byte) (buf : Nat → Byte) (k len : Nat),
    (copyOut buf k data len).1 = if data.length ≤ len then 0 else -1
  | [], _, _, len => by
    rw [List.length_nil, if_pos (Nat.zero_le len)]
    unfold copyOut
    rfl
  | _ :: data, _, _, 0 => by
    rw [List.length_cons, if_neg (Nat.not_succ_le_zero data.length)]
    unfold copyOut
    rfl
  | datum :: data, buf, k, len + 1 => by
    unfold copyOut
    rw [copyOut_ret data _ (k + 1) len, List.length_cons]
    exact if_congr Nat.succ_le_succ_iff.symm rfl rfl

theorem copyOut_buf : ∀ (data : List Byte) (buf : Nat → Byte) (k len : Nat), data.length ≤ len →
    (copyOut buf k data len).2 = fun j => if j < k then buf j else (data[j - k]?).getD (buf j)
  | [], buf, k, _, _ => by
    unfold copyOut
    funext j
    exact (ite_self (buf j)).symm
  | datum :: data, buf, k, 0, h => absurd h (Nat.not_succ_le_zero _)
  | datum :: data, buf, k, len + 1, h => by
    unfold copyOut
    rw [copyOut_buf data _ (k + 1) len (Nat.le_of_succ_le_succ h)]
    funext j
    by_cases hlt : j < k
    · rw [if_pos (by omega), if_pos hlt, if_neg (by omega)]
    · rw [if_neg hlt]
      by_cases heq : j = k
      · subst heq
        rw [if_pos (Nat.lt_succ_self j), if_pos rfl, Nat.sub_self]
        rfl
      · rw [if_neg (by omega), if_neg heq, show j - k = (j - (k + 1)) + 1 by omega,
          List.getElem?_cons_succ]

/-- Two contents look alike over every buffer only if they are the same. -/
theorem image_inj {l l' : List Byte}
    (h : ∀ (buffer : Nat → Byte) (k : Nat), (l[k]?).getD (buffer k) = (l'[k]?).getD (buffer k)) :
    l = l' := by
  apply List.ext_getElem?
  intro k
  have h' := fun b : Byte => h (fun _ => b) k
  cases hl : l[k]? with
  | none =>
    cases hl' : l'[k]? with
    | none => rfl
    | some b =>
      have hb := h' (b + 1)
      rw [hl, hl'] at hb
      exact absurd hb (by show b + 1 ≠ b; bv_omega)
  | some a =>
    cases hl' : l'[k]? with
    | none =>
      have ha := h' (a + 1)
      rw [hl, hl'] at ha
      exact absurd ha (by show a ≠ a + 1; bv_omega)
    | some b =>
      have hab := h' 0
      rw [hl, hl'] at hab
      exact congrArg some hab

/-- A segment is read back exactly if the map has its data at its address. -/
theorem readSection_iff {g : Globals} {seg : Segment} {d : List Byte}
    (hmem : g.mems seg.paddr = some d) (hsize : seg.data.length ≤ seg.memsz) :
    (∀ buffer, readSection g seg.paddr buffer seg.memsz = (0, seg.image buffer)) ↔
      d = seg.data := by
  unfold readSection
  simp only [hmem]
  constructor
  · intro h
    have hfits : d.length ≤ seg.memsz := by
      have hret := congrArg Prod.fst (h fun _ => 0)
      rw [copyOut_ret] at hret
      split at hret
      · assumption
      · exact absurd hret (by show ¬(-1 : BitVec 8) = 0; decide)
    apply image_inj
    intro buffer k
    have hk := congrFun (congrArg Prod.snd (h buffer)) k
    rw [copyOut_buf _ _ _ _ hfits] at hk
    exact hk
  · rintro rfl buffer
    refine Prod.ext ?_ ?_
    · rw [copyOut_ret, if_pos hsize]
    · rw [copyOut_buf _ _ _ _ hsize]
      rfl

/-! ## Runs -/

theorem firstAt_append (l m : List Segment) (a : Nat) :
    firstAt (l ++ m) a = (firstAt l a).or (firstAt m a) := List.find?_append

theorem step_readElf {s : Session} {e : Elf} (h : e.Counts) :
    s.step (.readElf e) = some { s with
      g := Globals.recordAll { s.g with entry := (e.file.ehdr e.cls).entry } e.segments
      loaded := s.loaded ++ e.segments } := by
  unfold Session.step
  simp only [e.readElf_eq h]

theorem Inv.readElf {s : Session} (hi : Inv s) {e : Elf} (h : e.Counts) {s' : Session}
    (hs : s.step (.readElf e) = some s') : Inv s' ∧ s'.loaded = s.loaded ++ e.segments ∧
      s'.returned = s.returned := by
  rw [step_readElf h] at hs
  cases hs
  refine ⟨⟨?_, fun a => ?_, ?_, fun seg hseg => ?_⟩, rfl, rfl⟩
  · rw [recordAll_sections, hi.sections, List.map_append]
  · rw [recordAll_mems, hi.mems, firstAt_append, Option.map_or]
  · rw [recordAll_sectionIndex]
    exact hi.cursor
  · rcases List.mem_append.mp hseg with hseg | hseg
    · exact hi.size seg hseg
    · obtain ⟨h, hh, hl, rfl⟩ := mem_segmentsOf.mp hseg
      have hlen := e.length_data hh hl
      have hle := (e.wf.segments h hh hl).2
      show (e.file.data h).length ≤ h.memsz
      omega

/-- `get_section` hands out the next segment, unless its cursor overflows. -/
theorem Inv.getSection {s : Session} (hi : Inv s) : getSection s.g =
    match s.loaded[s.returned.length]? with
    | none => .ok (none, s.g)
    | some seg =>
      if s.returned.length + 1 = 2 ^ 31 then .error .undefined
      else .ok (some (seg.paddr, seg.memsz), { s.g with sectionIndex := s.returned.length + 1 }) := by
  have hnext : s.g.sections[s.g.sectionIndex]?
      = (s.loaded[s.returned.length]?).map fun seg => (seg.paddr, seg.memsz) := by
    rw [hi.sections, hi.cursor, List.getElem?_map]
  unfold Sim.getSection
  rw [hnext, hi.cursor]
  cases s.loaded[s.returned.length]? <;> rfl

/-- A call after `s` is sound exactly under its condition. -/
theorem Inv.callSound_iff {s : Session} (hi : Inv s) (c : Call) :
    CallSound s c ↔ CallCond s.loaded s.returned.length c := by
  cases c with
  | readElf e => exact e.safe_iff s.g
  | readSection _ _ _ => exact Iff.rfl
  | getSection =>
    unfold CallSound CallCond
    simp only [hi.getSection]
    cases hseg : s.loaded[s.returned.length]? with
    | none => exact iff_of_true rfl nofun
    | some seg =>
      have hmem := List.mem_of_getElem? hseg
      have hsize := hi.size seg hmem
      obtain ⟨first, hfirst⟩ : ∃ first, firstAt s.loaded seg.paddr = some first := by
        have hsome : (firstAt s.loaded seg.paddr).isSome = true := by
          unfold firstAt
          rw [List.find?_isSome]
          exact ⟨seg, hmem, decide_eq_true rfl⟩
        exact Option.isSome_iff_exists.mp hsome
      have hback := fun g' (hg' : g'.mems = s.g.mems) =>
        @readSection_iff g' seg first.data (by rw [hg', hi.mems, hfirst]; rfl) hsize
      simp only [Option.some.injEq, forall_eq', hfirst, Option.map_some]
      by_cases hover : s.returned.length + 1 = 2 ^ 31
      · rw [if_pos hover]
        refine iff_of_false ?_ fun h => h.1 hover
        rintro ⟨g', hg', _⟩
        cases hg'
      · rw [if_neg hover]
        constructor
        · rintro ⟨g', hg', hread⟩
          cases hg'
          exact ⟨hover, (hback _ rfl).mp hread⟩
        · intro h
          exact ⟨_, rfl, (hback _ rfl).mpr h.2⟩

theorem Inv.step_getSection {s : Session} (hi : Inv s) {s' : Session}
    (hs : s.step .getSection = some s') : Inv s' ∧ s'.loaded = s.loaded ∧ s'.returned.length
      = if s.returned.length < s.loaded.length then s.returned.length + 1
        else s.returned.length := by
  unfold Session.step at hs
  simp only [hi.getSection] at hs
  cases hseg : s.loaded[s.returned.length]? with
  | none =>
    rw [hseg] at hs
    cases hs
    rw [if_neg (Nat.not_lt.mpr (List.getElem?_eq_none_iff.mp hseg))]
    exact ⟨hi, rfl, rfl⟩
  | some seg =>
    obtain ⟨hlt, _⟩ := List.getElem?_eq_some_iff.mp hseg
    rw [hseg] at hs
    by_cases hover : s.returned.length + 1 = 2 ^ 31
    · simp only [if_pos hover] at hs
      cases hs
    · simp only [if_neg hover] at hs
      cases hs
      rw [if_pos hlt]
      have hlen : (s.returned ++ [(seg.paddr, seg.memsz)]).length = s.returned.length + 1 :=
        List.length_append
      exact ⟨⟨hi.sections, hi.mems, hlen.symm, hi.size⟩, rfl, hlen⟩

/-- In a session that keeps the invariant a call under its condition has a next state. -/
theorem Inv.steps {s : Session} (hi : Inv s) {c : Call}
    (hc : CallCond s.loaded s.returned.length c) : ∃ s', s.step c = some s' := by
  cases c with
  | readElf e => exact ⟨_, step_readElf hc⟩
  | readSection _ _ _ => exact ⟨s, rfl⟩
  | getSection =>
    unfold Session.step
    simp only [hi.getSection]
    cases hseg : s.loaded[s.returned.length]? with
    | none => exact ⟨_, rfl⟩
    | some seg =>
      simp only [if_neg (hc seg hseg).1]
      exact ⟨_, rfl⟩

/-- A history is sound exactly under the condition, from every state the invariant holds in. -/
theorem Inv.runSound_iff : ∀ (calls : List Call) {s : Session}, Inv s →
    (RunSound s calls ↔ RunCond s.loaded s.returned.length calls)
  | [], _, _ => Iff.rfl
  | c :: calls, s, hi => by
    unfold RunSound RunCond
    rw [hi.callSound_iff c]
    refine and_congr_right fun hc => ?_
    obtain ⟨s', hs'⟩ := hi.steps hc
    rw [hs']
    simp only [Option.some.injEq, forall_eq']
    cases c with
    | readElf e =>
      obtain ⟨hi', hloaded, hreturned⟩ := hi.readElf hc hs'
      show _ ↔ RunCond (s.loaded ++ e.segments) s.returned.length calls
      rw [← hloaded, ← hreturned]
      exact hi'.runSound_iff calls
    | getSection =>
      obtain ⟨hi', hloaded, hreturned⟩ := hi.step_getSection hs'
      show _ ↔ RunCond s.loaded
        (if s.returned.length < s.loaded.length then s.returned.length + 1
          else s.returned.length) calls
      rw [← hreturned, ← hloaded]
      exact hi'.runSound_iff calls
    | readSection _ _ _ =>
      cases hs'
      exact hi.runSound_iff calls

/-- Over any history each section comes with its own data exactly if the first segment loaded
at its address has the same data. -/
theorem sections_exact_iff (calls : List Call) : RunSound {} calls ↔ RunCond [] 0 calls :=
  start_inv.runSound_iff calls

/-- Two segments of one byte each for the same address, and a name table. -/
def twiceElf : Elf where
  file := File.ofBytes
    (ehdrBytes ⟨0x10000000, 64, 188, 2, 1, 0⟩ ++ phdrBytes ⟨1, 176, 0x10000000, 1, 1⟩
      ++ phdrBytes ⟨1, 177, 0x10000000, 1, 1⟩ ++ [0x11, 0x22]
      ++ [0, 0x2e, 0x73, 0x74, 0x72, 0x74, 0x61, 0x62, 0, 0] ++ shdrBytes ⟨1, 178, 9⟩)
    (by decide +kernel)
  cls := .elf64
  wf := ⟨by decide +kernel, by decide +kernel, by decide +kernel, by decide +kernel,
    by decide +kernel⟩

/-- The second of them is read back with the bytes of the first. -/
theorem sections_inexact_twice :
    ¬RunSound {} [.readElf twiceElf, .getSection, .getSection] := by
  intro h
  have hcond := (start_inv.runSound_iff _).mp h
  have hlast := (hcond.2.2.1 ⟨0x10000000, 1, [0x22]⟩ (by decide +kernel)).2
  exact absurd hlast (by decide +kernel)

end Cheshire.Sim
