import Cheshire.Lib.Prog
import Cheshire.Sim.Section

/-!
# `jtag_elf_preload`

The JTAG driver writes a section through the system bus of the debug module, two
data registers for each word of eight bytes; the second write stores the word at
the bus address, which then moves on. The loop over a section runs up to and
including its length, so it writes the word the section ends in, padded with
zeros, and where the length is a multiple of eight a word of zeros behind it.

A section that is loaded later can therefore clear bytes of one that is there
already. `jtagElfPreload_intact_iff` is exact: the preload is intact if those
bytes are zero anyway.
-/

namespace Cheshire.Sim

open Span
open Firmware (le32 le64 byte_le64)

/-- A section that starts with a word, as the system bus needs it for words. -/
structure AlignedSection extends Section where
  aligned : addr.toNat % 8 = 0

/-- The registers of the debug module that a preload writes. -/
inductive DmReg where
  | sbcs
  | sbAddress0
  | sbAddress1
  | sbData0
  | sbData1
  deriving DecidableEq, Repr

/-- The system bus of the debug module, and the memory behind it. -/
structure SysBus where
  address : Address := 0
  data1 : BitVec 32 := 0
  mem : Memory

/-- `jtag_write` with `sbaccess` 3 and `sbautoincrement`: a write of `SBData0` stores the word
`{SBData1, SBData0}`. -/
def jtagWrite (b : SysBus) (reg : DmReg) (data : BitVec 32) : SysBus :=
  match reg with
  | .sbcs => b
  | .sbAddress0 => { b with address := b.address.extractLsb' 32 32 ++ data }
  | .sbAddress1 => { b with address := data ++ b.address.extractLsb' 0 32 }
  | .sbData1 => { b with data1 := data }
  | .sbData0 =>
    { b with
      address := nth b.address 8
      mem := store b.mem b.address (fun j => (b.data1 ++ data).extractLsb' (8 * j) 8) 8 }

/-- The body of the loop over a section: `{bf[i+7], bf[i+6], bf[i+5], bf[i+4]}`, then
`{bf[i+3], bf[i+2], bf[i+1], bf[i]}`. -/
def jtagWord (s : AlignedSection) (i : Nat) (b : SysBus) : SysBus :=
  let b := jtagWrite b .sbData1 (le32 s.byte (i + 4))
  jtagWrite b .sbData0 (le32 s.byte i)

/-- `for (longint i = 0; i <= sec_len; i += 8)`, from `i` on with `n` passes left. -/
def jtagWords (s : AlignedSection) : Nat → Nat → SysBus → SysBus
  | _, 0, b => b
  | i, n + 1, b => jtagWords s (i + 8) n (jtagWord s i b)

/-- `JtagInitSbcs`, with `sbautoincrement`, `sbreadondata` and `sbaccess` 3. -/
def jtagInitSbcs : BitVec 32 := 0x00078000

def jtagSection (b : SysBus) (s : AlignedSection) : SysBus :=
  let b := jtagWrite b .sbcs jtagInitSbcs
  let b := jtagWrite b .sbAddress1 (s.addr.extractLsb' 32 32)
  let b := jtagWrite b .sbAddress0 (s.addr.extractLsb' 0 32)
  jtagWords s 0 (s.len / 8 + 1) b

/-- The loop of `jtag_elf_preload` over the sections, in the order of loading. -/
def jtagElfPreload (b : SysBus) (secs : List AlignedSection) : SysBus := secs.foldl jtagSection b

/-! ## What a section writes -/

/-- The bytes a section writes: its own, and zeros up to the next word. -/
def AlignedSection.span (s : AlignedSection) : Nat := 8 * (s.len / 8 + 1)

/-- `x` is one of the bytes written behind the section. -/
def AlignedSection.Pads (s : AlignedSection) (x : Address) : Prop :=
  Within s.addr s.span x ∧ ¬Within s.addr s.len x

instance (s : AlignedSection) (x : Address) : Decidable (s.Pads x) :=
  inferInstanceAs (Decidable (_ ∧ _))

theorem length_lt_span (s : AlignedSection) : s.len < s.span := by
  unfold AlignedSection.span
  omega

theorem span_lt (s : AlignedSection) : s.span < 2 ^ 63 := by
  have h := s.len_lt
  unfold AlignedSection.span
  omega

theorem jtagWord_mem (s : AlignedSection) (i : Nat) (b : SysBus) :
    (jtagWord s i b).mem = store b.mem b.address (fun j => s.byte (i + j)) 8 :=
  store_congr _ _ fun _ hj => byte_le64 s.byte i hj

theorem jtagWord_address (s : AlignedSection) (i : Nat) (b : SysBus) :
    (jtagWord s i b).address = nth b.address 8 := rfl

theorem jtagWords_mem (s : AlignedSection) : ∀ (n i : Nat) (b : SysBus), 8 * n ≤ 2 ^ 64 →
    (jtagWords s i n b).mem = store b.mem b.address (fun j => s.byte (i + j)) (8 * n)
  | 0, _, b, _ => (store_zero b.mem b.address _).symm
  | n + 1, i, b, h => by
    unfold jtagWords
    rw [jtagWords_mem s n (i + 8) _ (by omega), jtagWord_mem, jtagWord_address,
      show 8 * (n + 1) = 8 + 8 * n by omega, ← store_append _ _ _ (by omega)]
    exact store_congr _ _ fun j _ => by rw [Nat.add_assoc]

/-- The two halves of the bus address make the section's. -/
theorem address_halves (a : Address) : (a.extractLsb' 32 32 ++ a.extractLsb' 0 32 : Address) = a :=
  BitVec.extractLsb'_append_extractLsb'_eq_extractLsb' rfl |>.trans BitVec.extractLsb'_eq_self

theorem jtagSection_mem (b : SysBus) (s : AlignedSection) :
    (jtagSection b s).mem = store b.mem s.addr s.byte s.span := by
  have hspan := span_lt s
  unfold jtagSection
  rw [jtagWords_mem _ _ _ _ (by unfold AlignedSection.span at hspan; omega)]
  have haddr : (jtagWrite (jtagWrite (jtagWrite b .sbcs jtagInitSbcs) .sbAddress1
      (s.addr.extractLsb' 32 32)) .sbAddress0 (s.addr.extractLsb' 0 32)).address = s.addr := by
    refine Eq.trans ?_ (address_halves s.addr)
    -- the high word stays when the low word is written
    exact congrArg (· ++ s.addr.extractLsb' 0 32) BitVec.extractLsb'_append_eq_left
  simp only [haddr, Nat.zero_add]
  rfl

/-! ## What a preload leaves -/

/-- The byte of a loaded section at `x` is there until a later section pads it away. -/
theorem preload_keeps {x : Address} : ∀ (secs : List AlignedSection) (b : SysBus),
    (∀ t ∈ secs, ¬Within t.addr t.len x) →
    (jtagElfPreload b secs).mem x = if ∃ t ∈ secs, t.Pads x then 0 else b.mem x
  | [], _, _ => (if_neg fun ⟨_, h, _⟩ => absurd h List.not_mem_nil).symm
  | t :: secs, b, hout => by
    obtain ⟨ht, hrest⟩ := List.forall_mem_cons.mp hout
    have ih := preload_keeps secs (jtagSection b t) hrest
    rw [jtagSection_mem] at ih
    refine ih.trans ?_
    by_cases hlater : ∃ u ∈ secs, u.Pads x
    · rw [if_pos hlater, if_pos]
      obtain ⟨u, hu, hpads⟩ := hlater
      exact ⟨u, List.mem_cons_of_mem t hu, hpads⟩
    · rw [if_neg hlater]
      by_cases hpads : t.Pads x
      · rw [if_pos ⟨t, List.mem_cons_self .., hpads⟩]
        unfold store
        rw [if_pos hpads.1]
        exact byte_outside (Nat.le_of_not_lt ht)
      · have hspan : ¬Within t.addr t.span x := fun h => hpads ⟨h, ht⟩
        rw [store_outside _ _ hspan, if_neg]
        rintro ⟨u, hu, hpu⟩
        rcases List.mem_cons.mp hu with rfl | hu
        · exact hpads hpu
        · exact hlater ⟨u, hu, hpu⟩

/-- The two sections share no address. -/
def Apart (s t : AlignedSection) : Prop := s.toSection.Apart t.toSection

/-- Every byte of every section is in memory, whatever was there before. -/
def Intact (secs : List AlignedSection) : Prop :=
  ∀ (b : SysBus), ∀ s ∈ secs, ∀ k < s.len,
    (jtagElfPreload b secs).mem (nth s.addr k) = s.byte k

/-- Where a section that is loaded later pads an earlier one, the earlier one is zero. -/
def PadsHarmless (secs : List AlignedSection) : Prop :=
  secs.Pairwise fun s t => ∀ k < s.len, t.Pads (nth s.addr k) → s.byte k = 0

theorem pairwise_iff_split {α : Type} {R : α → α → Prop} {l : List α} : l.Pairwise R ↔
    ∀ before a after, l = before ++ a :: after → ∀ b ∈ after, R a b := by
  constructor
  · rintro h before a after rfl
    exact (List.pairwise_cons.mp (List.pairwise_append.mp h).2.1).1
  · intro h
    induction l with
    | nil => exact List.Pairwise.nil
    | cons a l ih =>
      refine List.Pairwise.cons (h [] a l rfl) (ih fun before b after heq => ?_)
      exact h (a :: before) b after (by rw [heq]; rfl)

/-- A byte of a section, in memory after the section and all later ones are loaded. -/
theorem preload_byte {before after : List AlignedSection} {s : AlignedSection}
    (hapart : ∀ t ∈ after, s.Apart t.toSection) (b : SysBus) {k : Nat} (hk : k < s.len) :
    (jtagElfPreload b (before ++ s :: after)).mem (nth s.addr k)
      = if ∃ t ∈ after, t.Pads (nth s.addr k) then 0 else s.byte k := by
  have hspan := length_lt_span s
  have hlt := span_lt s
  have hin : Within s.addr s.len (nth s.addr k) := (within_nth (by omega)).mpr hk
  have hkeep := preload_keeps after (jtagSection (jtagElfPreload b before) s)
    fun t ht hw => hapart t ht _ ⟨hin, hw⟩
  rw [jtagSection_mem, store_nth _ _ (by omega) (by omega)] at hkeep
  unfold jtagElfPreload at hkeep ⊢
  rw [List.foldl_append, List.foldl_cons]
  exact hkeep

/-- The preload is intact exactly if its padding is harmless. -/
theorem jtagElfPreload_intact_iff {secs : List AlignedSection} (h : secs.Pairwise Apart) :
    Intact secs ↔ PadsHarmless secs := by
  have hsplit := pairwise_iff_split.mp h
  unfold PadsHarmless
  rw [pairwise_iff_split]
  constructor
  · rintro hintact before s after rfl t ht k hk hpads
    have hbyte := hintact ⟨0, 0, fun _ => 0⟩ s (List.mem_append_right _ (List.mem_cons_self ..)) k hk
    rw [preload_byte (hsplit before s after rfl) _ hk, if_pos ⟨t, ht, hpads⟩] at hbyte
    exact hbyte.symm
  · intro hharmless b s hs k hk
    obtain ⟨before, after, rfl⟩ := List.append_of_mem hs
    rw [preload_byte (hsplit before s after rfl) b hk]
    split
    next hpads =>
      obtain ⟨t, ht, hpads⟩ := hpads
      exact (hharmless before s after rfl t ht k hk hpads).symm
    next => rfl

/-- A section of one word, and a byte right behind it. -/
def lowSection : AlignedSection :=
  ⟨⟨0x80000000, [1, 2, 3, 4, 5, 6, 7, 8], by decide, by decide⟩, by decide⟩

def highSection : AlignedSection := ⟨⟨0x80000008, [0xaa], by decide, by decide⟩, by decide⟩

theorem low_apart_high : lowSection.Apart highSection.toSection :=
  apart_of_le (by decide) (by decide)

theorem jtagElfPreload_intact_ascending : Intact [lowSection, highSection] :=
  (jtagElfPreload_intact_iff (List.pairwise_pair.mpr low_apart_high)).mpr
    (List.pairwise_pair.mpr (by decide +kernel))

/-- In the other order the zero word behind the first section clears the byte. -/
theorem jtagElfPreload_damage_descending :
    [highSection, lowSection].Pairwise Apart ∧ ¬Intact [highSection, lowSection] := by
  refine ⟨List.pairwise_pair.mpr low_apart_high.symm, fun hintact => ?_⟩
  have hbyte := hintact ⟨0, 0, fun _ => 0⟩ highSection (List.mem_cons_self ..) 0 (by decide)
  exact absurd hbyte (by decide +kernel)

end Cheshire.Sim
