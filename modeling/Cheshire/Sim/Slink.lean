import Cheshire.Lib.Axi
import Cheshire.Lib.Prog
import Cheshire.Sim.Section

/-!
# `slink_elf_preload`

The serial link driver writes a section in bursts of 1024 bytes of bus words of
eight bytes. The words are laid out for the bus: a section that starts inside a
word starts in that lane. But every burst starts at the section's address plus a
multiple of 1024, and masks the lanes in front of its own start, so the bytes that
a later burst should have in those lanes are never written. The loop also makes a
burst of no words when the length is a multiple of 1024, which is fatal, and does
not look for 4 KiB boundaries.

`slinkElfPreload_sound_iff` is exact: none of this happens if the section is
`SlinkFits`.
-/

namespace Cheshire.Sim

open Span (Byte)
open Firmware (le64 byte_le64)

/-- `addr_t`, `DutCfg.AddrWidth` bits wide; an address has at least its offset in a page. -/
structure AddrT where
  width : Nat
  page : 12 ≤ width

def slinkBurstBytes : Nat := 1024
def axiStrbWidth : Nat := 8
def axiStrbBits : Nat := 3

/-- `sec_addr[AxiStrbBits-1:0]`, where the section starts in a bus word. -/
def Section.busOffset (s : Section) : Nat := s.addr.toNat % 8

/-- `(~('1 << size_bytes)) << addr[AxiStrbBits-1:0]`, for the first beat; `'1` for others. -/
def slinkStrb (addr size i : Nat) : BitVec 8 :=
  if i = 0 then ~~~(BitVec.allOnes 8 <<< (1 <<< size)) <<< (addr % 8) else BitVec.allOnes 8

/-- `slink_write_beats`: no beats are fatal; else the burst sent to `addr`. -/
def slinkWriteBeats (addr size : Nat) (beats : List (BitVec 64)) : Option (Axi.Burst Byte) :=
  if beats.length = 0 then none
  else some {
    addr := addr
    size := size
    beats := beats.mapIdx fun i beat =>
      { data := fun e => beat.extractLsb' (8 * e) 8
        strb := fun e => (slinkStrb addr size i).getLsbD e } }

/-- Lane `e` of the beat at `b` in the burst at `i`. -/
def slinkLane (s : Section) (i b e : Nat) : Byte :=
  if i + b + e < s.busOffset then 0
  else if s.len ≤ i + b + e - s.busOffset then 0
  else s.byte (i + b + e - s.busOffset)

/-- The beats of the burst at `i`: `for (b = 0; b < SlinkBurstBytes; b += AxiStrbWidth)`, left
where `i + b - bus_offset >= sec_len`. -/
def slinkBeats (s : Section) (i : Nat) : List (BitVec 64) :=
  ((List.range (slinkBurstBytes / axiStrbWidth)).takeWhile
      fun j => decide (i + axiStrbWidth * j < s.len + s.busOffset)).map
    fun j => le64 (slinkLane s i (axiStrbWidth * j)) 0

/-- The burst at `i`, to `sec_addr + i` as an `addr_t`. -/
def slinkBurst (w : AddrT) (s : Section) (i : Nat) : Option (Axi.Burst Byte) :=
  slinkWriteBeats ((s.addr.toNat + i) % 2 ^ w.width) axiStrbBits (slinkBeats s i)

/-- The bursts from `i` on with `n` passes left, unless one is fatal. -/
def slinkBursts (w : AddrT) (s : Section) : Nat → Nat → Option (List (Axi.Burst Byte))
  | _, 0 => some []
  | i, n + 1 => do
    let b ← slinkBurst w s i
    let bs ← slinkBursts w s (i + slinkBurstBytes) n
    some (b :: bs)

/-- `for (i = 0; i <= sec_len; i += SlinkBurstBytes)`. -/
def slinkElfPreload (w : AddrT) (s : Section) : Option (List (Axi.Burst Byte)) :=
  slinkBursts w s 0 (s.len / slinkBurstBytes + 1)

/-- Memory after the bursts, in the order in which they are sent. -/
def slinkMemory (bursts : List (Axi.Burst Byte)) (m : Nat → Byte) : Nat → Byte :=
  bursts.foldl (fun m b => b.apply axiStrbWidth m) m

/-- No write is fatal, all bursts are legal, and the section is in memory, whatever was there. -/
def SlinkSound (w : AddrT) (s : Section) : Prop :=
  ∃ bursts, slinkElfPreload w s = some bursts ∧ (∀ b ∈ bursts, b.Legal) ∧
    ∀ (m : Nat → Byte), ∀ k < s.len, slinkMemory bursts m (s.addr.toNat + k) = s.byte k

/-- The sections that are preloaded soundly: what `last`, `first` and `page` rule out goes wrong. -/
structure SlinkFits (w : AddrT) (s : Section) : Prop where
  space : s.addr.toNat + s.len ≤ 2 ^ w.width
  last : ¬(8 ∣ s.addr.toNat ∧ 1024 ∣ s.len)
  first : 8 ∣ s.addr.toNat ∨ s.addr.toNat % 8 + s.len ≤ 1024
  page : 1024 ∣ s.addr.toNat ∨ s.addr.toNat / 4096 = (s.addr.toNat + s.len - 1) / 4096

variable {w : AddrT} {s : Section} {i : Nat}

/-! ## One burst -/

/-- The number of beats in the burst at `i`. -/
def beatCount (s : Section) (i : Nat) : Nat := min 128 ((s.len + s.busOffset - i + 7) / 8)

theorem slinkBeats_eq (s : Section) (i : Nat) : slinkBeats s i
    = (List.range (beatCount s i)).map fun j => le64 (slinkLane s i (axiStrbWidth * j)) 0 := by
  have hlt : ∀ j, i + 8 * j < s.len + s.busOffset ↔ j < (s.len + s.busOffset - i + 7) / 8 := by
    omega
  unfold slinkBeats axiStrbWidth slinkBurstBytes beatCount
  simp only [hlt, takeWhile_range]

theorem slinkBeats_length (s : Section) (i : Nat) : (slinkBeats s i).length = beatCount s i := by
  rw [slinkBeats_eq, List.length_map, List.length_range]

/-- The burst at `i`, if it has beats. -/
def slinkBurstOf (w : AddrT) (s : Section) (i : Nat) : Axi.Burst Byte where
  addr := (s.addr.toNat + i) % 2 ^ w.width
  size := 3
  beats := (slinkBeats s i).mapIdx fun j beat =>
    { data := fun e => beat.extractLsb' (8 * e) 8
      strb := fun e => (slinkStrb ((s.addr.toNat + i) % 2 ^ w.width) 3 j).getLsbD e }

theorem slinkBurst_eq (w : AddrT) (s : Section) (i : Nat) :
    slinkBurst w s i = if beatCount s i = 0 then none else some (slinkBurstOf w s i) := by
  unfold slinkBurst slinkWriteBeats
  rw [slinkBeats_length]
  rfl

/-- The strobes of full beats: all lanes, from the address on in the first beat. -/
theorem slinkStrb_eq (addr j : Nat) {e : Nat} (he : e < 8) :
    (slinkStrb addr 3 j).getLsbD e = decide (j ≠ 0 ∨ addr % 8 ≤ e) := by
  unfold slinkStrb
  by_cases hj : j = 0
  · have hmask : ~~~(BitVec.allOnes 8 <<< (1 <<< 3)) = BitVec.allOnes 8 := rfl
    rw [if_pos hj, hmask, BitVec.getLsbD_shiftLeft, BitVec.getLsbD_allOnes]
    by_cases hlane : addr % 8 ≤ e
    · simp [hj, he, hlane, show e - addr % 8 < 8 by omega]
    · simp [hj, he, hlane]
  · rw [if_neg hj, BitVec.getLsbD_allOnes, decide_eq_true he, decide_eq_true (Or.inl hj)]

/-- A burst writes the section's bytes from `sec_addr + i` to the end of its last beat. -/
def Covered (s : Section) (i x : Nat) : Prop :=
  s.addr.toNat + i ≤ x ∧ x + s.busOffset < s.addr.toNat + i + 8 * beatCount s i

instance (s : Section) (i x : Nat) : Decidable (Covered s i x) := inferInstanceAs (Decidable (_ ∧ _))

theorem slinkBurst_beat (hspace : s.addr.toNat + i < 2 ^ w.width) (j : Nat) :
    (slinkBurstOf w s i).beats[j]? = if j < beatCount s i then
      some { data := fun e => (le64 (slinkLane s i (8 * j)) 0).extractLsb' (8 * e) 8
             strb := fun e => (slinkStrb (s.addr.toNat + i) 3 j).getLsbD e }
    else none := by
  unfold slinkBurstOf
  rw [List.getElem?_mapIdx, slinkBeats_eq, List.getElem?_map, Nat.mod_eq_of_lt hspace]
  by_cases hj : j < beatCount s i
  · rw [if_pos hj, List.getElem?_range hj]
    rfl
  · rw [if_neg hj, List.getElem?_eq_none (by rw [List.length_range]; omega)]
    rfl

/-- A lane from the section's start on carries the section's byte. -/
theorem slinkLane_eq {b e : Nat} (h : s.busOffset ≤ i + b + e) :
    slinkLane s i b e = s.byte (i + b + e - s.busOffset) := by
  unfold slinkLane
  rw [if_neg (Nat.not_lt.mpr h)]
  split
  next hlen => exact (byte_outside hlen).symm
  next => rfl

theorem slinkBurst_apply (hi : 8 ∣ i) (hspace : s.addr.toNat + i < 2 ^ w.width) (m : Nat → Byte)
    (x : Nat) : (slinkBurstOf w s i).apply 8 m x
      = if Covered s i x then s.byte (x - s.addr.toNat) else m x := by
  have hoff : s.busOffset = s.addr.toNat % 8 := rfl
  have haddr : (slinkBurstOf w s i).addr = s.addr.toNat + i := Nat.mod_eq_of_lt hspace
  have hbase : Axi.alignDown (slinkBurstOf w s i).addr 8 = s.addr.toNat + i - s.busOffset := by
    rw [haddr, Axi.alignDown_eq]
    omega
  rw [Axi.apply_eq (by rfl), hbase]
  by_cases hlo : s.addr.toNat + i - s.busOffset ≤ x
  · rw [if_pos hlo]
    -- lane `y % 8` of beat `y / 8`
    generalize hy : x - (s.addr.toNat + i - s.busOffset) = y
    have hlane : i + 8 * (y / 8) + (0 + y % 8) = i + y := by omega
    have hmod : (s.addr.toNat + i) % 8 = s.busOffset := by omega
    rw [slinkBurst_beat hspace]
    by_cases hj : y / 8 < beatCount s i
    · simp only [if_pos hj]
      rw [slinkStrb_eq _ _ (Nat.mod_lt _ (by omega)), byte_le64 _ _ (Nat.mod_lt _ (by omega)),
        hmod]
      by_cases hstart : s.addr.toNat + i ≤ x
      · have hcov : Covered s i x := by
          unfold Covered
          omega
        have hstrb : y / 8 ≠ 0 ∨ s.busOffset ≤ y % 8 := by omega
        rw [if_pos hcov, decide_eq_true hstrb, if_pos rfl, slinkLane_eq (by omega), hlane]
        congr 1
        omega
      · have hcov : ¬Covered s i x := fun h => hstart h.1
        have hstrb : ¬(y / 8 ≠ 0 ∨ s.busOffset ≤ y % 8) := by omega
        rw [if_neg hcov, decide_eq_false hstrb, if_neg Bool.false_ne_true]
    · have hcov : ¬Covered s i x := by
        unfold Covered
        omega
      simp only [if_neg hj]
      rw [if_neg hcov]
  · rw [if_neg hlo, if_neg]
    unfold Covered
    omega

/-! ## All bursts -/

/-- The `n` bursts of a section from offset `i` on. -/
def burstsFrom (w : AddrT) (s : Section) : Nat → Nat → List (Axi.Burst Byte)
  | _, 0 => []
  | i, n + 1 => slinkBurstOf w s i :: burstsFrom w s (i + slinkBurstBytes) n

/-- Where burst `j + 1` from `i` on is. -/
theorem burst_succ (i j : Nat) : i + slinkBurstBytes + 1024 * j = i + 1024 * (j + 1) := by
  unfold slinkBurstBytes
  omega

/-- The loop yields bursts exactly if every one of them has a beat, and then it yields all of
them in order. -/
theorem slinkBursts_eq : ∀ (n i : Nat) (bs : List (Axi.Burst Byte)), slinkBursts w s i n = some bs ↔
    (∀ j < n, beatCount s (i + 1024 * j) ≠ 0) ∧ bs = burstsFrom w s i n
  | 0, i, bs => by
    unfold slinkBursts burstsFrom
    rw [Option.some.injEq, eq_comm]
    exact (and_iff_right fun j hj => absurd hj (Nat.not_lt_zero j)).symm
  | n + 1, i, bs => by
    have ih := fun bs => slinkBursts_eq n (i + slinkBurstBytes) bs
    unfold slinkBursts burstsFrom
    rw [slinkBurst_eq]
    by_cases hz : beatCount s i = 0
    · rw [if_pos hz]
      exact iff_of_false nofun fun h => h.1 0 (Nat.succ_pos n) hz
    · rw [if_neg hz]
      constructor
      · intro h
        obtain ⟨b, hb, htail⟩ := Option.bind_eq_some_iff.mp h
        obtain ⟨rest, hrest, hbs⟩ := Option.bind_eq_some_iff.mp htail
        obtain ⟨hbeats, rfl⟩ := (ih rest).mp hrest
        cases hb
        refine ⟨fun j hj => ?_, (Option.some.inj hbs).symm⟩
        cases j with
        | zero => exact hz
        | succ j =>
          rw [← burst_succ]
          exact hbeats j (Nat.lt_of_succ_lt_succ hj)
      · rintro ⟨hbeats, rfl⟩
        refine Option.bind_eq_some_iff.mpr ⟨_, rfl, ?_⟩
        refine Option.bind_eq_some_iff.mpr ⟨_, (ih _).mpr ⟨fun j hj => ?_, rfl⟩, rfl⟩
        rw [burst_succ]
        exact hbeats (j + 1) (Nat.succ_lt_succ hj)

/-- After `n` bursts every byte that one of them covers is the section's, and all other bytes are
as before. -/
theorem slinkMemory_eq (x : Nat) : ∀ (n i : Nat) (m : Nat → Byte), 8 ∣ i →
    (∀ j < n, s.addr.toNat + (i + 1024 * j) < 2 ^ w.width) →
    slinkMemory (burstsFrom w s i n) m x
      = if ∃ j < n, Covered s (i + 1024 * j) x then s.byte (x - s.addr.toNat) else m x
  | 0, _, _, _, _ => (if_neg fun ⟨j, hj, _⟩ => absurd hj (Nat.not_lt_zero j)).symm
  | n + 1, i, m, hi, hspace => by
    have hrest : slinkMemory (burstsFrom w s i (n + 1)) m x
        = slinkMemory (burstsFrom w s (i + slinkBurstBytes) n) ((slinkBurstOf w s i).apply 8 m) x :=
      rfl
    have hi' : 8 ∣ i + slinkBurstBytes := by
      unfold slinkBurstBytes
      omega
    rw [hrest, slinkMemory_eq x n _ _ hi' fun j hj => by
        rw [burst_succ]
        exact hspace (j + 1) (Nat.succ_lt_succ hj),
      slinkBurst_apply hi (hspace 0 (Nat.succ_pos n))]
    simp only [burst_succ, Nat.exists_lt_succ_left, Nat.mul_zero, Nat.add_zero]
    by_cases hlater : ∃ j < n, Covered s (i + 1024 * (j + 1)) x
    · rw [if_pos hlater, if_pos (Or.inr hlater)]
    · rw [if_neg hlater]
      by_cases hfirst : Covered s i x
      · rw [if_pos hfirst, if_pos (Or.inl hfirst)]
      · rw [if_neg hfirst, if_neg fun h => h.elim hfirst hlater]

theorem slinkMemory_bound {x : Nat} : ∀ (bs : List (Axi.Burst Byte)) (m : Nat → Byte),
    (∀ b ∈ bs, b.size = 3 ∧ b.bound ≤ x) → slinkMemory bs m x = m x
  | [], _, _ => rfl
  | b :: bs, m, h => by
    obtain ⟨⟨hsize, hbound⟩, hrest⟩ := List.forall_mem_cons.mp h
    refine (slinkMemory_bound bs _ hrest).trans ?_
    exact Axi.apply_bound (by rw [hsize]; rfl) m hbound

/-! ## The preload -/

theorem beatCount_ne_zero : beatCount s i ≠ 0 ↔ i < s.len + s.busOffset := by
  unfold beatCount
  omega

theorem slinkElfPreload_eq {bs : List (Axi.Burst Byte)} : slinkElfPreload w s = some bs ↔
    (∀ j < s.len / 1024 + 1, 1024 * j < s.len + s.busOffset) ∧
      bs = burstsFrom w s 0 (s.len / 1024 + 1) := by
  unfold slinkElfPreload slinkBurstBytes
  simp only [slinkBursts_eq, beatCount_ne_zero, Nat.zero_add]

theorem mem_burstsFrom {b : Axi.Burst Byte} : ∀ {n i : Nat},
    b ∈ burstsFrom w s i n ↔ ∃ j < n, b = slinkBurstOf w s (i + 1024 * j)
  | 0, _ => iff_of_false List.not_mem_nil fun ⟨j, hj, _⟩ => absurd hj (Nat.not_lt_zero j)
  | n + 1, i => by
    unfold burstsFrom
    simp only [List.mem_cons, mem_burstsFrom, burst_succ, Nat.exists_lt_succ_left, Nat.mul_zero,
      Nat.add_zero]

theorem slinkBurstOf_bound (hi : 8 ∣ i) (hspace : s.addr.toNat + i < 2 ^ w.width) :
    (slinkBurstOf w s i).bound = s.addr.toNat + i - s.busOffset + 8 * beatCount s i := by
  have hoff : s.busOffset = s.addr.toNat % 8 := rfl
  have haddr : (slinkBurstOf w s i).addr = s.addr.toNat + i := Nat.mod_eq_of_lt hspace
  have hlen : (slinkBurstOf w s i).beats.length = beatCount s i := by
    unfold slinkBurstOf
    rw [List.length_mapIdx, slinkBeats_length]
  have hsize : 2 ^ (slinkBurstOf w s i).size = 8 := rfl
  unfold Axi.Burst.bound
  rw [haddr, hlen, hsize, Axi.alignDown_eq]
  omega

theorem page_dvd (w : AddrT) : 4096 ∣ 2 ^ w.width := Nat.pow_dvd_pow 2 w.page

/-- Every burst of a section that lies in the address space starts inside it, the one behind the
last byte too. -/
theorem burst_start_lt (hspace : s.addr.toNat + s.len ≤ 2 ^ w.width)
    (hlast : ¬(8 ∣ s.addr.toNat ∧ 1024 ∣ s.len)) {j : Nat} (hj : j < s.len / 1024 + 1) :
    s.addr.toNat + 1024 * j < 2 ^ w.width := by
  have hpage := page_dvd w
  have hpos := s.len_pos
  omega

namespace SlinkFits

variable {j : Nat}

theorem start_lt (h : SlinkFits w s) (hj : j < s.len / 1024 + 1) :
    s.addr.toNat + 1024 * j < 2 ^ w.width := burst_start_lt h.space h.last hj

theorem burst_lt (h : SlinkFits w s) (hj : j < s.len / 1024 + 1) :
    1024 * j < s.len + s.busOffset := by
  have hoff : s.busOffset = s.addr.toNat % 8 := rfl
  have hlast := h.last
  omega

theorem burst_legal (h : SlinkFits w s) (hj : j < s.len / 1024 + 1) :
    (slinkBurstOf w s (1024 * j)).Legal := by
  have hoff : s.busOffset = s.addr.toNat % 8 := rfl
  have hbound := slinkBurstOf_bound (by omega) (h.start_lt hj)
  have haddr : (slinkBurstOf w s (1024 * j)).addr = s.addr.toNat + 1024 * j :=
    Nat.mod_eq_of_lt (h.start_lt hj)
  have hlen : (slinkBurstOf w s (1024 * j)).beats.length = beatCount s (1024 * j) := by
    unfold slinkBurstOf
    rw [List.length_mapIdx, slinkBeats_length]
  have hpos : beatCount s (1024 * j) ≠ 0 := beatCount_ne_zero.mpr (h.burst_lt hj)
  have hcount : beatCount s (1024 * j) ≤ 128 := Nat.min_le_left _ _
  refine ⟨by omega, by omega, ?_⟩
  rw [haddr, hbound]
  obtain hblock | hpage := h.page
  · omega
  · have hend : 8 * beatCount s (1024 * j) ≤ (s.len + s.busOffset - 1024 * j + 7) / 8 * 8 := by
      unfold beatCount
      omega
    have hlast := h.last
    have hfirst := h.first
    omega

theorem covered (h : SlinkFits w s) {k : Nat} (hk : k < s.len) :
    ∃ j < s.len / 1024 + 1, Covered s (1024 * j) (s.addr.toNat + k) := by
  have hoff : s.busOffset = s.addr.toNat % 8 := rfl
  refine ⟨k / 1024, by omega, by omega, ?_⟩
  have hfirst := h.first
  unfold beatCount
  omega

end SlinkFits

/-! ## What a sound preload needs -/

/-- The last byte is behind every legal burst, if it is behind the address space. -/
theorem SlinkSound.space (h : SlinkSound w s) : s.addr.toNat + s.len ≤ 2 ^ w.width := by
  obtain ⟨bursts, heq, hlegal, hmem⟩ := h
  obtain ⟨_, rfl⟩ := slinkElfPreload_eq.mp heq
  have hpos := s.len_pos
  by_contra hout
  have hbehind : ∀ b ∈ burstsFrom w s 0 (s.len / 1024 + 1),
      b.size = 3 ∧ b.bound ≤ s.addr.toNat + (s.len - 1) := by
    intro b hb
    have hle := (hlegal b hb).bound_le
    obtain ⟨j, _, rfl⟩ := mem_burstsFrom.mp hb
    have haddr : (slinkBurstOf w s (0 + 1024 * j)).addr < 2 ^ w.width :=
      Nat.mod_lt _ (Nat.two_pow_pos _)
    have hpage := page_dvd w
    exact ⟨rfl, by omega⟩
  have hkept := hmem (fun _ => s.byte (s.len - 1) + 1) (s.len - 1) (by omega)
  rw [slinkMemory_bound _ _ hbehind] at hkept
  bv_omega

theorem SlinkSound.last (h : SlinkSound w s) : ¬(8 ∣ s.addr.toNat ∧ 1024 ∣ s.len) := by
  obtain ⟨bursts, heq, _⟩ := h
  have hoff : s.busOffset = s.addr.toNat % 8 := rfl
  have hburst := (slinkElfPreload_eq.mp heq).1 (s.len / 1024) (Nat.lt_succ_self _)
  omega

/-- Byte `1024 - bus_offset` of an unaligned section is in lanes no burst writes. -/
theorem SlinkSound.first (h : SlinkSound w s) :
    8 ∣ s.addr.toNat ∨ s.addr.toNat % 8 + s.len ≤ 1024 := by
  have hspace := h.space
  have hlast := h.last
  obtain ⟨bursts, heq, _, hmem⟩ := h
  obtain ⟨_, rfl⟩ := slinkElfPreload_eq.mp heq
  have hoff : s.busOffset = s.addr.toNat % 8 := rfl
  by_contra hlong
  have hbare : ¬∃ j < s.len / 1024 + 1,
      Covered s (0 + 1024 * j) (s.addr.toNat + (1024 - s.busOffset)) := by
    rintro ⟨j, _, hlo, hhi⟩
    have hcount : beatCount s (0 + 1024 * j) ≤ 128 := Nat.min_le_left _ _
    omega
  have hkept := hmem (fun _ => s.byte (1024 - s.busOffset) + 1) (1024 - s.busOffset) (by omega)
  rw [slinkMemory_eq _ _ _ _ (Nat.dvd_zero 8) (by
    intro j hj
    rw [Nat.zero_add]
    exact burst_start_lt hspace hlast hj), if_neg hbare] at hkept
  bv_omega

/-- The burst that holds the first page boundary crosses it, unless one starts there. -/
theorem SlinkSound.page (h : SlinkSound w s) : 1024 ∣ s.addr.toNat ∨
    s.addr.toNat / 4096 = (s.addr.toNat + s.len - 1) / 4096 := by
  have hspace := h.space
  have hlast := h.last
  have hfirst := h.first
  obtain ⟨bursts, heq, hlegal, _⟩ := h
  obtain ⟨_, rfl⟩ := slinkElfPreload_eq.mp heq
  have hoff : s.busOffset = s.addr.toNat % 8 := rfl
  by_contra hcross
  -- the boundary is `d` bytes into the section
  obtain ⟨d, hd⟩ : ∃ d, s.addr.toNat + d = (s.addr.toNat / 4096 + 1) * 4096 :=
    ⟨(s.addr.toNat / 4096 + 1) * 4096 - s.addr.toNat, by omega⟩
  have hlt : d < s.len := by omega
  have hstart := @burst_start_lt w s hspace hlast (d / 1024) (by omega)
  have hle := (hlegal (slinkBurstOf w s (1024 * (d / 1024)))
    (mem_burstsFrom.mpr ⟨d / 1024, by omega, by rw [Nat.zero_add]⟩)).bound_le
  have haddr : (slinkBurstOf w s (1024 * (d / 1024))).addr = s.addr.toNat + 1024 * (d / 1024) :=
    Nat.mod_eq_of_lt hstart
  rw [slinkBurstOf_bound (by omega) hstart, haddr] at hle
  unfold beatCount at hle
  omega

/-- The preload is sound exactly for the sections that fit. -/
theorem slinkElfPreload_sound_iff (w : AddrT) (s : Section) : SlinkSound w s ↔ SlinkFits w s := by
  constructor
  · intro h
    exact ⟨h.space, h.last, h.first, h.page⟩
  · intro h
    refine ⟨burstsFrom w s 0 (s.len / 1024 + 1), slinkElfPreload_eq.mpr ⟨?_, rfl⟩, ?_, ?_⟩
    · intro j hj
      exact h.burst_lt hj
    · intro b hb
      obtain ⟨j, hj, rfl⟩ := mem_burstsFrom.mp hb
      rw [Nat.zero_add]
      exact h.burst_legal hj
    · intro m k hk
      obtain ⟨j, hj, hcov⟩ := h.covered hk
      have hstart : ∀ j < s.len / 1024 + 1, s.addr.toNat + (0 + 1024 * j) < 2 ^ w.width := by
        intro j hj
        rw [Nat.zero_add]
        exact h.start_lt hj
      rw [slinkMemory_eq _ _ _ _ (Nat.dvd_zero 8) hstart,
        if_pos ⟨j, hj, by rwa [Nat.zero_add]⟩, Nat.add_sub_cancel_left]

instance (w : AddrT) (s : Section) : Decidable (SlinkFits w s) :=
  decidable_of_iff (s.addr.toNat + s.len ≤ 2 ^ w.width ∧ ¬(8 ∣ s.addr.toNat ∧ 1024 ∣ s.len) ∧
    (8 ∣ s.addr.toNat ∨ s.addr.toNat % 8 + s.len ≤ 1024) ∧
    (1024 ∣ s.addr.toNat ∨ s.addr.toNat / 4096 = (s.addr.toNat + s.len - 1) / 4096))
    ⟨fun h => ⟨h.1, h.2.1, h.2.2.1, h.2.2.2⟩, fun h => ⟨h.space, h.last, h.first, h.page⟩⟩

/-- A section of one kilobyte of zeros at the start of DRAM. -/
def kilobyte : Section where
  addr := 0x80000000
  bf := List.replicate 1024 0
  length_pos := by
    rw [List.length_replicate]
    decide
  length_lt := by
    rw [List.length_replicate]
    decide

/-- The burst behind a full kilobyte has no beats. -/
theorem slinkElfPreload_fatal_kilobyte :
    ¬SlinkSound { width := 48, page := by decide } kilobyte := by
  intro h
  have hlen : kilobyte.len = 1024 * 1 := List.length_replicate
  exact h.last ⟨by decide, 1, hlen⟩

end Cheshire.Sim
