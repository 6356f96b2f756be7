import Mathlib.Data.List.Basic
import Mathlib.Data.List.GetD
import Mathlib.Data.Nat.Log
import Cheshire.Lib.Digits
import Cheshire.Lib.Prog

/-!
# `gen_bootrom.py`: the boot ROM

The script fills a binary up to a power of two, cuts it into words and prints a module with
one case item for each word. `genBootrom` is what it prints between the fixed parts of the
module, as text; `Bootrom.read` is what that text says, and `Bootrom.dataO` the module's
output. The two meet in `genBootrom_faithful`: at every address the module returns the word
of the binary that lies there.
-/

namespace Cheshire.Hw

open Firmware Digits

/-! ## The script -/

/-- The sizing loop, for at most `fuel` rounds; `need` is `max(len(binary), args.pad)`. -/
def sizeLoop (need : Int) : (fuel length : Nat) → Option Nat
  | 0, _ => none
  | fuel + 1, length =>
    if length < need then sizeLoop need fuel (2 * length) else some length

def bootromLength (binary : List Byte) (pad : Int) (fuel : Nat) : Option Nat :=
  sizeLoop (max binary.length pad) fuel 8

/-- `binary += b"\\0" * (length - len(binary))`. -/
def fillUp (binary : List Byte) (length : Nat) : List Byte :=
  binary ++ List.replicate (length - binary.length) 0

def chunks (seq : List Byte) (size : Nat) : List (List Byte) :=
  (List.range ((seq.length + (size - 1)) / size)).map fun i => (seq.drop (size * i)).take size

def formatWordHex (word : List Byte) : List Char :=
  let hex := word.map fun x => padded 16 2 x.toNat
  (hex ++ List.replicate (4 - word.length) ['0', '0']).reverse.flatten

def caseItem (i : Nat) (x : List Byte) : List Char :=
  padded 10 3 i ++ ": data_o = 32'h".toList ++ formatWordHex x ++ " /* 0x".toList ++
    padded 16 4 (i * 4) ++ " */".toList

/-- The number of words, and the case items. -/
def formatBinary (binary : List Byte) : Nat × List Char :=
  let words := (chunks binary 4).zipIdx
  (words.length, List.intercalate ";\n            ".toList (words.map fun p => caseItem p.2 p.1))

/-- `num_words` and `words`, as they go into the module. -/
def genBootrom (binary : List Byte) (pad : Int) (fuel : Nat) : Option (Nat × List Char) :=
  (bootromLength binary pad fuel).map fun length => formatBinary (fillUp binary length)

/-! ## The module -/

/-- A case item: its label, and the value assigned to `data_o`. A comment is left. -/
def readItem (text : List Char) : Option (Nat × BitVec 32) := do
  let label ← scanNum 10 (text.dropWhile Char.isWhitespace)
  let rest ← ": data_o = 32'h".toList.isPrefixOf? label.2
  let value ← scanNum 16 rest
  pure (label.1, BitVec.ofNat 32 value.1)

def readItems : List (List Char) → Option (List (Nat × BitVec 32))
  | [] => some []
  | text :: texts => do
    let item ← readItem text
    let items ← readItems texts
    pure (item :: items)

structure Bootrom where
  numWords : Nat
  /-- The items of `unique case (word)`. -/
  items : List (Nat × BitVec 32)

/-- What the SystemVerilog that was printed means: the number of words and the items of its
table. -/
def Bootrom.read (text : Nat × List Char) : Option Bootrom :=
  (readItems (text.2.splitOn ';')).map fun items => ⟨text.1, items⟩

/-- `word`, of `$clog2(NumWords)` bits; `DataWidth` is 32. -/
def Bootrom.word (r : Bootrom) {addrWidth : Nat} (addr : BitVec addrWidth) : Nat :=
  addr.toNat / (32 / 8) % 2 ^ Nat.clog 2 r.numWords

def Bootrom.dataO (r : Bootrom) {addrWidth : Nat} (addr : BitVec addrWidth) : BitVec 32 :=
  match r.items.find? fun item => item.1 == r.word addr with
  | some item => item.2
  | none => 0

/-! ## The size -/

/-- The loop doubles `length` until it is no longer too small. -/
theorem sizeLoop_spec (need : Int) : ∀ (n length : Nat), need.toNat ≤ length * 2 ^ n →
    ∃ m, (∀ fuel, n < fuel → sizeLoop need fuel length = some (length * 2 ^ m)) ∧
      need.toNat ≤ length * 2 ^ m ∧ ∀ k < m, length * 2 ^ k < need.toNat := by
  intro n
  induction n with
  | zero =>
    intro length hle
    rw [Nat.pow_zero, Nat.mul_one] at hle
    refine ⟨0, fun fuel hfuel => ?_, by omega, fun _ hk => absurd hk (Nat.not_lt_zero _)⟩
    obtain ⟨fuel, rfl⟩ := Nat.exists_eq_succ_of_ne_zero (Nat.ne_zero_of_lt hfuel)
    rw [sizeLoop, if_neg (by omega), Nat.pow_zero, Nat.mul_one]
  | succ n ih =>
    intro length hle
    rcases Int.lt_or_le length need with hlt | hge
    · have hdouble : ∀ k, 2 * length * 2 ^ k = length * 2 ^ (k + 1) := fun k => by
        rw [Nat.pow_succ, Nat.mul_comm 2 length, Nat.mul_assoc, Nat.mul_comm 2]
      obtain ⟨m, hloop, hge, hleast⟩ := ih (2 * length) (by rwa [hdouble])
      rw [hdouble] at hloop hge
      refine ⟨m + 1, fun fuel hfuel => ?_, hge, fun k hk => ?_⟩
      · obtain ⟨fuel, rfl⟩ := Nat.exists_eq_succ_of_ne_zero (Nat.ne_zero_of_lt hfuel)
        rw [sizeLoop, if_pos hlt]
        exact hloop fuel (by omega)
      · cases k with
        | zero =>
          rw [Nat.pow_zero, Nat.mul_one]
          omega
        | succ k =>
          rw [← hdouble]
          exact hleast k (by omega)
    · refine ⟨0, fun fuel hfuel => ?_, by omega, fun _ hk => absurd hk (Nat.not_lt_zero _)⟩
      obtain ⟨fuel, rfl⟩ := Nat.exists_eq_succ_of_ne_zero (Nat.ne_zero_of_lt hfuel)
      rw [sizeLoop, if_neg (Int.not_lt.mpr hge), Nat.pow_zero, Nat.mul_one]

/-! ## One item -/

/-- A word in hexadecimal is read back as the little-endian word of its bytes. -/
theorem readFrom_formatWordHex (d : Nat → Byte) (o : Nat) :
    readFrom 16 0 (formatWordHex [d o, d (o + 1), d (o + 2), d (o + 3)]) =
      some (le32 d o).toNat := by
  have hbyte : ∀ (b : Byte) (acc : Nat), readFrom 16 acc (padded 16 2 b.toNat) =
      some (256 * acc + b.toNat) := fun b acc =>
    readFrom_field (by decide) (by decide) (by decide) (show b.toNat < 16 ^ 2 from b.isLt) acc
  have hdigits : formatWordHex [d o, d (o + 1), d (o + 2), d (o + 3)] =
      padded 16 2 (d (o + 3)).toNat ++ (padded 16 2 (d (o + 2)).toNat ++
        (padded 16 2 (d (o + 1)).toNat ++ (padded 16 2 (d o).toNat ++ []))) := rfl
  rw [hdigits, readFrom_append, hbyte, Option.bind_some, readFrom_append, hbyte, Option.bind_some,
    readFrom_append, hbyte, Option.bind_some, readFrom_append, hbyte, Option.bind_some, toNat_le32,
    Nat.mul_zero, Nat.zero_add]
  rfl

theorem formatWordHex_ne_nil (d : Nat → Byte) (o : Nat) :
    formatWordHex [d o, d (o + 1), d (o + 2), d (o + 3)] ≠ [] :=
  List.append_ne_nil_of_left_ne_nil (padded_ne_nil 16 2 _) _

/-- No decimal digit is white space, so stripping a line does not shorten the numbers on it. -/
theorem not_isWhitespace {c : Char} (hc : isDigit 10 c) : ¬c.isWhitespace := by
  intro hspace
  have hcases : c = ' ' ∨ c = '\t' ∨ c = '\r' ∨ c = '\n' := by
    simpa [Char.isWhitespace, or_assoc] using hspace
  rcases hcases with rfl | rfl | rfl | rfl
  all_goals exact absurd hc (by decide)

/-- A label, the assignment, a value and a comment; white space in front is skipped. -/
theorem readItem_eq {space label hex : List Char} {i v : Nat} (comment : List Char)
    (hspace : ∀ c ∈ space, c.isWhitespace) (hlabel : readFrom 10 0 label = some i)
    (hlabel_ne : label ≠ []) (hhex : readFrom 16 0 hex = some v) (hhex_ne : hex ≠ []) :
    readItem (space ++ (label ++ (": data_o = 32'h".toList ++ (hex ++ ' ' :: comment)))) =
      some (i, BitVec.ofNat 32 v) := by
  have hskip : ∀ m, (space ++ (label ++ m)).dropWhile Char.isWhitespace = label ++ m := by
    intro m
    obtain ⟨c, l, rfl⟩ := List.exists_cons_of_ne_nil hlabel_ne
    have hdigit := readFrom_isDigit hlabel c List.mem_cons_self
    rw [List.dropWhile_append_of_pos hspace, List.cons_append,
      List.dropWhile_cons_of_neg (not_isWhitespace hdigit)]
  have hscan : scanNum 10 (label ++ (": data_o = 32'h".toList ++ (hex ++ ' ' :: comment))) =
      some (i, ": data_o = 32'h".toList ++ (hex ++ ' ' :: comment)) :=
    scanNum_append hlabel_ne hlabel (c := ':') (by decide) _
  have hvalue : scanNum 16 (hex ++ ' ' :: comment) = some (v, ' ' :: comment) :=
    scanNum_append hhex_ne hhex (by decide) comment
  unfold readItem
  rw [hskip, hscan]
  show (do
    let rest ← ": data_o = 32'h".toList.isPrefixOf?
      (": data_o = 32'h".toList ++ (hex ++ ' ' :: comment))
    let value ← scanNum 16 rest
    pure (i, BitVec.ofNat 32 value.1) : Option (Nat × BitVec 32)) = _
  rw [List.isPrefixOf?_eq_some_iff_append_eq.mpr rfl]
  show (do
    let value ← scanNum 16 (hex ++ ' ' :: comment)
    pure (i, BitVec.ofNat 32 value.1) : Option (Nat × BitVec 32)) = _
  rw [hvalue]
  rfl

/-- An item is read back as its label and its word. -/
theorem readItem_caseItem (i : Nat) (d : Nat → Byte) (o : Nat) {space : List Char}
    (hspace : ∀ c ∈ space, c.isWhitespace) :
    readItem (space ++ caseItem i [d o, d (o + 1), d (o + 2), d (o + 3)]) = some (i, le32 d o) := by
  have hitem := readItem_eq ("/* 0x".toList ++ (padded 16 4 (i * 4) ++ " */".toList)) hspace
    (readFrom_padded (b := 10) (by decide) (by decide) 3 i) (padded_ne_nil 10 3 i)
    (readFrom_formatWordHex d o) (formatWordHex_ne_nil d o)
  rw [BitVec.ofNat_toNat, BitVec.setWidth_eq] at hitem
  unfold caseItem
  rw [List.append_assoc, List.append_assoc, List.append_assoc, List.append_assoc]
  exact hitem

/-! ## All items -/

theorem not_semicolon {b : Nat} (hb : b ≤ 16) {l : List Char} (hl : ∀ c ∈ l, isDigit b c) :
    ';' ∉ l := by
  intro hmem
  have hval : digitVal ';' < b := of_decide_eq_true (hl _ hmem)
  exact absurd hval (by rw [show digitVal ';' = 16 from rfl]; omega)

theorem caseItem_not_semicolon (i : Nat) (d : Nat → Byte) (o : Nat) :
    ';' ∉ caseItem i [d o, d (o + 1), d (o + 2), d (o + 3)] := by
  have hlabel : ';' ∉ padded 10 3 i :=
    not_semicolon (by decide) (padded_isDigit (by decide) (by decide))
  have hhex : ';' ∉ formatWordHex [d o, d (o + 1), d (o + 2), d (o + 3)] :=
    not_semicolon (b := 16) (by decide) (readFrom_isDigit (readFrom_formatWordHex d o))
  have haddr : ';' ∉ padded 16 4 (i * 4) :=
    not_semicolon (by decide) (padded_isDigit (by decide) (by decide))
  have hfixed : ';' ∉ ": data_o = 32'h".toList ∧ ';' ∉ " /* 0x".toList ∧ ';' ∉ " */".toList := by
    decide
  unfold caseItem
  simp only [List.mem_append, not_or]
  exact ⟨⟨⟨⟨⟨hlabel, hfixed.1⟩, hhex⟩, hfixed.2.1⟩, haddr⟩, hfixed.2.2⟩

/-- Texts joined by a separator that starts with a semicolon come apart at the semicolons. -/
theorem splitOn_join {space : List Char} (hspace : ';' ∉ space) :
    ∀ (texts : List (List Char)) (text front : List Char), ';' ∉ front → ';' ∉ text →
      (∀ t ∈ texts, ';' ∉ t) →
      (front ++ List.intercalate (';' :: space) (text :: texts)).splitOn ';' =
        (front ++ text) :: texts.map (space ++ ·) := by
  intro texts
  induction texts with
  | nil =>
    intro text front hfront htext _
    rw [List.intercalate_singleton]
    exact List.splitOn_eq_singleton fun hmem =>
      (List.mem_append.mp hmem).elim hfront htext
  | cons next texts ih =>
    intro text front hfront htext htexts
    have hnext := List.forall_mem_cons.mp htexts
    rw [List.intercalate_cons_cons, ← List.append_assoc, ← List.append_assoc, List.append_assoc,
      List.cons_append, List.splitOn_append_cons_self_of_not_mem
        (fun hmem => (List.mem_append.mp hmem).elim hfront htext),
      ih next space hspace hnext.1 hnext.2]
    rfl

theorem readItems_map {ι : Type} (text : ι → List Char) (item : ι → Nat × BitVec 32) :
    ∀ (l : List ι), (∀ i ∈ l, readItem (text i) = some (item i)) →
      readItems (l.map text) = some (l.map item) := by
  intro l
  induction l with
  | nil => exact fun _ => rfl
  | cons i l ih =>
    intro h
    have hl := List.forall_mem_cons.mp h
    rw [List.map_cons, readItems, hl.1, ih hl.2]
    rfl

/-- The bytes of word `i`, lowest address first. -/
def wordBytes (d : Nat → Byte) (i : Nat) : List Byte :=
  [d (4 * i), d (4 * i + 1), d (4 * i + 2), d (4 * i + 3)]

/-- The items of `n` words are read back in order. -/
theorem readItems_join (d : Nat → Byte) {n : Nat} (hn : 0 < n) :
    readItems ((List.intercalate ";\n            ".toList
      ((List.range n).map fun i => caseItem i (wordBytes d i))).splitOn ';') =
        some ((List.range n).map fun i => (i, le32 d (4 * i))) := by
  obtain ⟨n, rfl⟩ := Nat.exists_eq_succ_of_ne_zero (Nat.ne_zero_of_lt hn)
  have hspace : ∀ c ∈ "\n            ".toList, c.isWhitespace := List.all_eq_true.mp rfl
  have hsplit := splitOn_join (show ';' ∉ "\n            ".toList by decide)
    ((List.range n).map fun i => caseItem (i + 1) (wordBytes d (i + 1)))
    (caseItem 0 (wordBytes d 0)) [] List.not_mem_nil (caseItem_not_semicolon 0 d (4 * 0)) (by
      intro t ht
      obtain ⟨i, -, rfl⟩ := List.mem_map.mp ht
      exact caseItem_not_semicolon (i + 1) d (4 * (i + 1)))
  have htexts := readItems_map
    (fun i => "\n            ".toList ++ caseItem (i + 1) (wordBytes d (i + 1)))
    (fun i => (i + 1, le32 d (4 * (i + 1)))) (List.range n)
    fun i _ => readItem_caseItem (i + 1) d (4 * (i + 1)) hspace
  have hfirst : readItem ([] ++ caseItem 0 (wordBytes d 0)) = some (0, le32 d (4 * 0)) :=
    readItem_caseItem 0 d (4 * 0) fun _ hc => absurd hc List.not_mem_nil
  rw [List.range_succ_eq_map, List.map_cons, List.map_cons, List.map_map, List.map_map]
  refine (congrArg readItems hsplit).trans ?_
  rw [List.map_map, readItems, hfirst]
  exact congrArg (fun items => (items.bind fun l => some ((0, le32 d (4 * 0)) :: l))) htexts

/-! ## The words of the binary -/

theorem take_four {l : List Byte} {o : Nat} (ho : o + 4 ≤ l.length) :
    (l.drop o).take 4 = [l.getD o 0, l.getD (o + 1) 0, l.getD (o + 2) 0, l.getD (o + 3) 0] := by
  refine List.ext_getElem (by simp; omega) fun i hi hi' => ?_
  rw [List.getElem_take, List.getElem_drop]
  have hi4 : i < 4 := hi'
  rcases show i = 0 ∨ i = 1 ∨ i = 2 ∨ i = 3 by omega with rfl | rfl | rfl | rfl
  all_goals exact (List.getD_eq_getElem _ _ _).symm

theorem chunks_four {l : List Byte} {n : Nat} (hlen : l.length = 4 * n) :
    chunks l 4 = (List.range n).map (wordBytes fun k => l.getD k 0) := by
  unfold chunks
  rw [hlen, show (4 * n + (4 - 1)) / 4 = n by omega]
  refine List.map_congr_left fun i hi => ?_
  have hlt := List.mem_range.mp hi
  exact take_four (by omega)

theorem zipIdx_map_range {α : Type} (f : Nat → α) (n : Nat) :
    ((List.range n).map f).zipIdx = (List.range n).map fun i => (f i, i) := by
  refine List.ext_getElem (by simp) fun i hi hi' => ?_
  simp

theorem formatBinary_eq {l : List Byte} {n : Nat} (hlen : l.length = 4 * n) :
    formatBinary l = (n, List.intercalate ";\n            ".toList
      ((List.range n).map fun i => caseItem i (wordBytes (fun k => l.getD k 0) i))) := by
  unfold formatBinary
  rw [chunks_four hlen, zipIdx_map_range]
  dsimp only
  rw [List.length_map, List.length_range, List.map_map]
  rfl

/-! ## The generator is faithful -/

/-- A module of this size generated from a binary. -/
structure BootromFaithful (binary : List Byte) (pad : Int) (length : Nat) (rom : Bootrom) :
    Prop where
  pow : ∃ k, length = 2 ^ k
  ge : 8 ≤ length ∧ binary.length ≤ length ∧ pad ≤ length
  least : ∀ k, 8 ≤ 2 ^ k → binary.length ≤ 2 ^ k → pad ≤ (2 ^ k : Nat) → length ≤ 2 ^ k
  labels : (rom.items.map Prod.fst).Nodup
  /-- At any address the word that it lies in, of the binary followed by zeros. -/
  data : ∀ (addrWidth : Nat) (addr : BitVec addrWidth), addr.toNat < length →
    rom.dataO addr = le32 (fun k => binary.getD k 0) (4 * (addr.toNat / 4))

/-- The loop ends with the least power of two that is large enough. -/
theorem bootromLength_spec (binary : List Byte) (pad : Int) :
    ∃ m, (∀ fuel, (max (binary.length : Int) pad).toNat < fuel →
        bootromLength binary pad fuel = some (8 * 2 ^ m)) ∧
      (binary.length ≤ 8 * 2 ^ m ∧ pad ≤ (8 * 2 ^ m : Nat)) ∧
      ∀ k, 8 ≤ 2 ^ k → binary.length ≤ 2 ^ k → pad ≤ (2 ^ k : Nat) → 8 * 2 ^ m ≤ 2 ^ k := by
  generalize hneed : max (binary.length : Int) pad = need
  have hbound : need.toNat ≤ 8 * 2 ^ need.toNat :=
    Nat.le_trans (Nat.le_of_lt Nat.lt_two_pow_self) (Nat.le_mul_of_pos_left _ (by decide))
  obtain ⟨m, hloop, hge, hleast⟩ := sizeLoop_spec need need.toNat 8 hbound
  refine ⟨m, fun fuel hfuel => ?_, by omega, fun k hk hlen hpad => ?_⟩
  · unfold bootromLength
    rw [hneed]
    exact hloop fuel hfuel
  · -- a smaller power of two was too small in an earlier round
    have h3 : 3 ≤ k := (Nat.pow_le_pow_iff_right (by decide : 1 < 2)).mp hk
    obtain ⟨j, rfl⟩ := Nat.exists_eq_add_of_le h3
    rw [Nat.pow_add, show 2 ^ 3 = 8 from rfl] at hlen hpad ⊢
    rcases Nat.lt_or_ge j m with hj | hj
    · have hsmall := hleast j hj
      omega
    · exact Nat.mul_le_mul_left 8 (Nat.pow_le_pow_right (by decide) hj)

theorem fillUp_length {binary : List Byte} {length : Nat} (hlen : binary.length ≤ length) :
    (fillUp binary length).length = length := by
  unfold fillUp
  rw [List.length_append, List.length_replicate]
  omega

/-- Filled up to any length, the binary reads as before and zero at every index behind its end. -/
theorem fillUp_getD (binary : List Byte) (length k : Nat) :
    (fillUp binary length).getD k 0 = binary.getD k 0 := by
  unfold fillUp
  rcases Nat.lt_or_ge k binary.length with hk | hk
  · exact List.getD_append _ _ _ _ hk
  · have hbehind : binary.getD k 0 = 0 := List.getD_eq_default _ _ hk
    rw [List.getD_append_right _ _ _ _ hk, hbehind]
    rcases Nat.lt_or_ge (k - binary.length) (length - binary.length) with hin | hout
    · exact List.getD_replicate _ hin
    · exact List.getD_eq_default _ _ (by rwa [List.length_replicate])

/-- A module with an item for each of its words finds the one it is asked for. -/
theorem dataO_eq {v : Nat → BitVec 32} {m addrWidth : Nat} {addr : BitVec addrWidth}
    (haddr : addr.toNat < 4 * 2 ^ m) :
    Bootrom.dataO ⟨2 ^ m, (List.range (2 ^ m)).map fun i => (i, v i)⟩ addr =
      v (addr.toNat / 4) := by
  have hlt : addr.toNat / 4 < 2 ^ m := by omega
  have hword : Bootrom.word ⟨2 ^ m, (List.range (2 ^ m)).map fun i => (i, v i)⟩ addr =
      addr.toNat / 4 := by
    unfold Bootrom.word
    dsimp only
    rw [Nat.clog_pow 2 m (by decide)]
    exact Nat.mod_eq_of_lt hlt
  have hrange : (List.range (2 ^ m)).find? ((fun item : Nat × BitVec 32 =>
      item.1 == addr.toNat / 4) ∘ fun i => (i, v i)) = some (addr.toNat / 4) :=
    List.find?_range_eq_some.mpr ⟨beq_self_eq_true _, List.mem_range.mpr hlt,
      fun _ hj => bne_iff_ne.mpr (Nat.ne_of_lt hj)⟩
  have hfind : ((List.range (2 ^ m)).map fun i => (i, v i)).find?
      (fun item => item.1 == addr.toNat / 4) = some (addr.toNat / 4, v (addr.toNat / 4)) := by
    rw [List.find?_map, hrange]
    rfl
  unfold Bootrom.dataO
  rw [hword]
  dsimp only
  rw [hfind]

/-- For every binary and every padding the generator ends, and the ROM it writes reads back as the
binary with zeros behind it. -/
theorem genBootrom_faithful (binary : List Byte) (pad : Int) :
    ∃ length rom, BootromFaithful binary pad length rom ∧
      ∀ fuel, (max (binary.length : Int) pad).toNat < fuel →
        bootromLength binary pad fuel = some length ∧
          (genBootrom binary pad fuel).bind Bootrom.read = some rom := by
  obtain ⟨m, hlength, hge, hleast⟩ := bootromLength_spec binary pad
  have hwords : (fillUp binary (8 * 2 ^ m)).length = 4 * 2 ^ (m + 1) := by
    rw [fillUp_length hge.1, Nat.pow_succ]
    omega
  refine ⟨8 * 2 ^ m, ⟨2 ^ (m + 1), (List.range (2 ^ (m + 1))).map fun i =>
    (i, le32 (fun k => binary.getD k 0) (4 * i))⟩, ⟨⟨m + 3, ?_⟩, ?_, hleast, ?_, ?_⟩, ?_⟩
  · rw [Nat.pow_add, Nat.mul_comm]
  · have hpos := Nat.two_pow_pos m
    omega
  · rw [List.map_map]
    exact (List.map_id _).symm ▸ List.nodup_range
  · intro addrWidth addr haddr
    exact dataO_eq (by rw [Nat.pow_succ]; omega)
  · intro fuel hfuel
    refine ⟨hlength fuel hfuel, ?_⟩
    unfold genBootrom
    rw [hlength fuel hfuel, Option.map_some, Option.bind_some, formatBinary_eq hwords]
    unfold Bootrom.read
    rw [readItems_join _ (Nat.two_pow_pos (m + 1))]
    simp only [fillUp_getD]
    rfl

end Cheshire.Hw
