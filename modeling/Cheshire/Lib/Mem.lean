import Cheshire.Lib.Prog

/-!
# Byte memory with its access logs

Memory is a map from an object and a byte offset to a byte. Objects never
overlap, so a function's own buffer and the memory its caller handed in are two
objects; offsets are integers, so a pointer may stand outside the range it is
used for. Every store and every load is also logged: what a run touched is read
off the logs, not guessed from which bytes changed.

`Mem.write` stores a run of bytes, `Mem.copy` is `memcpy`. The lemmas say what a
run of stores leaves at each address (`get_write`) and that it logs exactly its
own range (`stores_write`, `mem_writeLog`).
-/

namespace Firmware

variable {β : Type} [DecidableEq β]

@[ext] structure Mem (β : Type) where
  get : β → Int → Byte
  /-- Addresses stored to, newest first. -/
  stores : List (β × Int)
  /-- Addresses loaded from, newest first. -/
  loads : List (β × Int)

namespace Mem

/-- Store one byte at an offset of an object, and record it. -/
def put (m : Mem β) (b : β) (o : Int) (v : Byte) : Mem β :=
  { m with
    get := fun b' o' => if b' = b ∧ o' = o then v else m.get b' o'
    stores := (b, o) :: m.stores }

/-- Log the load of the byte at `(b, o)`; its value is `m.get b o`. -/
def look (m : Mem β) (b : β) (o : Int) : Mem β := { m with loads := (b, o) :: m.loads }

/-- The log of `write` at `(b, o)` for `n` bytes. -/
def writeLog (b : β) (o : Int) : Nat → List (β × Int)
  | 0 => []
  | n + 1 => (b, o + n) :: writeLog b o n

/-- Store the bytes `d 0 .. d (n-1)` from `(b, o)` upward. -/
def write (m : Mem β) (b : β) (o : Int) (d : Nat → Byte) (n : Nat) : Mem β where
  get b' o' := if b' = b ∧ o ≤ o' ∧ o' < o + n then d (o' - o).toNat else m.get b' o'
  stores := writeLog b o n ++ m.stores
  loads := m.loads

/-- `memcpy(dst, src, n)`; the regions do not overlap. -/
def copy (m : Mem β) (dst : β × Int) (src : β × Int) (n : Nat) : Mem β :=
  m.write dst.1 dst.2 (fun i => m.get src.1 (src.2 + i)) n

omit [DecidableEq β] in
theorem mem_writeLog {b : β} {o : Int} {n : Nat} {p : β × Int} :
    p ∈ writeLog b o n ↔ p.1 = b ∧ o ≤ p.2 ∧ p.2 < o + n := by
  induction n with
  | zero =>
    simp only [writeLog, List.not_mem_nil, false_iff]
    omega
  | succ n ih =>
    rw [writeLog, List.mem_cons, ih]
    constructor
    · rintro (rfl | ⟨h1, h2, h3⟩)
      · exact ⟨rfl, by show o ≤ o + n; omega, by show o + (n : Int) < o + ↑(n + 1); omega⟩
      · exact ⟨h1, h2, by omega⟩
    · rintro ⟨h1, h2, h3⟩
      by_cases hn : p.2 = o + n
      · exact Or.inl (Prod.ext h1 hn)
      · exact Or.inr ⟨h1, h2, by omega⟩

theorem stores_write (m : Mem β) (b : β) (o : Int) (d : Nat → Byte) (n : Nat) :
    (m.write b o d n).stores = writeLog b o n ++ m.stores := rfl

/-- What a run of stores leaves at each address. -/
theorem get_write (m : Mem β) (b : β) (o : Int) (d : Nat → Byte) (n : Nat) (b' : β) (o' : Int) :
    (m.write b o d n).get b' o'
      = if b' = b ∧ o ≤ o' ∧ o' < o + n then d (o' - o).toNat else m.get b' o' := rfl

theorem get_write_at (m : Mem β) (b : β) (o : Int) (d : Nat → Byte) {n k : Nat} (hk : k < n) :
    (m.write b o d n).get b (o + k) = d k := by
  rw [get_write, if_pos ⟨rfl, by omega, by omega⟩]
  congr 1
  omega

theorem get_write_obj (m : Mem β) {b b' : β} (o : Int) (d : Nat → Byte) (n : Nat) (o' : Int)
    (hb : b' ≠ b) : (m.write b o d n).get b' o' = m.get b' o' := by
  rw [get_write, if_neg (fun h => hb h.1)]

theorem get_write_outside (m : Mem β) (b : β) {o o' : Int} (d : Nat → Byte) {n : Nat} (b' : β)
    (ho : o' < o ∨ o + n ≤ o') : (m.write b o d n).get b' o' = m.get b' o' := by
  rw [get_write, if_neg (by omega)]

omit [DecidableEq β] in
theorem writeLog_append (b : β) (o : Int) (n k : Nat) :
    writeLog b (o + n) k ++ writeLog b o n = writeLog b o (n + k) := by
  induction k with
  | zero => rfl
  | succ k ih =>
    rw [writeLog, List.cons_append, ih, show o + (n : Int) + k = o + ↑(n + k) by omega]
    rfl

/-- Two runs of stores, the second right behind the first, are one. -/
theorem write_write (m : Mem β) (b : β) (o : Int) (d : Nat → Byte) (n k : Nat) :
    (m.write b o d n).write b (o + n) (fun i => d (n + i)) k = m.write b o d (n + k) := by
  refine Mem.ext ?_ ?_ rfl
  · funext b' o'
    rw [get_write, get_write, get_write]
    -- an address is in the new run, in the old one, or in neither
    by_cases hb : b' = b
    · by_cases hnew : o + n ≤ o' ∧ o' < o + n + k
      · rw [if_pos ⟨hb, hnew⟩, if_pos ⟨hb, by omega, by omega⟩]
        congr 1
        omega
      · rw [if_neg fun h => hnew h.2]
        by_cases hold : o ≤ o' ∧ o' < o + n
        · rw [if_pos ⟨hb, hold⟩, if_pos ⟨hb, hold.1, by omega⟩]
        · rw [if_neg fun h => hold h.2, if_neg fun h => by have := h.2; omega]
    · rw [if_neg fun h => hb h.1, if_neg fun h => hb h.1, if_neg fun h => hb h.1]
  · rw [stores_write, stores_write, stores_write, ← List.append_assoc, writeLog_append]

theorem write_congr (m : Mem β) (b : β) (o : Int) {d d' : Nat → Byte} {n : Nat}
    (h : ∀ i < n, d i = d' i) : m.write b o d n = m.write b o d' n := by
  refine Mem.ext ?_ rfl rfl
  funext b' o'
  rw [get_write, get_write]
  by_cases hin : b' = b ∧ o ≤ o' ∧ o' < o + n
  · rw [if_pos hin, if_pos hin, h _ (by omega)]
  · rw [if_neg hin, if_neg hin]

/-- Two runs of stores, the second right behind the first, from two sources. -/
theorem write_append (m : Mem β) (b : β) (o : Int) (d d' : Nat → Byte) (n k : Nat) :
    (m.write b o d n).write b (o + n) d' k =
      m.write b o (fun i => if i < n then d i else d' (i - n)) (n + k) := by
  rw [← write_write, m.write_congr b o fun i hi => (if_pos hi).symm]
  refine write_congr _ _ _ fun i _ => ?_
  rw [if_neg (by omega), Nat.add_sub_cancel_left]

theorem write_zero (m : Mem β) (b : β) (o : Int) (d : Nat → Byte) : m.write b o d 0 = m := by
  refine Mem.ext ?_ rfl rfl
  funext b' o'
  rw [get_write, if_neg (by omega)]

theorem put_eq_write (m : Mem β) (b : β) (o : Int) (v : Byte) :
    m.put b o v = m.write b o (fun _ => v) 1 := by
  refine Mem.ext ?_ ?_ rfl
  · funext b' o'
    rw [get_write]
    by_cases h : b' = b ∧ o' = o
    · rw [if_pos ⟨h.1, by omega, by omega⟩]
      exact if_pos h
    · rw [if_neg fun h' => h ⟨h'.1, by omega⟩]
      exact if_neg h
  · show [(b, o)] ++ _ = writeLog b o 1 ++ _
    rw [writeLog, writeLog, Int.natCast_zero, Int.add_zero]

/-- One more byte, put right behind a run of stores, makes the run longer by one. -/
theorem write_put (m : Mem β) (b : β) (o : Int) (d : Nat → Byte) (n : Nat) :
    (m.write b o d n).put b (o + n) (d n) = m.write b o d (n + 1) := by
  rw [put_eq_write, ← write_write]
  refine write_congr _ _ _ fun i hi => ?_
  rw [show n + i = n by omega]

/-! ## What was stored to -/

/-- All stores of `m'` since `m` are to addresses in `P`. -/
def StoresIn (P : β → Int → Prop) (m m' : Mem β) : Prop :=
  ∃ new, m'.stores = new ++ m.stores ∧ ∀ p ∈ new, P p.1 p.2

variable {P : β → Int → Prop} {m m' m'' : Mem β}

omit [DecidableEq β] in
theorem storesIn_refl (P : β → Int → Prop) (m : Mem β) : StoresIn P m m :=
  ⟨[], rfl, fun _ hp => absurd hp List.not_mem_nil⟩

omit [DecidableEq β] in
theorem StoresIn.of_eq (h : m' = m) : StoresIn P m m' := by
  rw [h]
  exact storesIn_refl P m

omit [DecidableEq β] in
theorem StoresIn.trans (h : StoresIn P m m') (h' : StoresIn P m' m'') : StoresIn P m m'' := by
  obtain ⟨new, hnew, hin⟩ := h
  obtain ⟨new', hnew', hin'⟩ := h'
  refine ⟨new' ++ new, ?_, ?_⟩
  · rw [hnew', hnew, List.append_assoc]
  · intro p hp
    rcases List.mem_append.mp hp with hp | hp
    · exact hin' p hp
    · exact hin p hp

theorem storesIn_write {b : β} {o : Int} (d : Nat → Byte) {n : Nat}
    (h : ∀ x, o ≤ x → x < o + n → P b x) : StoresIn P m (m.write b o d n) := by
  refine ⟨writeLog b o n, stores_write m b o d n, ?_⟩
  intro p hp
  obtain ⟨hobj, hlo, hhi⟩ := mem_writeLog.mp hp
  rw [hobj]
  exact h p.2 hlo hhi

/-! ## What was not stored to -/

/-- All bytes of `m'` that were not stored to since `m` are those of `m`. -/
def OnlyStores (m m' : Mem β) : Prop :=
  ∃ new, m'.stores = new ++ m.stores ∧ ∀ b o, (b, o) ∉ new → m'.get b o = m.get b o

omit [DecidableEq β] in
theorem onlyStores_refl (m : Mem β) : OnlyStores m m := ⟨[], rfl, fun _ _ _ => rfl⟩

omit [DecidableEq β] in
theorem OnlyStores.trans (h : OnlyStores m m') (h' : OnlyStores m' m'') : OnlyStores m m'' := by
  obtain ⟨new, hnew, hsame⟩ := h
  obtain ⟨new', hnew', hsame'⟩ := h'
  refine ⟨new' ++ new, by rw [hnew', hnew, List.append_assoc], fun b o hout => ?_⟩
  rw [List.mem_append, not_or] at hout
  rw [hsame' b o hout.1, hsame b o hout.2]

theorem onlyStores_write (m : Mem β) (b : β) (o : Int) (d : Nat → Byte) (n : Nat) :
    OnlyStores m (m.write b o d n) := by
  refine ⟨writeLog b o n, stores_write m b o d n, fun b' o' hout => ?_⟩
  rw [mem_writeLog] at hout
  exact if_neg fun hin => hout hin

omit [DecidableEq β] in
/-- A byte outside `P` is as it was if all stores were to `P`. -/
theorem OnlyStores.keeps (h : OnlyStores m m') (hP : StoresIn P m m') {b : β} {o : Int}
    (hout : ¬P b o) : m'.get b o = m.get b o := by
  obtain ⟨new, hnew, hsame⟩ := h
  obtain ⟨new', hnew', hin⟩ := hP
  obtain rfl : new = new' := List.append_cancel_right (hnew.symm.trans hnew')
  exact hsame b o fun hmem => hout (hin (b, o) hmem)

end Mem

end Firmware
