import Mathlib.Algebra.Group.Nat.Defs
import Mathlib.Data.List.TakeDrop

/-!
# Runs of bytes in a 64-bit address space

A memory is a function from addresses to bytes, and a run of bytes starts at an
address and goes on around the end of the address space. Whether an address lies
in a run is one subtraction, so nothing here needs the addresses in order.

`store` writes a run, `store_append` puts two adjacent runs together, and
`Within` is the membership of an address with its witnesses.
-/

namespace Span

abbrev Byte := BitVec 8

abbrev Address := BitVec 64

abbrev Memory := Address → Byte

/-- Address `x` is one of the `n` bytes from `a` on. -/
def Within (a : Address) (n : Nat) (x : Address) : Prop := (x - a).toNat < n

instance (a : Address) (n : Nat) (x : Address) : Decidable (Within a n x) :=
  inferInstanceAs (Decidable (_ < _))

/-- The address of the `k`th byte from `a` on, which wraps at the end of memory. -/
def nth (a : Address) (k : Nat) : Address := a + BitVec.ofNat 64 k

/-- `d 0 .. d (n - 1)` written from `a` on. -/
def store (m : Memory) (a : Address) (d : Nat → Byte) (n : Nat) : Memory :=
  fun x => if Within a n x then d (x - a).toNat else m x

theorem nth_sub {a : Address} {k : Nat} (hk : k < 2 ^ 64) : (nth a k - a).toNat = k := by
  unfold nth
  rw [BitVec.add_comm, BitVec.add_sub_cancel, BitVec.toNat_ofNat, Nat.mod_eq_of_lt hk]

theorem nth_of_sub (a x : Address) : nth a (x - a).toNat = x := by
  unfold nth
  rw [BitVec.ofNat_toNat, BitVec.setWidth_eq, BitVec.add_comm, BitVec.sub_add_cancel]

theorem nth_zero (a : Address) : nth a 0 = a := BitVec.add_zero a

theorem nth_nth (a : Address) (k j : Nat) : nth (nth a k) j = nth a (k + j) := by
  unfold nth
  rw [BitVec.add_assoc, ← BitVec.ofNat_add]

theorem nth_inj {a : Address} {j k : Nat} (hj : j < 2 ^ 64) (hk : k < 2 ^ 64)
    (h : nth a j = nth a k) : j = k := by
  rw [← @nth_sub a j hj, h, nth_sub hk]

theorem within_nth {a : Address} {n k : Nat} (hk : k < 2 ^ 64) : Within a n (nth a k) ↔ k < n := by
  unfold Within
  rw [nth_sub hk]

theorem within_iff {a x : Address} {n : Nat} :
    Within a n x ↔ ∃ k < n, k < 2 ^ 64 ∧ x = nth a k := by
  constructor
  · intro h
    exact ⟨(x - a).toNat, h, (x - a).isLt, (nth_of_sub a x).symm⟩
  · rintro ⟨k, hk, hlt, rfl⟩
    exact (within_nth hlt).mpr hk

theorem store_nth (m : Memory) {a : Address} (d : Nat → Byte) {n k : Nat} (hk : k < n)
    (hlt : k < 2 ^ 64) : store m a d n (nth a k) = d k := by
  unfold store
  rw [if_pos ((within_nth hlt).mpr hk), nth_sub hlt]

theorem store_outside (m : Memory) {a x : Address} (d : Nat → Byte) {n : Nat}
    (h : ¬Within a n x) : store m a d n x = m x := if_neg h

theorem store_zero (m : Memory) (a : Address) (d : Nat → Byte) : store m a d 0 = m := by
  funext x
  exact if_neg (Nat.not_lt_zero _)

theorem store_congr (m : Memory) (a : Address) {d d' : Nat → Byte} {n : Nat}
    (h : ∀ k < n, d k = d' k) : store m a d n = store m a d' n := by
  funext x
  unfold store
  by_cases hx : Within a n x
  · rw [if_pos hx, if_pos hx, h _ hx]
  · rw [if_neg hx, if_neg hx]

/-- A run, and the run right behind it. -/
theorem store_append (m : Memory) (a : Address) (d : Nat → Byte) {n n' : Nat}
    (h : n + n' ≤ 2 ^ 64) :
    store (store m a d n) (nth a n) (fun j => d (n + j)) n' = store m a d (n + n') := by
  funext x
  rw [← nth_of_sub a x]
  have hlt : (x - a).toNat < 2 ^ 64 := (x - a).isLt
  generalize (x - a).toNat = k at hlt
  by_cases hk : k < n
  · -- in front of the second run
    have hout : ¬Within (nth a n) n' (nth a k) := by
      rw [within_iff]
      rintro ⟨j, hj, _, heq⟩
      rw [nth_nth] at heq
      have := nth_inj hlt (by omega) heq
      omega
    rw [store_outside _ _ hout, store_nth _ _ hk hlt, store_nth _ _ (by omega) hlt]
  · by_cases hk' : k < n + n'
    · have hj : nth a k = nth (nth a n) (k - n) := by
        rw [nth_nth, Nat.add_sub_cancel' (Nat.le_of_not_lt hk)]
      rw [store_nth _ _ hk' hlt, hj, store_nth _ _ (by omega) (by omega),
        Nat.add_sub_cancel' (Nat.le_of_not_lt hk)]
    · have hout : ¬Within (nth a n) n' (nth a k) := by
        rw [within_iff]
        rintro ⟨j, hj, _, heq⟩
        rw [nth_nth] at heq
        have := nth_inj hlt (by omega) heq
        omega
      have hout₁ : ¬Within a n (nth a k) := fun hw => hk ((within_nth hlt).mp hw)
      have hout₂ : ¬Within a (n + n') (nth a k) := fun hw => hk' ((within_nth hlt).mp hw)
      rw [store_outside _ _ hout, store_outside _ _ hout₁, store_outside _ _ hout₂]

/-- Storing a run of `n` bytes and then the byte behind it is storing the run of `n + 1`. -/
theorem store_succ (m : Memory) (a : Address) (d : Nat → Byte) {n : Nat} (h : n < 2 ^ 64) :
    (fun x => if x = nth a n then d n else store m a d n x) = store m a d (n + 1) := by
  rw [← @store_append m a d n 1 (by omega)]
  funext x
  have hone : Within (nth a n) 1 x ↔ x = nth a n := by
    rw [within_iff]
    constructor
    · rintro ⟨k, hk, _, rfl⟩
      rw [Nat.lt_one_iff.mp hk, nth_nth, Nat.add_zero]
    · rintro rfl
      exact ⟨0, Nat.one_pos, by decide, by rw [nth_nth, Nat.add_zero]⟩
  by_cases hx : x = nth a n
  · rw [if_pos hx]
    have hin := hone.mpr hx
    obtain ⟨k, hk, hlt, hxk⟩ := within_iff.mp hin
    rw [hxk, store_nth _ _ hk hlt, Nat.lt_one_iff.mp hk, Nat.add_zero]
  · rw [if_neg hx, store_outside _ _ fun hin => hx (hone.mp hin)]

/-! ## Runs one after the other -/

/-- The bytes `data 0 .. data (len - 1)` from `addr` on. -/
structure Run where
  addr : Address
  data : Nat → Byte
  len : Nat

def overlay (runs : List Run) (m : Memory) : Memory :=
  runs.foldl (fun m r => store m r.addr r.data r.len) m

theorem overlay_outside {x : Address} : ∀ (runs : List Run) (m : Memory),
    (∀ r ∈ runs, ¬Within r.addr r.len x) → overlay runs m x = m x
  | [], _, _ => rfl
  | r :: runs, m, h => by
    obtain ⟨hr, hrest⟩ := List.forall_mem_cons.mp h
    exact (overlay_outside runs _ hrest).trans (store_outside _ _ hr)

variable {α : Type} {f : α → Run} {n : α → Nat}

/-- The first `n` bytes of each run are there in the end, if no later run comes near them. -/
theorem overlay_keeps : ∀ (xs : List α) (m : Memory),
    (xs.Pairwise fun a b => ∀ k < n a, ¬Within (f b).addr (f b).len (nth (f a).addr k)) →
    (∀ a ∈ xs, n a ≤ (f a).len ∧ (f a).len ≤ 2 ^ 64) →
    ∀ a ∈ xs, ∀ k < n a, overlay (xs.map f) m (nth (f a).addr k) = (f a).data k
  | [], _, _, _, _, ha => absurd ha List.not_mem_nil
  | b :: xs, m, hapart, hlen, a, ha => by
    intro k hk
    obtain ⟨hb, hrest⟩ := List.pairwise_cons.mp hapart
    obtain ⟨hlenb, hlenrest⟩ := List.forall_mem_cons.mp hlen
    rcases List.mem_cons.mp ha with rfl | ha
    · refine (overlay_outside (xs.map f) _ fun r hr => ?_).trans ?_
      · obtain ⟨c, hc, rfl⟩ := List.mem_map.mp hr
        exact hb c hc k hk
      · exact store_nth _ _ (by omega) (by omega)
    · exact overlay_keeps xs _ hrest hlenrest a ha k hk

/-- For a run that does not wrap, being within it is being between its two ends as numbers. -/
theorem within_iff_le {a x : Address} {n : Nat} (hn : a.toNat + n ≤ 2 ^ 64) :
    Within a n x ↔ a.toNat ≤ x.toNat ∧ x.toNat < a.toNat + n := by
  unfold Within
  rw [BitVec.toNat_sub]
  omega

/-- Runs in the order of their addresses keep their first bytes, whatever they write behind
them. -/
theorem overlay_ascending {xs : List α}
    (hasc : xs.Pairwise fun a b => (f a).addr.toNat + n a ≤ (f b).addr.toNat)
    (hlen : ∀ a ∈ xs, n a ≤ (f a).len ∧ (f a).addr.toNat + (f a).len ≤ 2 ^ 64) (m : Memory) :
    ∀ a ∈ xs, ∀ k < n a, overlay (xs.map f) m (nth (f a).addr k) = (f a).data k := by
  refine overlay_keeps xs m (hasc.imp_of_mem fun {a b} ha hb hle k hk => ?_) fun a ha => ?_
  · have hspace := (hlen a ha).2
    have hfits := (hlen a ha).1
    rw [within_iff_le (hlen b hb).2]
    unfold nth
    rw [BitVec.toNat_add, BitVec.toNat_ofNat]
    omega
  · have hspace := (hlen a ha).2
    exact ⟨(hlen a ha).1, by omega⟩

end Span
