import Mathlib.Data.List.Range
import Cheshire.Lib.Span

/-!
# Sections to preload

What `get_section` and `read_section` hand to the preload tasks: an address, and
the section's bytes in an array of its own size.
-/

namespace Cheshire.Sim

open Span

/-- A length is a positive `longint`. The array is small enough for the `longint` counter of a
loop to pass it in steps of an `int`. -/
structure Section where
  addr : Address
  bf : List Byte
  length_pos : 1 ≤ bf.length
  length_lt : bf.length < 2 ^ 62

/-- `sec_len`, the size of the section in bytes. -/
def Section.len (s : Section) : Nat := s.bf.length

/-- `bf[i]`, taken as zero outside the array. -/
def Section.byte (s : Section) (i : Nat) : Byte := s.bf.getD i 0

theorem Section.len_pos (s : Section) : 1 ≤ s.len := s.length_pos

theorem Section.len_lt (s : Section) : s.len < 2 ^ 62 := s.length_lt

theorem byte_outside {s : Section} {i : Nat} (h : s.len ≤ i) : s.byte i = 0 := by
  unfold Section.byte
  rw [List.getD_eq_getElem?_getD, List.getElem?_eq_none h]
  rfl

/-- No address belongs to both of the sections. -/
def Section.Apart (s t : Section) : Prop :=
  ∀ x, ¬(Within s.addr s.len x ∧ Within t.addr t.len x)

theorem Section.Apart.symm {s t : Section} (h : s.Apart t) : t.Apart s :=
  fun x hx => h x ⟨hx.2, hx.1⟩

theorem apart_of_le {s t : Section} (h : s.addr.toNat + s.len ≤ t.addr.toNat)
    (ht : t.addr.toNat + t.len ≤ 2 ^ 64) : s.Apart t := by
  intro x hx
  unfold Within at hx
  bv_omega

/-- A loop that is left at the end of the section. -/
theorem takeWhile_range (c : Nat) : ∀ n : Nat,
    (List.range n).takeWhile (fun j => decide (j < c)) = List.range (min n c)
  | 0 => by
    rw [Nat.zero_min]
    rfl
  | n + 1 => by
    rw [List.range_succ, List.takeWhile_append, takeWhile_range c n, List.length_range,
      List.length_range]
    by_cases hn : n < c
    · have hlast : [n].takeWhile (fun j => decide (j < c)) = [n] := by simp [hn]
      rw [if_pos (by omega), hlast, ← List.range_succ, Nat.min_eq_left hn]
    · have hlast : [n].takeWhile (fun j => decide (j < c)) = [] := by simp [hn]
      by_cases hc : c = n
      · rw [if_pos (by omega), hlast, List.append_nil, Nat.min_eq_right (by omega), hc]
      · rw [if_neg (by omega), Nat.min_eq_right (by omega), Nat.min_eq_right (by omega)]

end Cheshire.Sim
