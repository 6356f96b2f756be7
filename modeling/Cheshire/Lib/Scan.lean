import Mathlib.Algebra.Group.Nat.Defs
import Mathlib.Data.List.TakeDrop
import Mathlib.Logic.Basic

/-!
# Reading a byte buffer through unchecked offsets

Code that parses a file in memory computes offsets from the file's own bytes and
reads there. Here such a read has a result only if it lies in the buffer:
anything else stops the run (`Stop.outside`), so what a run does is defined up to
its first stray read and "all reads are inside" means that no run stops there.
An assertion that fails stops the run too, which is no misbehaviour, and so does
a signed overflow, which is.

`Safe` says that a run neither strays nor overflows. The rules push it through a
body one read at a time; with `fetch_bind` and `string_bind` the same body becomes
a function of the fields it reads.
-/

namespace Scan

abbrev Byte := BitVec 8

/-- How a run ends early: a read beyond the buffer, a failed assertion, an overflow. -/
inductive Stop where
  | outside
  | abort
  | undefined
  deriving DecidableEq, Repr

/-- The number that bytes make in little-endian order. -/
def number : List Byte → Nat
  | [] => 0
  | b :: bs => b.toNat + 2 ^ 8 * number bs

theorem number_lt : ∀ bs : List Byte, number bs < 2 ^ (8 * bs.length)
  | [] => Nat.one_pos
  | b :: bs => by
    have hb := b.isLt
    have ih := number_lt bs
    rw [List.length_cons, Nat.mul_add, Nat.add_comm, Nat.pow_add]
    unfold number
    omega

/-- The `n` bytes of a number in little-endian order. -/
def bytesOf : Nat → Nat → List Byte
  | 0, _ => []
  | n + 1, v => BitVec.ofNat 8 v :: bytesOf n (v / 2 ^ 8)

/-- The `n` bytes at `off`, fewer at the end of the buffer. -/
def slice (b : List Byte) (off n : Nat) : List Byte := (b.drop off).take n

theorem length_slice {b : List Byte} {off n : Nat} (h : off + n ≤ b.length) :
    (slice b off n).length = n := by
  unfold slice
  rw [List.length_take, List.length_drop]
  omega

theorem length_slice_le (b : List Byte) (off n : Nat) : (slice b off n).length ≤ n := by
  unfold slice
  rw [List.length_take]
  omega

theorem slice_zero (b : List Byte) (off : Nat) : slice b off 0 = [] := List.take_zero

theorem slice_succ {b : List Byte} {off : Nat} (h : off < b.length) (n : Nat) :
    slice b off (n + 1) = b[off] :: slice b (off + 1) n := by
  unfold slice
  rw [List.drop_eq_getElem_cons h, List.take_succ_cons]

/-- The number in the `n` bytes at `off`, zero where there are none. -/
def field (b : List Byte) (off n : Nat) : Nat := number (slice b off n)

theorem field_lt (b : List Byte) (off n : Nat) : field b off n < 2 ^ (8 * n) :=
  Nat.lt_of_lt_of_le (number_lt _)
    (Nat.pow_le_pow_right (by omega) (Nat.mul_le_mul_left 8 (length_slice_le b off n)))

/-- Read the number in the `n` bytes at `off`, which have to be inside. -/
def fetch (b : List Byte) (off n : Nat) : Except Stop Nat :=
  if off + n ≤ b.length then .ok (field b off n) else .error .outside

/-- The string at `off` ends in the buffer. -/
def Terminated (b : List Byte) (off : Nat) : Prop := (0 : Byte) ∈ b.drop off

instance (b : List Byte) (off : Nat) : Decidable (Terminated b off) :=
  inferInstanceAs (Decidable (_ ∈ _))

/-- Read the string at `off`, up to and including its terminator. -/
def string (b : List Byte) (off : Nat) : Except Stop (List Byte) :=
  if Terminated b off then .ok ((b.drop off).takeWhile (· ≠ 0)) else .error .outside

/-- `assert(c)`, which aborts the program if `c` does not hold. -/
def assert (c : Prop) [Decidable c] : Except Stop Unit := if c then .ok () else .error .abort

/-! ## Runs that do not misbehave -/

variable {α β : Type}

/-- The run does not stray out of the buffer and has no overflow. -/
def Safe (x : Except Stop α) : Prop := x ≠ .error .outside ∧ x ≠ .error .undefined

instance (x : Except Stop α) : Decidable (Safe x) :=
  match x with
  | .ok _ => .isTrue ⟨nofun, nofun⟩
  | .error .abort => .isTrue ⟨nofun, nofun⟩
  | .error .outside => .isFalse fun h => h.1 rfl
  | .error .undefined => .isFalse fun h => h.2 rfl

@[simp] theorem safe_ok (a : α) : Safe (.ok a : Except Stop α) := ⟨nofun, nofun⟩

@[simp] theorem safe_pure (a : α) : Safe (pure a : Except Stop α) := safe_ok a

@[simp] theorem safe_abort : Safe (.error .abort : Except Stop α) := ⟨nofun, nofun⟩

@[simp] theorem not_safe_outside : ¬Safe (.error .outside : Except Stop α) := fun h => h.1 rfl

@[simp] theorem not_safe_undefined : ¬Safe (.error .undefined : Except Stop α) := fun h => h.2 rfl

theorem safe_bind (x : Except Stop α) (f : α → Except Stop β) :
    Safe (x >>= f) ↔ Safe x ∧ ∀ a, x = .ok a → Safe (f a) := by
  cases x with
  | ok a =>
    show Safe (f a) ↔ _
    constructor
    · intro h
      refine ⟨safe_ok a, fun a' ha' => ?_⟩
      cases ha'
      exact h
    · intro h
      exact h.2 a rfl
  | error e =>
    show Safe (.error e : Except Stop β) ↔ _
    constructor
    · intro h
      exact ⟨⟨fun he => h.1 (by cases he; rfl), fun he => h.2 (by cases he; rfl)⟩, nofun⟩
    · intro h
      exact ⟨fun he => h.1.1 (by cases he; rfl), fun he => h.1.2 (by cases he; rfl)⟩

/-- A read is inside or the run strays. -/
theorem safe_fetch_bind (b : List Byte) (off n : Nat) (f : Nat → Except Stop β) :
    Safe (fetch b off n >>= f) ↔ off + n ≤ b.length ∧ Safe (f (field b off n)) := by
  unfold fetch
  split
  next h => exact (and_iff_right h).symm
  next h => exact iff_of_false not_safe_outside fun hs => h hs.1

theorem safe_string_bind (b : List Byte) (off : Nat) (f : List Byte → Except Stop β) :
    Safe (string b off >>= f) ↔
      Terminated b off ∧ Safe (f ((b.drop off).takeWhile (· ≠ 0))) := by
  unfold string
  split
  next h => exact (and_iff_right h).symm
  next h => exact iff_of_false not_safe_outside fun hs => h hs.1

theorem safe_ite (c : Prop) [Decidable c] (x y : Except Stop α) :
    Safe (if c then x else y) ↔ (c → Safe x) ∧ (¬c → Safe y) := by
  by_cases h : c
  · rw [if_pos h]
    exact ⟨fun hx => ⟨fun _ => hx, fun hn => absurd h hn⟩, fun hxy => hxy.1 h⟩
  · rw [if_neg h]
    exact ⟨fun hy => ⟨fun hc => absurd hc h, fun _ => hy⟩, fun hxy => hxy.2 h⟩

/-! ## Reads that are inside -/

theorem fetch_bind {b : List Byte} {off n : Nat} (h : off + n ≤ b.length)
    (f : Nat → Except Stop β) : (fetch b off n >>= f) = f (field b off n) := by
  unfold fetch
  rw [if_pos h]
  rfl

theorem string_bind {b : List Byte} {off : Nat} (h : Terminated b off)
    (f : List Byte → Except Stop β) :
    (string b off >>= f) = f ((b.drop off).takeWhile (· ≠ 0)) := by
  unfold string
  rw [if_pos h]
  rfl

theorem assert_bind (c : Prop) [Decidable c] (f : Unit → Except Stop β) :
    (assert c >>= f) = if c then f () else .error .abort := by
  unfold assert
  split <;> rfl

end Scan
