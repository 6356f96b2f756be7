import Mathlib.Algebra.Group.Nat.Defs

/-!
# Numbers written in digits and read back

`Nat.toDigits` writes a number, and a field of fixed width is filled up with zeros on the
left (`padded`). `readFrom` reads digits behind a number already read, and fails at a
character that is not one; so that what it reads is a list of digits (`readFrom_isDigit`),
and a scanner that takes digits as long as they come stops where they end (`scanNum_append`).
-/

namespace Digits

/-! ## Reading -/

/-- The value of a digit; 16 for any other character. -/
def digitVal (c : Char) : Nat :=
  if '0' ≤ c ∧ c ≤ '9' then c.toNat - '0'.toNat
  else if 'a' ≤ c ∧ c ≤ 'f' then c.toNat - 'a'.toNat + 10
  else if 'A' ≤ c ∧ c ≤ 'F' then c.toNat - 'A'.toNat + 10
  else 16

def isDigit (b : Nat) (c : Char) : Bool := digitVal c < b

/-- The digits `l` in base `b`, behind a number `acc`. -/
def readFrom (b : Nat) : Nat → List Char → Option Nat
  | acc, [] => some acc
  | acc, c :: l => if isDigit b c then readFrom b (b * acc + digitVal c) l else none

theorem readFrom_append (b : Nat) : ∀ (l m : List Char) (acc : Nat),
    readFrom b acc (l ++ m) = (readFrom b acc l).bind fun a => readFrom b a m := by
  intro l
  induction l with
  | nil => exact fun _ _ => rfl
  | cons c l ih =>
    intro m acc
    rw [List.cons_append, readFrom, readFrom]
    split
    · exact ih m _
    · rfl

/-- Behind a number its digits have moved up. -/
theorem readFrom_acc (b : Nat) : ∀ (l : List Char) (acc : Nat),
    readFrom b acc l = (readFrom b 0 l).map fun v => b ^ l.length * acc + v := by
  intro l
  induction l with
  | nil =>
    intro acc
    show some acc = some (1 * acc + 0)
    rw [Nat.one_mul, Nat.add_zero]
  | cons c l ih =>
    intro acc
    rw [readFrom, readFrom]
    split
    · rw [ih (b * acc + digitVal c), ih (b * 0 + digitVal c), Option.map_map]
      congr 1
      funext v
      show _ = b ^ (l.length + 1) * acc + (b ^ l.length * (b * 0 + digitVal c) + v)
      rw [Nat.pow_succ, Nat.mul_zero, Nat.zero_add, Nat.mul_add, Nat.mul_assoc, Nat.add_assoc]
    · rfl

/-- Whatever is read as a number in base `b` is made of digits of that base only. -/
theorem readFrom_isDigit {b : Nat} : ∀ {l : List Char} {acc v : Nat},
    readFrom b acc l = some v → ∀ c ∈ l, isDigit b c := by
  intro l
  induction l with
  | nil => exact fun _ _ hc => absurd hc List.not_mem_nil
  | cons c l ih =>
    intro acc v hread c' hc'
    rw [readFrom] at hread
    split at hread
    next hdigit =>
      rcases List.mem_cons.mp hc' with rfl | hmem
      · exact hdigit
      · exact ih hread c' hmem
    next => cases hread

/-! ## Writing -/

theorem digitVal_digitChar : ∀ d : Nat, d < 16 → digitVal d.digitChar = d
  | 0, _ | 1, _ | 2, _ | 3, _ | 4, _ | 5, _ | 6, _ | 7, _ | 8, _ | 9, _ | 10, _ | 11, _ | 12, _
  | 13, _ | 14, _ | 15, _ => by decide
  | _ + 16, h => absurd h (by omega)

theorem isDigit_digitChar {b d : Nat} (hb : b ≤ 16) (hd : d < b) : isDigit b d.digitChar := by
  unfold isDigit
  rw [digitVal_digitChar d (by omega)]
  exact decide_eq_true hd

theorem readFrom_digitChar {b d : Nat} (hb : b ≤ 16) (hd : d < b) (acc : Nat) :
    readFrom b acc [d.digitChar] = some (b * acc + d) := by
  rw [readFrom, if_pos (isDigit_digitChar hb hd), digitVal_digitChar d (by omega)]
  rfl

theorem readFrom_toDigits {b : Nat} (hb : 1 < b) (hb' : b ≤ 16) (n : Nat) :
    readFrom b 0 (Nat.toDigits b n) = some n := by
  induction n using Nat.base_induction b hb with
  | single m hm =>
    rw [Nat.toDigits_of_lt_base hm, readFrom_digitChar hb' hm, Nat.mul_zero, Nat.zero_add]
  | digit m k hk hm ih =>
    rw [← Nat.toDigits_append_toDigits hb hm hk, readFrom_append, ih,
      Nat.toDigits_of_lt_base hk]
    exact readFrom_digitChar hb' hk m

/-- The digits of `n`, filled up to `w` of them. -/
def padded (b w n : Nat) : List Char := (Nat.toDigits b n).leftpad w '0'

theorem readFrom_zeros {b : Nat} (hb : 0 < b) (l : List Char) : ∀ k,
    readFrom b 0 (List.replicate k '0' ++ l) = readFrom b 0 l := by
  intro k
  induction k with
  | zero => rfl
  | succ k ih =>
    have hzero : isDigit b '0' := decide_eq_true hb
    rw [List.replicate_succ, List.cons_append, readFrom, if_pos hzero]
    exact ih

theorem readFrom_padded {b : Nat} (hb : 1 < b) (hb' : b ≤ 16) (w n : Nat) :
    readFrom b 0 (padded b w n) = some n := by
  unfold padded List.leftpad
  rw [readFrom_zeros (by omega), readFrom_toDigits hb hb']

theorem length_padded {b w n : Nat} (hb : 1 < b) (hw : 0 < w) (hn : n < b ^ w) :
    (padded b w n).length = w := by
  have hle := (Nat.length_toDigits_le_iff hb hw).mpr hn
  unfold padded
  rw [List.length_leftpad]
  omega

/-- A field of fixed width behind a number. -/
theorem readFrom_field {b w n : Nat} (hb : 1 < b) (hb' : b ≤ 16) (hw : 0 < w) (hn : n < b ^ w)
    (acc : Nat) : readFrom b acc (padded b w n) = some (b ^ w * acc + n) := by
  rw [readFrom_acc, readFrom_padded hb hb', length_padded hb hw hn]
  rfl

theorem padded_isDigit {b w n : Nat} (hb : 1 < b) (hb' : b ≤ 16) :
    ∀ c ∈ padded b w n, isDigit b c := readFrom_isDigit (readFrom_padded hb hb' w n)

theorem padded_ne_nil (b w n : Nat) : padded b w n ≠ [] := by
  unfold padded List.leftpad
  exact List.append_ne_nil_of_right_ne_nil _ Nat.toDigits_ne_nil

/-! ## Scanning -/

/-- A number of at least one digit, and what comes behind it. -/
def scanNum (b : Nat) (l : List Char) : Option (Nat × List Char) :=
  let digits := l.takeWhile (isDigit b)
  if digits = [] then none
  else (readFrom b 0 digits).map fun n => (n, l.dropWhile (isDigit b))

theorem scanNum_append {b n : Nat} {l : List Char} (hl : l ≠ []) (hread : readFrom b 0 l = some n)
    {c : Char} (hc : isDigit b c = false) (m : List Char) :
    scanNum b (l ++ c :: m) = some (n, c :: m) := by
  have hdigits := readFrom_isDigit hread
  have hstop : ¬isDigit b c := Bool.eq_false_iff.mp hc
  unfold scanNum
  rw [List.takeWhile_append_of_pos hdigits, List.dropWhile_append_of_pos hdigits,
    List.takeWhile_cons_of_neg hstop, List.dropWhile_cons_of_neg hstop, List.append_nil]
  dsimp only
  rw [if_neg hl, hread]
  rfl

end Digits
