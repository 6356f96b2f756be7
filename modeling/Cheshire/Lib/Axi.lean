import Mathlib.Algebra.Group.Nat.Defs

/-!
# AXI write bursts of incrementing addresses

A burst is the address of its first beat, the size of a beat and the beats. Each
beat carries a bus word with a strobe for each lane; lane `e` belongs to the
address `e` bytes into the bus word the beat falls in, and only strobed lanes are
written. The first beat goes to the address as it is, every other one to the next
multiple of the size.

`Burst.apply` is what a burst does to a memory, `Burst.Legal` what the protocol
demands of it. For beats as wide as the bus `apply_eq` gives the memory after a
whole burst in one expression.
-/

namespace Axi

/-- `a` without what exceeds a multiple of `n`. -/
def alignDown (a n : Nat) : Nat := a / n * n

theorem alignDown_eq (a n : Nat) : alignDown a n = a - a % n := by
  have h := Nat.div_add_mod' a n
  unfold alignDown
  omega

theorem alignDown_add_self {a n : Nat} (hn : 0 < n) (ha : alignDown a n = a) :
    alignDown (a + n) n = a + n := by
  unfold alignDown at ha ⊢
  rw [Nat.add_div_right _ hn, Nat.succ_mul, ha]

theorem alignDown_alignDown {a n : Nat} (hn : 0 < n) :
    alignDown (alignDown a n) n = alignDown a n := by
  unfold alignDown
  rw [Nat.mul_div_cancel _ hn]

/-- One beat: a byte and a strobe for each lane. -/
structure Beat (β : Type) where
  data : Nat → β
  strb : Nat → Bool

structure Burst (β : Type) where
  addr : Nat
  /-- A beat has `2 ^ size` bytes. -/
  size : Nat
  beats : List (Beat β)

variable {β : Type}

/-- The strobed lanes written to the bus word at `word`. -/
def lanes (bus : Nat) (m : Nat → β) (word : Nat) (w : Beat β) : Nat → β :=
  fun x => if word ≤ x ∧ x < word + bus ∧ w.strb (x - word) then w.data (x - word) else m x

/-- The effect of the beats from address `a` on, each in the byte lanes it has. -/
def beatsFrom (bus size : Nat) : Nat → List (Beat β) → (Nat → β) → Nat → β
  | _, [], m => m
  | a, w :: ws, m =>
    beatsFrom bus size (alignDown a (2 ^ size) + 2 ^ size) ws (lanes bus m (alignDown a bus) w)

def Burst.apply (bus : Nat) (b : Burst β) (m : Nat → β) : Nat → β :=
  beatsFrom bus b.size b.addr b.beats m

/-- The first address behind the last beat of a burst. -/
def Burst.bound (b : Burst β) : Nat := alignDown b.addr (2 ^ b.size) + b.beats.length * 2 ^ b.size

/-- Between 1 and 256 beats, in one page of 4 KiB. -/
structure Burst.Legal (b : Burst β) : Prop where
  pos : 1 ≤ b.beats.length
  le : b.beats.length ≤ 256
  page : b.addr / 4096 = (b.bound - 1) / 4096

/-- Beats as wide as the bus, from an aligned address: lane by lane. -/
theorem beatsFrom_aligned {bus size : Nat} (hbus : bus = 2 ^ size) : ∀ (ws : List (Beat β))
    (a : Nat) (m : Nat → β), alignDown a bus = a → ∀ x, beatsFrom bus size a ws m x =
      if a ≤ x then
        match ws[(x - a) / bus]? with
        | some w => if w.strb ((x - a) % bus) then w.data ((x - a) % bus) else m x
        | none => m x
      else m x
  | [], a, m, _, x => by
    rw [List.getElem?_nil]
    exact (ite_self (m x)).symm
  | w :: ws, a, m, ha, x => by
    have hpos : 0 < bus := by
      rw [hbus]
      exact Nat.two_pow_pos size
    unfold beatsFrom
    rw [← hbus, ha, beatsFrom_aligned hbus ws (a + bus) _ (alignDown_add_self hpos ha)]
    unfold lanes
    by_cases hlo : a ≤ x
    · by_cases hhi : x < a + bus
      · -- the lanes of this beat
        have hdiv : (x - a) / bus = 0 := Nat.div_eq_of_lt (by omega)
        have hmod : (x - a) % bus = x - a := Nat.mod_eq_of_lt (by omega)
        rw [if_neg (by omega), if_pos hlo, hdiv, hmod, List.getElem?_cons_zero]
        simp only [hlo, hhi, true_and]
      · have hsub : x - a = x - (a + bus) + bus := by omega
        have hdiv : (x - a) / bus = (x - (a + bus)) / bus + 1 := by
          rw [hsub, Nat.add_div_right _ hpos]
        have hmod : (x - a) % bus = (x - (a + bus)) % bus := by
          rw [hsub, Nat.add_mod_right]
        rw [if_pos (by omega), if_pos hlo, hdiv, hmod, List.getElem?_cons_succ]
        simp only [hhi, false_and, and_false, if_false]
    · have hlo' : ¬a + bus ≤ x := by omega
      rw [if_neg hlo', if_neg hlo, if_neg fun h => hlo h.1]

/-- Memory after a burst of beats as wide as the bus. -/
theorem apply_eq {bus : Nat} {b : Burst β} (hbus : bus = 2 ^ b.size) (m : Nat → β) (x : Nat) :
    b.apply bus m x = if alignDown b.addr bus ≤ x then
        match b.beats[(x - alignDown b.addr bus) / bus]? with
        | some w =>
          if w.strb ((x - alignDown b.addr bus) % bus) then
            w.data ((x - alignDown b.addr bus) % bus) else m x
        | none => m x
      else m x := by
  have hpos : 0 < bus := by
    rw [hbus]
    exact Nat.two_pow_pos b.size
  have hself := alignDown_alignDown (a := b.addr) hpos
  have hstart : ∀ ws : List (Beat β), beatsFrom bus b.size b.addr ws m
      = beatsFrom bus b.size (alignDown b.addr bus) ws m := by
    intro ws
    cases ws with
    | nil => rfl
    | cons w ws =>
      unfold beatsFrom
      rw [← hbus, hself]
  unfold Burst.apply
  rw [hstart]
  exact beatsFrom_aligned hbus b.beats _ m hself x

/-- A burst leaves every byte at or behind its bound as it was. -/
theorem apply_bound {bus : Nat} {b : Burst β} (hbus : bus = 2 ^ b.size) (m : Nat → β) {x : Nat}
    (hx : b.bound ≤ x) : b.apply bus m x = m x := by
  have hpos : 0 < bus := by
    rw [hbus]
    exact Nat.two_pow_pos b.size
  unfold Burst.bound at hx
  rw [← hbus] at hx
  rw [apply_eq hbus, if_pos (by omega)]
  have hbeat : b.beats[(x - alignDown b.addr bus) / bus]? = none := by
    apply List.getElem?_eq_none
    rw [Nat.le_div_iff_mul_le hpos]
    omega
  rw [hbeat]

/-- A legal burst ends in the page it starts in. -/
theorem Burst.Legal.bound_le {b : Burst β} (h : b.Legal) :
    b.bound ≤ (b.addr / 4096 + 1) * 4096 := by
  have hpage := h.page
  omega

end Axi
