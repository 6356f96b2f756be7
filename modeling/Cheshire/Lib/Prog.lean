import Mathlib.Control.Monad.Basic
import Mathlib.Logic.Basic

/-!
# Firmware bodies: calls that may fail, and their weakest preconditions

A driver written in C is a straight line of calls into an environment it does
not control: a device interface, a callback, a bus. Every call returns an `int`
and fills some output bytes; the driver returns at once when the `int` is not
zero (`CHECK_CALL`), or looks at it and goes on.

`Prog Q M α` is such a body. `Q` is the type of calls, `M` the driver's own
memory, `α` what the body yields when every check passed. The environment
(`Env Q`) answers a call from the calls answered before it, so it may be any
device, well behaved or not, with any hidden state. The calls made are kept in
the state, newest first: a property of a run is a property of that trace.

`wp env x Q E s` says that `x`, started in `s`, ends normally in `Q` or stops
in `E`. `E` receives how the body stopped: with a return code, or in a loop that
never ends (`Stop.spin`). The rules below push `wp` through the operations, and
`wp_upTo` is the invariant rule for a counting loop.
-/

namespace Firmware

abbrev Byte := BitVec 8

/-- A C `int` return value, zero for success. -/
abbrev Code := BitVec 32

/-- The little-endian 32-bit word at offset `o` of a byte buffer. -/
def le32 (d : Nat → Byte) (o : Nat) : BitVec 32 :=
  d (o + 3) ++ d (o + 2) ++ d (o + 1) ++ d o

/-- The little-endian 64-bit word at offset `o` of a byte buffer. -/
def le64 (d : Nat → Byte) (o : Nat) : BitVec 64 := le32 d (o + 4) ++ le32 d o

/-- The bytes of a little-endian word. -/
theorem byte_le32 (d : Nat → Byte) (o : Nat) : ∀ j, j < 4 →
    (le32 d o).extractLsb' (8 * j) 8 = d (o + j)
  | 0, _ => BitVec.extractLsb'_append_eq_right
  | 1, _ => by
    show (d (o + 3) ++ d (o + 2) ++ d (o + 1) ++ d o).extractLsb' 8 8 = _
    rw [BitVec.extractLsb'_append_eq_of_le (by omega)]
    exact BitVec.extractLsb'_append_eq_right
  | 2, _ => by
    show (d (o + 3) ++ d (o + 2) ++ d (o + 1) ++ d o).extractLsb' 16 8 = _
    rw [BitVec.extractLsb'_append_eq_of_le (by omega),
      BitVec.extractLsb'_append_eq_of_le (by omega)]
    exact BitVec.extractLsb'_append_eq_right
  | 3, _ => by
    show (d (o + 3) ++ d (o + 2) ++ d (o + 1) ++ d o).extractLsb' 24 8 = _
    rw [BitVec.extractLsb'_append_eq_of_le (by omega),
      BitVec.extractLsb'_append_eq_of_le (by omega)]
    exact BitVec.extractLsb'_append_eq_left
  | _ + 4, h => absurd h (by omega)

theorem byte_le64 (d : Nat → Byte) (o : Nat) {j : Nat} (hj : j < 8) :
    (le64 d o).extractLsb' (8 * j) 8 = d (o + j) := by
  unfold le64
  by_cases hlow : j < 4
  · rw [BitVec.extractLsb'_append_eq_of_add_le (by omega), byte_le32 d o j hlow]
  · rw [BitVec.extractLsb'_append_eq_of_le (by omega), show 8 * j - 32 = 8 * (j - 4) by omega,
      byte_le32 d (o + 4) (j - 4) (by omega), show o + 4 + (j - 4) = o + j by omega]

/-- A word is what its own four bytes give when they are read in little-endian order. -/
theorem le32_bytes (v : BitVec 32) : le32 (fun j => v.extractLsb' (8 * j) 8) 0 = v := by
  apply BitVec.eq_of_getLsbD_eq
  intro i hi
  have hbyte := byte_le32 (fun j => v.extractLsb' (8 * j) 8) 0 (i / 8) (by omega)
  have hbit := congrArg (fun b : Byte => b.getLsbD (i % 8)) hbyte
  simp only [BitVec.getLsbD_extractLsb', Nat.mod_lt i (show 8 > 0 by omega), decide_true,
    Bool.true_and, Nat.zero_add, Nat.div_add_mod] at hbit
  exact hbit

theorem le64_bytes (v : BitVec 64) : le64 (fun j => v.extractLsb' (8 * j) 8) 0 = v := by
  apply BitVec.eq_of_getLsbD_eq
  intro i hi
  have hbyte := @byte_le64 (fun j => v.extractLsb' (8 * j) 8) 0 (i / 8) (by omega)
  have hbit := congrArg (fun b : Byte => b.getLsbD (i % 8)) hbyte
  simp only [BitVec.getLsbD_extractLsb', Nat.mod_lt i (show 8 > 0 by omega), decide_true,
    Bool.true_and, Nat.zero_add, Nat.div_add_mod] at hbit
  exact hbit

theorem le32_congr {d d' : Nat → Byte} {o : Nat} (h : ∀ j < 4, d (o + j) = d' (o + j)) :
    le32 d o = le32 d' o := by
  have h0 : d o = d' o := h 0 (by omega)
  unfold le32
  rw [h 3 (by omega), h 2 (by omega), h 1 (by omega), h0]

theorem le64_congr {d d' : Nat → Byte} {o : Nat} (h : ∀ j < 8, d (o + j) = d' (o + j)) :
    le64 d o = le64 d' o := by
  have h0 : d o = d' o := h 0 (by omega)
  unfold le64 le32
  rw [show o + 4 + 3 = o + 7 from rfl, show o + 4 + 2 = o + 6 from rfl,
    show o + 4 + 1 = o + 5 from rfl, h 7 (by omega), h 6 (by omega), h 5 (by omega),
    h 4 (by omega), h 3 (by omega), h 2 (by omega), h 1 (by omega), h0]

theorem toNat_le32 (d : Nat → Byte) (o : Nat) :
    (le32 d o).toNat = 256 * (256 * (256 * (d (o + 3)).toNat + (d (o + 2)).toNat) +
      (d (o + 1)).toNat) + (d o).toNat := by
  have happend : ∀ {n : Nat} (v : BitVec n) (b : Byte),
      (v ++ b).toNat = 256 * v.toNat + b.toNat := by
    intro n v b
    rw [BitVec.toNat_append, Nat.shiftLeft_eq, Nat.mul_comm]
    exact (Nat.two_pow_add_eq_or_of_lt b.isLt _).symm
  unfold le32
  rw [happend, happend, happend]

/-- A buffer that holds the two words `a` and `b`, little-endian. -/
def words (a b : BitVec 64) : Nat → Byte := fun i =>
  if i < 8 then (a >>> (8 * i)).setWidth 8 else (b >>> (8 * (i - 8))).setWidth 8

/-- The answer to a call: its return value and the bytes it delivers. -/
structure Reply where
  ret : Code
  out : Nat → Byte

/-- The calls answered so far, newest first. -/
abbrev Trace (Q : Type) := List (Q × Reply)

/-- An environment answers a call from the calls answered before. -/
abbrev Env (Q : Type) := Trace Q → Q → Reply

/-- How a body stops early: a nonzero return value, or a loop without an exit. -/
inductive Stop where
  | ret (c : Code)
  | spin
  deriving DecidableEq, Repr

structure St (Q M : Type) where
  calls : Trace Q
  mem : M

/-- A function body over calls `Q` and memory `M`. -/
def Prog (Q M α : Type) := Env Q → St Q M → Except Stop α × St Q M

namespace Prog

variable {Q M α β : Type}

protected def pure (a : α) : Prog Q M α := fun _ s => (.ok a, s)

protected def bind (x : Prog Q M α) (f : α → Prog Q M β) : Prog Q M β := fun env s =>
  match x env s with
  | (.ok a, s') => f a env s'
  | (.error e, s') => (.error e, s')

instance : Monad (Prog Q M) where
  pure := Prog.pure
  bind := Prog.bind

instance : LawfulMonad (Prog Q M) :=
  LawfulMonad.mk' _
    (by
      intro α x
      funext env s
      show (match x env s with | (.ok a, s') => _ | (.error e, s') => _) = x env s
      split
      next h => exact h.symm
      next h => exact h.symm)
    (fun _ _ => rfl)
    (by
      intro α β γ x f g
      funext env s
      show Prog.bind (Prog.bind x f) g env s = Prog.bind x (fun a => Prog.bind (f a) g) env s
      unfold Prog.bind
      cases x env s with
      | mk r s' => cases r with
        | ok a => rfl
        | error e => rfl)

/-- Return from the function early, with `e`. -/
def stop (e : Stop) : Prog Q M α := fun _ s => (.error e, s)

/-- Return `c`; a zero return value is success. -/
def retCode (c : Code) : Prog Q M Unit := if c = 0 then pure () else stop (.ret c)

/-- Issue a call and look at its return value. -/
def ask (q : Q) : Prog Q M Reply := fun env s =>
  (.ok (env s.calls q), { s with calls := (q, env s.calls q) :: s.calls })

/-- `CHECK_CALL(q)`: issue a call, return its value if that is not zero. -/
def check (q : Q) : Prog Q M (Nat → Byte) := do
  let r ← ask q
  if r.ret = 0 then pure r.out else stop (.ret r.ret)

def getMem : Prog Q M M := fun _ s => (.ok s.mem, s)

def modifyMem (f : M → M) : Prog Q M Unit := fun _ s => (.ok (), { s with mem := f s.mem })

/-- `for (i = k; i < k + n; i++) body(i)`. -/
def upFrom (body : Nat → Prog Q M Unit) : Nat → Nat → Prog Q M Unit
  | _, 0 => pure ()
  | k, n + 1 => do
    body k
    upFrom body (k + 1) n

/-- `for (i = 0; i < n; i++) body(i)`. -/
def upTo (n : Nat) (body : Nat → Prog Q M Unit) : Prog Q M Unit := upFrom body 0 n

/-- Call a function and look at its return value instead of passing it on. -/
def attempt (x : Prog Q M α) : Prog Q M (Except Code α) := fun env s =>
  match x env s with
  | (.ok a, s') => (.ok (.ok a), s')
  | (.error (.ret c), s') => (.ok (.error c), s')
  | (.error .spin, s') => (.error .spin, s')

end Prog

/-! ## Weakest preconditions -/

open Prog

variable {Q M α β : Type} {env : Env Q}

/-- `x` ends normally in `R`, or stops in `E`. -/
def wp (env : Env Q) (x : Prog Q M α) (R : α → St Q M → Prop) (E : Stop → St Q M → Prop)
    (s : St Q M) : Prop :=
  match x env s with
  | (.ok a, s') => R a s'
  | (.error e, s') => E e s'

variable {R R' : α → St Q M → Prop} {E E' : Stop → St Q M → Prop} {s : St Q M}

theorem wp_ok {x : Prog Q M α} {a : α} {s' : St Q M} (h : wp env x R E s)
    (hx : x env s = (.ok a, s')) : R a s' := by
  unfold wp at h
  rw [hx] at h
  exact h

theorem wp_error {x : Prog Q M α} {e : Stop} {s' : St Q M} (h : wp env x R E s)
    (hx : x env s = (.error e, s')) : E e s' := by
  unfold wp at h
  rw [hx] at h
  exact h

theorem wp_mono {x : Prog Q M α} (h : wp env x R E s) (hR : ∀ a s', R a s' → R' a s')
    (hE : ∀ e s', E e s' → E' e s') : wp env x R' E' s := by
  unfold wp at h ⊢
  split at h
  next => exact hR _ _ h
  next => exact hE _ _ h

theorem wp_any (x : Prog Q M α) (s : St Q M) :
    wp env x (fun _ _ => True) (fun _ _ => True) s := by
  unfold wp
  split
  · trivial
  · trivial

theorem wp_and {x : Prog Q M α} (h : wp env x R E s) (h' : wp env x R' E' s) :
    wp env x (fun a s' => R a s' ∧ R' a s') (fun e s' => E e s' ∧ E' e s') s := by
  unfold wp at h h' ⊢
  cases hx : x env s with
  | mk r s' =>
    rw [hx] at h h'
    cases r with
    | ok a => exact ⟨h, h'⟩
    | error e => exact ⟨h, h'⟩

/-- The outcome satisfies the postcondition, and is the outcome of the run. -/
theorem wp_run {x : Prog Q M α} (h : wp env x R E s) :
    wp env x (fun a s' => x env s = (.ok a, s') ∧ R a s')
      (fun e s' => x env s = (.error e, s') ∧ E e s') s := by
  unfold wp at h ⊢
  split at h
  next hx => rw [hx]; exact ⟨rfl, h⟩
  next hx => rw [hx]; exact ⟨rfl, h⟩

/-- A body for which stopping early is excluded ends normally, in a state with the postcondition. -/
theorem wp_total {x : Prog Q M α} (h : wp env x R (fun _ _ => False) s) :
    ∃ a s', x env s = (.ok a, s') ∧ R a s' := by
  unfold wp at h
  split at h
  next a s' hx => exact ⟨a, s', hx, h⟩
  next => exact h.elim

/-- Of a body that ends with any fuel, what all its ends have is what one has. -/
theorem forall_ok_iff {x : Nat → Prog Q M Unit} {P : St Q M → Prop} {C : Prop}
    (h : ∀ fuel, wp env (x fuel) (fun _ s' => P s' ↔ C) (fun _ _ => False) s) :
    (∀ fuel s', x fuel env s = (.ok (), s') → P s') ↔ C := by
  constructor
  · intro hall
    obtain ⟨_, s', hrun, h'⟩ := wp_total (h 0)
    exact h'.mp (hall 0 s' hrun)
  · intro hc fuel s' hrun
    exact (wp_ok (h fuel) hrun).mpr hc

theorem run_eq {x : Except Stop α × St Q M} {r : Except Stop α} (h : x.1 = r) : x = (r, x.2) :=
  Prod.ext h rfl

/-- If a body can end normally only under a condition and stop early only without it, the condition
decides how it ends. -/
theorem wp_decides {x : Prog Q M Unit} {C : Prop}
    (h : wp env x (fun _ _ => C) (fun _ _ => ¬C) s) : (x env s).1 = .ok () ↔ C := by
  unfold wp at h
  split at h
  next hx =>
    rw [hx]
    exact ⟨fun _ => h, fun _ => rfl⟩
  next hx =>
    rw [hx]
    exact ⟨fun hok => (nomatch hok), fun hc => absurd hc h⟩

/-- A postcondition that speaks of the final state alone holds exactly if that state has it. -/
theorem wp_state {x : Prog Q M α} {P : St Q M → Prop} :
    wp env x (fun _ => P) (fun _ => P) s ↔ P (x env s).2 := by
  unfold wp
  split
  next hx => rw [hx]
  next hx => rw [hx]

@[simp] theorem wp_pure (a : α) : wp env (pure a : Prog Q M α) R E s ↔ R a s := Iff.rfl

@[simp] theorem wp_stop (e : Stop) : wp env (stop e : Prog Q M α) R E s ↔ E e s := Iff.rfl

@[simp] theorem wp_bind (x : Prog Q M α) (f : α → Prog Q M β) {R : β → St Q M → Prop} :
    wp env (x >>= f) R E s ↔ wp env x (fun a s' => wp env (f a) R E s') E s := by
  show wp env (Prog.bind x f) R E s ↔ _
  unfold wp Prog.bind
  cases x env s with
  | mk r s' => cases r <;> exact Iff.rfl

@[simp] theorem wp_ask (q : Q) {R : Reply → St Q M → Prop} :
    wp env (ask q) R E s
      ↔ R (env s.calls q) { s with calls := (q, env s.calls q) :: s.calls } := Iff.rfl

@[simp] theorem wp_getMem {R : M → St Q M → Prop} :
    wp env (getMem : Prog Q M M) R E s ↔ R s.mem s := Iff.rfl

@[simp] theorem wp_modifyMem (f : M → M) {R : Unit → St Q M → Prop} :
    wp env (modifyMem f) R E s ↔ R () { s with mem := f s.mem } := Iff.rfl

@[simp] theorem wp_ite (c : Prop) [Decidable c] (x y : Prog Q M α) :
    wp env (if c then x else y) R E s ↔ if c then wp env x R E s else wp env y R E s := by
  by_cases h : c
  · rw [if_pos h, if_pos h]
  · rw [if_neg h, if_neg h]

/-- A checked call either succeeds with the bytes delivered or returns its value. -/
theorem wp_check (q : Q) {R : (Nat → Byte) → St Q M → Prop} :
    wp env (check q) R E s ↔
      (((env s.calls q).ret = 0 →
          R (env s.calls q).out { s with calls := (q, env s.calls q) :: s.calls }) ∧
        ((env s.calls q).ret ≠ 0 →
          E (.ret (env s.calls q).ret) { s with calls := (q, env s.calls q) :: s.calls })) := by
  unfold check
  rw [wp_bind, wp_ask, wp_ite, wp_pure, wp_stop]
  exact ite_prop_iff_and

theorem wp_retCode (c : Code) {R : Unit → St Q M → Prop} :
    wp env (retCode c) R E s ↔ (c = 0 → R () s) ∧ (c ≠ 0 → E (.ret c) s) := by
  unfold retCode
  rw [wp_ite, wp_pure, wp_stop]
  exact ite_prop_iff_and

/-- `if (c) return k;` with a nonzero `k` goes on exactly if `c` is false and returns `k` exactly if
it is true. -/
theorem wp_returnIf (c : Prop) [Decidable c] {k : Code} (hk : k ≠ 0) {R : Unit → St Q M → Prop} :
    wp env (retCode (if c then k else 0)) R E s ↔ (¬c → R () s) ∧ (c → E (.ret k) s) := by
  rw [wp_retCode]
  by_cases h : c
  · rw [if_pos h]
    exact ⟨fun hr => ⟨fun hn => absurd h hn, fun _ => hr.2 hk⟩,
      fun hr => ⟨fun hz => absurd hz hk, fun _ => hr.2 h⟩⟩
  · rw [if_neg h]
    exact ⟨fun hr => ⟨fun _ => hr.1 rfl, fun hc => absurd hc h⟩,
      fun hr => ⟨fun _ => hr.1 h, fun hn => absurd rfl hn⟩⟩

/-- The invariant rule for a loop that counts up from an arbitrary first index, by induction on the
rounds left. -/
theorem wp_upFrom {body : Nat → Prog Q M Unit} (I : Nat → St Q M → Prop) :
    ∀ (n k : Nat) {s : St Q M},
      (∀ i, k ≤ i → i < k + n → ∀ s', I i s' → wp env (body i) (fun _ => I (i + 1)) E s') →
      I k s → wp env (upFrom body k n) (fun _ => I (k + n)) E s
  | 0, _, _, _, h0 => h0
  | n + 1, k, s, hstep, h0 => by
    show wp env (body k >>= fun _ => upFrom body (k + 1) n) _ E s
    rw [wp_bind]
    refine wp_mono (hstep k (Nat.le_refl k) (by omega) s h0) (fun _ s' hs' => ?_)
      (fun _ _ he => he)
    -- the invariant at `k + 1` starts the loop over the other `n` passes
    have hrest := wp_upFrom I n (k + 1)
      (fun i hki hin => hstep i (by omega) (by omega)) hs'
    rw [show k + 1 + n = k + (n + 1) by omega] at hrest
    exact hrest

/-- The invariant rule for `for (i = 0; i < n; i++)`. -/
theorem wp_upTo {n : Nat} {body : Nat → Prog Q M Unit} (I : Nat → St Q M → Prop)
    (hstep : ∀ i, i < n → ∀ s', I i s' → wp env (body i) (fun _ => I (i + 1)) E s')
    (h0 : I 0 s) : wp env (upTo n body) (fun _ => I n) E s := by
  have h : wp env (upFrom body 0 n) (fun _ => I (0 + n)) E s :=
    wp_upFrom I n 0 (fun i _ hin => hstep i (by omega)) h0
  rw [Nat.zero_add] at h
  exact h

/-- A run that is looked at: a return value is a result, a spinning callee still spins. -/
theorem wp_attempt {x : Prog Q M α} {R : Except Code α → St Q M → Prop} :
    wp env (attempt x) R E s ↔
      wp env x (fun a => R (.ok a))
        (fun e s' => match e with
          | .ret c => R (.error c) s'
          | .spin => E .spin s') s := by
  unfold wp attempt
  cases x env s with
  | mk r s' =>
    cases r with
    | ok a => exact Iff.rfl
    | error e => cases e <;> exact Iff.rfl

end Firmware
