import Cheshire.Lib.Layer
import Cheshire.Lib.Mem

/-!
# What a body does between its start and its end

Most of a driver's functions differ in what they compute and not in what they may do: every
call is one of a few, its answer is the environment's, memory changes only where it is
stored to, and a call that fails ends the function with its code. A `Guarantee` is such a
relation between the state before and the state behind; it holds of nothing done, and it
composes. `Meets G P x` says that `x` keeps to it and stops early only as in `P`. A body
does if its parts do, so a whole driver is one line for each of its functions.

Two guarantees are given here: `callsIn` on the calls, which also goes through `within`, and
`onlyStores` on memory.
-/

namespace Firmware

variable {Q Q' M M' α β : Type}

/-- A relation between the states before and behind. -/
structure Guarantee (Q M : Type) where
  holds : Env Q → St Q M → St Q M → Prop
  refl : ∀ env s, holds env s s
  trans : ∀ {env s s' s''}, holds env s s' → holds env s' s'' → holds env s s''

/-- Two guarantees at once, each kept by what keeps both. -/
def Guarantee.and (G G' : Guarantee Q M) : Guarantee Q M where
  holds env s s' := G.holds env s s' ∧ G'.holds env s s'
  refl env s := ⟨G.refl env s, G'.refl env s⟩
  trans h h' := ⟨G.trans h.1 h'.1, G'.trans h.2 h'.2⟩

def Meets (G : Guarantee Q M) (P : Stop → Prop) (x : Prog Q M α) : Prop :=
  ∀ env s, wp env x (fun _ => G.holds env s) (fun e s' => G.holds env s s' ∧ P e) s

/-- A stop with an error code, as a C function returns it. -/
def IsCode (e : Stop) : Prop := ∃ c, c ≠ 0 ∧ e = .ret c

open Prog

/-! ## Rules -/

section

variable {G : Guarantee Q M} {P : Stop → Prop}

theorem meets_pure (a : α) : Meets G P (pure a : Prog Q M α) := fun env s => G.refl env s

theorem meets_stop {e : Stop} (he : P e) : Meets G P (stop e : Prog Q M α) :=
  fun env s => ⟨G.refl env s, he⟩

theorem meets_bind {x : Prog Q M α} {f : α → Prog Q M β} (hx : Meets G P x)
    (hf : ∀ a, Meets G P (f a)) : Meets G P (x >>= f) := by
  intro env s
  rw [wp_bind]
  refine wp_mono (hx env s) (fun a s₁ h₁ => ?_) fun _ _ he => he
  exact wp_mono (hf a env s₁) (fun _ _ h₂ => G.trans h₁ h₂)
    fun _ _ he => ⟨G.trans h₁ he.1, he.2⟩

theorem meets_ite {c : Prop} [Decidable c] {x y : Prog Q M α} (hx : Meets G P x)
    (hy : Meets G P y) : Meets G P (if c then x else y) := by
  split
  · exact hx
  · exact hy

theorem meets_getMem : Meets G P (getMem : Prog Q M M) := fun env s => G.refl env s

theorem meets_retCode (hP : ∀ c, c ≠ 0 → P (.ret c)) (c : Code) :
    Meets G P (retCode c : Prog Q M Unit) := by
  intro env s
  rw [wp_retCode]
  exact ⟨fun _ => G.refl env s, fun hc => ⟨G.refl env s, hP c hc⟩⟩

/-- Making this call is within the guarantee, in every environment and state. -/
def Guarantee.Allows (G : Guarantee Q M) (q : Q) : Prop :=
  ∀ env s, G.holds env s { s with calls := (q, env s.calls q) :: s.calls }

theorem meets_ask {q : Q} (hq : G.Allows q) : Meets G P (ask q : Prog Q M Reply) :=
  fun env s => hq env s

theorem meets_check (hP : ∀ c, c ≠ 0 → P (.ret c)) {q : Q} (hq : G.Allows q) :
    Meets G P (check q : Prog Q M (Nat → Byte)) := by
  intro env s
  rw [wp_check]
  exact ⟨fun _ => hq env s, fun hr => ⟨hq env s, hP _ hr⟩⟩

theorem meets_upFrom {body : Nat → Prog Q M Unit} :
    ∀ n k : Nat, (∀ i, k ≤ i → i < k + n → Meets G P (body i)) → Meets G P (upFrom body k n)
  | 0, _, _ => meets_pure ()
  | n + 1, k, h => meets_bind (h k (Nat.le_refl k) (by omega)) fun _ =>
    meets_upFrom n (k + 1) fun i hlo hhi => h i (by omega) (by omega)

theorem meets_upTo {n : Nat} {body : Nat → Prog Q M Unit} (h : ∀ i < n, Meets G P (body i)) :
    Meets G P (upTo n body) :=
  meets_upFrom n 0 fun i _ hi => h i (by omega)

theorem meets_attempt {x : Prog Q M α} (h : Meets G P x) : Meets G (· = .spin) (attempt x) := by
  intro env s
  rw [wp_attempt]
  refine wp_mono (h env s) (fun _ _ h' => h') fun e _ he => ?_
  cases e with
  | ret c => exact he.1
  | spin => exact ⟨he.1, rfl⟩

theorem Meets.mono {G' : Guarantee Q M} {P' : Stop → Prop} {x : Prog Q M α} (h : Meets G P x)
    (hG : ∀ {env s s'}, G.holds env s s' → G'.holds env s s') (hP : ∀ e, P e → P' e) :
    Meets G' P' x :=
  fun env s => wp_mono (h env s) (fun _ _ h' => hG h') fun e _ he => ⟨hG he.1, hP e he.2⟩

end

/-! ## Calls -/

/-- Behind the calls `t₀` the environment answered these. -/
def Answered (env : Env Q) (t₀ : Trace Q) : Trace Q → Prop
  | [] => True
  | (q, r) :: t => r = env (t ++ t₀) q ∧ Answered env t₀ t

/-- From `s` to `s'` these calls were made, all in `A`. -/
structure Calls (env : Env Q) (A : Q → Prop) (s s' : St Q M) (new : Trace Q) : Prop where
  calls_eq : s'.calls = new ++ s.calls
  allowed : ∀ c ∈ new, A c.1
  answered : Answered env s.calls new

def MadeCalls (env : Env Q) (A : Q → Prop) (s s' : St Q M) : Prop := ∃ new, Calls env A s s' new

variable {env : Env Q} {A : Q → Prop}

theorem madeCalls_refl (env : Env Q) (A : Q → Prop) (s : St Q M) : MadeCalls env A s s :=
  ⟨[], rfl, fun _ hc => absurd hc List.not_mem_nil, trivial⟩

theorem answered_append {t₀ t : Trace Q} : ∀ {t' : Trace Q},
    Answered env t₀ (t' ++ t) ↔ Answered env (t ++ t₀) t' ∧ Answered env t₀ t
  | [] => ⟨fun h => ⟨trivial, h⟩, fun h => h.2⟩
  | (q, r) :: t' => by
    show r = env (t' ++ t ++ t₀) q ∧ Answered env t₀ (t' ++ t) ↔
      (r = env (t' ++ (t ++ t₀)) q ∧ Answered env (t ++ t₀) t') ∧ Answered env t₀ t
    rw [answered_append, List.append_assoc, and_assoc]

/-- Every answer is the environment's, to what was asked before it. -/
theorem Answered.mem {t₀ : Trace Q} {c : Q × Reply} : ∀ {t : Trace Q}, Answered env t₀ t → c ∈ t →
    ∃ t', (∀ d ∈ t', d ∈ t) ∧ c.2 = env (t' ++ t₀) c.1
  | [], _, hc => absurd hc List.not_mem_nil
  | d :: t, h, hc => by
    rcases List.mem_cons.mp hc with rfl | hc
    · exact ⟨t, fun d hd => List.mem_cons_of_mem _ hd, h.1⟩
    · obtain ⟨t', ht', hans⟩ := h.2.mem hc
      exact ⟨t', fun d hd => List.mem_cons_of_mem _ (ht' d hd), hans⟩

theorem MadeCalls.trans {s s' s'' : St Q M} (h : MadeCalls env A s s')
    (h' : MadeCalls env A s' s'') : MadeCalls env A s s'' := by
  obtain ⟨new, hcalls, hall, hans⟩ := h
  obtain ⟨new', hcalls', hall', hans'⟩ := h'
  rw [hcalls] at hans'
  refine ⟨new' ++ new, by rw [hcalls', hcalls, List.append_assoc], fun c hc => ?_,
    answered_append.mpr ⟨hans', hans⟩⟩
  rcases List.mem_append.mp hc with hc | hc
  · exact hall' c hc
  · exact hall c hc

/-- All calls are in `A`, and answered by the environment. -/
def callsIn (A : Q → Prop) : Guarantee Q M where
  holds env := MadeCalls env A
  refl env := madeCalls_refl env A
  trans := MadeCalls.trans

theorem callsIn_allows {q : Q} (hq : A q) : (callsIn A : Guarantee Q M).Allows q := by
  refine fun env s => ⟨[(q, env s.calls q)], rfl, fun c hc => ?_, rfl, trivial⟩
  rw [List.mem_singleton.mp hc]
  exact hq

theorem callsIn_modifyMem {P : Stop → Prop} (f : M → M) :
    Meets (callsIn A) P (modifyMem f : Prog Q M Unit) :=
  fun _ _ => ⟨[], rfl, fun _ hc => absurd hc List.not_mem_nil, trivial⟩

theorem answered_under {inj : Q → Q'} {env : Env Q'} {t₀ : Trace Q'} :
    ∀ {t : Trace Q}, Answered (Env.under inj env t₀) [] t → Answered env t₀ (Trace.under inj t)
  | [], _ => trivial
  | (q, r) :: t, h => by
    refine ⟨?_, answered_under h.2⟩
    have hr : r = Env.under inj env t₀ (t ++ []) q := h.1
    rw [List.append_nil] at hr
    exact hr

/-- Calls, as the level below sees them. -/
theorem MadeCalls.under {inj : Q → Q'} {env : Env Q'} {s : St Q' M'} {m : M} {u : St Q M}
    {m' : M'} (h : MadeCalls (Env.under inj env s.calls) A ⟨[], m⟩ u) :
    MadeCalls env (fun q => ∃ c, q = inj c ∧ A c) s
      ⟨Trace.under inj u.calls ++ s.calls, m'⟩ := by
  obtain ⟨new, hnew, hall, hans⟩ := h
  rw [show u.calls = new from hnew.trans (List.append_nil new)]
  refine ⟨Trace.under inj new, rfl, fun c hc => ?_, answered_under hans⟩
  obtain ⟨d, hd, rfl⟩ := List.mem_map.mp hc
  exact ⟨d.1, rfl, hall d hd⟩

/-! ## Memory -/

section

variable {ι : Type} {P : Stop → Prop}

/-- Only bytes that were stored to have changed. -/
def onlyStores : Guarantee Q (Mem ι) where
  holds _ s s' := s.mem.OnlyStores s'.mem
  refl _ s := Mem.onlyStores_refl s.mem
  trans := Mem.OnlyStores.trans

theorem onlyStores_allows (q : Q) : (onlyStores : Guarantee Q (Mem ι)).Allows q :=
  fun _ s => Mem.onlyStores_refl s.mem

theorem onlyStores_modifyMem {f : Mem ι → Mem ι} (hf : ∀ m : Mem ι, m.OnlyStores (f m)) :
    Meets onlyStores P (modifyMem f : Prog Q (Mem ι) Unit) := fun _ s => hf s.mem

end

end Firmware
