import Cheshire.Lib.Prog

/-!
# Bodies on top of bodies

A callback is a driver, and a driver's transfers are some of the calls a larger function
makes. `within` runs a body among the calls of such a function, and `serve` runs one whose
every call is a body of its own on the level below.

A body is only known by what it computes from its environment. So each of the two runs it
in the environment that the level below amounts to: there the answer to a call is found by
making the calls answered before once more (`replay`). A call that does not come back has
no answer; the run on the level below ends with it, and what the body would have done
afterwards does not matter.

The rules carry `wp` through both. For `serve` there are two questions: what the body can
rely on of a served environment (`served_spec`), and what all its calls leave on the level
below (`wp_replay`).
-/

namespace Firmware

variable {Q Q' M M' α : Type}

/-! ## Some of the calls -/

/-- A trace of calls, as the level below sees the same calls. -/
def Trace.under (inj : Q → Q') (t : Trace Q) : Trace Q' := t.map fun c => (inj c.1, c.2)

/-- The environment below, as one that answers the calls made behind `t₀`. -/
def Env.under (inj : Q → Q') (env : Env Q') (t₀ : Trace Q') : Env Q :=
  fun t q => env (Trace.under inj t ++ t₀) (inj q)

namespace Prog

/-- Run `x` among the calls of the level below. -/
def within (inj : Q → Q') (x : Prog Q M α) : Prog Q' M α := fun env s =>
  let r := x (Env.under inj env s.calls) ⟨[], s.mem⟩
  (r.1, ⟨Trace.under inj r.2.calls ++ s.calls, r.2.mem⟩)

/-! ## Each call a body -/

/-- The calls of `t` once more, the oldest first. -/
def replay (drive : Q → Prog Q' M' Reply) : Trace Q → Prog Q' M' Unit
  | [] => pure ()
  | (q, _) :: t => do
    replay drive t
    let _ ← drive q

/-- Stands for the answer of a call that does not come back. -/
def lost : Reply := ⟨1, fun _ => 0⟩

/-- What the level below answers from `s` on. -/
def served (drive : Q → Prog Q' M' Reply) (env : Env Q') (s : St Q' M') : Env Q := fun t q =>
  match (do replay drive t; drive q : Prog Q' M' Reply) env s with
  | (.ok r, _) => r
  | (.error _, _) => lost

/-- Run `x`, whose own memory starts as `m`, with every call made to `drive`: how it ended,
and its memory then. -/
-- nothing is gained by computing a whole run when a goal about one is elaborated
@[irreducible] def serve (drive : Q → Prog Q' M' Reply) (x : Prog Q M α) (m : M) :
    Prog Q' M' (Except Stop α × M) := fun env s =>
  let r := x (served drive env s) ⟨[], m⟩
  (do replay drive r.2.calls; pure (r.1, r.2.mem) : Prog Q' M' (Except Stop α × M)) env s

end Prog

/-! ## Rules -/

open Prog

variable {env : Env Q'}

theorem wp_within {inj : Q → Q'} {x : Prog Q M α} {R : α → St Q' M → Prop}
    {E : Stop → St Q' M → Prop} {s : St Q' M} :
    wp env (within inj x) R E s ↔
      wp (Env.under inj env s.calls) x
        (fun a u => R a ⟨Trace.under inj u.calls ++ s.calls, u.mem⟩)
        (fun e u => E e ⟨Trace.under inj u.calls ++ s.calls, u.mem⟩) ⟨[], s.mem⟩ := by
  unfold wp within
  cases x (Env.under inj env s.calls) ⟨[], s.mem⟩ with
  | mk r u => cases r <;> exact Iff.rfl

variable {drive : Q → Prog Q' M' Reply} {s : St Q' M'}

/-- A body that is served does what it does in the served environment; the level below has
then gone through its calls. -/
theorem wp_serve {x : Prog Q M α} {m : M} {R : Except Stop α × M → St Q' M' → Prop}
    {E : Stop → St Q' M' → Prop}
    (h : wp (served drive env s) x
      (fun a u => wp env (replay drive u.calls) (fun _ => R (.ok a, u.mem)) E s)
      (fun e u => wp env (replay drive u.calls) (fun _ => R (.error e, u.mem)) E s) ⟨[], m⟩) :
    wp env (serve drive x m) R E s := by
  unfold wp at h
  unfold serve
  show wp env (do replay drive _; pure _) R E s
  rw [wp_bind]
  split at h
  next a u hx =>
    rw [hx]
    exact h
  next e u hx =>
    rw [hx]
    exact h

/-- A trace, newest call first, is replayed by replaying what is behind its head and then making the
head's call. -/
theorem wp_replay_cons {c : Q × Reply} {t : Trace Q} {R : Unit → St Q' M' → Prop}
    {E : Stop → St Q' M' → Prop} :
    wp env (replay drive (c :: t)) R E s ↔
      wp env (replay drive t) (fun _ s' => wp env (drive c.1) (fun _ => R ()) E s') E s := by
  show wp env (do replay drive t; let _ ← drive c.1) R E s ↔ _
  simp only [wp_bind]
  exact Iff.rfl

theorem wp_replay_append {t t' : Trace Q} {R : Unit → St Q' M' → Prop}
    {E : Stop → St Q' M' → Prop} :
    wp env (replay drive (t' ++ t)) R E s ↔
      wp env (replay drive t) (fun _ s' => wp env (replay drive t') R E s') E s := by
  induction t' generalizing R with
  | nil => exact Iff.rfl
  | cons c t' ih =>
    rw [List.cons_append, wp_replay_cons, ih]
    simp only [wp_replay_cons]

/-- The invariant rule: what every call of the trace keeps. -/
theorem wp_replay {I : St Q' M' → Prop} {E : Stop → St Q' M' → Prop} {G : Q → Prop}
    (hstep : ∀ q s', G q → I s' → wp env (drive q) (fun _ => I) E s') :
    ∀ t : Trace Q, (∀ c ∈ t, G c.1) → I s → wp env (replay drive t) (fun _ => I) E s := by
  intro t
  induction t with
  | nil => exact fun _ h0 => h0
  | cons c t ih =>
    intro ht h0
    rw [wp_replay_cons]
    refine wp_mono (ih (fun d hd => ht d (List.mem_cons_of_mem _ hd)) h0) (fun _ s' h' => ?_)
      fun _ _ he => he
    exact hstep c.1 s' (ht c List.mem_cons_self) h'

/-- What is known of the answer to a call from the state it is made in. -/
theorem served_spec {t : Trace Q} {q : Q} {I : St Q' M' → Prop} {P : Reply → Prop}
    {E : Stop → St Q' M' → Prop} (ht : wp env (replay drive t) (fun _ => I) E s)
    (hq : ∀ s', I s' → wp env (drive q) (fun r _ => P r) E s')
    (hlost : ∀ e s', E e s' → P lost) : P (served drive env s t q) := by
  have hrun : wp env (do replay drive t; drive q) (fun r _ => P r) E s := by
    rw [wp_bind]
    exact wp_mono ht (fun _ s' h' => hq s' h') fun _ _ he => he
  unfold wp at hrun
  unfold served
  split at hrun
  next r s' hx =>
    rw [hx]
    exact hrun
  next e s' hx =>
    rw [hx]
    exact hlost e s' hrun

/-- The answer to the last call, and the state behind it. -/
theorem wp_served {c : Q × Reply} {t : Trace Q} {I : St Q' M' → Prop}
    {R : Reply → St Q' M' → Prop} {E : Stop → St Q' M' → Prop}
    (ht : wp env (replay drive t) (fun _ => I) E s)
    (hq : ∀ s', I s' → wp env (drive c.1) R E s') :
    wp env (replay drive (c :: t)) (fun _ => R (served drive env s t c.1)) E s := by
  have hrun : wp env (do replay drive t; drive c.1) R E s := by
    rw [wp_bind]
    exact wp_mono ht (fun _ s' h' => hq s' h') fun _ _ he => he
  rw [wp_replay_cons]
  unfold served
  unfold wp at hrun
  split at hrun
  next r s' hx =>
    rw [hx, ← wp_bind]
    unfold wp
    rw [hx]
    exact hrun
  next e s' hx =>
    rw [← wp_bind]
    unfold wp
    rw [hx]
    exact hrun

end Firmware
