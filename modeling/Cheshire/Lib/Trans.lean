/-!
# Runs of a state machine

A machine is a partial step function: `step s a` is the state after action `a`,
or `none` where `a` is not possible. `run` takes a list of actions in order.

`run_invariant` is the induction every safety proof uses, once: what one allowed
step keeps, a run of allowed steps keeps. In `run_invariant_along` the state the run has
got to says what is allowed. `upd` is a store into a function, for
states that hold one value for each of many parties.

A machine without a choice of actions is a function `S → Option S` that stops at
`none`. `iter` runs it, `Reaches` is its reachability, and a state it stops in is
where every longer run ends (`iter_of_stopped`). `Through` is reachability on a way
whose states all have a property.
-/

namespace Transition

variable {S A : Type}

def run (step : S → A → Option S) : S → List A → Option S
  | s, [] => some s
  | s, a :: acts =>
    match step s a with
    | none => none
    | some s' => run step s' acts

/-- Each action of a run is done in a state that allows it. -/
def Along (step : S → A → Option S) (P : S → A → Prop) : S → List A → Prop
  | _, [] => True
  | s, a :: acts => P s a ∧ ∀ s', step s a = some s' → Along step P s' acts

theorem Along.of_forall {step : S → A → Option S} {P : S → A → Prop} :
    ∀ {acts : List A}, (∀ a ∈ acts, ∀ s, P s a) → ∀ s, Along step P s acts := by
  intro acts
  induction acts with
  | nil => exact fun _ _ => trivial
  | cons a acts ih =>
    intro hall s
    exact ⟨hall a (List.mem_cons_self ..) s,
      fun s' _ => ih (fun b hb => hall b (List.mem_cons_of_mem _ hb)) s'⟩

theorem Along.append {step : S → A → Option S} {P : S → A → Prop} {acts' : List A} :
    ∀ {acts : List A} {s : S}, Along step P s acts →
      (∀ s', run step s acts = some s' → Along step P s' acts') →
      Along step P s (acts ++ acts') := by
  intro acts
  induction acts with
  | nil => exact fun _ h => h _ rfl
  | cons a acts ih =>
    intro s hall h
    refine ⟨hall.1, fun s₁ hs₁ => ih (hall.2 s₁ hs₁) fun s' hs' => h s' ?_⟩
    rw [run, hs₁]
    exact hs'

/-- What every allowed step keeps holds after a run, where the state the run has got to
says which steps are allowed. -/
theorem run_invariant_along {step : S → A → Option S} {I : S → Prop} {P : S → A → Prop}
    (hstep : ∀ s a s', P s a → I s → step s a = some s' → I s') :
    ∀ (acts : List A) {s s' : S}, I s → Along step P s acts → run step s acts = some s' → I s' := by
  intro acts
  induction acts with
  | nil =>
    intro s s' hs _ hrun
    cases hrun
    exact hs
  | cons a acts ih =>
    intro s s' hs hall hrun
    unfold run at hrun
    split at hrun
    · cases hrun
    · next s₁ hs₁ => exact ih (hstep s a s₁ hall.1 hs hs₁) (hall.2 s₁ hs₁) hrun

/-- An invariant of the allowed steps holds after a run of allowed steps. -/
theorem run_invariant {step : S → A → Option S} {I : S → Prop} {P : A → Prop}
    (hstep : ∀ s a s', P a → I s → step s a = some s' → I s') (acts : List A) {s s' : S}
    (hs : I s) (hall : ∀ a ∈ acts, P a) (hrun : run step s acts = some s') : I s' :=
  run_invariant_along (P := fun _ => P) hstep acts hs (Along.of_forall (fun a ha _ => hall a ha) s)
    hrun

/-- Some run of the system leads from `s` to `s'`. -/
def Leads (step : S → A → Option S) (s s' : S) : Prop := ∃ acts, run step s acts = some s'

theorem Leads.refl (step : S → A → Option S) (s : S) : Leads step s s := ⟨[], rfl⟩

theorem Leads.head {step : S → A → Option S} {s s₁ s₂ : S} {a : A} (h₁ : step s a = some s₁)
    (h₂ : Leads step s₁ s₂) : Leads step s s₂ := by
  obtain ⟨acts, hacts⟩ := h₂
  refine ⟨a :: acts, ?_⟩
  rw [run, h₁]
  exact hacts

theorem Leads.trans {step : S → A → Option S} {s s₁ s₂ : S} (h₁ : Leads step s s₁)
    (h₂ : Leads step s₁ s₂) : Leads step s s₂ := by
  obtain ⟨acts, hacts⟩ := h₁
  induction acts generalizing s with
  | nil =>
    cases hacts
    exact h₂
  | cons a acts ih =>
    unfold run at hacts
    split at hacts
    next => cases hacts
    next s' hs' => exact Leads.head hs' (ih hacts)

/-- The function `f` with its value at `i` replaced by `v`. -/
def upd {α : Type} (f : Nat → α) (i : Nat) (v : α) : Nat → α := fun j => if j = i then v else f j

@[simp] theorem upd_self {α : Type} (f : Nat → α) (i : Nat) (v : α) : upd f i v i = v := by
  unfold upd
  rw [if_pos rfl]

theorem upd_ne {α : Type} (f : Nat → α) {i j : Nat} (v : α) (h : j ≠ i) : upd f i v j = f j := by
  unfold upd
  rw [if_neg h]

/-! ## Machines without a choice -/

/-- The state after `n` steps, or fewer if the machine stops. -/
def iter (step : S → Option S) : Nat → S → S
  | 0, s => s
  | n + 1, s =>
    match step s with
    | none => s
    | some s' => iter step n s'

def Reaches (step : S → Option S) (s s' : S) : Prop := ∃ n, iter step n s = s'

theorem iter_of_stopped {step : S → Option S} {s : S} (h : step s = none) (n : Nat) :
    iter step n s = s := by
  cases n with
  | zero => rfl
  | succ n =>
    unfold iter
    rw [h]

theorem iter_add (step : S → Option S) (m n : Nat) (s : S) :
    iter step (m + n) s = iter step n (iter step m s) := by
  induction m generalizing s with
  | zero => rw [Nat.zero_add, iter]
  | succ m ih =>
    rw [Nat.succ_add]
    cases hs : step s with
    | none => rw [iter_of_stopped hs, iter_of_stopped hs, iter_of_stopped hs]
    | some s' =>
      simp only [iter, hs]
      exact ih s'

theorem Reaches.refl (step : S → Option S) (s : S) : Reaches step s s := ⟨0, rfl⟩

theorem Reaches.trans {step : S → Option S} {s₁ s₂ s₃ : S} (h₁ : Reaches step s₁ s₂)
    (h₂ : Reaches step s₂ s₃) : Reaches step s₁ s₃ := by
  obtain ⟨m, rfl⟩ := h₁
  obtain ⟨n, rfl⟩ := h₂
  exact ⟨m + n, iter_add step m n s₁⟩

theorem Reaches.head {step : S → Option S} {s₁ s₂ s₃ : S} (h₁ : step s₁ = some s₂)
    (h₂ : Reaches step s₂ s₃) : Reaches step s₁ s₃ := by
  obtain ⟨n, rfl⟩ := h₂
  refine ⟨n + 1, ?_⟩
  rw [iter, h₁]

/-- `s'` is reached, through states with `Q` up to it. -/
def Through (step : S → Option S) (Q : S → Prop) (s s' : S) : Prop :=
  ∃ n, iter step n s = s' ∧ ∀ i < n, Q (iter step i s)

theorem Through.reaches {step : S → Option S} {Q : S → Prop} {s s' : S}
    (h : Through step Q s s') : Reaches step s s' := by
  obtain ⟨n, hn, -⟩ := h
  exact ⟨n, hn⟩

theorem Through.refl (step : S → Option S) (Q : S → Prop) (s : S) : Through step Q s s :=
  ⟨0, rfl, fun _ hi => absurd hi (Nat.not_lt_zero _)⟩

theorem Through.trans {step : S → Option S} {Q : S → Prop} {s₁ s₂ s₃ : S}
    (h₁ : Through step Q s₁ s₂) (h₂ : Through step Q s₂ s₃) : Through step Q s₁ s₃ := by
  obtain ⟨m, rfl, hm⟩ := h₁
  obtain ⟨n, rfl, hn⟩ := h₂
  refine ⟨m + n, iter_add step m n s₁, fun i hi => ?_⟩
  rcases Nat.lt_or_ge i m with hlt | hge
  · exact hm i hlt
  · have hsplit : i = m + (i - m) := by omega
    rw [hsplit, iter_add]
    exact hn (i - m) (by omega)

theorem Through.head {step : S → Option S} {Q : S → Prop} {s₁ s₂ s₃ : S} (hq : Q s₁)
    (h₁ : step s₁ = some s₂) (h₂ : Through step Q s₂ s₃) : Through step Q s₁ s₃ := by
  have hone : Through step Q s₁ s₂ := by
    refine ⟨1, ?_, fun i hi => ?_⟩
    · rw [iter, h₁]
      rfl
    · obtain rfl : i = 0 := by omega
      exact hq
  exact hone.trans h₂

/-- What every step keeps, every reachable state keeps. -/
theorem Reaches.invariant {step : S → Option S} {I : S → Prop}
    (hstep : ∀ s s', I s → step s = some s' → I s') {s s' : S} (hs : I s)
    (h : Reaches step s s') : I s' := by
  obtain ⟨n, rfl⟩ := h
  induction n generalizing s with
  | zero => exact hs
  | succ n ih =>
    unfold iter
    split
    next => exact hs
    next s₁ hs₁ => exact ih (hstep s s₁ hs hs₁)

/-- Of two reachable states one is reached from the other. -/
theorem Reaches.total {step : S → Option S} {s s₁ s₂ : S} (h₁ : Reaches step s s₁)
    (h₂ : Reaches step s s₂) : Reaches step s₁ s₂ ∨ Reaches step s₂ s₁ := by
  obtain ⟨m, rfl⟩ := h₁
  obtain ⟨n, rfl⟩ := h₂
  rcases Nat.le_total m n with h | h
  · refine Or.inl ⟨n - m, ?_⟩
    rw [← iter_add, show m + (n - m) = n by omega]
  · refine Or.inr ⟨m - n, ?_⟩
    rw [← iter_add, show n + (m - n) = m by omega]

end Transition
