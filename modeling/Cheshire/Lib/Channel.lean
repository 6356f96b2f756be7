import Mathlib.Logic.Relation
import Cheshire.Lib.Trans

/-!
# A client and a server on two channels

Each of the two channels is lossless and first in, first out. The server is a
program: it sends, or waits to receive. The client may want to send, and listens at
all times. A step is one access of one of them to a channel, in any order.

The two are verified for one order only, the one in which the server answers all it
has been sent before the client moves: `Answers` is what the server does with some
input, `Next` a move of the client between two such answers. `Settles` leads any
state of any run back to that order, as long as the client never wants to send while
there is something to hear. The rules at the end give what holds along the one path
for every run.
-/

namespace Channel

open Relation Transition

variable {γ σ β : Type}

/-- What a program on a byte channel does next: send, receive or nothing more. -/
inductive Move (β σ : Type) where
  | send (b : β) (s : σ)
  | recv (next : β → σ)
  | halt

structure Pair (γ σ β : Type) where
  speak : γ → Option (β × γ)
  hear : γ → β → γ
  serve : σ → Move β σ

/-- `up` leads to the server, `down` to the client. -/
structure Link (γ σ β : Type) where
  client : γ
  server : σ
  up : List β
  down : List β

inductive Turn where
  | speak
  | hear
  | serve

def Pair.step (P : Pair γ σ β) (l : Link γ σ β) : Turn → Option (Link γ σ β)
  | .speak => (P.speak l.client).map fun m => { l with client := m.2, up := l.up ++ [m.1] }
  | .hear =>
    match l.down with
    | [] => none
    | b :: down => some { l with client := P.hear l.client b, down := down }
  | .serve =>
    match P.serve l.server with
    | .send b s => some { l with server := s, down := l.down ++ [b] }
    | .recv next =>
      match l.up with
      | [] => none
      | b :: up => some { l with server := next b, up := up }
    | .halt => none

variable {serve : σ → Move β σ} {s s₁ s₂ : σ} {up up₁ up₂ out out₁ out₂ : List β}

/-! ## The server's answers -/

/-- The server has nothing to send: it receives next, or has halted. -/
def Waits (serve : σ → Move β σ) (s : σ) : Prop := ∀ b s', serve s ≠ .send b s'

/-- Given `up`, a server at `s` sends `out` and then waits at `s'`. -/
inductive Answers (serve : σ → Move β σ) : σ → List β → List β → σ → Prop where
  | idle {s : σ} : Waits serve s → Answers serve s [] [] s
  | read {s s' : σ} {next : β → σ} {b : β} {up out : List β} :
    serve s = .recv next → Answers serve (next b) up out s' → Answers serve s (b :: up) out s'
  | write {s s₁ s' : σ} {b : β} {up out : List β} :
    serve s = .send b s₁ → Answers serve s₁ up out s' → Answers serve s up (b :: out) s'

theorem waits_of_recv {next : β → σ} (h : serve s = .recv next) : Waits serve s := by
  intro b s' hsend
  rw [h] at hsend
  cases hsend

theorem waits_of_halt (h : serve s = .halt) : Waits serve s := by
  intro b s' hsend
  rw [h] at hsend
  cases hsend

theorem answers_idle {next : β → σ} (h : serve s = .recv next) : Answers serve s [] [] s :=
  .idle (waits_of_recv h)

theorem Answers.append (h₁ : Answers serve s up₁ out₁ s₁) (h₂ : Answers serve s₁ up₂ out₂ s₂) :
    Answers serve s (up₁ ++ up₂) (out₁ ++ out₂) s₂ := by
  induction h₁ with
  | idle _ => exact h₂
  | read hserve _ ih => exact .read hserve (ih h₂)
  | write hserve _ ih => exact .write hserve (ih h₂)

theorem waits_of_quiet (h : Answers serve s up [] s₁) : Waits serve s := by
  cases h with
  | idle hw => exact hw
  | read hserve _ => exact waits_of_recv hserve

/-- Input without an answer, byte by byte. -/
theorem Answers.quiet_cons {b : β} (h : Answers serve s (b :: up) [] s₂) :
    ∃ s₁, Answers serve s [b] [] s₁ ∧ Answers serve s₁ up [] s₂ := by
  cases h with
  | read hserve h => exact ⟨_, .read hserve (.idle (waits_of_quiet h)), h⟩

/-- The server has no choice: the same bytes taken from the same state give the same answer and the
same state. -/
theorem Answers.unique (h₁ : Answers serve s up out₁ s₁) (h₂ : Answers serve s up out₂ s₂) :
    out₁ = out₂ ∧ s₁ = s₂ := by
  induction h₁ generalizing out₂ with
  | idle hw =>
    cases h₂ with
    | idle _ => exact ⟨rfl, rfl⟩
    | write hserve _ => exact absurd hserve (hw _ _)
  | read hserve _ ih =>
    cases h₂ with
    | read hserve₂ h₂ =>
      cases hserve.symm.trans hserve₂
      exact ih h₂
    | write hserve₂ _ => cases hserve.symm.trans hserve₂
  | write hserve _ ih =>
    cases h₂ with
    | idle hw => exact absurd hserve (hw _ _)
    | read hserve₂ _ => cases hserve.symm.trans hserve₂
    | write hserve₂ h₂ =>
      cases hserve.symm.trans hserve₂
      obtain ⟨rfl, rfl⟩ := ih h₂
      exact ⟨rfl, rfl⟩

/-! ## The one order -/

/-- A state in which the server waits and nothing is on its way to it. -/
structure View (γ σ β : Type) where
  client : γ
  server : σ
  queue : List β

def View.link (v : View γ σ β) : Link γ σ β := ⟨v.client, v.server, [], v.queue⟩

/-- The client sends a byte, and the server answers; or it hears one. -/
inductive Pair.Next (P : Pair γ σ β) : View γ σ β → View γ σ β → Prop where
  | speak {c c' : γ} {s s' : σ} {b : β} {out : List β} :
    P.speak c = some (b, c') → Answers P.serve s [b] out s' → P.Next ⟨c, s, []⟩ ⟨c', s', out⟩
  | hear {c : γ} {s : σ} {b : β} {queue : List β} :
    P.speak c = none → P.Next ⟨c, s, b :: queue⟩ ⟨P.hear c b, s, queue⟩

def Pair.Path (P : Pair γ σ β) : View γ σ β → View γ σ β → Prop := ReflTransGen P.Next

/-- The client has nothing to send, and nothing to hear. -/
def Pair.Final (P : Pair γ σ β) (v : View γ σ β) : Prop := P.speak v.client = none ∧ v.queue = []

/-- `v` is where `l` gets to when the server answers all it has been sent. -/
def Pair.Settles (P : Pair γ σ β) (l : Link γ σ β) (v : View γ σ β) : Prop :=
  v.client = l.client ∧ ∃ out, Answers P.serve l.server l.up out v.server ∧ v.queue = l.down ++ out

variable {P : Pair γ σ β} {l l' : Link γ σ β} {u v w : View γ σ β}

theorem next_unique : Relator.RightUnique P.Next := by
  intro v w₁ w₂ h₁ h₂
  cases h₁ with
  | speak hspeak₁ hans₁ =>
    cases h₂ with
    | speak hspeak₂ hans₂ =>
      cases hspeak₁.symm.trans hspeak₂
      obtain ⟨rfl, rfl⟩ := hans₁.unique hans₂
      rfl
  | hear _ =>
    cases h₂ with
    | hear _ => rfl

theorem Pair.Path.refl (P : Pair γ σ β) (v : View γ σ β) : P.Path v v := ReflTransGen.refl

theorem Pair.Path.trans (h₁ : P.Path u v) (h₂ : P.Path v w) : P.Path u w :=
  ReflTransGen.trans h₁ h₂

theorem Pair.Path.head (h₁ : P.Next u v) (h₂ : P.Path v w) : P.Path u w :=
  ReflTransGen.head h₁ h₂

/-- A path that goes on starts with a move. -/
theorem Pair.Path.next (h : P.Path v w) (hne : v ≠ w) : ∃ u, P.Next v u ∧ P.Path u w := by
  rcases ReflTransGen.cases_head h with heq | h
  · exact absurd heq hne
  · exact h

/-! ## Any order -/

theorem settles_link (hw : Waits P.serve v.server) : P.Settles v.link v :=
  ⟨rfl, [], .idle hw, (List.append_nil _).symm⟩

theorem Pair.Settles.eq (h : P.Settles l v) :
    ∃ s out, Answers P.serve l.server l.up out s ∧ v = ⟨l.client, s, l.down ++ out⟩ := by
  obtain ⟨hclient, out, hans, hqueue⟩ := h
  refine ⟨v.server, out, hans, ?_⟩
  rw [← hclient, ← hqueue]

/-- One step of any run goes at most one move along the path. -/
theorem Pair.Settles.step (h : P.Settles l v) (hpath : P.Path v w) (hfinal : P.Final w) {t : Turn}
    (hstep : P.step l t = some l') : ∃ v', P.Settles l' v' ∧ P.Path v v' ∧ P.Path v' w := by
  obtain ⟨c, srv, up, down⟩ := l
  obtain ⟨s, out, hans, rfl⟩ := h.eq
  cases t with
  | speak =>
    obtain ⟨⟨b, c'⟩, hspeak, rfl⟩ := Option.map_eq_some_iff.mp hstep
    have hne : (⟨c, s, down ++ out⟩ : View γ σ β) ≠ w := by
      rintro rfl
      exact absurd (hfinal.1.symm.trans hspeak) nofun
    obtain ⟨v', hnext, hrest⟩ := hpath.next hne
    generalize hq : down ++ out = q at hnext
    cases hnext with
    | hear hquiet => exact absurd (hquiet.symm.trans hspeak) nofun
    | speak hspeak' hans' =>
      cases hspeak.symm.trans hspeak'
      obtain ⟨rfl, rfl⟩ := List.append_eq_nil_iff.mp hq
      exact ⟨⟨c', _, _⟩, ⟨rfl, _, hans.append hans', rfl⟩,
        .head (.speak hspeak' hans') (.refl P _), hrest⟩
  | hear =>
    cases down with
    | nil => cases hstep
    | cons b down =>
      cases hstep
      have hne : (⟨c, s, b :: down ++ out⟩ : View γ σ β) ≠ w := by
        rintro rfl
        exact absurd hfinal.2 (List.cons_ne_nil _ _)
      obtain ⟨v', hnext, hrest⟩ := hpath.next hne
      cases hnext with
      | hear hquiet =>
        exact ⟨⟨P.hear c b, s, down ++ out⟩, ⟨rfl, out, hans, rfl⟩,
          .head (.hear hquiet) (.refl P _), hrest⟩
  | serve =>
    -- the answers stay what they are
    unfold Pair.step at hstep
    cases hserve : P.serve srv with
    | halt =>
      simp only [hserve] at hstep
      cases hstep
    | send b s₁ =>
      simp only [hserve] at hstep
      cases hstep
      cases hans with
      | idle hw => exact absurd hserve (hw _ _)
      | read hserve' _ => cases hserve.symm.trans hserve'
      | write hserve' hans =>
        cases hserve.symm.trans hserve'
        exact ⟨⟨c, s, _⟩, ⟨rfl, _, hans, List.append_cons ..⟩, .refl P _, hpath⟩
    | recv next =>
      simp only [hserve] at hstep
      cases up with
      | nil => cases hstep
      | cons b up =>
        cases hstep
        cases hans with
        | read hserve' hans =>
          cases hserve.symm.trans hserve'
          exact ⟨_, ⟨rfl, _, hans, rfl⟩, .refl P _, hpath⟩
        | write hserve' _ => cases hserve.symm.trans hserve'

/-- If a link settles on the path to a final pair, so does every link that any run leads it to,
further along the path. -/
theorem settles_run (hpath : P.Path v w) (hfinal : P.Final w) (hv : P.Settles l v)
    {acts : List Turn} (hrun : run P.step l acts = some l') :
    ∃ v', P.Settles l' v' ∧ P.Path v v' ∧ P.Path v' w := by
  refine @run_invariant _ _ P.step (fun l => ∃ u, P.Settles l u ∧ P.Path v u ∧ P.Path u w)
    (fun _ => True) ?_ acts l l' ⟨v, hv, .refl P v, hpath⟩ (fun _ _ => trivial) hrun
  rintro l a l₁ - ⟨u, hu, hvu, huw⟩ hstep
  obtain ⟨u', hu', huu', hu'w⟩ := hu.step huw hfinal hstep
  exact ⟨u', hu', hvu.trans huu', hu'w⟩

/-! ## Every run can go on to the end -/

theorem Answers.leads (h : Answers P.serve s up out s₁) (c : γ) (down : List β) :
    Leads P.step ⟨c, s, up, down⟩ ⟨c, s₁, [], down ++ out⟩ := by
  induction h generalizing down with
  | idle _ =>
    rw [List.append_nil]
    exact .refl _ _
  | @read s s' next b up out hserve _ ih =>
    have hstep : P.step ⟨c, s, b :: up, down⟩ .serve = some ⟨c, next b, up, down⟩ := by
      unfold Pair.step
      simp only [hserve]
    exact .head hstep (ih down)
  | @write s s₁ s' b up out hserve _ ih =>
    have hstep : P.step ⟨c, s, up, down⟩ .serve = some ⟨c, s₁, up, down ++ [b]⟩ := by
      unfold Pair.step
      simp only [hserve]
    rw [List.append_cons]
    exact .head hstep (ih (down ++ [b]))

theorem Pair.Next.leads (h : P.Next v w) : Leads P.step v.link w.link := by
  cases h with
  | @speak c c' s s' b out hspeak hans =>
    have hstep : P.step ⟨c, s, [], []⟩ .speak = some ⟨c', s, [b], []⟩ := by
      unfold Pair.step
      simp only [hspeak]
      rfl
    exact .head hstep (hans.leads c' [])
  | hear _ => exact .head (a := .hear) rfl (.refl _ _)

theorem Pair.Path.leads (h : P.Path v w) : Leads P.step v.link w.link := by
  induction h with
  | refl => exact .refl _ _
  | tail _ hnext ih => exact ih.trans hnext.leads

theorem Pair.Settles.leads (h : P.Settles l v) (hpath : P.Path v w) :
    Leads P.step l w.link := by
  obtain ⟨c, srv, up, down⟩ := l
  obtain ⟨s, out, hans, rfl⟩ := h.eq
  exact (hans.leads c down).trans hpath.leads

/-! ## What holds along the path -/

/-- Of two states on a path one is in front of the other. -/
theorem Pair.Path.total (hv : P.Path u v) (hw : P.Path u w) : P.Path v w ∨ P.Path w v :=
  ReflTransGen.total_of_right_unique next_unique hv hw

/-- If each move lowers a measure, a path that does not lower it has no move. -/
theorem Pair.Path.eq_of_measure {μ : View γ σ β → Int} (hμ : ∀ v w, P.Next v w → μ w < μ v)
    (h : P.Path v w) (hle : μ v ≤ μ w) : v = w := by
  have hlt : v = w ∨ μ w < μ v := by
    clear hle
    induction h with
    | refl => exact Or.inl rfl
    | tail _ hnext ih =>
      have hdown := hμ _ _ hnext
      rcases ih with rfl | ih
      · exact Or.inr hdown
      · exact Or.inr (by omega)
  exact hlt.resolve_right (by omega)

/-- What no move of the client puts right holds before, if it holds later. -/
theorem Pair.Path.client_back {I : γ → Prop}
    (hspeak : ∀ c b c', P.speak c = some (b, c') → I c' → I c) (hhear : ∀ c b, I (P.hear c b) → I c)
    (h : P.Path v w) : I w.client → I v.client := by
  induction h with
  | refl => exact id
  | tail _ hnext ih =>
    intro hw
    apply ih
    cases hnext with
    | speak hs _ => exact hspeak _ _ _ hs hw
    | hear _ => exact hhear _ _ hw

/-- A relation that every step of the server keeps to. -/
structure Forward (serve : σ → Move β σ) (R : σ → σ → Prop) : Prop where
  refl : ∀ s, R s s
  trans : ∀ {s₁ s₂ s₃}, R s₁ s₂ → R s₂ s₃ → R s₁ s₃
  send : ∀ {s b s'}, serve s = .send b s' → R s s'
  recv : ∀ {s next} (b : β), serve s = .recv next → R s (next b)

variable {R : σ → σ → Prop}

theorem Forward.answers (hR : Forward serve R) (h : Answers serve s up out s₁) : R s s₁ := by
  induction h with
  | idle _ => exact hR.refl _
  | read hserve _ ih => exact hR.trans (hR.recv _ hserve) ih
  | write hserve _ ih => exact hR.trans (hR.send hserve) ih

theorem Forward.path (hR : Forward P.serve R) (h : P.Path v w) : R v.server w.server := by
  induction h with
  | refl => exact hR.refl _
  | tail _ hnext ih =>
    refine hR.trans ih ?_
    cases hnext with
    | speak _ hans => exact hR.answers hans
    | hear _ => exact hR.refl _

/-- The server of any state is in front of that of the path's end. -/
theorem Forward.settles (hR : Forward P.serve R) (h : P.Settles l v) (hpath : P.Path v w) :
    R l.server w.server := by
  obtain ⟨_, _, hans, _⟩ := h
  exact hR.trans (hR.answers hans) (hR.path hpath)

/-- The server of any state is behind that of the state the run starts in. -/
theorem Forward.run (hR : Forward P.serve R) {acts : List Turn}
    (hrun : Transition.run P.step l acts = some l') : R l.server l'.server := by
  refine @run_invariant _ _ P.step (fun l₁ => R l.server l₁.server) (fun _ => True) ?_ acts l l'
    (hR.refl _) (fun _ _ => trivial) hrun
  rintro l₁ t l₂ - h hstep
  refine hR.trans h ?_
  cases t with
  | speak =>
    obtain ⟨_, _, rfl⟩ := Option.map_eq_some_iff.mp hstep
    exact hR.refl _
  | hear =>
    simp only [Pair.step] at hstep
    split at hstep
    next => cases hstep
    next =>
      cases hstep
      exact hR.refl _
  | serve =>
    simp only [Pair.step] at hstep
    split at hstep
    next hserve =>
      cases hstep
      exact hR.send hserve
    next hserve =>
      split at hstep
      next => cases hstep
      next =>
        cases hstep
        exact hR.recv _ hserve
    next => cases hstep

end Channel
