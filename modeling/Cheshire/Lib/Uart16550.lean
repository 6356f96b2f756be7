import Cheshire.Lib.Channel

/-!
# A 16550 between a program and its channel

A program accesses the registers of a UART; the UART moves bytes from and to the line at
times of its own. `Device` is what the documentation of the part promises, in any order of
accesses, for FIFOs of any depth. Behind the transmitter FIFO there is a shift register, for
the byte that is being sent: clearing the FIFO leaves that byte alone. Nothing is promised for
a read of an empty receiver, a write to a full transmitter, a byte that comes in when the
receiver is full, or data accesses under `DLAB`.

`RegStep` is the program, the device, the line and a client at its other end, one access
or one byte at a time. `link` forgets the device: what it holds is still on the line. A
program that implements a channel program has to be a simulation along `link`, and
`leads_of_simulation` is what follows for whole runs.
-/

namespace Uart16550

open Relation Transition Channel

abbrev Byte := BitVec 8

/-! ## Simulation -/

/-- Steps that keep `I` and are, in the abstract, one step or none. -/
def Simulates {S T A : Type} (R : S → S → Prop) (step : T → A → Option T) (abs : S → T)
    (I : S → Prop) : Prop :=
  ∀ s s', I s → R s s' → I s' ∧ (abs s' = abs s ∨ ∃ a, step (abs s) a = some (abs s'))

/-- Every step in the abstract can be taken. -/
def Matches {S T A : Type} (R : S → S → Prop) (step : T → A → Option T) (abs : S → T)
    (I : S → Prop) : Prop :=
  ∀ s a t, I s → step (abs s) a = some t → ∃ s', ReflTransGen R s s' ∧ I s' ∧ abs s' = t

theorem leads_of_simulation {S T A : Type} {R : S → S → Prop} {step : T → A → Option T}
    {abs : S → T} {I : S → Prop} (hsim : Simulates R step abs I) {s s' : S} (hs : I s)
    (hrun : ReflTransGen R s s') : I s' ∧ Leads step (abs s) (abs s') := by
  induction hrun with
  | refl => exact ⟨hs, Leads.refl step _⟩
  | tail _ hstep ih =>
    obtain ⟨hI, hleads⟩ := ih
    obtain ⟨hI', hsame | ⟨a, ha⟩⟩ := hsim _ _ hI hstep
    · rw [hsame]
      exact ⟨hI', hleads⟩
    · exact ⟨hI', hleads.trans (Leads.head ha (Leads.refl step _))⟩

theorem run_of_matches {S T A : Type} {R : S → S → Prop} {step : T → A → Option T} {abs : S → T}
    {I : S → Prop} (hmatch : Matches R step abs I) {t : T} : ∀ (acts : List A) (s : S), I s →
    run step (abs s) acts = some t → ∃ s', ReflTransGen R s s' ∧ I s' ∧ abs s' = t
  | [], s, hs, hrun => ⟨s, .refl, hs, Option.some.inj hrun⟩
  | a :: acts, s, hs, hrun => by
    unfold run at hrun
    split at hrun
    · cases hrun
    · next t₁ hstep =>
      obtain ⟨s₁, hrun₁, hs₁, rfl⟩ := hmatch s a t₁ hs hstep
      obtain ⟨s', hrun', hs', habs⟩ := run_of_matches hmatch acts s₁ hs₁ hrun
      exact ⟨s', hrun₁.trans hrun', hs', habs⟩

/-! ## The device -/

/-- Register 0 is RBR and THR, 1 IER, 2 FCR, 3 LCR, 4 MCR and 5 LSR; under `DLAB` 0 and 1 are
the divisor latch. -/
structure Device where
  St : Type
  dlab : St → Bool
  divisor : St → BitVec 16
  /-- Received and not read yet, the next one first. -/
  rx : St → List Byte
  /-- Written and not begun to be sent yet, the next one first: the transmitter FIFO. -/
  tx : St → List Byte
  /-- The byte that is being sent. -/
  shift : St → Option Byte
  /-- One more byte can be written. -/
  room : St → Prop
  /-- One more byte can come in without an overrun. -/
  rxRoom : St → Prop
  read : St → Nat → Byte → St → Prop
  write : St → Nat → Byte → St → Prop
  receive : St → Byte → St → Prop
  load : St → St → Prop
  transmit : St → Byte → St → Prop
  lsr_keeps : ∀ {s v s'}, read s 5 v s' →
    dlab s' = dlab s ∧ rx s' = rx s ∧ tx s' = tx s ∧ shift s' = shift s
  lsr_dr : ∀ {s v s'}, read s 5 v s' → v.getLsbD 0 = true → rx s' ≠ []
  lsr_thre : ∀ {s v s'}, read s 5 v s' → v.getLsbD 5 = true → room s'
  lsr_temt : ∀ {s v s'}, read s 5 v s' → v.getLsbD 6 = true → tx s' = [] ∧ shift s' = none
  rbr : ∀ {s v s' b l}, dlab s = false → rx s = b :: l → read s 0 v s' →
    v = b ∧ dlab s' = false ∧ rx s' = l ∧ tx s' = tx s ∧ shift s' = shift s
  thr : ∀ {s v s'}, dlab s = false → room s → write s 0 v s' →
    dlab s' = false ∧ rx s' = rx s ∧ tx s' = tx s ++ [v] ∧ shift s' = shift s
  receive_rx : ∀ {s b s'}, rxRoom s → receive s b s' → dlab s' = dlab s ∧
    rx s' = rx s ++ [b] ∧ tx s' = tx s ∧ shift s' = shift s ∧ (room s → room s')
  load_tx : ∀ {s s'}, load s s' → dlab s' = dlab s ∧ divisor s' = divisor s ∧ rx s' = rx s ∧
    shift s = none ∧ (∃ b, tx s = b :: tx s' ∧ shift s' = some b) ∧ (room s → room s')
  transmit_tx : ∀ {s b s'}, transmit s b s' → dlab s' = dlab s ∧ divisor s' = divisor s ∧
    rx s' = rx s ∧ tx s' = tx s ∧ shift s = some b ∧ shift s' = none ∧ (room s → room s')
  ier : ∀ {s v s'}, write s 1 v s' → dlab s' = dlab s
  lcr : ∀ {s v s'}, write s 3 v s' → dlab s' = v.getLsbD 7 ∧ divisor s' = divisor s
  dll : ∀ {s v s'}, dlab s = true → write s 0 v s' →
    dlab s' = true ∧ divisor s' = (divisor s).extractLsb' 8 8 ++ v
  dlm : ∀ {s v s'}, dlab s = true → write s 1 v s' →
    divisor s' = v ++ (divisor s).extractLsb' 0 8
  fcr : ∀ {s v s'}, write s 2 v s' →
    dlab s' = dlab s ∧ divisor s' = divisor s ∧ shift s' = shift s ∧
    (v.getLsbD 0 = true → (v.getLsbD 1 = true → rx s' = []) ∧ (v.getLsbD 2 = true → tx s' = []))
  mcr : ∀ {s v s'}, write s 4 v s' → dlab s' = dlab s ∧ divisor s' = divisor s ∧
    rx s' = rx s ∧ tx s' = tx s ∧ shift s' = shift s

/-- The device gets on: it can be accessed, takes a byte when it has none, and sends what it
has; and what is there to be read, gone from the FIFO or all sent shows in LSR. -/
structure Device.Live (D : Device) : Prop where
  lsr : ∀ s, ∃ v s', D.read s 5 v s'
  dr : ∀ {s v s'}, D.read s 5 v s' → D.rx s ≠ [] → v.getLsbD 0 = true
  thre : ∀ {s v s'}, D.read s 5 v s' → D.tx s = [] → v.getLsbD 5 = true
  temt : ∀ {s v s'}, D.read s 5 v s' → D.tx s = [] → D.shift s = none → v.getLsbD 6 = true
  rbr : ∀ s, D.dlab s = false → D.rx s ≠ [] → ∃ v s', D.read s 0 v s'
  write : ∀ s i v, ∃ s', D.write s i v s'
  receive : ∀ s b, D.rx s = [] → D.rxRoom s ∧ ∃ s', D.receive s b s'
  load : ∀ s, D.tx s ≠ [] → D.shift s = none → ∃ s', D.load s s'
  transmit : ∀ s, D.shift s ≠ none → ∃ b s', D.transmit s b s'

/-- All that was written and is not sent yet, the next one first. -/
def Device.sending (D : Device) (s : D.St) : List Byte := (D.shift s).toList ++ D.tx s

section

variable {D : Device} {s s' : D.St}

/-- With nothing to send, the FIFO and the shift register are both empty. -/
theorem sending_nil : D.sending s = [] ↔ D.tx s = [] ∧ D.shift s = none := by
  unfold Device.sending
  rw [List.append_eq_nil_iff, Option.toList_eq_nil_iff, and_comm]

theorem sending_congr (htx : D.tx s' = D.tx s) (hshift : D.shift s' = D.shift s) :
    D.sending s' = D.sending s := by
  unfold Device.sending
  rw [htx, hshift]

/-- A byte that is loaded into the shift register is still the next one to be sent. -/
theorem sending_load (hload : D.load s s') : D.sending s' = D.sending s := by
  obtain ⟨-, -, -, hnone, ⟨b, hcons, hsome⟩, -⟩ := D.load_tx hload
  unfold Device.sending
  rw [hnone, hsome, hcons]
  rfl

/-- What goes out is the byte that was in front of all others. -/
theorem sending_transmit {b : Byte} (htransmit : D.transmit s b s') :
    D.sending s = b :: D.sending s' := by
  obtain ⟨-, -, -, htx, hsome, hnone, -⟩ := D.transmit_tx htransmit
  unfold Device.sending
  rw [hsome, hnone, htx]
  rfl

/-- A byte that is written goes behind all others. -/
theorem sending_thr {v : Byte} (hdlab : D.dlab s = false) (hroom : D.room s)
    (hwrite : D.write s 0 v s') : D.sending s' = D.sending s ++ [v] := by
  obtain ⟨-, -, htx, hshift⟩ := D.thr hdlab hroom hwrite
  unfold Device.sending
  rw [htx, hshift, List.append_assoc]

end

/-- The transmitter goes on by itself, whatever the program does. -/
def Device.Sends (D : Device) : D.St → D.St → Prop :=
  ReflTransGen fun s s' => D.load s s' ∨ ∃ b, D.transmit s b s'

/-- A run of writes, with the transmitter going on in front of each and at the end. -/
inductive Device.Writes (D : Device) : D.St → List (Nat × Byte) → D.St → Prop where
  | nil {s s' : D.St} : D.Sends s s' → D.Writes s [] s'
  | cons {s s₀ s₁ s' : D.St} {i : Nat} {v : Byte} {l : List (Nat × Byte)} : D.Sends s s₀ →
    D.write s₀ i v s₁ → D.Writes s₁ l s' → D.Writes s ((i, v) :: l) s'

theorem writes_nil {D : Device} {s s' : D.St} : D.Writes s [] s' ↔ D.Sends s s' := by
  constructor
  · rintro ⟨hsends⟩
    exact hsends
  · exact .nil

theorem writes_cons {D : Device} {s s' : D.St} {i : Nat} {v : Byte} {l : List (Nat × Byte)} :
    D.Writes s ((i, v) :: l) s' ↔
      ∃ s₀, D.Sends s s₀ ∧ ∃ s₁, D.write s₀ i v s₁ ∧ D.Writes s₁ l s' := by
  constructor
  · rintro (_ | ⟨hsends, hwrite, hrest⟩)
    exact ⟨_, hsends, _, hwrite, hrest⟩
  · rintro ⟨s₀, hsends, s₁, hwrite, hrest⟩
    exact .cons hsends hwrite hrest

/-- The transmitter by itself changes neither the latch nor what was received, and what is not
in its FIFO does not come back. -/
theorem sends_keeps {D : Device} {s s' : D.St} (hsends : D.Sends s s') :
    D.dlab s' = D.dlab s ∧ D.divisor s' = D.divisor s ∧ D.rx s' = D.rx s ∧
      (D.tx s = [] → D.tx s' = []) := by
  induction hsends with
  | refl => exact ⟨rfl, rfl, rfl, id⟩
  | tail _ hstep ih =>
    obtain ⟨hdlab, hdiv, hrx, htx⟩ := ih
    rcases hstep with hload | ⟨b, htransmit⟩
    · obtain ⟨hdlab', hdiv', hrx', -, ⟨b, hcons, -⟩, -⟩ := D.load_tx hload
      refine ⟨hdlab'.trans hdlab, hdiv'.trans hdiv, hrx'.trans hrx, fun hnil => ?_⟩
      -- there is nothing to load
      rw [htx hnil] at hcons
      cases hcons
    · obtain ⟨hdlab', hdiv', hrx', htx', -⟩ := D.transmit_tx htransmit
      exact ⟨hdlab'.trans hdlab, hdiv'.trans hdiv, hrx'.trans hrx,
        fun hnil => htx'.trans (htx hnil)⟩

/-- The two byte writes to the divisor latch, low half first, leave the low 16 bits of the
divisor there. -/
theorem divisor_halves (x : BitVec 64) (hi : Byte) :
    (x >>> 8).setWidth 8 ++ (hi ++ x.setWidth 8).extractLsb' 0 8 = x.setWidth 16 := by
  refine BitVec.eq_of_getLsbD_eq fun i (hi : i < 16) => ?_
  rw [BitVec.getLsbD_append, BitVec.getLsbD_setWidth, BitVec.getLsbD_setWidth,
    decide_eq_true hi, Bool.true_and]
  by_cases h : i < 8
  · rw [if_pos h, BitVec.getLsbD_extractLsb', decide_eq_true h, Bool.true_and, Nat.zero_add,
      BitVec.getLsbD_append, if_pos h, BitVec.getLsbD_setWidth, decide_eq_true h, Bool.true_and]
  · have hlt : i - 8 < 8 := by omega
    rw [if_neg h, decide_eq_true hlt, Bool.true_and, BitVec.getLsbD_ushiftRight,
      Nat.add_sub_cancel' (Nat.le_of_not_lt h)]

/-! ## The program, the device and the line -/

/-- What a program does next with the device's registers. -/
inductive Access (δ : Type) where
  | read (i : Nat) (next : Byte → δ)
  | write (i : Nat) (v : Byte) (next : δ)
  | halt

/-- `up` and `down` are the bytes on the line. -/
structure RegLink (D : Device) (γ δ : Type) where
  client : γ
  program : δ
  dev : D.St
  up : List Byte
  down : List Byte

variable {D : Device} {γ δ σ : Type}

/-- One step of one of them: a byte comes in only when the receiver has room for it. -/
inductive RegStep (P : Pair γ σ Byte) (drive : δ → Access δ) :
    RegLink D γ δ → RegLink D γ δ → Prop where
  | speak {r : RegLink D γ δ} {b : Byte} {c : γ} : P.speak r.client = some (b, c) →
    RegStep P drive r { r with client := c, up := r.up ++ [b] }
  | hear {r : RegLink D γ δ} {b : Byte} {l : List Byte} : r.down = b :: l →
    RegStep P drive r { r with client := P.hear r.client b, down := l }
  | receive {r : RegLink D γ δ} {b : Byte} {l : List Byte} {d : D.St} : r.up = b :: l →
    D.rxRoom r.dev → D.receive r.dev b d → RegStep P drive r { r with dev := d, up := l }
  | load {r : RegLink D γ δ} {d : D.St} : D.load r.dev d → RegStep P drive r { r with dev := d }
  | transmit {r : RegLink D γ δ} {b : Byte} {d : D.St} : D.transmit r.dev b d →
    RegStep P drive r { r with dev := d, down := r.down ++ [b] }
  | read {r : RegLink D γ δ} {i : Nat} {next : Byte → δ} {v : Byte} {d : D.St} :
    drive r.program = .read i next → D.read r.dev i v d →
    RegStep P drive r { r with program := next v, dev := d }
  | write {r : RegLink D γ δ} {i : Nat} {v : Byte} {next : δ} {d : D.St} :
    drive r.program = .write i v next → D.write r.dev i v d →
    RegStep P drive r { r with program := next, dev := d }

/-- A byte of what is written can go out, by way of the shift register. -/
theorem send_one {P : Pair γ σ Byte} {drive : δ → Access δ} (hlive : D.Live)
    {r : RegLink D γ δ} (hne : D.sending r.dev ≠ []) :
    ∃ b d, ReflTransGen (RegStep P drive) r { r with dev := d, down := r.down ++ [b] } ∧
      D.sending r.dev = b :: D.sending d ∧ D.dlab d = D.dlab r.dev ∧ D.rx d = D.rx r.dev ∧
      (D.room r.dev → D.room d) := by
  by_cases hshift : D.shift r.dev = none
  · have htx : D.tx r.dev ≠ [] := by
      intro hnil
      apply hne
      rw [Device.sending, hshift, hnil]
      rfl
    obtain ⟨d₁, hload⟩ := hlive.load r.dev htx hshift
    obtain ⟨hdlab₁, -, hrx₁, -, ⟨b, -, hshift₁⟩, hroom₁⟩ := D.load_tx hload
    have hsome : D.shift d₁ ≠ none := by
      rw [hshift₁]
      exact Option.some_ne_none b
    obtain ⟨b', d, htransmit⟩ := hlive.transmit d₁ hsome
    obtain ⟨hdlab, -, hrx, -, -, -, hroom⟩ := D.transmit_tx htransmit
    have hsending : D.sending r.dev = b' :: D.sending d := by
      rw [← sending_load hload]
      exact sending_transmit htransmit
    exact ⟨b', d, .head (.load hload) (.single (.transmit htransmit)), hsending,
      hdlab.trans hdlab₁, hrx.trans hrx₁, fun h => hroom (hroom₁ h)⟩
  · obtain ⟨b, d, htransmit⟩ := hlive.transmit r.dev hshift
    obtain ⟨hdlab, -, hrx, -, -, -, hroom⟩ := D.transmit_tx htransmit
    exact ⟨b, d, .single (.transmit htransmit), sending_transmit htransmit, hdlab, hrx, hroom⟩

/-- Whatever the transmitter still holds can go out on the line, in order and with nothing else
changing; by induction on how much that is. -/
theorem drain {P : Pair γ σ Byte} {drive : δ → Access δ} (hlive : D.Live) :
    ∀ (n : Nat) (r : RegLink D γ δ), (D.sending r.dev).length = n →
    ∃ d, ReflTransGen (RegStep P drive) r { r with dev := d, down := r.down ++ D.sending r.dev } ∧
      D.dlab d = D.dlab r.dev ∧ D.rx d = D.rx r.dev ∧ D.sending d = [] ∧
      (D.room r.dev → D.room d)
  | 0, r, hn => by
    have hnil := List.eq_nil_of_length_eq_zero hn
    refine ⟨r.dev, ?_, rfl, rfl, hnil, id⟩
    rw [hnil, List.append_nil]
  | n + 1, r, hn => by
    have hne : D.sending r.dev ≠ [] := by
      intro hnil
      rw [hnil] at hn
      cases hn
    obtain ⟨b, d, hsend, hcons, hdlab, hrx, hroom⟩ :
        ∃ b d, ReflTransGen (RegStep P drive) r { r with dev := d, down := r.down ++ [b] } ∧
          D.sending r.dev = b :: D.sending d ∧ D.dlab d = D.dlab r.dev ∧ D.rx d = D.rx r.dev ∧
          (D.room r.dev → D.room d) := send_one hlive hne
    have hlen : (D.sending d).length = n := by
      rw [hcons] at hn
      exact Nat.succ.inj hn
    -- the oldest byte goes out, and then the rest behind it
    obtain ⟨d', hrun, hdlab', hrx', hnil, hroom'⟩ :=
      drain hlive n { r with dev := d, down := r.down ++ [b] } hlen
    have hdown : r.down ++ D.sending r.dev = r.down ++ [b] ++ D.sending d := by
      rw [hcons]
      exact List.append_cons _ _ _
    refine ⟨d', hsend.trans ?_, hdlab'.trans hdlab, hrx'.trans hrx, hnil,
      fun h => hroom' (hroom h)⟩
    rw [hdown]
    exact hrun

/-- What the device holds is still on the line. -/
def RegLink.link (server : δ → σ) (r : RegLink D γ δ) : Link γ σ Byte :=
  ⟨r.client, server r.program, D.rx r.dev ++ r.up, r.down ++ D.sending r.dev⟩

/-! ## A device -/

/-- The state of a UART with two FIFOs and a shift register. -/
structure Fifos where
  dlab : Bool
  divisor : BitVec 16
  rx : List Byte
  tx : List Byte
  shift : Option Byte

def Fifos.lsr (s : Fifos) : Byte :=
  (if s.rx = [] then 0 else 0x01) ||| (if s.tx = [] then 0x20 else 0)
    ||| (if s.tx = [] ∧ s.shift = none then 0x40 else 0)

/-- What a write to FCR leaves of a FIFO with this clear bit. -/
def cleared (v : Byte) (i : Nat) (l : List Byte) : List Byte :=
  if v.getLsbD 0 ∧ v.getLsbD i then [] else l

def Fifos.write (s : Fifos) (depth : Nat) (i : Nat) (v : Byte) : Fifos :=
  if i = 3 then { s with dlab := v.getLsbD 7 }
  else if i = 2 then { s with rx := cleared v 1 s.rx, tx := cleared v 2 s.tx }
  else if i = 0 ∧ s.dlab then { s with divisor := s.divisor.extractLsb' 8 8 ++ v }
  else if i = 1 ∧ s.dlab then { s with divisor := v ++ s.divisor.extractLsb' 0 8 }
  else if i = 0 ∧ s.tx.length < depth then { s with tx := s.tx ++ [v] }
  else s

theorem lsr_bits (s : Fifos) : (s.lsr.getLsbD 0 = true ↔ s.rx ≠ []) ∧
    (s.lsr.getLsbD 5 = true ↔ s.tx = []) ∧
    (s.lsr.getLsbD 6 = true ↔ s.tx = [] ∧ s.shift = none) := by
  unfold Fifos.lsr
  by_cases hrx : s.rx = [] <;> by_cases htx : s.tx = [] <;> by_cases hshift : s.shift = none <;>
    simp [hrx, htx, hshift]

theorem cleared_all {v : Byte} {i : Nat} {l : List Byte} (h₀ : v.getLsbD 0 = true)
    (hi : v.getLsbD i = true) : cleared v i l = [] := if_pos ⟨h₀, hi⟩

/-- Two FIFOs with room for `n + 1` bytes each: a byte that finds the receiver full is lost. -/
def fifoDevice (n : Nat) : Device where
  St := Fifos
  dlab := Fifos.dlab
  divisor := Fifos.divisor
  rx := Fifos.rx
  tx := Fifos.tx
  shift := Fifos.shift
  room := fun s => s.tx.length < n + 1
  rxRoom := fun s => s.rx.length < n + 1
  read := fun s i v s' =>
    (i = 5 ∧ v = s.lsr ∧ s' = s) ∨ (i = 0 ∧ v = s.rx.headD 0 ∧ s' = { s with rx := s.rx.tail })
  write := fun s i v s' => s' = s.write (n + 1) i v
  receive := fun s b s' =>
    s' = if s.rx.length < n + 1 then { s with rx := s.rx ++ [b] } else s
  load := fun s s' =>
    s.shift = none ∧ ∃ b l, s.tx = b :: l ∧ s' = { s with tx := l, shift := some b }
  transmit := fun s b s' => s.shift = some b ∧ s' = { s with shift := none }
  lsr_keeps := by
    rintro s v s' (⟨-, -, rfl⟩ | ⟨h, -⟩)
    · exact ⟨rfl, rfl, rfl, rfl⟩
    · cases h
  lsr_dr := by
    rintro s v s' (⟨-, rfl, rfl⟩ | ⟨h, -⟩)
    · exact (lsr_bits s').1.mp
    · cases h
  lsr_thre := by
    rintro s v s' (⟨-, rfl, rfl⟩ | ⟨h, -⟩) hv
    · rw [(lsr_bits s').2.1.mp hv]
      exact Nat.succ_pos n
    · cases h
  lsr_temt := by
    rintro s v s' (⟨-, rfl, rfl⟩ | ⟨h, -⟩)
    · exact (lsr_bits s').2.2.mp
    · cases h
  rbr := by
    rintro s v s' b l hd hrx (⟨h, -⟩ | ⟨-, rfl, rfl⟩)
    · cases h
    · rw [hrx]
      exact ⟨rfl, hd, rfl, rfl, rfl⟩
  thr := by
    rintro s v s' hd hroom rfl
    simp [Fifos.write, hd, hroom]
  receive_rx := by
    rintro s b s' hroom rfl
    rw [if_pos hroom]
    exact ⟨rfl, rfl, rfl, rfl, fun h => h⟩
  load_tx := by
    rintro s s' ⟨hshift, b, l, hl, rfl⟩
    refine ⟨rfl, rfl, rfl, hshift, ⟨b, hl, rfl⟩, fun h => Nat.lt_of_succ_lt ?_⟩
    rw [hl] at h
    exact h
  transmit_tx := by
    rintro s b s' ⟨hshift, rfl⟩
    exact ⟨rfl, rfl, rfl, rfl, hshift, rfl, fun h => h⟩
  ier := by
    rintro s v s' rfl
    by_cases hd : s.dlab <;> simp [Fifos.write, hd]
  lcr := by
    rintro s v s' rfl
    exact ⟨rfl, rfl⟩
  dll := by
    rintro s v s' hd rfl
    simp [Fifos.write, hd]
  dlm := by
    rintro s v s' hd rfl
    simp [Fifos.write, hd]
  fcr := by
    rintro s v s' rfl
    exact ⟨rfl, rfl, rfl, fun h₀ => ⟨cleared_all h₀, cleared_all h₀⟩⟩
  mcr := by
    rintro s v s' rfl
    exact ⟨rfl, rfl, rfl, rfl, rfl⟩

theorem fifoDevice_live (n : Nat) : (fifoDevice n).Live where
  lsr := fun s => ⟨s.lsr, s, Or.inl ⟨rfl, rfl, rfl⟩⟩
  dr := by
    rintro s v s' (⟨-, rfl, rfl⟩ | ⟨h, -⟩)
    · exact (lsr_bits s').1.mpr
    · cases h
  thre := by
    rintro s v s' (⟨-, rfl, rfl⟩ | ⟨h, -⟩)
    · exact (lsr_bits s').2.1.mpr
    · cases h
  temt := by
    rintro s v s' (⟨-, rfl, rfl⟩ | ⟨h, -⟩) htx hshift
    · exact (lsr_bits s').2.2.mpr ⟨htx, hshift⟩
    · cases h
  rbr := fun s _ _ => ⟨s.rx.headD 0, { s with rx := s.rx.tail }, Or.inr ⟨rfl, rfl, rfl⟩⟩
  write := fun s i v => ⟨s.write (n + 1) i v, rfl⟩
  receive := fun s b hrx => by
    refine ⟨?_, _, rfl⟩
    have hnil : s.rx = [] := hrx
    show s.rx.length < n + 1
    rw [hnil]
    exact Nat.succ_pos n
  load := fun s htx hshift => by
    obtain ⟨b, l, hl⟩ := List.exists_cons_of_ne_nil htx
    exact ⟨{ s with tx := l, shift := some b }, hshift, b, l, hl, rfl⟩
  transmit := fun s hshift => by
    obtain ⟨b, hb⟩ := Option.ne_none_iff_exists'.mp hshift
    exact ⟨b, { s with shift := none }, hb, rfl⟩

/-- The writes one right after the other. -/
theorem fifos_writes (n : Nat) : ∀ (ws : List (Nat × Byte)) (s : Fifos),
    (fifoDevice n).Writes s ws (ws.foldl (fun s w => s.write (n + 1) w.1 w.2) s)
  | [], _ => .nil .refl
  | w :: ws, s => .cons .refl rfl (fifos_writes n ws (s.write (n + 1) w.1 w.2))

/-- The writes once the byte that was being sent is gone. -/
theorem fifos_writes_idle (n : Nat) (ws : List (Nat × Byte)) {s : Fifos} {b : Byte}
    (hshift : s.shift = some b) : (fifoDevice n).Writes s ws
      (ws.foldl (fun s w => s.write (n + 1) w.1 w.2) { s with shift := none }) := by
  have hsends : (fifoDevice n).Sends s { s with shift := none } :=
    .single (Or.inr ⟨b, hshift, rfl⟩)
  cases ws with
  | nil => exact .nil hsends
  | cons w ws => exact .cons hsends rfl (fifos_writes n ws _)

end Uart16550
