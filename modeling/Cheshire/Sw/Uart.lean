import Mathlib.Algebra.Group.Nat.Defs
import Cheshire.Lib.Uart16550

/-!
# `uart.c`

The driver polls the line status register before each byte. Between the poll and the
access to the byte the line goes on, so what the poll found has to stay true: a byte
that is there is taken by nobody else, and room that is there does not get less
(`Polls`). With that a program on the registers is the program on the channel, for
every order of steps (`uartDrive_simulates`, `uartDrive_matches`).
-/

namespace Cheshire.Sw

open Relation Transition Channel Uart16550

/-! ## The driver -/

def uartRbrRegOffset : Nat := 0
def uartThrRegOffset : Nat := 0
def uartIntrEnableRegOffset : Nat := 4
def uartFifoControlRegOffset : Nat := 8
def uartLineControlRegOffset : Nat := 12
def uartModemControlRegOffset : Nat := 16
def uartLineStatusRegOffset : Nat := 20
def uartDlabLsbRegOffset : Nat := 0
def uartDlabMsbRegOffset : Nat := 4

def uartLineStatusDataReadyBit : Nat := 0
def uartLineStatusThrEmptyBit : Nat := 5
def uartLineStatusTmitEmptyBit : Nat := 6

/-- The register at an offset: there is one in each word. -/
def uartReg (offset : Nat) : Nat := offset / 4

/-- `freq / (baud << 4)`, the divisor that `uart_init` writes. -/
def uartDivisor (freq baud : BitVec 64) : BitVec 64 := freq / (baud <<< 4)

/-- The writes of `uart_init`, each with its register, in order. -/
def uartInit (freq baud : BitVec 64) : List (Nat × Byte) :=
  let divisor := uartDivisor freq baud
  let dlo := divisor.setWidth 8
  let dhi := (divisor >>> 8).setWidth 8
  [(uartReg uartIntrEnableRegOffset, 0x00),
    (uartReg uartLineControlRegOffset, 0x80),
    (uartReg uartDlabLsbRegOffset, dlo),
    (uartReg uartDlabMsbRegOffset, dhi),
    (uartReg uartLineControlRegOffset, 0x03),
    (uartReg uartFifoControlRegOffset, 0xC7),
    (uartReg uartModemControlRegOffset, 0x20)]

/-- What `uart_read_ready` returns, of the value it reads. -/
def uartReadReady (lsr : Byte) : Bool := lsr &&& (1 <<< uartLineStatusDataReadyBit) ≠ 0

def uartWriteReady (lsr : Byte) : Bool := lsr &&& (1 <<< uartLineStatusThrEmptyBit) ≠ 0

/-- The second half of `__uart_write_idle`: the transmitter is empty as a whole. -/
def uartTmitEmpty (lsr : Byte) : Bool := lsr &&& (1 <<< uartLineStatusTmitEmptyBit) ≠ 0

/-- A program that is in `uart_read` or `uart_write`, with what its last poll found. -/
structure Polling (σ : Type) where
  program : σ
  /-- The last poll found the UART ready. -/
  ready : Bool

variable {D : Device} {γ σ : Type} {P : Pair γ σ Byte}

/-- The accesses of a program whose every byte is a call of `uart_read` or `uart_write`. -/
def uartDrive (serve : σ → Move Byte σ) (p : Polling σ) : Access (Polling σ) :=
  match serve p.program with
  | .send b s =>
    if p.ready then .write (uartReg uartThrRegOffset) b ⟨s, false⟩
    else .read (uartReg uartLineStatusRegOffset) fun v => ⟨p.program, uartWriteReady v⟩
  | .recv next =>
    if p.ready then .read (uartReg uartRbrRegOffset) fun b => ⟨next b, false⟩
    else .read (uartReg uartLineStatusRegOffset) fun v => ⟨p.program, uartReadReady v⟩
  | .halt => .halt

theorem uartReadReady_eq (v : Byte) : uartReadReady v = v.getLsbD 0 := by
  revert v
  decide +kernel

theorem uartWriteReady_eq (v : Byte) : uartWriteReady v = v.getLsbD 5 := by
  revert v
  decide +kernel

theorem uartTmitEmpty_eq (v : Byte) : uartTmitEmpty v = v.getLsbD 6 := by
  revert v
  decide +kernel

/-! ## `uart_init` -/

/-- From any state, the line is at the rate asked for, and nothing of before is left in the
FIFOs. A byte that was being sent meanwhile goes on being sent. -/
theorem uartInit_device {d d' : D.St} {freq baud : BitVec 64}
    (h : D.Writes d (uartInit freq baud) d') :
    D.dlab d' = false ∧ D.divisor d' = (uartDivisor freq baud).setWidth 16 ∧
      D.rx d' = [] ∧ D.tx d' = [] := by
  unfold uartInit at h
  simp only [writes_cons, writes_nil] at h
  obtain ⟨_, -, _, -, _, -, _, h₂, _, g₃, _, h₃, _, g₄, _, h₄, _, g₅, _, h₅, _, g₆, _, h₆,
    _, g₇, _, h₇, g₈⟩ := h
  -- in front of each write (g) the transmitter may have gone on
  obtain ⟨hdlab₂, -⟩ := D.lcr h₂
  obtain ⟨hdlab₃', -⟩ := sends_keeps g₃
  obtain ⟨hdlab₃, hdll⟩ := D.dll (hdlab₃'.trans hdlab₂) h₃
  obtain ⟨hdlab₄', hdiv₄', -⟩ := sends_keeps g₄
  have hdlm := D.dlm (hdlab₄'.trans hdlab₃) h₄
  obtain ⟨-, hdiv₅', -⟩ := sends_keeps g₅
  obtain ⟨hdlab₅, hdiv₅⟩ := D.lcr h₅
  obtain ⟨hdlab₆', hdiv₆', -⟩ := sends_keeps g₆
  obtain ⟨hdlab₆, hdiv₆, -, hclear⟩ := D.fcr h₆
  obtain ⟨hdlab₇', hdiv₇', hrx₇', htx₇'⟩ := sends_keeps g₇
  obtain ⟨hdlab₇, hdiv₇, hrx, htx, -⟩ := D.mcr h₇
  obtain ⟨hdlab₈, hdiv₈, hrx₈, htx₈⟩ := sends_keeps g₈
  obtain ⟨hrx₆, htx₆⟩ := hclear (by decide)
  refine ⟨?_, ?_, ?_, ?_⟩
  · rw [hdlab₈, hdlab₇, hdlab₇', hdlab₆, hdlab₆', hdlab₅]
    decide
  · rw [hdiv₈, hdiv₇, hdiv₇', hdiv₆, hdiv₆', hdiv₅, hdiv₅', hdlm, hdiv₄', hdll]
    exact divisor_halves _ _
  · rw [hrx₈, hrx, hrx₇', hrx₆ (by decide)]
  · exact htx₈ (htx.trans (htx₇' (htx₆ (by decide))))

/-- A divisor that the generator can run with, and the next to it above the rate asked for. -/
def RateWithin (freq baud divisor : Nat) : Prop :=
  0 < divisor ∧ 16 * baud * divisor ≤ freq ∧ freq < 16 * baud * (divisor + 1)

/-- The low half of a quotient is the quotient only if that fits. -/
theorem rateWithin_iff {freq baud : Nat} (hbaud : 0 < baud) :
    RateWithin freq baud (freq / (16 * baud) % 2 ^ 16) ↔
      16 * baud ≤ freq ∧ freq < 16 * baud * 2 ^ 16 := by
  have hstep : 0 < 16 * baud := Nat.mul_pos (by decide) hbaud
  unfold RateWithin
  generalize 16 * baud = step at hstep ⊢
  have hlow := Nat.div_mul_le_self freq step
  have hhigh := @Nat.lt_div_mul_add freq step hstep
  constructor
  · rintro ⟨hpos, hle, hlt⟩
    have hmod := Nat.mod_lt (freq / step) (show 0 < 2 ^ 16 by decide)
    exact ⟨Nat.le_trans (Nat.le_mul_of_pos_right _ hpos) hle,
      Nat.lt_of_lt_of_le hlt (Nat.mul_le_mul_left _ hmod)⟩
  · rintro ⟨hle, hlt⟩
    have hfits : freq / step < 2 ^ 16 := Nat.div_lt_of_lt_mul hlt
    rw [Nat.mod_eq_of_lt hfits, Nat.mul_comm step, Nat.mul_comm step, Nat.add_mul, Nat.one_mul]
    exact ⟨Nat.div_pos hle hstep, hlow, hhigh⟩

/-- From any state, the line is at the rate asked for exactly if the divisor fits. -/
theorem uartInit_rate (D : Device) (freq baud : BitVec 64) (d d' : D.St) (hbaud : 0 < baud.toNat)
    (hshift : 16 * baud.toNat < 2 ^ 64) (hws : D.Writes d (uartInit freq baud) d') :
    D.dlab d' = false ∧ D.rx d' = [] ∧ D.tx d' = [] ∧
      (RateWithin freq.toNat baud.toNat (D.divisor d').toNat ↔
        16 * baud.toNat ≤ freq.toNat ∧ freq.toNat < 16 * baud.toNat * 2 ^ 16) := by
  obtain ⟨hdlab, hdivisor, hrx, htx⟩ := uartInit_device hws
  have hstep : (baud <<< 4).toNat = 16 * baud.toNat := by
    rw [BitVec.toNat_shiftLeft, Nat.shiftLeft_eq, Nat.mul_comm]
    exact Nat.mod_eq_of_lt hshift
  have htoNat : (D.divisor d').toNat = freq.toNat / (16 * baud.toNat) % 2 ^ 16 := by
    rw [hdivisor, BitVec.toNat_setWidth]
    unfold uartDivisor
    rw [BitVec.toNat_udiv, hstep]
  rw [htoNat]
  exact ⟨hdlab, hrx, htx, rateWithin_iff hbaud⟩

/-- A UART that was left in the middle of something. -/
def staleFifos : Fifos := ⟨true, 0, [1, 2], [3], some 4⟩

/-- 115200 baud from 200 MHz. -/
theorem uartInit_rate_stale : ∃ d, (fifoDevice 15).Writes staleFifos (uartInit 200000000 115200) d ∧
    RateWithin 200000000 115200 ((fifoDevice 15).divisor d).toNat := by
  have hws := fifos_writes 15 (uartInit 200000000 115200) staleFifos
  obtain ⟨-, -, -, hrate⟩ := uartInit_rate (fifoDevice 15) 200000000 115200 _ _ (by decide)
    (by decide) hws
  exact ⟨_, hws, hrate.mpr (by decide)⟩

/-! ## A program on the registers -/

/-- What the last poll found is still so. -/
structure Polls (serve : σ → Move Byte σ) (r : RegLink D γ (Polling σ)) : Prop where
  dlab : D.dlab r.dev = false
  send : ∀ b s, serve r.program.program = .send b s → r.program.ready = true → D.room r.dev
  recv : ∀ next, serve r.program.program = .recv next → r.program.ready = true → D.rx r.dev ≠ []

/-- The program on the line, with the polls and the registers left out. -/
def linkOf (r : RegLink D γ (Polling σ)) : Link γ σ Byte := r.link Polling.program

variable {r : RegLink D γ (Polling σ)}

/-- A program that is about to poll. -/
theorem Polls.unready {serve : σ → Move Byte σ} {c : γ} {s : σ} {d : D.St} {up down : List Byte}
    (hdlab : D.dlab d = false) : Polls serve ⟨c, ⟨s, false⟩, d, up, down⟩ where
  dlab := hdlab
  send := nofun
  recv := nofun

theorem simulates_receive {serve : σ → Move Byte σ} {b : Byte} {l : List Byte} {d : D.St}
    (hr : Polls serve r) (hup : r.up = b :: l) (hrxRoom : D.rxRoom r.dev)
    (hreceive : D.receive r.dev b d) :
    Polls serve { r with dev := d, up := l } ∧ linkOf { r with dev := d, up := l } = linkOf r := by
  obtain ⟨hdlab, hrx, htx, hshift, hroom⟩ := D.receive_rx hrxRoom hreceive
  refine ⟨⟨hdlab.trans hr.dlab, fun b s hs ha => hroom (hr.send b s hs ha), fun _ _ _ => ?_⟩, ?_⟩
  · rw [hrx]
    exact List.append_ne_nil_of_right_ne_nil _ (List.cons_ne_nil _ _)
  · unfold linkOf RegLink.link
    simp only [hrx, sending_congr htx hshift, hup, List.append_assoc, List.singleton_append]

/-- A byte that is loaded into the shift register was in front of the FIFO, and for the channel
it stays where it was. -/
theorem simulates_load {serve : σ → Move Byte σ} {d : D.St} (hr : Polls serve r)
    (hload : D.load r.dev d) :
    Polls serve { r with dev := d } ∧ linkOf { r with dev := d } = linkOf r := by
  obtain ⟨hdlab, -, hrx, -, -, hroom⟩ := D.load_tx hload
  refine ⟨⟨hdlab.trans hr.dlab, fun b s hs ha => hroom (hr.send b s hs ha), fun next hs ha => ?_⟩,
    ?_⟩
  · rw [hrx]
    exact hr.recv next hs ha
  · unfold linkOf RegLink.link
    simp only [hrx, sending_load hload]

theorem simulates_transmit {serve : σ → Move Byte σ} {b : Byte} {d : D.St}
    (hr : Polls serve r) (htransmit : D.transmit r.dev b d) :
    Polls serve { r with dev := d, down := r.down ++ [b] } ∧
      linkOf { r with dev := d, down := r.down ++ [b] } = linkOf r := by
  obtain ⟨hdlab, -, hrx, -, -, -, hroom⟩ := D.transmit_tx htransmit
  refine ⟨⟨hdlab.trans hr.dlab, fun b s hs ha => hroom (hr.send b s hs ha), fun next hs ha => ?_⟩,
    ?_⟩
  · rw [hrx]
    exact hr.recv next hs ha
  · unfold linkOf RegLink.link
    simp only [hrx, sending_transmit htransmit, List.append_assoc, List.singleton_append]

/-- A poll of the line status leaves the program polling, now with the readiness that the status
shows. -/
theorem simulates_lsr {serve : σ → Move Byte σ} {v : Byte} {d : D.St} {ready : Bool}
    (hr : Polls serve r) (hread : D.read r.dev 5 v d)
    (hsend : ∀ b s, serve r.program.program = .send b s → ready = v.getLsbD 5)
    (hrecv : ∀ next, serve r.program.program = .recv next → ready = v.getLsbD 0) :
    Polls serve { r with program := ⟨r.program.program, ready⟩, dev := d } ∧
      linkOf { r with program := ⟨r.program.program, ready⟩, dev := d } = linkOf r := by
  obtain ⟨hdlab, hrx, htx, hshift⟩ := D.lsr_keeps hread
  refine ⟨⟨hdlab.trans hr.dlab, fun b s hs ha => ?_, fun next hs ha => ?_⟩, ?_⟩
  · exact D.lsr_thre hread ((hsend b s hs).symm.trans ha)
  · exact D.lsr_dr hread ((hrecv next hs).symm.trans ha)
  · unfold linkOf RegLink.link
    simp only [hrx, sending_congr htx hshift]

/-- The access behind a poll that found the UART ready. -/
theorem simulates_rbr {b : Byte} {next : Byte → σ} {d : D.St} (hr : Polls P.serve r)
    (hserve : P.serve r.program.program = .recv next) (hready : r.program.ready = true)
    (hread : D.read r.dev 0 b d) :
    Polls P.serve { r with program := ⟨next b, false⟩, dev := d } ∧
      P.step (linkOf r) .serve = some (linkOf { r with program := ⟨next b, false⟩, dev := d }) := by
  obtain ⟨b', l, hrx⟩ := List.exists_cons_of_ne_nil (hr.recv next hserve hready)
  obtain ⟨rfl, hdlab, hrx', htx, hshift⟩ := D.rbr hr.dlab hrx hread
  refine ⟨.unready hdlab, ?_⟩
  unfold linkOf RegLink.link Pair.step
  simp only [hserve, hrx, hrx', sending_congr htx hshift, List.cons_append]

theorem simulates_thr {b : Byte} {s : σ} {d : D.St} (hr : Polls P.serve r)
    (hserve : P.serve r.program.program = .send b s) (hready : r.program.ready = true)
    (hwrite : D.write r.dev 0 b d) :
    Polls P.serve { r with program := ⟨s, false⟩, dev := d } ∧
      P.step (linkOf r) .serve = some (linkOf { r with program := ⟨s, false⟩, dev := d }) := by
  have hroom := hr.send b s hserve hready
  obtain ⟨hdlab, hrx, -, -⟩ := D.thr hr.dlab hroom hwrite
  refine ⟨.unready hdlab, ?_⟩
  unfold linkOf RegLink.link Pair.step
  simp only [hserve, hrx, sending_thr hr.dlab hroom hwrite, List.append_assoc]

/-- A program that sends writes the byte if its last poll found room, and else polls the line
status. -/
theorem uartDrive_send {serve : σ → Move Byte σ} {p : Polling σ} {b : Byte} {s : σ}
    (h : serve p.program = .send b s) : uartDrive serve p =
      if p.ready then .write (uartReg uartThrRegOffset) b ⟨s, false⟩
      else .read (uartReg uartLineStatusRegOffset) fun v => ⟨p.program, uartWriteReady v⟩ := by
  unfold uartDrive
  rw [h]

theorem uartDrive_recv {serve : σ → Move Byte σ} {p : Polling σ} {next : Byte → σ}
    (h : serve p.program = .recv next) : uartDrive serve p =
      if p.ready then .read (uartReg uartRbrRegOffset) fun b => ⟨next b, false⟩
      else .read (uartReg uartLineStatusRegOffset) fun v => ⟨p.program, uartReadReady v⟩ := by
  unfold uartDrive
  rw [h]

theorem uartDrive_halt {serve : σ → Move Byte σ} {p : Polling σ} (h : serve p.program = .halt) :
    uartDrive serve p = .halt := by
  unfold uartDrive
  rw [h]

/-- Every run on the registers is one on the channel. -/
theorem uartDrive_simulates :
    Simulates (RegStep P (uartDrive P.serve)) P.step linkOf (Polls (D := D) P.serve) := by
  rintro r r' hr hstep
  cases hstep with
  | @speak b c hspeak =>
    refine ⟨⟨hr.dlab, hr.send, hr.recv⟩, Or.inr ⟨.speak, ?_⟩⟩
    unfold linkOf RegLink.link Pair.step
    simp only [hspeak, Option.map_some, List.append_assoc]
  | hear hdown =>
    refine ⟨⟨hr.dlab, hr.send, hr.recv⟩, Or.inr ⟨.hear, ?_⟩⟩
    unfold linkOf RegLink.link Pair.step
    simp only [hdown, List.cons_append]
  | receive hup hrxRoom hreceive =>
    obtain ⟨hr', hlink⟩ := simulates_receive hr hup hrxRoom hreceive
    exact ⟨hr', Or.inl hlink⟩
  | load hload =>
    obtain ⟨hr', hlink⟩ := simulates_load hr hload
    exact ⟨hr', Or.inl hlink⟩
  | transmit htransmit =>
    obtain ⟨hr', hlink⟩ := simulates_transmit hr htransmit
    exact ⟨hr', Or.inl hlink⟩
  | @read i next v d hdrive hread =>
    cases hserve : P.serve r.program.program with
    | halt =>
      rw [uartDrive_halt hserve] at hdrive
      cases hdrive
    | send b s =>
      rw [uartDrive_send hserve] at hdrive
      split at hdrive
      · cases hdrive
      · cases hdrive
        obtain ⟨hr', hlink⟩ := simulates_lsr hr hread (fun _ _ _ => uartWriteReady_eq v)
          fun next h => absurd (hserve.symm.trans h) nofun
        exact ⟨hr', Or.inl hlink⟩
    | recv next =>
      rw [uartDrive_recv hserve] at hdrive
      split at hdrive
      next hready =>
        cases hdrive
        obtain ⟨hr', hlink⟩ := simulates_rbr hr hserve hready hread
        exact ⟨hr', Or.inr ⟨_, hlink⟩⟩
      next =>
        cases hdrive
        obtain ⟨hr', hlink⟩ := simulates_lsr hr hread
          (fun _ _ h => absurd (hserve.symm.trans h) nofun) fun _ _ => uartReadReady_eq v
        exact ⟨hr', Or.inl hlink⟩
  | @write i v next d hdrive hwrite =>
    cases hserve : P.serve r.program.program with
    | halt =>
      rw [uartDrive_halt hserve] at hdrive
      cases hdrive
    | recv next =>
      rw [uartDrive_recv hserve] at hdrive
      split at hdrive
      · cases hdrive
      · cases hdrive
    | send b s =>
      rw [uartDrive_send hserve] at hdrive
      split at hdrive
      next hready =>
        cases hdrive
        obtain ⟨hr', hlink⟩ := simulates_thr hr hserve hready hwrite
        exact ⟨hr', Or.inr ⟨_, hlink⟩⟩
      next => cases hdrive

/-! ## The program gets on -/

/-- Steps of the registers that leave the link as it is. -/
def Hidden (P : Pair γ σ Byte) (r r' : RegLink D γ (Polling σ)) : Prop :=
  ReflTransGen (RegStep P (uartDrive P.serve)) r r' ∧ Polls P.serve r' ∧ linkOf r' = linkOf r

/-- All that is written goes out, and neither the program nor the channel sees it. -/
theorem hidden_drain (hlive : D.Live) (hr : Polls P.serve r) :
    ∃ r', Hidden P r r' ∧ r'.program = r.program ∧ D.sending r'.dev = [] := by
  obtain ⟨d, hrun, hdlab, hrx, hnil, hroom⟩ := drain hlive _ r rfl
  refine ⟨_, ⟨hrun, ⟨hdlab.trans hr.dlab, fun b s hs ha => hroom (hr.send b s hs ha),
    fun next hs ha => ?_⟩, ?_⟩, rfl, hnil⟩
  · rw [hrx]
    exact hr.recv next hs ha
  · unfold linkOf RegLink.link
    simp only [hrx, hnil, List.append_nil]

/-- A program that sends can always poll until there is room, by steps that the link does not
see. -/
theorem hidden_send (hlive : D.Live) (hr : Polls P.serve r) {b : Byte} {s : σ}
    (hserve : P.serve r.program.program = .send b s) :
    ∃ r', Hidden P r r' ∧ r'.program = ⟨r.program.program, true⟩ := by
  by_cases hready : r.program.ready = true
  · refine ⟨r, ⟨.refl, hr, rfl⟩, ?_⟩
    rw [← hready]
  · obtain ⟨r₁, ⟨hrun, hr₁, hlink⟩, hprogram, hnil⟩ := hidden_drain hlive hr
    obtain ⟨v, d, hread⟩ := hlive.lsr r₁.dev
    have hthre : uartWriteReady v = true :=
      (uartWriteReady_eq v).trans (hlive.thre hread (sending_nil.mp hnil).1)
    rw [← hprogram] at hserve hready ⊢
    have hdrive := uartDrive_send hserve
    rw [if_neg hready] at hdrive
    obtain ⟨hr', hlink'⟩ := simulates_lsr hr₁ hread (fun _ _ _ => uartWriteReady_eq v)
      fun next h => absurd (hserve.symm.trans h) nofun
    refine ⟨_, ⟨hrun.tail (.read hdrive hread), hr', hlink'.trans hlink⟩, ?_⟩
    rw [hthre]

/-- A program that receives finds a byte that is on the way. -/
theorem hidden_recv (hlive : D.Live) (hr : Polls P.serve r) {next : Byte → σ}
    (hserve : P.serve r.program.program = .recv next) (hup : (linkOf r).up ≠ []) :
    ∃ r', Hidden P r r' ∧ r'.program = ⟨r.program.program, true⟩ := by
  by_cases hready : r.program.ready = true
  · refine ⟨r, ⟨.refl, hr, rfl⟩, ?_⟩
    rw [← hready]
  · have hreceived : ∃ r₁, Hidden P r r₁ ∧ r₁.program = r.program ∧ D.rx r₁.dev ≠ [] := by
      by_cases hrx : D.rx r.dev = []
      · have hline : r.up ≠ [] := by
          intro hnil
          exact hup (List.append_eq_nil_iff.mpr ⟨hrx, hnil⟩)
        obtain ⟨b, l, hcons⟩ := List.exists_cons_of_ne_nil hline
        obtain ⟨hrxRoom, d, hreceive⟩ := hlive.receive r.dev b hrx
        obtain ⟨-, hrx', -⟩ := D.receive_rx hrxRoom hreceive
        obtain ⟨hr₁, hlink⟩ := simulates_receive hr hcons hrxRoom hreceive
        refine ⟨_, ⟨.single (.receive hcons hrxRoom hreceive), hr₁, hlink⟩, rfl, ?_⟩
        show D.rx d ≠ []
        rw [hrx']
        exact List.append_ne_nil_of_right_ne_nil _ (List.cons_ne_nil _ _)
      · exact ⟨r, ⟨.refl, hr, rfl⟩, rfl, hrx⟩
    obtain ⟨r₁, ⟨hrun, hr₁, hlink⟩, hprogram, hrx⟩ := hreceived
    obtain ⟨v, d, hread⟩ := hlive.lsr r₁.dev
    have hdr : uartReadReady v = true := (uartReadReady_eq v).trans (hlive.dr hread hrx)
    rw [← hprogram] at hserve hready ⊢
    have hdrive := uartDrive_recv hserve
    rw [if_neg hready] at hdrive
    obtain ⟨hr', hlink'⟩ := simulates_lsr hr₁ hread
      (fun _ _ h => absurd (hserve.symm.trans h) nofun) fun _ _ => uartReadReady_eq v
    refine ⟨_, ⟨hrun.tail (.read hdrive hread), hr', hlink'.trans hlink⟩, ?_⟩
    rw [hdr]

/-- A send of the program on the link is matched by polls and one write on the registers. -/
theorem matches_send (hlive : D.Live) (hr : Polls P.serve r) {b : Byte} {s : σ}
    (hserve : P.serve r.program.program = .send b s) {l' : Link γ σ Byte}
    (hstep : P.step (linkOf r) .serve = some l') :
    ∃ r', ReflTransGen (RegStep P (uartDrive P.serve)) r r' ∧ Polls P.serve r' ∧
      linkOf r' = l' := by
  obtain ⟨r₁, ⟨hrun, hr₁, hlink⟩, hprogram⟩ := hidden_send hlive hr hserve
  have hserve₁ : P.serve r₁.program.program = .send b s := by
    rw [hprogram]
    exact hserve
  have hready₁ : r₁.program.ready = true := by rw [hprogram]
  have hdrive := uartDrive_send hserve₁
  rw [if_pos hready₁] at hdrive
  obtain ⟨d, hwrite⟩ := hlive.write r₁.dev (uartReg uartThrRegOffset) b
  obtain ⟨hr', hstep'⟩ := simulates_thr hr₁ hserve₁ hready₁ hwrite
  rw [hlink] at hstep'
  exact ⟨_, hrun.tail (.write hdrive hwrite), hr', Option.some.inj (hstep'.symm.trans hstep)⟩

/-- A receive of the program on the link is matched by polls and one read on the registers. -/
theorem matches_recv (hlive : D.Live) (hr : Polls P.serve r) {next : Byte → σ}
    (hserve : P.serve r.program.program = .recv next) {l' : Link γ σ Byte}
    (hstep : P.step (linkOf r) .serve = some l') :
    ∃ r', ReflTransGen (RegStep P (uartDrive P.serve)) r r' ∧ Polls P.serve r' ∧
      linkOf r' = l' := by
  have hprog : (linkOf r).server = r.program.program := rfl
  -- the channel lets it receive, so there is a byte on the line or in the device
  have hup : (linkOf r).up ≠ [] := by
    intro hnil
    simp only [Pair.step, hprog, hserve, hnil] at hstep
    cases hstep
  obtain ⟨r₁, ⟨hrun, hr₁, hlink⟩, hprogram⟩ := hidden_recv hlive hr hserve hup
  have hserve₁ : P.serve r₁.program.program = .recv next := by
    rw [hprogram]
    exact hserve
  have hready₁ : r₁.program.ready = true := by rw [hprogram]
  have hdrive := uartDrive_recv hserve₁
  rw [if_pos hready₁] at hdrive
  obtain ⟨b, d, hread⟩ := hlive.rbr r₁.dev hr₁.dlab (hr₁.recv next hserve₁ hready₁)
  obtain ⟨hr', hstep'⟩ := simulates_rbr hr₁ hserve₁ hready₁ hread
  rw [hlink] at hstep'
  exact ⟨_, hrun.tail (.read hdrive hread), hr', Option.some.inj (hstep'.symm.trans hstep)⟩

/-- Every run on the channel is one on the registers. -/
theorem uartDrive_matches (hlive : D.Live) :
    Matches (RegStep P (uartDrive P.serve)) P.step linkOf (Polls (D := D) P.serve) := by
  intro r t l' hr hstep
  cases t with
  | speak =>
    obtain ⟨⟨b, c⟩, hspeak, rfl⟩ := Option.map_eq_some_iff.mp hstep
    refine ⟨_, .single (.speak hspeak), ⟨hr.dlab, hr.send, hr.recv⟩, ?_⟩
    unfold linkOf RegLink.link
    simp only [List.append_assoc]
  | hear =>
    obtain ⟨r₁, ⟨hrun, hr₁, hlink⟩, -, hnil⟩ := hidden_drain hlive hr
    rw [← hlink] at hstep
    have hdown : (linkOf r₁).down = r₁.down := by
      unfold linkOf RegLink.link
      simp only [hnil, List.append_nil]
    simp only [Pair.step, hdown] at hstep
    split at hstep
    next => cases hstep
    next b l hcons =>
      cases hstep
      refine ⟨_, hrun.tail (.hear hcons), ⟨hr₁.dlab, hr₁.send, hr₁.recv⟩, ?_⟩
      unfold linkOf RegLink.link
      simp only [hnil, List.append_nil]
  | serve =>
    have hprog : (linkOf r).server = r.program.program := rfl
    cases hserve : P.serve r.program.program with
    | halt =>
      simp only [Pair.step, hprog, hserve] at hstep
      cases hstep
    | send b s => exact matches_send hlive hr hserve hstep
    | recv next => exact matches_recv hlive hr hserve hstep

end Cheshire.Sw
