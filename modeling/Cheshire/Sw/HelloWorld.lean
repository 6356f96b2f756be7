import Cheshire.Sw.Uart

/-!
# `helloworld.c`

The test program writes a string and waits until it is sent. All of it, and nothing
else, has then gone out (`helloWorld_prints`): `uart_write_flush` does not leave on a
FIFO that is empty while the last byte is still being sent, for it asks for `TEMT` too.
`uart_init` does not ask: what it finds in the shift register goes out ahead of the string.
-/

namespace Cheshire.Sw

open Relation Channel Uart16550

/-- `str`, with the byte at its end that `sizeof` counts. -/
def helloStr : List Byte :=
  [0x48, 0x65, 0x6C, 0x6C, 0x6F, 0x20, 0x57, 0x6F, 0x72, 0x6C, 0x64, 0x21, 0x0D, 0x0A, 0x00]

/-- The program behind `uart_init`, as where it is in printing and flushing. -/
inductive Hello where
  /-- `uart_write_str`, with what is left and whether the last poll found room. -/
  | print (str : List Byte) (ready : Bool)
  /-- `__uart_write_idle` of `uart_write_flush`: in front of its first read or its second. -/
  | flush (ready : Bool)
  | returned
  deriving DecidableEq

/-- `main` behind `uart_init`, by the register access it makes next. -/
def helloDrive : Hello → Access Hello
  | .print (b :: str) true => .write (uartReg uartThrRegOffset) b (.print str false)
  | .print (b :: str) false =>
    .read (uartReg uartLineStatusRegOffset) fun v => .print (b :: str) (uartWriteReady v)
  | .print [] _ | .flush false =>
    .read (uartReg uartLineStatusRegOffset) fun v => .flush (uartWriteReady v)
  | .flush true =>
    .read (uartReg uartLineStatusRegOffset) fun v =>
      if uartTmitEmpty v then .returned else .flush false
  | .returned => .halt

/-- Somebody at the other end, who hears and may say something. -/
structure Terminal where
  heard : List Byte
  say : List Byte

/-- The serving side is `helloDrive`. -/
def terminalPair : Pair Terminal Unit Byte where
  speak := fun t =>
    match t.say with
    | [] => none
    | b :: say => some (b, { t with say := say })
  hear := fun t b => { t with heard := t.heard ++ [b] }
  serve := fun _ => .halt

abbrev HelloLink (D : Device) := RegLink D Terminal Hello

def helloStart {D : Device} (str say : List Byte) (d : D.St) : HelloLink D where
  client := ⟨[], say⟩
  program := .print str false
  dev := d
  up := []
  down := []

def HelloRun {D : Device} : HelloLink D → HelloLink D → Prop :=
  ReflTransGen (RegStep terminalPair helloDrive)

/-- The part of the string that is not written yet. -/
def Hello.rest : Hello → List Byte
  | .print str _ => str
  | _ => []

/-- Where each of the bytes that go out is: heard, on the line, in the UART or not written. -/
structure Prints {D : Device} (str : List Byte) (r : HelloLink D) : Prop where
  dlab : D.dlab r.dev = false
  bytes : r.client.heard ++ r.down ++ D.sending r.dev ++ r.program.rest = str
  room : ∀ b l, r.program = .print (b :: l) true → D.room r.dev
  sent : r.program = .returned → D.sending r.dev = []

variable {D : Device} {str : List Byte} {r r' : HelloLink D}

/-- Every read is a poll. -/
theorem helloDrive_read {p : Hello} {i : Nat} {next : Byte → Hello}
    (h : helloDrive p = .read i next) (v : Byte) :
    i = 5 ∧ (next v).rest = p.rest ∧
      (∀ b l, next v = .print (b :: l) true → v.getLsbD 5 = true) ∧
      (next v = .returned → v.getLsbD 6 = true) := by
  unfold helloDrive at h
  split at h
  · cases h
  · cases h
    refine ⟨rfl, rfl, fun b l heq => ?_, nofun⟩
    obtain ⟨-, hready⟩ := Hello.print.inj heq
    exact (uartWriteReady_eq v).symm.trans hready
  · cases h
    exact ⟨rfl, rfl, nofun, nofun⟩
  · cases h
    exact ⟨rfl, rfl, nofun, nofun⟩
  · cases h
    by_cases hempty : uartTmitEmpty v = true
    · simp only [if_pos hempty]
      exact ⟨rfl, rfl, nofun, fun _ => (uartTmitEmpty_eq v).symm.trans hempty⟩
    · simp only [if_neg hempty]
      exact ⟨rfl, rfl, nofun, nofun⟩
  · cases h

theorem helloDrive_write {p next : Hello} {i : Nat} {v : Byte}
    (h : helloDrive p = .write i v next) :
    ∃ l, i = 0 ∧ p = .print (v :: l) true ∧ next = .print l false := by
  unfold helloDrive at h
  split at h
  · cases h
    exact ⟨_, rfl, rfl, rfl⟩
  all_goals cases h

theorem prints_step (hr : Prints str r) (hstep : RegStep terminalPair helloDrive r r') :
    Prints str r' := by
  cases hstep with
  | @speak b c hspeak =>
    have hheard : c.heard = r.client.heard := by
      unfold terminalPair at hspeak
      simp only at hspeak
      split at hspeak
      · cases hspeak
      · cases hspeak
        rfl
    refine ⟨hr.dlab, ?_, hr.room, hr.sent⟩
    simp only [hheard]
    exact hr.bytes
  | @hear b l hdown =>
    have hbytes := hr.bytes
    refine ⟨hr.dlab, ?_, hr.room, hr.sent⟩
    rw [hdown] at hbytes
    simp only [terminalPair, List.append_assoc, List.singleton_append] at hbytes ⊢
    exact hbytes
  | @receive b l d hup hrxRoom hreceive =>
    obtain ⟨hdlab, -, htx, hshift, hroom⟩ := D.receive_rx hrxRoom hreceive
    have hsending := sending_congr htx hshift
    refine ⟨hdlab.trans hr.dlab, ?_, fun b l h => hroom (hr.room b l h), fun h => ?_⟩
    · simp only [hsending]
      exact hr.bytes
    · exact hsending.trans (hr.sent h)
  | @load d hload =>
    obtain ⟨hdlab, -, -, -, -, hroom⟩ := D.load_tx hload
    have hsending := sending_load hload
    refine ⟨hdlab.trans hr.dlab, ?_, fun b l h => hroom (hr.room b l h), fun h => ?_⟩
    · simp only [hsending]
      exact hr.bytes
    · exact hsending.trans (hr.sent h)
  | @transmit b d htransmit =>
    obtain ⟨hdlab, -, -, -, -, -, hroom⟩ := D.transmit_tx htransmit
    have hsending := sending_transmit htransmit
    have hbytes := hr.bytes
    refine ⟨hdlab.trans hr.dlab, ?_, fun b l h => hroom (hr.room b l h), fun h => ?_⟩
    · rw [hsending] at hbytes
      simp only [List.append_assoc, List.cons_append] at hbytes ⊢
      exact hbytes
    · -- nothing is left to go out
      rw [hr.sent h] at hsending
      cases hsending
  | @read i next v d hdrive hread =>
    obtain ⟨rfl, hrest, hroom, hsent⟩ := helloDrive_read hdrive v
    obtain ⟨hdlab, -, htx, hshift⟩ := D.lsr_keeps hread
    refine ⟨hdlab.trans hr.dlab, ?_, fun b l h => D.lsr_thre hread (hroom b l h),
      fun h => sending_nil.mpr (D.lsr_temt hread (hsent h))⟩
    simp only [sending_congr htx hshift, hrest]
    exact hr.bytes
  | @write i v next d hdrive hwrite =>
    obtain ⟨l, rfl, hprogram, rfl⟩ := helloDrive_write hdrive
    have hroom := hr.room v l hprogram
    obtain ⟨hdlab, -, -, -⟩ := D.thr hr.dlab hroom hwrite
    have hbytes := hr.bytes
    rw [hprogram] at hbytes
    refine ⟨hdlab, ?_, nofun, nofun⟩
    rw [sending_thr hr.dlab hroom hwrite]
    simp only [Hello.rest, List.append_assoc, List.singleton_append] at hbytes ⊢
    exact hbytes

theorem prints_run (hr : Prints str r) (hrun : HelloRun r r') : Prints str r' := by
  induction hrun with
  | refl => exact hr
  | tail _ hstep ih => exact prints_step ih hstep

/-! ## The program gets on -/

/-- A poll of the line status finds the transmitter ready and empty once all that was written has
been sent. -/
theorem hello_poll (hlive : D.Live) (hr : Prints str r) {next : Byte → Hello}
    (hdrive : helloDrive r.program = .read 5 next) :
    ∃ v r', HelloRun r r' ∧ Prints str r' ∧ r'.program = next v ∧ uartWriteReady v = true ∧
      uartTmitEmpty v = true := by
  obtain ⟨d, hrun, -, -, hnil, -⟩ := drain hlive _ r rfl
  obtain ⟨v, d', hread⟩ := hlive.lsr d
  obtain ⟨htx, hshift⟩ := sending_nil.mp hnil
  have hthre := hlive.thre hread htx
  have htemt := hlive.temt hread htx hshift
  have hrun' : HelloRun r
      { r with program := next v, dev := d', down := r.down ++ D.sending r.dev } :=
    hrun.tail (.read hdrive hread)
  exact ⟨v, _, hrun', prints_run hr hrun', rfl, (uartWriteReady_eq v).trans hthre,
    (uartTmitEmpty_eq v).trans htemt⟩

/-- `uart_write_flush` returns on some continuation of every run: the transmitter can empty
itself. -/
theorem hello_flushes (hlive : D.Live) (hr : Prints str r) (hp : r.program = .flush true) :
    ∃ r', HelloRun r r' ∧ r'.program = .returned := by
  have hdrive : helloDrive r.program = .read 5 fun v =>
      if uartTmitEmpty v then .returned else .flush false := by
    rw [hp]
    rfl
  obtain ⟨v, r', hrun, -, hprogram, -, hempty⟩ := hello_poll hlive hr hdrive
  simp only [if_pos hempty] at hprogram
  exact ⟨r', hrun, hprogram⟩

theorem hello_idles (hlive : D.Live) (hr : Prints str r)
    (hdrive : helloDrive r.program = .read 5 fun v => .flush (uartWriteReady v)) :
    ∃ r', HelloRun r r' ∧ r'.program = .returned := by
  obtain ⟨v, r₁, hrun₁, hr₁, hprogram, hready, -⟩ := hello_poll hlive hr hdrive
  rw [hready] at hprogram
  obtain ⟨r', hrun, hreturned⟩ := hello_flushes hlive hr₁ hprogram
  exact ⟨r', hrun₁.trans hrun, hreturned⟩

/-- `uart_write_str` and the flush behind it can run to their end; by induction on the bytes
still to be printed. -/
theorem hello_prints (hlive : D.Live) : ∀ (l : List Byte) (ready : Bool) (r : HelloLink D),
    Prints str r → r.program = .print l ready → ∃ r', HelloRun r r' ∧ r'.program = .returned
  | [], ready, r, hr, hp => hello_idles hlive hr (by rw [hp]; rfl)
  | b :: l, ready, r, hr, hp => by
    have hready : ∃ r₁, HelloRun r r₁ ∧ Prints str r₁ ∧ r₁.program = .print (b :: l) true := by
      cases ready with
      | true => exact ⟨r, .refl, hr, hp⟩
      | false =>
        have hdrive : helloDrive r.program
            = .read 5 fun v => .print (b :: l) (uartWriteReady v) := by
          rw [hp]
          rfl
        obtain ⟨v, r₁, hrun₁, hr₁, hprogram, hready, -⟩ := hello_poll hlive hr hdrive
        rw [hready] at hprogram
        exact ⟨r₁, hrun₁, hr₁, hprogram⟩
    obtain ⟨r₁, hrun₁, hr₁, hprogram⟩ := hready
    have hdrive : helloDrive r₁.program = .write 0 b (.print l false) := by
      rw [hprogram]
      rfl
    -- `THRE` was seen, and nobody else writes: there is still room
    obtain ⟨d, hwrite⟩ := hlive.write r₁.dev 0 b
    have hstep := RegStep.write (P := terminalPair) hdrive hwrite
    obtain ⟨r', hrun, hreturned⟩ := hello_prints hlive l false _ (prints_step hr₁ hstep) rfl
    exact ⟨r', (hrun₁.tail hstep).trans hrun, hreturned⟩

/-- The string, all of it and in order, is sent before the program returns, and nothing else
but the byte that was still in the shift register when the UART was set up, ahead of it. -/
theorem helloWorld_prints (D : Device) (freq : BitVec 64) (str say : List Byte) (d₀ d : D.St)
    (hws : D.Writes d₀ (uartInit freq 115200) d) :
    ∀ r, HelloRun (helloStart str say d) r →
      r.client.heard ++ r.down <+: (D.shift d).toList ++ str ∧
      (r.program = .returned → r.client.heard ++ r.down = (D.shift d).toList ++ str) ∧
      (D.Live → ∃ r', HelloRun r r' ∧ r'.program = .returned) := by
  intro r hrun
  obtain ⟨hdlab, -, -, htx⟩ := uartInit_device hws
  have hstart : Prints ((D.shift d).toList ++ str) (helloStart str say d) := by
    refine ⟨hdlab, ?_, nofun, nofun⟩
    show ((D.shift d).toList ++ D.tx d) ++ str = (D.shift d).toList ++ str
    rw [htx, List.append_nil]
  have hr := prints_run hstart hrun
  have hbytes := hr.bytes
  refine ⟨?_, fun hp => ?_, fun hlive => ?_⟩
  · rw [← hbytes, List.append_assoc _ (D.sending r.dev)]
    exact List.prefix_append _ _
  · rw [hp, hr.sent hp] at hbytes
    simp only [Hello.rest, List.append_nil] at hbytes
    exact hbytes
  · cases hp : r.program with
    | print l ready => exact hello_prints hlive l ready r hr hp
    | flush ready =>
      cases ready with
      | true => exact hello_flushes hlive hr hp
      | false => exact hello_idles hlive hr (by rw [hp]; rfl)
    | returned => exact ⟨r, .refl, hp⟩

/-- `main` at 200 MHz, on a UART that was left in the middle of something: the byte that it was
sending, a 4, goes out first. -/
theorem helloWorld_prints_stale : ∃ (d : Fifos) (r : HelloLink (fifoDevice 15)),
    HelloRun (helloStart helloStr [0x3F] d) r ∧ r.program = .returned ∧
      r.client.heard ++ r.down = 4 :: helloStr := by
  have hws := fifos_writes 15 (uartInit 200000000 115200) staleFifos
  have hprints := helloWorld_prints (fifoDevice 15) 200000000 helloStr [0x3F] _ _ hws
  obtain ⟨-, -, hreturns⟩ := hprints _ .refl
  obtain ⟨r, hrun, hp⟩ := hreturns (fifoDevice_live 15)
  obtain ⟨-, hall, -⟩ := hprints r hrun
  exact ⟨_, r, hrun, hp, hall hp⟩

end Cheshire.Sw
