import Cheshire.Sim.UartLockstep
import Cheshire.Sw.Uart

/-!
# The UART debug protocol over the registers

The boot ROM sets the UART up and serves; each byte it sends or receives is a poll and an
access to a register, and the UART has a FIFO each way between the registers and the
line. Whatever the depth of the FIFOs, and in whatever order the testbench, the line, the
UART and the boot ROM move, the protocol is in lockstep as on two channels: if the
transmitter was idle once the UART was set up, and nothing comes in that finds the receiver
full.
-/

namespace Cheshire.Sim.Uart

open Relation Channel Transition Cheshire.Sw Uart16550
open Span (Address Memory)

/-- `uart_debug_init`: the writes to the UART, or an error. -/
def uartDebugInit (uartBase coreFreq : BitVec 64) : Except (BitVec 32) (List (Nat × Byte)) :=
  if uartBase = 0 then .error 0x11
  else if coreFreq = 0 then .error 0x12
  else .ok (uartInit coreFreq 115200)

abbrev UartRegs (D : Device) := RegLink D Vip (Polling Server)

/-- Testbench and boot ROM with a UART in between. -/
def regsStart {D : Device} (calls : List Call) (tail : List Op) (m : Memory) (d : D.St) :
    UartRegs D where
  client := vipStart calls (uartChallenge ++ uartCalls 0 calls ++ tail)
  program := ⟨serverStart m, false⟩
  dev := d
  up := []
  down := []

/-- Any steps of the tasks, the device and the program on the core, in any order. -/
def RegsRun (invoke : Address → Memory → Program) {D : Device} : UartRegs D → UartRegs D → Prop :=
  ReflTransGen (RegStep (uartPair invoke) (uartDrive (uartDebugServe invoke)))

variable {invoke : Address → Memory → Program} {D : Device} {d₀ d : D.St} {m : Memory}
  {calls : List Call} {tail : List Op} {r : UartRegs D} {l : UartLink}

/-- After `uart_debug_init` nothing is on its way, if nothing is in the shift register. -/
theorem init_start {uartBase coreFreq : BitVec 64} {ws : List (Nat × Byte)}
    (hinit : uartDebugInit uartBase coreFreq = .ok ws) (hws : D.Writes d₀ ws d)
    (hidle : D.shift d = none) :
    Polls (uartDebugServe invoke) (regsStart calls tail m d) ∧
      linkOf (regsStart calls tail m d) = uartStart calls tail m := by
  unfold uartDebugInit at hinit
  split at hinit
  · cases hinit
  · split at hinit
    · cases hinit
    · cases hinit
      obtain ⟨hdlab, -, hrx, htx⟩ := uartInit_device hws
      refine ⟨.unready hdlab, ?_⟩
      unfold linkOf RegLink.link regsStart uartStart
      simp only [hrx, sending_nil.mpr ⟨htx, hidle⟩, List.append_nil]

/-- A state of a run on the registers is one of a run on the channels. -/
theorem regs_leads (hpolls : Polls (uartDebugServe invoke) (regsStart calls tail m d))
    (hlink : linkOf (regsStart calls tail m d) = uartStart calls tail m)
    (hrun : RegsRun invoke (regsStart calls tail m d) r) :
    Polls (uartDebugServe invoke) r ∧
      Leads (uartPair invoke).step (uartStart calls tail m) (linkOf r) := by
  rw [← hlink]
  exact leads_of_simulation (uartDrive_simulates (P := uartPair invoke)) hpolls hrun

/-- Where the channels can go on to, the registers can. -/
theorem regs_go_on (hlive : D.Live) (hpolls : Polls (uartDebugServe invoke) r)
    (hleads : Leads (uartPair invoke).step (linkOf r) l) :
    ∃ r', RegsRun invoke r r' ∧ linkOf r' = l := by
  obtain ⟨acts, hacts⟩ := hleads
  obtain ⟨r', hrun, -, hl⟩ :=
    run_of_matches (uartDrive_matches (P := uartPair invoke) hlive) acts r hpolls hacts
  exact ⟨r', hrun, hl⟩

/-- In a state of a run on the registers. -/
structure RegsLockstep (invoke : Address → Memory → Program) (calls : List Call) (m : Memory)
    {D : Device} (r : UartRegs D) : Prop where
  lockstep : Lockstep invoke calls m (linkOf r)
  completes : D.Live → ∃ r', RegsRun invoke r r' ∧ Between calls [] calls.length (linkOf r')

/-- In a state of a run of a preload and an EXEC. -/
structure RegsPreloads (invoke : Address → Memory → Program) (p : Image) (entry : Address)
    (m : Memory) {D : Device} (r : UartRegs D) : Prop where
  preloads : Preloads invoke p entry m (linkOf r)
  completes : D.Live → ∃ r', RegsRun invoke r r' ∧ (linkOf r').server.jumped = some entry

/-- The UART between the two changes nothing, for every device and every order of steps, if
its transmitter is idle when `uart_debug_init` is done. -/
theorem uartRegs_lockstep (D : Device) (invoke : Address → Memory → Program) (m : Memory)
    (uartBase coreFreq : BitVec 64) (ws : List (Nat × Byte)) (d₀ d : D.St)
    (hinit : uartDebugInit uartBase coreFreq = .ok ws) (hws : D.Writes d₀ ws d)
    (hidle : D.shift d = none) :
    (∀ calls r, RegsRun invoke (regsStart calls [] m d) r → RegsLockstep invoke calls m r) ∧
    ∀ p entry r, RegsRun invoke
        (regsStart (uartDebugElfPreload p) (uartExec entry ++ uartWait) m d) r →
      RegsPreloads invoke p entry m r := by
  refine ⟨fun calls r hrun => ?_, fun p entry r hrun => ?_⟩
  · obtain ⟨hpolls, hlink⟩ := init_start hinit hws hidle
    obtain ⟨hr, acts, hacts⟩ := regs_leads hpolls hlink hrun
    have hlock := run_lockstep calls hacts
    refine ⟨hlock, fun hlive => ?_⟩
    obtain ⟨l, hleads, hl⟩ := hlock.completes
    obtain ⟨r', hrun', rfl⟩ := regs_go_on hlive hr hleads
    exact ⟨r', hrun', hl⟩
  · obtain ⟨hpolls, hlink⟩ := init_start hinit hws hidle
    obtain ⟨hr, acts, hacts⟩ := regs_leads hpolls hlink hrun
    have hpre := run_preloads p entry hacts
    refine ⟨hpre, fun hlive => ?_⟩
    obtain ⟨l, hleads, hl⟩ := hpre.completes
    obtain ⟨r', hrun', rfl⟩ := regs_go_on hlive hr hleads
    exact ⟨r', hrun', hl⟩

/-- The UART once it is set up, the byte that it was sending gone out before that. -/
def initFifos : Fifos :=
  (uartInit 200000000 115200).foldl (fun s w => s.write 16 w.1 w.2)
    { staleFifos with shift := none }

/-- A byte is written and read back, over a UART that was left in the middle of something. -/
theorem uartRegs_lockstep_pokePeek : ∃ r : UartRegs (fifoDevice 15),
    RegsRun (fun _ _ => idleProgram) (regsStart pokePeek [] (fun _ => 0) initFifos) r ∧
      Between pokePeek [] 2 (linkOf r) ∧
      RegsLockstep (fun _ _ => idleProgram) pokePeek (fun _ => 0) r := by
  have hws := fifos_writes_idle 15 (uartInit 200000000 115200) (s := staleFifos) rfl
  have hregs := (uartRegs_lockstep (fifoDevice 15) (fun _ _ => idleProgram) (fun _ => 0) 0x03002000
    200000000 _ staleFifos initFifos rfl hws rfl).1 pokePeek
  obtain ⟨r, hrun, hr⟩ := (hregs _ .refl).completes (fifoDevice_live 15)
  exact ⟨r, hrun, hr, hregs r hrun⟩

end Cheshire.Sim.Uart
