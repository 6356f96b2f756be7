import Cheshire.Sim.UartLockstep

/-!
# `uart_debug_elf_run_and_wait`

The output of a program and the end of it share one channel, and nothing in the
output is escaped: the first byte `0x14` ends the wait, and the four bytes behind it
are taken for the return value (`exitCode_split`). The exit code is then right exactly
if these four happen to be the ones the server sends later.
-/

namespace Cheshire.Sim.Uart

open Channel Transition Cheshire.Sw
open Span (Byte Address Memory)
open Firmware (le32 byte_le32 le32_bytes le32_congr)

/-- `uart_debug_elf_run_and_wait`, with the server it talks to. -/
def uartDebugElfRunAndWait (p : Image) (entry : Address) (m : Memory) : UartLink :=
  uartStart (uartDebugElfPreload p) (uartExec entry ++ uartWait) m

/-- `exit_code`, the four bytes received as a word. -/
def Vip.exitWord (v : Vip) : BitVec 32 := le32 v.exitCode 0

/-- Every run gets to the end of the task, and then has the program's return value. -/
structure ExitsWith (invoke : Address → Memory → Program) (p : Image) (entry : Address) (m : Memory)
    (ret : BitVec 32) : Prop where
  returns : ∀ acts l, run (uartPair invoke).step (uartDebugElfRunAndWait p entry m) acts = some l →
    ∃ l', Leads (uartPair invoke).step l l' ∧ l'.client.ops = []
  exitCode : ∀ acts l, run (uartPair invoke).step (uartDebugElfRunAndWait p entry m) acts = some l →
    l.client.ops = [] → l.client.exitWord = ret

/-- The program at `entry` once all is preloaded. -/
def loadedProgram (invoke : Address → Memory → Program) (p : Image) (entry : Address) (m : Memory) :
    Program := invoke entry (memoryAfter (uartDebugElfPreload p) m)

/-- What follows the first `0x14` of the output, if there is one, has the same first four bytes as
what follows the one of the server. -/
def Clear (output : List Byte) (ret : BitVec 32) : Prop :=
  ∀ before after, output = before ++ uartDebugEoc :: after → uartDebugEoc ∉ before →
    retBytes ret <+: after ++ uartDebugEoc :: retBytes ret

variable {invoke : Address → Memory → Program} {v : Vip} {before after : List Byte}
  {ret : BitVec 32}

/-! ## What the reader makes of a stream -/

/-- Up to the first `0x14` all goes to the console. -/
theorem hear_before {ops : List Op} : ∀ (bs : List Byte) (v : Vip), uartDebugEoc ∉ bs →
    v.ops = .waitEoc :: ops →
    bs.foldl vipHear v = { v with console := v.console ++ bs }
  | [], v, _, _ => by
    rw [List.append_nil]
    rfl
  | b :: bs, v, hbs, hops => by
    rw [List.mem_cons, not_or] at hbs
    obtain ⟨hb, hrest⟩ := hbs
    have hhear : vipHear v b = { v with console := v.console ++ [b] } := by
      unfold vipHear
      rw [hops]
      exact if_neg (Ne.symm hb)
    have ih := hear_before bs { v with console := v.console ++ [b] } hrest hops
    rw [List.foldl_cons, hhear, ih, ← List.append_cons]

/-- A task with no operation left ignores what it hears: nothing is added, and the exit code
stays. -/
theorem hear_done (v : Vip) (b : Byte) (h : v.ops = []) :
    (vipHear v b).ops = [] ∧ (vipHear v b).exitCode = v.exitCode := by
  unfold vipHear
  rw [h]
  by_cases hb : b = uartDebugEoc
  · simp only [if_pos hb, resume, and_self]
  · simp only [if_neg hb, and_self]

theorem hear_behind : ∀ (bs : List Byte) (v : Vip), v.ops = [] →
    (bs.foldl vipHear v).ops = [] ∧ (bs.foldl vipHear v).exitCode = v.exitCode
  | [], _, h => ⟨h, rfl⟩
  | b :: bs, v, h => by
    obtain ⟨hops, hcode⟩ := hear_done v b h
    obtain ⟨hops', hcode'⟩ := hear_behind bs (vipHear v b) hops
    exact ⟨hops', hcode'.trans hcode⟩

/-- The four bytes behind the first `0x14` are the exit code. -/
theorem hear_split (v : Vip) (hops : v.ops = uartWait) (heoc : v.eoc = false)
    (hbefore : uartDebugEoc ∉ before) (hafter : 4 ≤ after.length) :
    ((before ++ uartDebugEoc :: after).foldl vipHear v).ops = [] ∧
      ((before ++ uartDebugEoc :: after).foldl vipHear v).exitWord
        = le32 (fun j => after.getD j 0) 0 := by
  match after, hafter with
  | b₀ :: b₁ :: b₂ :: b₃ :: rest, _ =>
    obtain ⟨ops, eoc, data, exitCode, console, failed⟩ := v
    change ops = _ at hops
    change eoc = false at heoc
    subst hops heoc
    rw [List.foldl_append, hear_before before _ hbefore rfl]
    -- the wait ends, and the bytes are scooped one by one
    obtain ⟨hdone, hcode⟩ := hear_behind rest
      { ops := [], eoc := false, data := data, console := console ++ before ++ [uartDebugEoc],
        failed := failed,
        exitCode := upd (upd (upd (upd exitCode 0 b₀) 1 b₁) 2 b₂) 3 b₃ } rfl
    exact ⟨hdone, (congrArg (fun d => le32 d 0) hcode).trans rfl⟩

/-- Four bytes make a word exactly if they are its bytes. -/
theorem le32_eq_iff (hafter : 4 ≤ after.length) :
    le32 (fun j => after.getD j 0) 0 = ret ↔ retBytes ret <+: after := by
  constructor
  · intro h
    have hbyte : ∀ j < 4, ret.extractLsb' (8 * j) 8 = after.getD j 0 := by
      intro j hj
      rw [← h, byte_le32 _ _ _ hj, Nat.zero_add]
    match after, hafter with
    | b₀ :: b₁ :: b₂ :: b₃ :: rest, _ =>
      have h₀ : ret.extractLsb' 0 8 = b₀ := hbyte 0 (by omega)
      have h₁ : ret.extractLsb' 8 8 = b₁ := hbyte 1 (by omega)
      have h₂ : ret.extractLsb' 16 8 = b₂ := hbyte 2 (by omega)
      have h₃ : ret.extractLsb' 24 8 = b₃ := hbyte 3 (by omega)
      refine ⟨rest, ?_⟩
      rw [← h₀, ← h₁, ← h₂, ← h₃]
      rfl
  · rintro ⟨rest, rfl⟩
    refine (le32_congr fun j hj => ?_).trans (le32_bytes ret)
    have hlength : 0 + j < (retBytes ret).length := by
      rw [Nat.zero_add]
      exact hj
    rw [List.getD_eq_getElem?_getD, List.getElem?_append_left hlength, Nat.zero_add]
    unfold retBytes
    rw [List.getElem?_map, List.getElem?_range hj]
    rfl

/-! ## Any run -/

variable {p : Image} {entry : Address} {m : Memory} {l : UartLink}

/-- A task that is done does not change its exit code any more. -/
theorem exitCode_done {v w : View Vip Server Byte} (h : (uartPair invoke).Path v w)
    (hv : v.client.ops = []) : v.client.exitCode = w.client.exitCode := by
  refine @Pair.Path.client_back _ _ _ _ v w
    (fun c => c.ops = [] → c.exitCode = w.client.exitCode) ?_ ?_ h (fun _ => rfl) hv
  · intro c b c' hspeak _ hops
    have hlt := (speak_spec hspeak).1
    rw [hops] at hlt
    exact absurd hlt (Nat.not_lt_zero _)
  · intro c b hheard hops
    obtain ⟨hdone, hcode⟩ := hear_done c b hops
    exact hcode.symm.trans (hheard hdone)

/-- The client at the end of every run that goes as far as it can. -/
theorem execEnd_client (hstream : (loadedProgram invoke p entry m).stream
      = before ++ uartDebugEoc :: after)
    (hbefore : uartDebugEoc ∉ before) (hafter : 4 ≤ after.length) :
    (execEnd invoke (uartDebugElfPreload p) entry m).client.ops = [] ∧
      (execEnd invoke (uartDebugElfPreload p) entry m).client.exitWord
        = le32 (fun j => after.getD j 0) 0 := by
  have hprogram : executed invoke (uartDebugElfPreload p) entry m
      = loadedProgram invoke p entry m := by
    unfold executed loadedProgram
    rw [between_mem, List.take_length]
  unfold execEnd
  rw [hprogram, hstream]
  exact hear_split _ rfl rfl hbefore hafter

/-- The task gets what is behind the first `0x14`, in whatever order the steps are taken. -/
theorem exitsWith_iff (hstream : (loadedProgram invoke p entry m).stream
      = before ++ uartDebugEoc :: after)
    (hbefore : uartDebugEoc ∉ before) (hafter : 4 ≤ after.length) :
    ExitsWith invoke p entry m ret ↔ retBytes ret <+: after := by
  have hs := exec_session invoke (uartDebugElfPreload p) entry m
  obtain ⟨hdone, hword⟩ := execEnd_client hstream hbefore hafter
  rw [← le32_eq_iff hafter, ← hword]
  constructor
  · intro h
    have hnil : run (uartPair invoke).step (uartDebugElfRunAndWait p entry m) []
        = some (uartDebugElfRunAndWait p entry m) := rfl
    obtain ⟨acts, hacts⟩ := hs.leads hnil
    exact h.exitCode acts (execEnd invoke (uartDebugElfPreload p) entry m).link hacts hdone
  · intro h
    refine ⟨fun acts l hrun => ⟨_, hs.leads hrun, hdone⟩, fun acts l hrun hl => ?_⟩
    obtain ⟨v, ⟨hclient, _⟩, _, hvw⟩ := hs.settles hrun
    rw [← hclient] at hl ⊢
    rw [← h]
    exact congrArg (fun d => le32 d 0) (exitCode_done hvw hl)

/-- The exit code is the return value exactly if no byte of the output is taken for it. -/
theorem uartDebug_exitCode_iff (invoke : Address → Memory → Program) (p : Image) (entry : Address)
    (m : Memory) :
    ExitsWith invoke p entry m ((loadedProgram invoke p entry m).ret.setWidth 32) ↔
      Clear (loadedProgram invoke p entry m).output
        ((loadedProgram invoke p entry m).ret.setWidth 32) := by
  constructor
  · intro h before after houtput hbefore
    refine (exitsWith_iff ?_ hbefore ?_).mp h
    · unfold Program.stream
      rw [houtput, List.append_assoc, List.cons_append]
    · rw [List.length_append]
      exact Nat.le_add_left 4 _
  · intro hclear
    by_cases heoc : uartDebugEoc ∈ (loadedProgram invoke p entry m).output
    · obtain ⟨before, after, houtput, hbefore⟩ := List.eq_append_cons_of_mem heoc
      refine (exitsWith_iff ?_ hbefore ?_).mpr (hclear before after houtput hbefore)
      · unfold Program.stream
        rw [houtput, List.append_assoc, List.cons_append]
      · rw [List.length_append]
        exact Nat.le_add_left 4 _
    · -- the first `0x14` is the one of the server
      exact (exitsWith_iff rfl heoc (Nat.le_refl 4)).mpr (List.prefix_refl _)

/-- An output lets every return value through only if it has no `0x14`. -/
theorem clear_forall_iff (output : List Byte) :
    (∀ ret, Clear output ret) ↔ uartDebugEoc ∉ output := by
  constructor
  · intro h heoc
    obtain ⟨before, after, houtput, hbefore⟩ := List.eq_append_cons_of_mem heoc
    -- the first byte taken does not depend on the return value
    have hfirst : ∃ b, ∀ ret : BitVec 32, ret.extractLsb' 0 8 = b := by
      cases after with
      | nil => exact ⟨uartDebugEoc, fun ret =>
          (List.cons_prefix_cons.mp (h ret before [] houtput hbefore)).1⟩
      | cons b after => exact ⟨b, fun ret =>
          (List.cons_prefix_cons.mp (h ret before (b :: after) houtput hbefore)).1⟩
    obtain ⟨b, hb⟩ := hfirst
    have hzero : (0 : BitVec 32).extractLsb' 0 8 = (1 : BitVec 32).extractLsb' 0 8 :=
      (hb 0).trans (hb 1).symm
    exact absurd hzero (by decide)
  · intro heoc ret before after houtput _
    exact absurd (houtput ▸ List.mem_append_right _ (List.mem_cons_self ..)) heoc

/-- A program that fails, and whose output looks like the end of one that does not. -/
def failsUnseen : Program where
  output := [0x14, 0, 0, 0, 0]
  ret := 1

/-- The testbench gets 0 as the exit code of a program that returns 1. -/
theorem uartDebug_exitCode_lost :
    ExitsWith (fun _ _ => failsUnseen) spmImage 0x10000000 (fun _ => 0) 0 ∧
      ¬ExitsWith (fun _ _ => failsUnseen) spmImage 0x10000000 (fun _ => 0) 1 := by
  have hstream : (loadedProgram (fun _ _ => failsUnseen) spmImage 0x10000000 fun _ => 0).stream
      = [] ++ uartDebugEoc :: ([0, 0, 0, 0] ++ uartDebugEoc :: retBytes 1) := rfl
  have hbefore : uartDebugEoc ∉ ([] : List Byte) := List.not_mem_nil
  refine ⟨(exitsWith_iff hstream hbefore (by decide)).mpr (List.prefix_append _ _), fun h => ?_⟩
  have hprefix := (exitsWith_iff hstream hbefore (by decide)).mp h
  exact absurd hprefix (by decide)

end Cheshire.Sim.Uart
