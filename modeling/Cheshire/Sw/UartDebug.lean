import Cheshire.Lib.Channel
import Cheshire.Lib.Prog
import Cheshire.Lib.Span

/-!
# `uart_debug_serve`

The boot ROM's debug server: after a first `ACK` it takes commands to read and write
memory, until one makes it run a program. A state stands in front of a call of
`uart_read` or `uart_write`; the loops of `uart_read_str` and `uart_write_str` are
states that return to themselves.

`addr` and `len` are read into local variables, which are no part of the memory that
the commands read and write.
-/

namespace Cheshire.Sw

open Channel
open Span (Byte Address Memory nth store)
open Firmware (le64)

def uartDebugCmdRead : Byte := 0x11
def uartDebugCmdWrite : Byte := 0x12
def uartDebugCmdExec : Byte := 0x13
def uartDebugAck : Byte := 0x06
def uartDebugEot : Byte := 0x04
def uartDebugEoc : Byte := 0x14

/-- A program as the server sees it: what it writes to the UART, and its return value. -/
structure Program where
  output : List Byte
  ret : BitVec 64

/-- What a `uint64_t` that is read is for. -/
inductive Operand where
  | addr (cmd : Byte)
  | len (cmd : Byte) (addr : BitVec 64)
  deriving DecidableEq

/-- The access to the UART that comes next. -/
inductive Pc where
  /-- `boot_passive`: `uart_debug_check`. -/
  | check
  /-- `uart_write(uart_base, kUartDebugAck)` before the loop. -/
  | challenge
  | cmd
  /-- `uart_read_str` into a `uint64_t`, with the bytes so far. -/
  | readWord (got : List Byte) (operand : Operand)
  /-- The `ACK` of a READ or WRITE. -/
  | ack (cmd : Byte) (addr len : BitVec 64)
  /-- `uart_write_str` from memory, at `i`. -/
  | writeStr (addr len i : BitVec 64)
  /-- `uart_read_str` to memory, at `i`. -/
  | readStr (addr len i : BitVec 64)
  | eot
  /-- The `ACK` of an EXEC. -/
  | exec (addr : Address)
  /-- In the program, with what it still writes. -/
  | invoked (output : List Byte) (ret : BitVec 32)
  /-- `uart_write_str` of `ret`, at `i`. -/
  | writeRet (ret : BitVec 32) (i : Nat)
  | returned (ret : BitVec 32)
  deriving DecidableEq

structure Server where
  pc : Pc
  mem : Memory
  /-- Every address stored to. -/
  stored : List Address
  /-- Where `invoke` jumped. -/
  jumped : Option Address

/-- The head of the loop of `uart_write_str`, with byte `i` next. -/
def uartWriteStr (addr len i : BitVec 64) : Pc := if i < len then .writeStr addr len i else .eot

/-- The head of the loop of `uart_read_str`, with byte `i` next. -/
def uartReadStr (addr len i : BitVec 64) : Pc := if i < len then .readStr addr len i else .eot

/-- The `switch` on the command byte, where an unknown one returns an error. -/
def uartDebugCase (cmd : Byte) : Pc :=
  if cmd = uartDebugCmdRead ∨ cmd = uartDebugCmdWrite ∨ cmd = uartDebugCmdExec then
    .readWord [] (.addr cmd)
  else .returned 1

/-- On with the command once an operand is read. -/
def uartDebugOperand (operand : Operand) (w : BitVec 64) : Pc :=
  match operand with
  | .addr cmd => if cmd = uartDebugCmdExec then .exec w else .readWord [] (.len cmd w)
  | .len cmd addr => .ack cmd addr w

/-- `boot_passive` and `uart_debug_serve`; `invoke` tells what the program at an address does. -/
def uartDebugServe (invoke : Address → Memory → Program) (s : Server) : Move Byte Server :=
  match s.pc with
  | .check => .recv fun b => { s with pc := if b = uartDebugAck then .challenge else .check }
  | .challenge => .send uartDebugAck { s with pc := .cmd }
  | .cmd => .recv fun cmd => { s with pc := uartDebugCase cmd }
  | .readWord got operand =>
    .recv fun b =>
      let got := got ++ [b]
      { s with pc := if got.length < 8 then .readWord got operand
                     else uartDebugOperand operand (le64 (fun j => got.getD j 0) 0) }
  | .ack cmd addr len =>
    .send uartDebugAck { s with pc := if cmd = uartDebugCmdRead then uartWriteStr addr len 0
                                      else uartReadStr addr len 0 }
  | .writeStr addr len i => .send (s.mem (addr + i)) { s with pc := uartWriteStr addr len (i + 1) }
  | .readStr addr len i =>
    .recv fun b =>
      { s with
        pc := uartReadStr addr len (i + 1)
        mem := fun x => if x = addr + i then b else s.mem x
        stored := s.stored ++ [addr + i] }
  | .eot => .send uartDebugEot { s with pc := .cmd }
  | .exec addr =>
    let p := invoke addr s.mem
    .send uartDebugAck
      { s with pc := .invoked p.output (p.ret.setWidth 32), jumped := some addr }
  | .invoked (b :: output) ret => .send b { s with pc := .invoked output ret }
  | .invoked [] ret => .send uartDebugEoc { s with pc := .writeRet ret 0 }
  | .writeRet ret i =>
    .send (ret.extractLsb' (8 * i) 8)
      { s with pc := if i + 1 < 4 then .writeRet ret (i + 1) else .returned ret }
  | .returned _ => .halt

variable {invoke : Address → Memory → Program} {s s' : Server} {up out : List Byte}

/-! ## Operands -/

/-- The bytes of a `uint64_t`, in the order they are sent in. -/
def wordBytes (w : BitVec 64) : List Byte := (List.range 8).map fun i => w.extractLsb' (8 * i) 8

def wordPart (w : BitVec 64) : List Byte := (List.range 7).map fun i => w.extractLsb' (8 * i) 8

theorem wordBytes_eq (w : BitVec 64) : wordBytes w = wordPart w ++ [w.extractLsb' 56 8] := rfl

theorem le64_wordBytes (w : BitVec 64) : le64 (fun j => (wordBytes w).getD j 0) 0 = w := by
  refine Eq.trans (Firmware.le64_congr fun j hj => ?_) (Firmware.le64_bytes w)
  rw [Nat.zero_add]
  unfold wordBytes
  rw [List.getD_eq_getElem?_getD, List.getElem?_map, List.getElem?_range hj]
  rfl

/-- A part of a word gets no answer. -/
theorem readWord_part {operand : Operand} : ∀ (bs got : List Byte), got.length + bs.length < 8 →
    Answers (uartDebugServe invoke) { s with pc := .readWord got operand } bs []
      { s with pc := .readWord (got ++ bs) operand }
  | [], got, _ => by
    rw [List.append_nil]
    exact answers_idle rfl
  | b :: bs, got, h => by
    rw [List.length_cons] at h
    have hlen : (got ++ [b]).length < 8 := by
      rw [List.length_append, List.length_singleton]
      omega
    refine .read rfl ?_
    simp only [if_pos hlen]
    have hrest := @readWord_part operand bs (got ++ [b]) (by
      rw [List.length_append, List.length_singleton]
      omega)
    rw [← List.append_cons] at hrest
    exact hrest

/-- The eighth byte of a word completes it, and the server goes on with the operand it is for. -/
theorem readWord_last {operand : Operand} (w : BitVec 64)
    (h : Answers (uartDebugServe invoke) { s with pc := uartDebugOperand operand w } up out s') :
    Answers (uartDebugServe invoke) { s with pc := .readWord (wordPart w) operand }
      (w.extractLsb' 56 8 :: up) out s' := by
  have hlen : ¬(wordPart w ++ [w.extractLsb' 56 8]).length < 8 := by
    rw [← wordBytes_eq]
    exact Nat.lt_irrefl 8
  refine .read rfl ?_
  simp only [if_neg hlen]
  rw [← wordBytes_eq, le64_wordBytes]
  exact h

theorem readWord_bytes {operand : Operand} (w : BitVec 64)
    (h : Answers (uartDebugServe invoke) { s with pc := uartDebugOperand operand w } up out s') :
    Answers (uartDebugServe invoke) { s with pc := .readWord [] operand } (wordBytes w ++ up) out
      s' := by
  rw [wordBytes_eq, List.append_assoc]
  exact (readWord_part (wordPart w) [] (show 0 + 7 < 8 by omega)).append (readWord_last w h)

/-- A READ or WRITE, its address and its length, but for the last byte. -/
theorem command_part {cmd : Byte} (hcmd : cmd = uartDebugCmdRead ∨ cmd = uartDebugCmdWrite)
    (s : Server) (addr len : BitVec 64) :
    Answers (uartDebugServe invoke) { s with pc := .cmd } ([cmd] ++ wordBytes addr ++ wordPart len) []
      { s with pc := .readWord (wordPart len) (.len cmd addr) } := by
  have hcase : uartDebugCase cmd = .readWord [] (.addr cmd) := by
    refine if_pos ?_
    rcases hcmd with h | h
    · exact Or.inl h
    · exact Or.inr (Or.inl h)
  have haddr : uartDebugOperand (.addr cmd) addr = .readWord [] (.len cmd addr) := by
    refine if_neg ?_
    rcases hcmd with rfl | rfl
    · decide
    · decide
  refine .read rfl ?_
  simp only [hcase]
  refine readWord_bytes addr ?_
  rw [haddr]
  exact readWord_part (wordPart len) [] (show 0 + 7 < 8 by omega)

/-- An EXEC and its address, but for the last byte. -/
theorem exec_part (s : Server) (addr : BitVec 64) :
    Answers (uartDebugServe invoke) { s with pc := .cmd } ([uartDebugCmdExec] ++ wordPart addr) []
      { s with pc := .readWord (wordPart addr) (.addr uartDebugCmdExec) } :=
  .read rfl (readWord_part (wordPart addr) [] (show 0 + 7 < 8 by omega))

/-- Receiving a byte never leads the server straight back to where it waits for a command. -/
theorem recv_pc {next : Byte → Server} (h : uartDebugServe invoke s = .recv next) (b : Byte) :
    (next b).pc ≠ .cmd := by
  cases s with
  | mk pc mem stored jumped =>
    cases pc with
    | check =>
      cases h
      by_cases hb : b = uartDebugAck
      · simp only [if_pos hb]
        exact nofun
      · simp only [if_neg hb]
        exact nofun
    | cmd =>
      cases h
      show uartDebugCase b ≠ .cmd
      unfold uartDebugCase
      split
      · exact nofun
      · exact nofun
    | readWord got operand =>
      cases h
      by_cases hlen : (got ++ [b]).length < 8
      · simp only [if_pos hlen]
        exact nofun
      · simp only [if_neg hlen]
        cases operand with
        | addr cmd =>
          by_cases hexec : cmd = uartDebugCmdExec
          · simp only [uartDebugOperand, if_pos hexec]
            exact nofun
          · simp only [uartDebugOperand, if_neg hexec]
            exact nofun
        | len cmd addr =>
          unfold uartDebugOperand
          exact nofun
    | readStr addr len i =>
      cases h
      show uartReadStr addr len (i + 1) ≠ .cmd
      unfold uartReadStr
      split
      · exact nofun
      · exact nofun
    | invoked output ret =>
      cases output with
      | nil => cases h
      | cons _ _ => cases h
    | _ => cases h

/-- A server that is ready for a command, and has not answered, is where it was. -/
theorem answers_cmd (h : Answers (uartDebugServe invoke) s up [] s') (hpc : s'.pc = .cmd) :
    up = [] ∧ s = s' := by
  generalize hout : [] = out at h
  induction h with
  | idle _ => exact ⟨rfl, rfl⟩
  | read hserve _ ih =>
    obtain ⟨_, rfl⟩ := ih hpc hout
    exact absurd hpc (recv_pc hserve _)
  | write _ _ _ => cases hout

/-! ## Data -/

/-- The `n` bytes a READ has left to send, and the end of it. -/
theorem writeStr_answers (s : Server) (addr len : BitVec 64) : ∀ (n : Nat) (i : BitVec 64),
    i.toNat + n = len.toNat →
    Answers (uartDebugServe invoke) { s with pc := uartWriteStr addr len i } []
      ((List.range' i.toNat n).map (fun j => s.mem (nth addr j)) ++ [uartDebugEot])
      { s with pc := .cmd }
  | 0, i, h => by
    have hdone : ¬i < len := by
      rw [BitVec.lt_def]
      omega
    unfold uartWriteStr
    rw [if_neg hdone]
    exact .write rfl (answers_idle rfl)
  | n + 1, i, h => by
    have hlt : i < len := by
      rw [BitVec.lt_def]
      omega
    have hsucc : (i + 1).toNat = i.toNat + 1 := by
      have hlen := len.isLt
      rw [BitVec.toNat_add]
      exact Nat.mod_eq_of_lt (show i.toNat + 1 < 2 ^ 64 by omega)
    have haddr : addr + i = nth addr i.toNat := by
      unfold nth
      rw [BitVec.ofNat_toNat, BitVec.setWidth_eq]
    have ih := writeStr_answers s addr len n (i + 1) (by omega)
    unfold uartWriteStr
    rw [if_pos hlt, List.range'_succ, List.map_cons, List.cons_append, ← haddr, ← hsucc]
    exact .write rfl ih

/-- The server after it has stored the `n` bytes `d` from `addr` on. -/
def Server.write (s : Server) (addr : Address) (d : Nat → Byte) (n : Nat) (pc : Pc) : Server :=
  { s with
    pc := pc
    mem := store s.mem addr d n
    stored := s.stored ++ (List.range n).map (nth addr) }

theorem write_zero (s : Server) (addr : Address) (d : Nat → Byte) (pc : Pc) :
    s.write addr d 0 pc = { s with pc := pc } := by
  unfold Server.write
  rw [Span.store_zero, List.range_zero, List.map_nil, List.append_nil]

/-- The byte a WRITE gets next. -/
theorem readStr_step (s : Server) (addr len : BitVec 64) (d : Nat → Byte) {n : Nat}
    (h : n < len.toNat) :
    ∃ next, uartDebugServe invoke (s.write addr d n (.readStr addr len (BitVec.ofNat 64 n)))
        = .recv next ∧
      next (d n) = s.write addr d (n + 1) (uartReadStr addr len (BitVec.ofNat 64 (n + 1))) := by
  have hlen := len.isLt
  have hmem := @Span.store_succ s.mem addr d n (by omega)
  have hstored : (List.range (n + 1)).map (nth addr)
      = (List.range n).map (nth addr) ++ [nth addr n] := by
    rw [List.range_succ, List.map_append]
    rfl
  refine ⟨_, rfl, ?_⟩
  unfold Server.write
  rw [← hmem, hstored, ← List.append_assoc, BitVec.ofNat_add]
  rfl

/-- The bytes a WRITE gets, but for the last one. -/
theorem readStr_part (s : Server) (addr len : BitVec 64) (d : Nat → Byte) : ∀ n : Nat,
    n < len.toNat →
    Answers (uartDebugServe invoke) (s.write addr d 0 (.readStr addr len 0)) ((List.range n).map d)
      [] (s.write addr d n (.readStr addr len (BitVec.ofNat 64 n)))
  | 0, _ => answers_idle rfl
  | n + 1, h => by
    have hlen := len.isLt
    have hlt : BitVec.ofNat 64 (n + 1) < len := by
      rw [BitVec.lt_def, BitVec.toNat_ofNat, Nat.mod_eq_of_lt (by omega)]
      exact h
    obtain ⟨next, hserve, hnext⟩ := @readStr_step invoke s addr len d n (by omega)
    rw [List.range_succ, List.map_append]
    refine (readStr_part s addr len d n (by omega)).append (.read hserve ?_)
    rw [hnext]
    unfold uartReadStr
    rw [if_pos hlt]
    exact answers_idle rfl

/-- The last byte of a WRITE, and the end of it. -/
theorem readStr_last (s : Server) (addr len : BitVec 64) (d : Nat → Byte) {n : Nat}
    (h : n + 1 = len.toNat) :
    Answers (uartDebugServe invoke) (s.write addr d n (.readStr addr len (BitVec.ofNat 64 n))) [d n]
      [uartDebugEot] (s.write addr d (n + 1) .cmd) := by
  have hdone : ¬BitVec.ofNat 64 (n + 1) < len := by
    rw [BitVec.lt_def, BitVec.toNat_ofNat, h, Nat.mod_eq_of_lt len.isLt]
    exact Nat.lt_irrefl _
  obtain ⟨next, hserve, hnext⟩ := @readStr_step invoke s addr len d n (by omega)
  refine .read hserve ?_
  rw [hnext]
  unfold uartReadStr
  rw [if_neg hdone]
  exact .write rfl (answers_idle rfl)

/-! ## EXEC -/

/-- The bytes of a return value, in the order they are sent in. -/
def retBytes (ret : BitVec 32) : List Byte := (List.range 4).map fun i => ret.extractLsb' (8 * i) 8

theorem invoked_answers (s : Server) (ret : BitVec 32) : ∀ output : List Byte,
    Answers (uartDebugServe invoke) { s with pc := .invoked output ret } []
      (output ++ uartDebugEoc :: retBytes ret) { s with pc := .returned ret }
  | [] => .write rfl <| .write rfl <| .write rfl <| .write rfl <| .write rfl <|
      .idle (waits_of_halt rfl)
  | _ :: output => .write rfl (invoked_answers s ret output)

/-- What comes over the UART behind the `ACK` of an EXEC. -/
def Program.stream (p : Program) : List Byte :=
  p.output ++ uartDebugEoc :: retBytes (p.ret.setWidth 32)

/-- An EXEC from its `ACK` on. -/
theorem exec_answers (s : Server) (addr : Address) :
    Answers (uartDebugServe invoke) { s with pc := .exec addr } []
      (uartDebugAck :: (invoke addr s.mem).stream)
      { s with pc := .returned ((invoke addr s.mem).ret.setWidth 32), jumped := some addr } :=
  .write rfl (invoked_answers { s with jumped := some addr } _ _)

/-! ## What stays -/

/-- The server has left its loop, by an EXEC or with an error. -/
def Server.Left (s : Server) : Prop :=
  match s.pc with
  | .invoked _ _ | .writeRet _ _ | .returned _ => True
  | _ => False

/-- Stores are not undone, and behind the jump nothing changes. -/
structure Later (s s' : Server) : Prop where
  stored : s.stored <+: s'.stored
  left : s.Left → s'.Left ∧ s'.jumped = s.jumped ∧ s'.mem = s.mem
  jumped : (s.jumped ≠ none → s.Left) → s'.jumped ≠ none → s'.Left

/-- A step in the loop. -/
theorem Later.loop (hleft : ¬s.Left) (hstored : s.stored <+: s'.stored)
    (hjumped : s'.jumped = s.jumped) : Later s s' where
  stored := hstored
  left := fun h => absurd h hleft
  jumped := fun h hne => absurd (h (hjumped ▸ hne)) hleft

/-- A server behind the jump that only changes its place is later than before, with stores and
jump kept. -/
theorem Later.behind (pc : Pc) (hleft : Server.Left { s with pc := pc }) :
    Later s { s with pc := pc } where
  stored := List.prefix_refl _
  left := fun _ => ⟨hleft, rfl, rfl⟩
  jumped := fun _ _ => hleft

theorem later_forward (invoke : Address → Memory → Program) :
    Forward (uartDebugServe invoke) Later where
  refl := fun s => ⟨List.prefix_refl _, fun h => ⟨h, rfl, rfl⟩, id⟩
  trans := by
    intro s₁ s₂ s₃ h₁ h₂
    refine ⟨h₁.stored.trans h₂.stored, fun h => ?_, fun h => h₂.jumped (h₁.jumped h)⟩
    obtain ⟨hleft₂, hjumped₂, hmem₂⟩ := h₁.left h
    obtain ⟨hleft₃, hjumped₃, hmem₃⟩ := h₂.left hleft₂
    exact ⟨hleft₃, hjumped₃.trans hjumped₂, hmem₃.trans hmem₂⟩
  send := by
    intro s b s' h
    cases s with
    | mk pc mem stored jumped =>
      cases pc with
      | challenge | ack cmd addr len | writeStr addr len i | eot =>
        cases h
        exact .loop id (List.prefix_refl _) rfl
      | exec addr =>
        cases h
        exact ⟨List.prefix_refl _, fun h => h.elim, fun _ _ => trivial⟩
      | invoked output ret =>
        cases output with
        | nil =>
          cases h
          exact .behind _ trivial
        | cons _ _ =>
          cases h
          exact .behind _ trivial
      | writeRet ret i =>
        cases h
        refine .behind _ ?_
        by_cases hi : i + 1 < 4
        · rw [if_pos hi]
          trivial
        · rw [if_neg hi]
          trivial
      | _ => cases h
  recv := by
    intro s next b h
    cases s with
    | mk pc mem stored jumped =>
      cases pc with
      | check | cmd | readWord got operand =>
        cases h
        exact .loop id (List.prefix_refl _) rfl
      | readStr addr len i =>
        cases h
        exact .loop id (List.prefix_append _ _) rfl
      | invoked output ret =>
        cases output with
        | nil => cases h
        | cons _ _ => cases h
      | _ => cases h

end Cheshire.Sw
