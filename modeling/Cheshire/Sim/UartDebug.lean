import Cheshire.Sw.UartDebug

/-!
# `uart_debug_rw`

The testbench side of the UART debug protocol: the tasks as the sequence of their
accesses to the UART, and the reader process that receives each byte and gives it to
`uart_boot_scoop` where one waits.

The statements of the testbench between two accesses take no time, so a task that is
resumed waits again before the next byte is received. `resume` goes on over a
`wait (uart_boot_eoc == 1)` that does not have to wait.
-/

namespace Cheshire.Sim.Uart

open Channel Transition Cheshire.Sw
open Span (Byte Address Memory nth store)

/-- The accesses that the tasks make, one at a time. -/
inductive Op where
  /-- `uart_write_byte`. -/
  | send (b : Byte)
  /-- `uart_boot_scoop_expect`. -/
  | expect (b : Byte)
  /-- `uart_boot_scoop`, and `push_back` to the queue of call `k`. -/
  | scoop (k : Nat)
  /-- `wait (uart_boot_eoc == 1)`, `uart_boot_eoc = 0`. -/
  | waitEoc
  /-- `uart_boot_scoop(exit_code[8*i +: 8])`. -/
  | scoopExit (i : Nat)
  deriving DecidableEq

structure Vip where
  /-- What the tasks have yet to do. -/
  ops : List Op
  /-- `uart_boot_eoc`. -/
  eoc : Bool
  /-- The queue of each call. -/
  data : Nat → List Byte
  /-- The bytes of `exit_code`. -/
  exitCode : Nat → Byte
  /-- What the reader got while nothing was to be scooped. -/
  console : List Byte
  /-- `$fatal`. -/
  failed : Bool

def resume (v : Vip) : Vip :=
  match v.ops with
  | .waitEoc :: ops => if v.eoc then { v with eoc := false, ops := ops } else v
  | _ => v

/-- The tasks write a byte if that is what they do next. -/
def vipSpeak (v : Vip) : Option (Byte × Vip) :=
  match v.ops with
  | .send b :: ops => some (b, resume { v with ops := ops })
  | _ => none

/-- The reader receives a byte; `uart_boot_ena` is set in the first three cases. -/
def vipHear (v : Vip) (b : Byte) : Vip :=
  match v.ops with
  | .expect e :: ops =>
    if b ≠ e then { v with ops := [], failed := true } else resume { v with ops := ops }
  | .scoop k :: ops => resume { v with ops := ops, data := upd v.data k (v.data k ++ [b]) }
  | .scoopExit i :: ops => resume { v with ops := ops, exitCode := upd v.exitCode i b }
  | _ =>
    let v := { v with console := v.console ++ [b] }
    if b = uartDebugEoc then resume { v with eoc := true } else v

/-- One call of `uart_debug_rw`. The `int` of its loop counts to the length. -/
structure Call where
  addr : Address
  lenOrW : BitVec 64
  data : List Byte
  lenOrW_lt : lenOrW.toNat < 2 ^ 31
  size_lt : data.length < 2 ^ 31

/-- `len_or_w ? len_or_w : data.size()`. -/
def Call.len (c : Call) : Nat := if c.lenOrW ≠ 0 then c.lenOrW.toNat else c.data.length

/-- `uart_debug_rw`, as call `k`: the command, its operands and the data. -/
def uartDebugRw (k : Nat) (c : Call) : List Op :=
  [.send (if c.lenOrW ≠ 0 then uartDebugCmdRead else uartDebugCmdWrite)] ++
  (wordBytes c.addr).map .send ++
  (wordBytes (BitVec.ofNat 64 c.len)).map .send ++
  [.expect uartDebugAck] ++
  (List.range c.len).map (fun i => if c.lenOrW ≠ 0 then .scoop k else .send (c.data.getD i 0)) ++
  [.expect uartDebugEot]

/-- A sequence of calls, from call `k` on. -/
def uartCalls : Nat → List Call → List Op
  | _, [] => []
  | k, c :: calls => uartDebugRw k c ++ uartCalls (k + 1) calls

/-- The `ACK` challenge that a session starts with. -/
def uartChallenge : List Op := [.send uartDebugAck, .expect uartDebugAck]

/-- The EXEC command with its entry point, up to its acknowledgement. -/
def uartExec (entry : Address) : List Op :=
  [.send uartDebugCmdExec] ++ (wordBytes entry).map .send ++ [.expect uartDebugAck]

/-- The wait for the end of the computation and its return code of four bytes. -/
def uartWait : List Op := .waitEoc :: (List.range 4).map .scoopExit

/-- The testbench with `ops` to do; queue `k` holds what call `k` is given. -/
def vipStart (calls : List Call) (ops : List Op) : Vip where
  ops := ops
  eoc := false
  data := fun k => (calls[k]?.map Call.data).getD []
  exitCode := fun _ => 0
  console := []
  failed := false

/-- The boot ROM in the loop that checks for the challenge. -/
def serverStart (m : Memory) : Server where
  pc := .check
  mem := m
  stored := []
  jumped := none

/-- The tasks and the server, with the UART between them as two queues. -/
def uartPair (invoke : Address → Memory → Program) : Pair Vip Server Byte where
  speak := vipSpeak
  hear := vipHear
  serve := uartDebugServe invoke

abbrev UartLink := Link Vip Server Byte

/-- The calls after the challenge, and then `tail`. -/
def uartStart (calls : List Call) (tail : List Op) (m : Memory) : UartLink where
  client := vipStart calls (uartChallenge ++ uartCalls 0 calls ++ tail)
  server := serverStart m
  up := []
  down := []

/-! ## What the calls are to do -/

/-- Memory after a call, which a read leaves as it is. -/
def Call.memory (c : Call) (m : Memory) : Memory :=
  if c.lenOrW ≠ 0 then m else store m c.addr (fun i => c.data.getD i 0) c.data.length

/-- The queue of a call after it: its data, with what a read has pushed behind them. -/
def Call.result (c : Call) (m : Memory) : List Byte :=
  if c.lenOrW ≠ 0 then c.data ++ (List.range c.lenOrW.toNat).map fun i => m (nth c.addr i)
  else c.data

def memoryAfter (calls : List Call) (m : Memory) : Memory := calls.foldl (fun m c => c.memory m) m

/-- The client is about to start call `k`. -/
def Between (calls : List Call) (tail : List Op) (k : Nat) (l : UartLink) : Prop :=
  l.client.ops = uartCalls k (calls.drop k) ++ tail

variable {invoke : Address → Memory → Program} {v : Vip} {s s' : Server} {ops : List Op}
  {queue out : List Byte}

/-! ## Moves of the client -/

/-- The list does not start with a wait for the end of a program. -/
def Ready (ops : List Op) : Prop := ops.head? ≠ some .waitEoc

theorem ready_send (b : Byte) (ops : List Op) : Ready (.send b :: ops) := nofun

theorem ready_expect (b : Byte) (ops : List Op) : Ready (.expect b :: ops) := nofun

theorem ready_scoop (k : Nat) (ops : List Op) : Ready (.scoop k :: ops) := nofun

theorem resume_eq (v : Vip) (h : Ready ops) :
    resume { v with ops := ops } = { v with ops := ops } := by
  unfold resume
  cases ops with
  | nil => rfl
  | cons op ops =>
    cases op with
    | waitEoc => exact absurd rfl h
    | _ => rfl

theorem next_send (v : Vip) {b : Byte} (h : Ready ops)
    (hans : Answers (uartDebugServe invoke) s [b] out s') :
    (uartPair invoke).Next ⟨{ v with ops := .send b :: ops }, s, []⟩
      ⟨{ v with ops := ops }, s', out⟩ := by
  rw [← resume_eq v h]
  exact .speak rfl hans

theorem next_expect (v : Vip) {b : Byte} (h : Ready ops) :
    (uartPair invoke).Next ⟨{ v with ops := .expect b :: ops }, s, b :: queue⟩
      ⟨{ v with ops := ops }, s, queue⟩ := by
  have hhear : vipHear { v with ops := .expect b :: ops } b = { v with ops := ops } := by
    refine Eq.trans ?_ (resume_eq v h)
    exact if_neg fun hne => hne rfl
  rw [← hhear]
  exact .hear rfl

theorem next_scoop (v : Vip) {k : Nat} {b : Byte} (h : Ready ops) :
    (uartPair invoke).Next ⟨{ v with ops := .scoop k :: ops }, s, b :: queue⟩
      ⟨{ v with ops := ops, data := upd v.data k (v.data k ++ [b]) }, s, queue⟩ := by
  have hhear : vipHear { v with ops := .scoop k :: ops } b
      = { v with ops := ops, data := upd v.data k (v.data k ++ [b]) } :=
    resume_eq { v with data := upd v.data k (v.data k ++ [b]) } h
  rw [← hhear]
  exact .hear rfl

/-- Bytes without an answer. -/
theorem path_quiet (v : Vip) (h : Ready ops) : ∀ (bs : List Byte) {s : Server},
    Answers (uartDebugServe invoke) s bs [] s' →
    (uartPair invoke).Path ⟨{ v with ops := bs.map .send ++ ops }, s, []⟩
      ⟨{ v with ops := ops }, s', []⟩
  | [], s, hans => by
    cases hans with
    | idle _ => exact .refl _ _
  | b :: bs, s, hans => by
    obtain ⟨s₁, hfirst, hrest⟩ := hans.quiet_cons
    have hready : Ready (bs.map .send ++ ops) := by
      cases bs with
      | nil => exact h
      | cons _ _ => exact ready_send _ _
    exact .head (next_send v hready hfirst) (path_quiet v h bs hrest)

/-- A client that scoops takes the bytes of the server's answer one by one and appends them to
its queue `k`. -/
theorem path_scoops (k : Nat) (h : Ready ops) : ∀ (bs : List Byte) (v : Vip),
    (uartPair invoke).Path
      ⟨{ v with ops := List.replicate bs.length (.scoop k) ++ ops }, s, bs ++ queue⟩
      ⟨{ v with ops := ops, data := upd v.data k (v.data k ++ bs) }, s, queue⟩
  | [], v => by
    have hsame : upd v.data k (v.data k ++ []) = v.data := by
      funext j
      by_cases hj : j = k
      · rw [hj, upd_self, List.append_nil]
      · rw [upd_ne _ _ hj]
    rw [hsame]
    exact .refl _ _
  | b :: bs, v => by
    have hready : Ready (List.replicate bs.length (.scoop k) ++ ops) := by
      cases bs with
      | nil => exact h
      | cons _ _ => exact ready_scoop _ _
    have hrest := path_scoops k h bs { v with data := upd v.data k (v.data k ++ [b]) }
    have hdata : upd (upd v.data k (v.data k ++ [b])) k (upd v.data k (v.data k ++ [b]) k ++ bs)
        = upd v.data k (v.data k ++ b :: bs) := by
      funext j
      by_cases hj : j = k
      · rw [hj, upd_self, upd_self, upd_self, ← List.append_cons]
      · rw [upd_ne _ _ hj, upd_ne _ _ hj, upd_ne _ _ hj]
    simp only [hdata] at hrest
    exact .head (next_scoop v hready) hrest

/-! ## One call -/

/-- A command and its operands; the server answers the last byte. -/
theorem path_command (v : Vip) (s : Server) {cmd : Byte}
    (hcmd : cmd = uartDebugCmdRead ∨ cmd = uartDebugCmdWrite) (addr len : BitVec 64) (h : Ready ops)
    (hans : Answers (uartDebugServe invoke) { s with pc := .ack cmd addr len } [] out s') :
    (uartPair invoke).Path
      ⟨{ v with ops := [.send cmd] ++ (wordBytes addr).map .send ++ (wordBytes len).map .send ++ ops },
        { s with pc := .cmd }, []⟩
      ⟨{ v with ops := ops }, s', out⟩ := by
  have hops : [Op.send cmd] ++ (wordBytes addr).map .send ++ (wordBytes len).map .send ++ ops
      = ([cmd] ++ wordBytes addr ++ wordPart len).map .send
        ++ .send (len.extractLsb' 56 8) :: ops := by
    rw [wordBytes_eq len]
    simp only [List.map_append, List.map_cons, List.map_nil, List.append_assoc, List.cons_append,
      List.nil_append]
  rw [hops]
  refine (path_quiet v (ready_send _ _) _ (command_part hcmd s addr len)).trans ?_
  exact .head (next_send v h (readWord_last len hans)) (.refl _ _)

/-- The server after a call, ready for the next command. -/
def Call.server (c : Call) (s : Server) : Server :=
  if c.lenOrW ≠ 0 then { s with pc := .cmd }
  else s.write c.addr (fun i => c.data.getD i 0) c.data.length .cmd

theorem range'_zero (n : Nat) : List.range' 0 n = List.range n := List.range_eq_range'.symm

theorem path_read (k : Nat) (c : Call) (v : Vip) (s : Server) (h : Ready ops) (hread : c.lenOrW ≠ 0)
    (hdata : v.data k = c.data) :
    (uartPair invoke).Path ⟨{ v with ops := uartDebugRw k c ++ ops }, { s with pc := .cmd }, []⟩
      ⟨{ v with ops := ops, data := upd v.data k (c.result s.mem) }, c.server s, []⟩ := by
  have hlen : c.len = c.lenOrW.toNat := if_pos hread
  have hword : BitVec.ofNat 64 c.lenOrW.toNat = c.lenOrW := by
    rw [BitVec.ofNat_toNat, BitVec.setWidth_eq]
  -- all of the answer is there before the client hears of it
  have hans : Answers (uartDebugServe invoke)
      { s with pc := .ack uartDebugCmdRead c.addr c.lenOrW } []
      (uartDebugAck :: ((List.range c.lenOrW.toNat).map (fun j => s.mem (nth c.addr j))
        ++ [uartDebugEot])) { s with pc := .cmd } := by
    refine .write rfl ?_
    rw [← range'_zero]
    exact writeStr_answers s c.addr c.lenOrW c.lenOrW.toNat 0 (Nat.zero_add _)
  have hops : uartDebugRw k c ++ ops
      = [.send uartDebugCmdRead] ++ (wordBytes c.addr).map .send ++ (wordBytes c.lenOrW).map .send
        ++ (.expect uartDebugAck :: (List.replicate c.lenOrW.toNat (.scoop k)
          ++ .expect uartDebugEot :: ops)) := by
    unfold uartDebugRw
    simp only [if_pos hread, hlen, hword, List.map_const', List.length_range, List.append_assoc,
      List.cons_append, List.nil_append]
  have hscoops := @path_scoops invoke { s with pc := .cmd } (.expect uartDebugEot :: ops)
    [uartDebugEot] k (ready_expect _ _)
    ((List.range c.lenOrW.toNat).map fun j => s.mem (nth c.addr j)) v
  rw [List.length_map, List.length_range] at hscoops
  have hresult : c.result s.mem
      = v.data k ++ (List.range c.lenOrW.toNat).map fun j => s.mem (nth c.addr j) := by
    rw [hdata]
    exact if_pos hread
  have hserver : c.server s = { s with pc := .cmd } := if_pos hread
  have hready : Ready (List.replicate c.lenOrW.toNat (Op.scoop k)
      ++ .expect uartDebugEot :: ops) := by
    cases c.lenOrW.toNat with
    | zero => exact ready_expect _ _
    | succ n => exact ready_scoop _ _
  rw [hops, hresult, hserver]
  refine (path_command v s (Or.inl rfl) c.addr c.lenOrW (ready_expect _ _) hans).trans
    (.head (next_expect v hready) (hscoops.trans (.head ?_ (.refl _ _))))
  exact next_expect { v with data := upd v.data k _ } h

/-- The data of a WRITE. With none the server is at the end at once. -/
theorem path_data (v : Vip) (s : Server) (addr : Address) (d : Nat → Byte) {n : Nat}
    (hn : n < 2 ^ 31) (h : Ready ops) :
    ∃ s₁ out, Answers (uartDebugServe invoke) { s with pc := uartReadStr addr (BitVec.ofNat 64 n) 0 }
        [] out s₁ ∧
      (uartPair invoke).Path
        ⟨{ v with ops := (List.range n).map (fun i => .send (d i)) ++ .expect uartDebugEot :: ops },
          s₁, out⟩
        ⟨{ v with ops := ops }, s.write addr d n .cmd, []⟩ := by
  cases n with
  | zero =>
    refine ⟨{ s with pc := .cmd }, [uartDebugEot], .write rfl (answers_idle rfl), ?_⟩
    rw [write_zero]
    exact .head (next_expect v h) (.refl _ _)
  | succ n =>
    have hlen : (BitVec.ofNat 64 (n + 1)).toNat = n + 1 := by
      rw [BitVec.toNat_ofNat]
      exact Nat.mod_eq_of_lt (by omega)
    have hstart : uartReadStr addr (BitVec.ofNat 64 (n + 1)) 0
        = .readStr addr (BitVec.ofNat 64 (n + 1)) 0 := by
      refine if_pos ?_
      rw [BitVec.lt_def, hlen]
      exact Nat.succ_pos n
    have hops : (List.range (n + 1)).map (fun i => Op.send (d i)) ++ .expect uartDebugEot :: ops
        = ((List.range n).map d).map .send ++ .send (d n) :: .expect uartDebugEot :: ops := by
      rw [List.range_succ, List.map_append, List.map_map, List.append_assoc]
      rfl
    refine ⟨_, [], by rw [hstart]; exact answers_idle rfl, ?_⟩
    rw [hops, ← write_zero s addr d]
    have hpart := @readStr_part invoke s addr (BitVec.ofNat 64 (n + 1)) d n (by omega)
    refine (path_quiet v (ready_send _ _) _ hpart).trans ?_
    refine .head (next_send v (ready_expect _ _) (readStr_last s addr _ d hlen.symm)) ?_
    exact .head (next_expect v h) (.refl _ _)

theorem path_write (k : Nat) (c : Call) (v : Vip) (s : Server) (h : Ready ops)
    (hwrite : c.lenOrW = 0) (hdata : v.data k = c.data) :
    (uartPair invoke).Path ⟨{ v with ops := uartDebugRw k c ++ ops }, { s with pc := .cmd }, []⟩
      ⟨{ v with ops := ops, data := upd v.data k (c.result s.mem) }, c.server s, []⟩ := by
  have hlen : c.len = c.data.length := if_neg (not_not.mpr hwrite)
  have hresult : upd v.data k (c.result s.mem) = v.data := by
    have hsame : c.result s.mem = c.data := if_neg (not_not.mpr hwrite)
    funext j
    by_cases hj : j = k
    · rw [hj, upd_self, hsame, hdata]
    · rw [upd_ne _ _ hj]
  have hserver : c.server s = s.write c.addr (fun i => c.data.getD i 0) c.data.length .cmd :=
    if_neg (not_not.mpr hwrite)
  have hops : uartDebugRw k c ++ ops
      = [.send uartDebugCmdWrite] ++ (wordBytes c.addr).map .send
        ++ (wordBytes (BitVec.ofNat 64 c.data.length)).map .send
        ++ (.expect uartDebugAck :: ((List.range c.data.length).map
            (fun i => .send (c.data.getD i 0)) ++ .expect uartDebugEot :: ops)) := by
    unfold uartDebugRw
    simp only [hwrite, hlen, ne_eq, not_true_eq_false, if_false, List.append_assoc,
      List.cons_append, List.nil_append]
  have hready : Ready ((List.range c.data.length).map (fun i => Op.send (c.data.getD i 0))
      ++ .expect uartDebugEot :: ops) := by
    cases c.data.length with
    | zero => exact ready_expect _ _
    | succ n =>
      rw [List.range_succ_eq_map]
      exact ready_send _ _
  obtain ⟨s₁, out, hans, hpath⟩ := @path_data invoke ops v s c.addr (fun i => c.data.getD i 0)
    c.data.length c.size_lt h
  rw [hops, hresult, hserver]
  refine (path_command v s (Or.inr rfl) c.addr _ (ready_expect _ _) (.write rfl hans)).trans ?_
  exact .head (next_expect v hready) hpath

/-- A call does what it is to do, and leaves both sides ready for the next one. -/
theorem path_call (k : Nat) (c : Call) (v : Vip) (s : Server) (h : Ready ops)
    (hdata : v.data k = c.data) :
    (uartPair invoke).Path ⟨{ v with ops := uartDebugRw k c ++ ops }, { s with pc := .cmd }, []⟩
      ⟨{ v with ops := ops, data := upd v.data k (c.result s.mem) }, c.server s, []⟩ := by
  by_cases hread : c.lenOrW = 0
  · exact path_write k c v s h hread hdata
  · exact path_read k c v s h hread hdata

/-! ## A sequence of calls -/

/-- The queues after the calls from call `k` on. -/
def callsData : Nat → List Call → Memory → (Nat → List Byte) → Nat → List Byte
  | _, [], _, data => data
  | k, c :: calls, m, data => callsData (k + 1) calls (c.memory m) (upd data k (c.result m))

def callsServer (calls : List Call) (s : Server) : Server := calls.foldl (fun s c => c.server s) s

theorem server_pc (c : Call) (s : Server) : (c.server s).pc = .cmd := by
  unfold Call.server
  split
  next => rfl
  next => rfl

theorem server_mem (c : Call) (s : Server) : (c.server s).mem = c.memory s.mem := by
  unfold Call.server Call.memory
  split
  next => rfl
  next => rfl

theorem callsServer_pc : ∀ (calls : List Call) (s : Server), s.pc = .cmd →
    (callsServer calls s).pc = .cmd
  | [], _, h => h
  | c :: calls, s, _ => callsServer_pc calls (c.server s) (server_pc c s)

theorem callsServer_mem : ∀ (calls : List Call) (s : Server),
    (callsServer calls s).mem = memoryAfter calls s.mem
  | [], _ => rfl
  | c :: calls, s => by
    refine (callsServer_mem calls (c.server s)).trans ?_
    rw [server_mem]
    rfl

theorem callsData_lt {j : Nat} : ∀ (calls : List Call) (k : Nat) (m : Memory)
    (data : Nat → List Byte), j < k → callsData k calls m data j = data j
  | [], _, _, _, _ => rfl
  | c :: calls, k, m, data, h => by
    refine (callsData_lt calls (k + 1) _ _ (Nat.lt_succ_of_lt h)).trans ?_
    exact upd_ne _ _ (Nat.ne_of_lt h)

/-- The queue of a call has what the call returned. -/
theorem callsData_result : ∀ (calls : List Call) (k : Nat) (m : Memory) (data : Nat → List Byte)
    (j : Nat) (c : Call), calls[j]? = some c →
    callsData k calls m data (k + j) = c.result (memoryAfter (calls.take j) m)
  | [], _, _, _, _, _, h => by cases h
  | c :: calls, k, m, data, 0, c', h => by
    cases h
    exact (callsData_lt calls (k + 1) _ _ (Nat.lt_succ_self k)).trans (upd_self _ _ _)
  | c :: calls, k, m, data, j + 1, c', h => by
    have ih := callsData_result calls (k + 1) (c.memory m) (upd data k (c.result m)) j c' h
    rw [show k + (j + 1) = k + 1 + j by omega]
    exact ih

theorem uartCalls_append : ∀ (xs ys : List Call) (k : Nat),
    uartCalls k (xs ++ ys) = uartCalls k xs ++ uartCalls (k + xs.length) ys
  | [], _, _ => rfl
  | x :: xs, ys, k => by
    have ih := uartCalls_append xs ys (k + 1)
    rw [List.length_cons, show k + (xs.length + 1) = k + 1 + xs.length by omega]
    show uartDebugRw k x ++ uartCalls (k + 1) (xs ++ ys)
      = uartDebugRw k x ++ uartCalls (k + 1) xs ++ uartCalls (k + 1 + xs.length) ys
    rw [ih, List.append_assoc]

theorem ready_calls (k : Nat) (calls : List Call) (h : Ready ops) :
    Ready (uartCalls k calls ++ ops) := by
  cases calls with
  | nil => exact h
  | cons _ _ => exact ready_send _ _

theorem path_calls (h : Ready ops) : ∀ (calls : List Call) (k : Nat) (v : Vip) (s : Server),
    s.pc = .cmd → (∀ j c, calls[j]? = some c → v.data (k + j) = c.data) →
    (uartPair invoke).Path ⟨{ v with ops := uartCalls k calls ++ ops }, s, []⟩
      ⟨{ v with ops := ops, data := callsData k calls s.mem v.data }, callsServer calls s, []⟩
  | [], _, v, s, _, _ => .refl _ _
  | c :: calls, k, v, s, hpc, hdata => by
    have hs : { s with pc := .cmd } = s := by
      rw [← hpc]
    have hcall := @path_call invoke (uartCalls (k + 1) calls ++ ops) k c v s
      (ready_calls (k + 1) calls h) (hdata 0 c rfl)
    have hrest := path_calls h calls (k + 1) { v with data := upd v.data k (c.result s.mem) }
      (c.server s) (server_pc c s) fun j c' hc' => by
        refine (upd_ne _ _ (by omega)).trans ?_
        rw [show k + 1 + j = k + (j + 1) by omega]
        exact hdata (j + 1) c' hc'
    rw [hs, ← List.append_assoc] at hcall
    rw [server_mem] at hrest
    exact hcall.trans hrest

end Cheshire.Sim.Uart
