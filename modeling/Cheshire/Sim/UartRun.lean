import Cheshire.Sim.UartDebug

/-!
# Runs of the UART debug protocol

`between` is the state between two calls in the order in which the server answers at
once. No other order gets to the same point of the client in another state
(`at_between`): the client never listens where it does not wait for a byte, so
nothing it should get is lost to the console.
-/

namespace Cheshire.Sim.Uart

open Channel Transition Cheshire.Sw
open Span (Byte Address Memory nth store)

variable {invoke : Address → Memory → Program} {v v' : Vip} {s s' : Server} {ops tail : List Op}
  {calls : List Call} {m : Memory} {k : Nat} {l : UartLink} {w : View Vip Server Byte}

/-! ## The client's part -/

/-- Either nothing is resumed, or the wait for the end of the computation that comes first is
over. -/
theorem resume_cases (v : Vip) :
    resume v = v ∨ ∃ ops, v.ops = .waitEoc :: ops ∧ resume v = { v with eoc := false, ops := ops } := by
  unfold resume
  split
  next ops hops =>
    split
    next => exact Or.inr ⟨ops, hops, rfl⟩
    next => exact Or.inl rfl
  next => exact Or.inl rfl

theorem resume_ops (v : Vip) : (resume v).ops.length ≤ v.ops.length := by
  rcases resume_cases v with h | ⟨ops, hops, h⟩
  · exact Nat.le_of_eq (congrArg (fun v => v.ops.length) h)
  · rw [h, hops]
    exact Nat.le_succ _

theorem resume_console (v : Vip) : (resume v).console = v.console := by
  rcases resume_cases v with h | ⟨ops, _, h⟩
  · rw [h]
  · rw [h]

theorem resume_failed (v : Vip) : (resume v).failed = v.failed := by
  rcases resume_cases v with h | ⟨ops, _, h⟩
  · rw [h]
  · rw [h]

theorem speak_spec {b : Byte} (h : vipSpeak v = some (b, v')) :
    v'.ops.length < v.ops.length ∧ v'.console = v.console ∧ v'.failed = v.failed := by
  unfold vipSpeak at h
  split at h
  next ops hops =>
    cases h
    refine ⟨?_, resume_console _, resume_failed _⟩
    rw [hops]
    exact Nat.lt_succ_of_le (resume_ops _)
  next => cases h

/-- A byte that is heard ends an operation or goes to the console, and a failure stays recorded. -/
theorem hear_spec (v : Vip) (b : Byte) :
    ((vipHear v b).ops.length < v.ops.length ∧ (vipHear v b).console = v.console ∨
      (vipHear v b).ops.length ≤ v.ops.length ∧ (vipHear v b).console = v.console ++ [b]) ∧
    (v.failed = true → (vipHear v b).failed = true) := by
  unfold vipHear
  split
  next e ops hops =>
    rw [hops]
    by_cases hb : b ≠ e
    · rw [if_pos hb]
      exact ⟨Or.inl ⟨Nat.succ_pos _, rfl⟩, fun _ => rfl⟩
    · rw [if_neg hb]
      exact ⟨Or.inl ⟨Nat.lt_succ_of_le (resume_ops _), resume_console _⟩,
        fun h => (resume_failed _).trans h⟩
  next k ops hops =>
    rw [hops]
    exact ⟨Or.inl ⟨Nat.lt_succ_of_le (resume_ops _), resume_console _⟩,
      fun h => (resume_failed _).trans h⟩
  next i ops hops =>
    rw [hops]
    exact ⟨Or.inl ⟨Nat.lt_succ_of_le (resume_ops _), resume_console _⟩,
      fun h => (resume_failed _).trans h⟩
  next =>
    by_cases hb : b = uartDebugEoc
    · simp only [if_pos hb]
      exact ⟨Or.inr ⟨resume_ops _, resume_console _⟩, fun h => (resume_failed _).trans h⟩
    · rw [if_neg hb]
      exact ⟨Or.inr ⟨Nat.le_refl _, rfl⟩, id⟩

/-- Each move leaves less to do, or more on the console. -/
def distance (v : View Vip Server Byte) : Int := v.client.ops.length - v.client.console.length

theorem next_distance (v w : View Vip Server Byte) (h : (uartPair invoke).Next v w) :
    distance w < distance v := by
  unfold distance
  cases h with
  | speak hspeak _ =>
    obtain ⟨hlt, hconsole, _⟩ := speak_spec hspeak
    simp only [hconsole]
    omega
  | @hear c s b queue _ =>
    show ((vipHear c b).ops.length : Int) - (vipHear c b).console.length < _
    rcases (hear_spec c b).1 with ⟨hlt, hconsole⟩ | ⟨hle, hconsole⟩
    · simp only [hconsole]
      omega
    · simp only [hconsole, List.length_append, List.length_singleton]
      omega

/-- Nothing on the console at the end is nothing on it before. -/
theorem console_back {v w : View Vip Server Byte} (h : (uartPair invoke).Path v w)
    (hw : w.client.console = []) : v.client.console = [] := by
  refine @Pair.Path.client_back _ _ _ _ v w (fun c => c.console = []) ?_ ?_ h hw
  · intro c b c' hspeak hc'
    exact (speak_spec hspeak).2.1.symm.trans hc'
  · intro c b hc
    rcases (hear_spec c b).1 with ⟨_, hconsole⟩ | ⟨_, hconsole⟩
    · exact hconsole.symm.trans hc
    · exact absurd (hconsole.symm.trans hc) (List.append_ne_nil_of_right_ne_nil _ nofun)

theorem failed_back {v w : View Vip Server Byte} (h : (uartPair invoke).Path v w)
    (hw : w.client.failed = false) : v.client.failed = false := by
  refine @Pair.Path.client_back _ _ _ _ v w (fun c => c.failed = false) ?_ ?_ h hw
  · intro c b c' hspeak hc'
    exact (speak_spec hspeak).2.2.symm.trans hc'
  · intro c b hc
    by_contra hfailed
    have hkept := (hear_spec c b).2 (eq_true_of_ne_false hfailed)
    exact Bool.false_ne_true (hc.symm.trans hkept)

theorem ops_le {v w : View Vip Server Byte} (h : (uartPair invoke).Path v w) :
    w.client.ops.length ≤ v.client.ops.length := by
  refine @Pair.Path.client_back _ _ _ _ v w (fun c => w.client.ops.length ≤ c.ops.length) ?_ ?_ h
    (Nat.le_refl _)
  · intro c b c' hspeak hc'
    have hlt := (speak_spec hspeak).1
    omega
  · intro c b hc
    replace hc : w.client.ops.length ≤ (vipHear c b).ops.length := hc
    rcases (hear_spec c b).1 with ⟨hlt, _⟩ | ⟨hle, _⟩
    · omega
    · omega

/-! ## Between two calls -/

theorem path_challenge (v : Vip) (m : Memory) (h : Ready ops) :
    (uartPair invoke).Path ⟨{ v with ops := uartChallenge ++ ops }, serverStart m, []⟩
      ⟨{ v with ops := ops }, { serverStart m with pc := .cmd }, []⟩ := by
  have hans : Answers (uartDebugServe invoke) (serverStart m) [uartDebugAck] [uartDebugAck]
      { serverStart m with pc := .cmd } :=
    .read rfl (.write rfl (answers_idle rfl))
  exact .head (next_send v (ready_expect _ _) hans) (.head (next_expect v h) (.refl _ _))

/-- Call `k` is next, and all before it have been made. -/
def between (calls : List Call) (tail : List Op) (m : Memory) (k : Nat) : View Vip Server Byte where
  client := { vipStart calls (uartCalls k (calls.drop k) ++ tail) with
    data := callsData 0 (calls.take k) m (vipStart calls tail).data }
  server := callsServer (calls.take k) { serverStart m with pc := .cmd }
  queue := []

/-- The start, as a state of the one order. -/
def start (calls : List Call) (tail : List Op) (m : Memory) : View Vip Server Byte where
  client := vipStart calls (uartChallenge ++ uartCalls 0 calls ++ tail)
  server := serverStart m
  queue := []

theorem getElem?_of_take {α : Type} {xs : List α} {i j : Nat} {a : α}
    (h : (xs.take i)[j]? = some a) : j < i ∧ xs[j]? = some a := by
  rw [List.getElem?_take] at h
  split at h
  next hlt => exact ⟨hlt, h⟩
  next => cases h

theorem path_between (htail : Ready tail) (hk : k ≤ calls.length) :
    (uartPair invoke).Path (start calls tail m) (between calls tail m k) := by
  have hops : uartCalls 0 calls = uartCalls 0 (calls.take k) ++ uartCalls k (calls.drop k) := by
    conv_lhs => rw [← List.take_append_drop k calls]
    rw [uartCalls_append, List.length_take, Nat.min_eq_left hk, Nat.zero_add]
  have hready := ready_calls k (calls.drop k) htail
  have hcalls := @path_calls invoke (uartCalls k (calls.drop k) ++ tail) hready (calls.take k) 0
    (vipStart calls []) { serverStart m with pc := .cmd } rfl (by
      intro j c hc
      show ((calls[0 + j]?).map Call.data).getD [] = c.data
      rw [Nat.zero_add, (getElem?_of_take hc).2]
      rfl)
  have hchallenge := @path_challenge invoke
    (uartCalls 0 (calls.take k) ++ (uartCalls k (calls.drop k) ++ tail)) (vipStart calls []) m
    (ready_calls 0 (calls.take k) hready)
  have hstart : uartChallenge ++ uartCalls 0 calls ++ tail = uartChallenge
      ++ (uartCalls 0 (calls.take k) ++ (uartCalls k (calls.drop k) ++ tail)) := by
    rw [hops]
    simp only [List.append_assoc]
  unfold start
  rw [hstart]
  exact hchallenge.trans hcalls

theorem between_pc (calls : List Call) (tail : List Op) (m : Memory) (k : Nat) :
    (between calls tail m k).server.pc = .cmd := callsServer_pc _ _ rfl

theorem between_mem (calls : List Call) (tail : List Op) (m : Memory) (k : Nat) :
    (between calls tail m k).server.mem = memoryAfter (calls.take k) m := callsServer_mem _ _

theorem between_data (calls : List Call) (tail : List Op) (m : Memory) {j k : Nat} {c : Call}
    (hj : j < k) (hc : calls[j]? = some c) :
    (between calls tail m k).client.data j = c.result (memoryAfter (calls.take j) m) := by
  have htake : (calls.take k)[j]? = some c := by
    rw [List.getElem?_take, if_pos hj, hc]
  have hdata := callsData_result (calls.take k) 0 m (vipStart calls tail).data j c htake
  rw [Nat.zero_add, List.take_take, Nat.min_eq_left (Nat.le_of_lt hj)] at hdata
  exact hdata

/-- Behind the last call. -/
theorem between_length (calls : List Call) (tail : List Op) (m : Memory) :
    between calls tail m calls.length
      = ⟨{ (between calls [] m calls.length).client with ops := tail },
        (between calls [] m calls.length).server, []⟩ := by
  unfold between
  simp only [List.drop_length]
  rfl

/-- Of the states on the path only `between` is between the same calls. -/
theorem eq_between {v : View Vip Server Byte} (htail : Ready tail) (hk : k ≤ calls.length)
    (hv : (uartPair invoke).Path (start calls tail m) v)
    (hops : v.client.ops = uartCalls k (calls.drop k) ++ tail) : v = between calls tail m k := by
  have hb := @path_between invoke tail calls m k htail hk
  have hlength : v.client.ops.length = (between calls tail m k).client.ops.length :=
    congrArg List.length hops
  rcases hv.total hb with h | h
  · refine h.eq_of_measure next_distance ?_
    unfold distance
    rw [hlength, console_back h rfl]
    exact Int.le_refl _
  · -- the client would have gone on
    by_contra hne
    obtain ⟨u, hnext, hrest⟩ := h.next (Ne.symm hne)
    have hle := ops_le hrest
    have hqueue : (between calls tail m k).queue = [] := rfl
    generalize between calls tail m k = b at hnext hlength hqueue
    cases hnext with
    | speak hspeak _ =>
      have hlt := (speak_spec hspeak).1
      simp only at hlength hle
      omega
    | hear _ => exact absurd hqueue (List.cons_ne_nil _ _)

/-! ## Any run -/

/-- A run of a session that can end at `w`. -/
structure Session (invoke : Address → Memory → Program) (calls : List Call) (tail : List Op)
    (m : Memory) (w : View Vip Server Byte) : Prop where
  ready : Ready tail
  path : (uartPair invoke).Path (start calls tail m) w
  final : (uartPair invoke).Final w
  agrees : w.client.failed = false

theorem Session.settles (hs : Session invoke calls tail m w) {acts : List Turn}
    (hrun : run (uartPair invoke).step (uartStart calls tail m) acts = some l) :
    ∃ v, (uartPair invoke).Settles l v ∧ (uartPair invoke).Path (start calls tail m) v ∧
      (uartPair invoke).Path v w := by
  have hstart : (uartPair invoke).Settles (uartStart calls tail m) (start calls tail m) :=
    settles_link (waits_of_recv rfl)
  exact settles_run hs.path hs.final hstart hrun

/-- No expected byte is another one. -/
theorem Session.not_failed (hs : Session invoke calls tail m w) {acts : List Turn}
    (hrun : run (uartPair invoke).step (uartStart calls tail m) acts = some l) :
    l.client.failed = false := by
  obtain ⟨v, ⟨hclient, _⟩, _, hvw⟩ := hs.settles hrun
  rw [← hclient]
  exact failed_back hvw hs.agrees

/-- A client that is between two calls finds the server ready, and nothing on its way. -/
theorem Session.at_between (hs : Session invoke calls tail m w) {acts : List Turn}
    (hrun : run (uartPair invoke).step (uartStart calls tail m) acts = some l)
    (hk : k ≤ calls.length) (hl : Between calls tail k l) : l = (between calls tail m k).link := by
  obtain ⟨v, ⟨hclient, out, hans, hqueue⟩, hv, _⟩ := hs.settles hrun
  have heq : v = between calls tail m k := eq_between hs.ready hk hv (by rw [hclient]; exact hl)
  subst heq
  obtain ⟨hdown, rfl⟩ := List.append_eq_nil_iff.mp hqueue.symm
  obtain ⟨hup, hserver⟩ := answers_cmd hans (between_pc calls tail m k)
  have hlink : l = ⟨l.client, l.server, l.up, l.down⟩ := rfl
  rw [hlink, ← hclient, hserver, hup, hdown]
  rfl

/-- The session can go on to its end from everywhere. -/
theorem Session.leads (hs : Session invoke calls tail m w) {acts : List Turn}
    (hrun : run (uartPair invoke).step (uartStart calls tail m) acts = some l) :
    Leads (uartPair invoke).step l w.link := by
  obtain ⟨v, hv, _, hvw⟩ := hs.settles hrun
  exact hv.leads hvw

/-- The calls alone, with nothing behind them, are a session that ends after the last call. -/
theorem calls_session (invoke : Address → Memory → Program) (calls : List Call) (m : Memory) :
    Session invoke calls [] m (between calls [] m calls.length) := by
  have hready : Ready [] := nofun
  have hops : (between calls [] m calls.length).client.ops = [] := by
    show uartCalls calls.length (calls.drop calls.length) ++ [] = []
    rw [List.drop_length, List.append_nil]
    rfl
  refine ⟨hready, path_between hready (Nat.le_refl _), ⟨?_, rfl⟩, rfl⟩
  show vipSpeak _ = none
  unfold vipSpeak
  rw [hops]

/-! ## EXEC -/

/-- The client only waits for the end of the program. -/
def Listening (ops : List Op) : Prop := ∀ op ∈ ops, op = .waitEoc ∨ ∃ i, op = .scoopExit i

theorem wait_listening : Listening uartWait := by
  intro op hop
  rcases List.mem_cons.mp hop with rfl | hop
  · exact Or.inl rfl
  · obtain ⟨i, _, rfl⟩ := List.mem_map.mp hop
    exact Or.inr ⟨i, rfl⟩

theorem speak_listening (h : Listening v.ops) : vipSpeak v = none := by
  unfold vipSpeak
  split
  next b ops hops =>
    rcases h (.send b) (hops ▸ List.mem_cons_self ..) with hb | ⟨i, hb⟩
    · cases hb
    · cases hb
  next => rfl

theorem resume_listening (h : Listening v.ops) : Listening (resume v).ops := by
  rcases resume_cases v with hv | ⟨ops, hops, hv⟩
  · rwa [hv]
  · rw [hv]
    exact fun op hop => h op (hops ▸ List.mem_cons_of_mem _ hop)

theorem hear_listening (h : Listening v.ops) (b : Byte) :
    Listening (vipHear v b).ops ∧ (vipHear v b).failed = v.failed := by
  unfold vipHear
  split
  next e ops hops =>
    rcases h (.expect e) (hops ▸ List.mem_cons_self ..) with hb | ⟨i, hb⟩
    · cases hb
    · cases hb
  next k ops hops =>
    rcases h (.scoop k) (hops ▸ List.mem_cons_self ..) with hb | ⟨i, hb⟩
    · cases hb
    · cases hb
  next i ops hops =>
    refine ⟨@resume_listening { v with ops := ops, exitCode := _ } fun op hop => ?_, resume_failed _⟩
    exact h op (hops ▸ List.mem_cons_of_mem _ hop)
  next =>
    by_cases hb : b = uartDebugEoc
    · simp only [if_pos hb]
      exact ⟨@resume_listening { v with console := _, eoc := true } h, resume_failed _⟩
    · rw [if_neg hb]
      exact ⟨h, rfl⟩

/-- A listening client hears all there is. -/
theorem path_hear (s : Server) : ∀ (queue : List Byte) (v : Vip), Listening v.ops →
    (uartPair invoke).Path ⟨v, s, queue⟩ ⟨queue.foldl vipHear v, s, []⟩ ∧
      Listening (queue.foldl vipHear v).ops ∧ (queue.foldl vipHear v).failed = v.failed
  | [], v, h => ⟨.refl _ _, h, rfl⟩
  | b :: queue, v, h => by
    obtain ⟨hlistening, hfailed⟩ := hear_listening h b
    obtain ⟨hpath, hrest, hfailed'⟩ := path_hear s queue (vipHear v b) hlistening
    exact ⟨.head (.hear (speak_listening h)) hpath, hrest, hfailed'.trans hfailed⟩

theorem next_expect_wait (v : Vip) {b : Byte} {queue : List Byte} (h : v.eoc = false) :
    (uartPair invoke).Next ⟨{ v with ops := .expect b :: uartWait }, s, b :: queue⟩
      ⟨{ v with ops := uartWait }, s, queue⟩ := by
  have hhear : vipHear { v with ops := .expect b :: uartWait } b = { v with ops := uartWait } := by
    refine (if_neg fun hne => hne rfl).trans ?_
    refine if_neg ?_
    rw [h]
    exact Bool.false_ne_true
  rw [← hhear]
  exact .hear rfl

theorem path_exec (entry : Address) (v : Vip) (s : Server) (hpc : s.pc = .cmd) (h : v.eoc = false) :
    (uartPair invoke).Path ⟨{ v with ops := uartExec entry ++ uartWait }, s, []⟩
      ⟨{ v with ops := uartWait },
        { s with pc := .returned ((invoke entry s.mem).ret.setWidth 32), jumped := some entry },
        (invoke entry s.mem).stream⟩ := by
  have hops : uartExec entry ++ uartWait = ([uartDebugCmdExec] ++ wordPart entry).map .send
      ++ .send (entry.extractLsb' 56 8) :: .expect uartDebugAck :: uartWait := by
    unfold uartExec
    rw [wordBytes_eq]
    simp only [List.map_append, List.map_cons, List.map_nil, List.append_assoc, List.cons_append,
      List.nil_append]
  have hoperand : uartDebugOperand (.addr uartDebugCmdExec) entry = .exec entry := by
    simp only [uartDebugOperand, if_true]
  have hs : { s with pc := .cmd } = s := by
    rw [← hpc]
  have hans := @exec_answers invoke s entry
  rw [← hoperand] at hans
  rw [hops]
  conv_lhs => rw [← hs]
  refine (path_quiet v (ready_send _ _) _ (exec_part s entry)).trans ?_
  exact .head (next_send v (ready_expect _ _) (readWord_last entry hans))
    (.head (next_expect_wait v h) (.refl _ _))

/-- The program at `entry`, with the memory the calls leave. -/
def executed (invoke : Address → Memory → Program) (calls : List Call) (entry : Address)
    (m : Memory) : Program := invoke entry (between calls [] m calls.length).server.mem

/-- The client of `uart_debug_elf_run_and_wait` as it starts to wait. -/
def waiting (calls : List Call) (m : Memory) : Vip :=
  { (between calls [] m calls.length).client with ops := uartWait }

/-- Both sides at the end of `uart_debug_elf_run_and_wait`. -/
def execEnd (invoke : Address → Memory → Program) (calls : List Call) (entry : Address)
    (m : Memory) : View Vip Server Byte where
  client := (executed invoke calls entry m).stream.foldl vipHear (waiting calls m)
  server := { (between calls [] m calls.length).server with
    pc := .returned ((executed invoke calls entry m).ret.setWidth 32), jumped := some entry }
  queue := []

theorem exec_session (invoke : Address → Memory → Program) (calls : List Call) (entry : Address)
    (m : Memory) :
    Session invoke calls (uartExec entry ++ uartWait) m (execEnd invoke calls entry m) := by
  have hready : Ready (uartExec entry ++ uartWait) := ready_send _ _
  have hbetween := @path_between invoke (uartExec entry ++ uartWait) calls m calls.length hready
    (Nat.le_refl _)
  have hexec := @path_exec invoke entry (between calls [] m calls.length).client
    (between calls [] m calls.length).server (between_pc calls [] m calls.length) rfl
  rw [← between_length] at hexec
  obtain ⟨hhear, hlistening, hfailed⟩ := @path_hear invoke (execEnd invoke calls entry m).server
    (executed invoke calls entry m).stream (waiting calls m) wait_listening
  exact ⟨hready, hbetween.trans (hexec.trans hhear), ⟨speak_listening hlistening, rfl⟩, hfailed⟩

end Cheshire.Sim.Uart
