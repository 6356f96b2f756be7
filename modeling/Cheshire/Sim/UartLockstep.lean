import Cheshire.Sim.Section
import Cheshire.Sim.UartRun

/-!
# The UART debug protocol stays in lockstep

`Lockstep` is what holds in every state of every run of calls, `Preloads` what holds
when the calls are those of `uart_debug_elf_preload` and an EXEC follows. The last
block of a section may be empty; it is a WRITE of no bytes, which the server takes
like any other.
-/

namespace Cheshire.Sim.Uart

open Channel Transition Cheshire.Sw
open Span (Byte Address Memory nth store Within)

/-! ## The preload -/

/-- What is preloaded, and `UartBurstBytes`. The `int` of the inner loop counts to the end of
a block. -/
structure Image where
  sections : List Section
  apart : sections.Pairwise Section.Apart
  burst : Nat
  burst_pos : 0 < burst
  block_lt : ∀ s ∈ sections, min burst s.len < 2 ^ 31

/-- `for (b = 0; b < UartBurstBytes; b++)`, left where `i + b >= sec_len`. -/
def uartBlock (s : Section) (burst i : Nat) : List Byte :=
  ((List.range burst).takeWhile fun b => decide (i + b < s.len)).map fun b => s.byte (i + b)

theorem uartBlock_eq (s : Section) (burst i : Nat) :
    uartBlock s burst i = (List.range (min burst (s.len - i))).map fun b => s.byte (i + b) := by
  have hlt : ∀ b, i + b < s.len ↔ b < s.len - i := by omega
  unfold uartBlock
  simp only [hlt, takeWhile_range]

theorem uartBlock_length (s : Section) (burst i : Nat) :
    (uartBlock s burst i).length = min burst (s.len - i) := by
  rw [uartBlock_eq, List.length_map, List.length_range]

/-- The block at `i`: `uart_debug_rw(sec_addr + i, 0, bytes)`. -/
def uartBlockCall (s : Section) {burst : Nat} (h : min burst s.len < 2 ^ 31) (i : Nat) : Call where
  addr := nth s.addr i
  lenOrW := 0
  data := uartBlock s burst i
  lenOrW_lt := by decide
  size_lt := by
    rw [uartBlock_length]
    omega

/-- The blocks from `i` on with `n` passes left. -/
def uartBlocks (s : Section) {burst : Nat} (h : min burst s.len < 2 ^ 31) : Nat → Nat → List Call
  | _, 0 => []
  | i, n + 1 => uartBlockCall s h i :: uartBlocks s h (i + burst) n

/-- `for (i = 0; i <= sec_len; i += UartBurstBytes)`. -/
def uartSection (s : Section) {burst : Nat} (h : min burst s.len < 2 ^ 31) : List Call :=
  uartBlocks s h 0 (s.len / burst + 1)

/-- `uart_debug_elf_preload`: the calls it makes for all sections. -/
def uartDebugElfPreload (p : Image) : List Call :=
  p.sections.attach.flatMap fun s => uartSection s.1 (p.block_lt s.1 s.2)

/-! ## What is to hold -/

/-- In a state of a run of calls. -/
structure Lockstep (invoke : Address → Memory → Program) (calls : List Call) (m : Memory)
    (l : UartLink) : Prop where
  /-- Every expected `ACK` and `EOT` was the next byte. -/
  agrees : l.client.failed = false
  /-- Every byte was received by the call it was for. -/
  lossless : l.client.console = []
  /-- Between two calls the server is ready, and nothing is on its way. -/
  ready : ∀ k ≤ calls.length, Between calls [] k l →
    l.server.pc = .cmd ∧ l.up = [] ∧ l.down = []
  /-- Each write has stored its bytes, and nothing else. -/
  memory : ∀ k ≤ calls.length, Between calls [] k l →
    l.server.mem = memoryAfter (calls.take k) m
  /-- Each read has got what the writes before it left. -/
  results : ∀ k ≤ calls.length, Between calls [] k l → ∀ j c, j < k → calls[j]? = some c →
    l.client.data j = c.result (memoryAfter (calls.take j) m)
  /-- The run can go on to the end of the last call. -/
  completes : ∃ l', Leads (uartPair invoke).step l l' ∧ Between calls [] calls.length l'

/-- The sections are in memory, and all else is as it was. -/
def Loaded (sections : List Section) (m m' : Memory) : Prop :=
  (∀ s ∈ sections, ∀ k < s.len, m' (nth s.addr k) = s.byte k) ∧
    ∀ x, (∀ s ∈ sections, ¬Within s.addr s.len x) → m' x = m x

/-- In a state of a run of a preload and an EXEC. -/
structure Preloads (invoke : Address → Memory → Program) (p : Image) (entry : Address) (m : Memory)
    (l : UartLink) : Prop where
  agrees : l.client.failed = false
  /-- No byte is stored outside the sections. -/
  inside : ∀ x ∈ l.server.stored, ∃ s ∈ p.sections, Within s.addr s.len x
  loaded : Between (uartDebugElfPreload p) (uartExec entry ++ uartWait)
      (uartDebugElfPreload p).length l →
    l.server.pc = .cmd ∧ l.up = [] ∧ l.down = [] ∧ Loaded p.sections m l.server.mem
  jumps : ∀ a, l.server.jumped = some a → a = entry ∧ Loaded p.sections m l.server.mem
  /-- The run can go on to the jump. -/
  completes : ∃ l', Leads (uartPair invoke).step l l' ∧ l'.server.jumped = some entry

variable {invoke : Address → Memory → Program} {s : Section} {burst : Nat} {m : Memory}
  {l : UartLink}

/-! ## What the blocks store -/

theorem blockCall_memory (h : min burst s.len < 2 ^ 31) (i : Nat) (m : Memory) :
    (uartBlockCall s h i).memory m
      = store m (nth s.addr i) (fun j => s.byte (i + j)) (min burst (s.len - i)) := by
  have hdata : (uartBlockCall s h i).memory m = store m (nth s.addr i)
      (fun j => (uartBlock s burst i).getD j 0) (uartBlock s burst i).length :=
    if_neg (not_not.mpr rfl)
  rw [hdata, uartBlock_length]
  refine Span.store_congr _ _ fun j hj => ?_
  rw [uartBlock_eq, List.getD_eq_getElem?_getD, List.getElem?_map, List.getElem?_range hj]
  rfl

/-- Blocks put together are one run of the section's bytes. -/
theorem blocks_memory (h : min burst s.len < 2 ^ 31) : ∀ (n i : Nat) (m : Memory),
    memoryAfter (uartBlocks s h i n) m
      = store m (nth s.addr i) (fun j => s.byte (i + j)) (min (n * burst) (s.len - i))
  | 0, i, m => by
    rw [Nat.zero_mul, Nat.zero_min, Span.store_zero]
    rfl
  | n + 1, i, m => by
    have hlen := s.len_lt
    show memoryAfter (uartBlocks s h (i + burst) n) ((uartBlockCall s h i).memory m) = _
    rw [blocks_memory h n (i + burst), blockCall_memory]
    by_cases hlast : s.len - i ≤ burst
    · -- all of the section is in this block
      have hrest : min (n * burst) (s.len - (i + burst)) = 0 := by omega
      have hall : min burst (s.len - i) = min ((n + 1) * burst) (s.len - i) := by
        rw [Nat.succ_mul]
        omega
      rw [hrest, Span.store_zero, hall]
    · have hblock : min burst (s.len - i) = burst := by omega
      have hsum : min ((n + 1) * burst) (s.len - i)
          = burst + min (n * burst) (s.len - (i + burst)) := by
        rw [Nat.succ_mul]
        omega
      rw [hblock, hsum, ← Span.store_append _ _ _ (by omega), Span.nth_nth]
      simp only [Nat.add_assoc]

theorem section_memory (hpos : 0 < burst) (h : min burst s.len < 2 ^ 31) (m : Memory) :
    memoryAfter (uartSection s h) m = store m s.addr s.byte s.len := by
  have hcover : s.len ≤ (s.len / burst + 1) * burst :=
    Nat.le_of_lt (Nat.lt_mul_of_div_lt (Nat.lt_succ_self _) hpos)
  have haddr : nth s.addr 0 = s.addr := BitVec.add_zero s.addr
  unfold uartSection
  rw [blocks_memory, Nat.sub_zero, Nat.min_eq_right hcover, haddr]
  simp only [Nat.zero_add]

theorem memoryAfter_append (xs ys : List Call) (m : Memory) :
    memoryAfter (xs ++ ys) m = memoryAfter ys (memoryAfter xs m) := List.foldl_append

/-- Memory after the sections, written one after the other. -/
def storeAll (sections : List Section) (m : Memory) : Memory :=
  sections.foldl (fun m s => store m s.addr s.byte s.len) m

theorem flatMap_memory (hpos : 0 < burst) {sections : List Section}
    (h : ∀ s ∈ sections, min burst s.len < 2 ^ 31) : ∀ (xs : List { s // s ∈ sections }) (m : Memory),
    memoryAfter (xs.flatMap fun s => uartSection s.1 (h s.1 s.2)) m = storeAll (xs.map (·.1)) m
  | [], _ => rfl
  | x :: xs, m => by
    rw [List.flatMap_cons, memoryAfter_append, section_memory hpos, flatMap_memory hpos h xs]
    rfl

theorem preload_memory (p : Image) (m : Memory) :
    memoryAfter (uartDebugElfPreload p) m = storeAll p.sections m := by
  unfold uartDebugElfPreload
  rw [flatMap_memory p.burst_pos p.block_lt, List.attach_map_subtype_val]

theorem storeAll_outside {x : Address} : ∀ (sections : List Section) (m : Memory),
    (∀ s ∈ sections, ¬Within s.addr s.len x) → storeAll sections m x = m x
  | [], _, _ => rfl
  | s :: sections, m, h => by
    obtain ⟨hs, hrest⟩ := List.forall_mem_cons.mp h
    refine (storeAll_outside sections _ hrest).trans ?_
    exact Span.store_outside _ _ hs

/-- Sections that share no address are all in memory in the end. -/
theorem storeAll_section : ∀ (sections : List Section) (m : Memory),
    sections.Pairwise Section.Apart → ∀ s ∈ sections, ∀ k < s.len,
    storeAll sections m (nth s.addr k) = s.byte k
  | [], _, _, _, hs => absurd hs List.not_mem_nil
  | t :: sections, m, hapart, s, hs => by
    intro k hk
    obtain ⟨ht, hrest⟩ := List.pairwise_cons.mp hapart
    have hlen := s.len_lt
    rcases List.mem_cons.mp hs with rfl | hs
    · have hin : Within s.addr s.len (nth s.addr k) := (Span.within_nth (by omega)).mpr hk
      refine (storeAll_outside sections _ fun u hu hw => ht u hu _ ⟨hin, hw⟩).trans ?_
      exact Span.store_nth _ _ hk (by omega)
    · exact storeAll_section sections _ hrest s hs k hk

theorem preload_loaded (p : Image) (m : Memory) :
    Loaded p.sections m (memoryAfter (uartDebugElfPreload p) m) := by
  rw [preload_memory]
  exact ⟨storeAll_section p.sections m p.apart, fun x => storeAll_outside p.sections m⟩

/-! ## Where they store -/

/-- The addresses that a call stores to, none for a read. -/
def Call.stores (c : Call) : List Address :=
  if c.lenOrW ≠ 0 then [] else (List.range c.data.length).map (nth c.addr)

theorem server_stored (c : Call) (s : Server) : (c.server s).stored = s.stored ++ c.stores := by
  unfold Call.server Call.stores
  split
  next => exact (List.append_nil _).symm
  next => rfl

theorem mem_callsServer_stored {x : Address} : ∀ (calls : List Call) (s : Server),
    x ∈ (callsServer calls s).stored ↔ x ∈ s.stored ∨ ∃ c ∈ calls, x ∈ c.stores
  | [], s => by
    refine ⟨Or.inl, fun h => h.resolve_right ?_⟩
    rintro ⟨c, hc, _⟩
    exact List.not_mem_nil hc
  | c :: calls, s => by
    refine (mem_callsServer_stored calls (c.server s)).trans ?_
    rw [server_stored, List.mem_append, List.exists_mem_cons_iff, or_assoc]

theorem mem_uartBlocks {c : Call} (h : min burst s.len < 2 ^ 31) : ∀ (n i : Nat),
    c ∈ uartBlocks s h i n → ∃ j, c = uartBlockCall s h j
  | 0, _, hc => absurd hc List.not_mem_nil
  | n + 1, i, hc => by
    rcases List.mem_cons.mp hc with rfl | hc
    · exact ⟨i, rfl⟩
    · exact mem_uartBlocks h n (i + burst) hc

/-- A block stores to its section. -/
theorem block_inside (h : min burst s.len < 2 ^ 31) (i : Nat) {x : Address}
    (hx : x ∈ (uartBlockCall s h i).stores) : Within s.addr s.len x := by
  have hlen := s.len_lt
  have hstores : (uartBlockCall s h i).stores
      = (List.range (uartBlock s burst i).length).map (nth (nth s.addr i)) :=
    if_neg (not_not.mpr rfl)
  rw [hstores, uartBlock_length] at hx
  obtain ⟨j, hj, rfl⟩ := List.mem_map.mp hx
  have hlt := List.mem_range.mp hj
  rw [Span.nth_nth, Span.within_nth (by omega)]
  omega

theorem preload_inside (p : Image) (m : Memory) {x : Address}
    (hx : x ∈ (callsServer (uartDebugElfPreload p) { serverStart m with pc := .cmd }).stored) :
    ∃ s ∈ p.sections, Within s.addr s.len x := by
  rcases (mem_callsServer_stored _ _).mp hx with hx | ⟨c, hc, hx⟩
  · exact absurd hx List.not_mem_nil
  · obtain ⟨s, _, hc⟩ := List.mem_flatMap.mp hc
    obtain ⟨i, rfl⟩ := mem_uartBlocks _ _ _ hc
    exact ⟨s.1, s.2, block_inside _ i hx⟩

/-! ## Every run -/

theorem run_lockstep (calls : List Call) {acts : List Turn}
    (hrun : run (uartPair invoke).step (uartStart calls [] m) acts = some l) :
    Lockstep invoke calls m l := by
  have hs := calls_session invoke calls m
  obtain ⟨v, ⟨hclient, _⟩, _, hvw⟩ := hs.settles hrun
  refine ⟨hs.not_failed hrun, ?_, ?_, ?_, ?_, ?_⟩
  · rw [← hclient]
    exact console_back hvw rfl
  · intro k hk hl
    rw [hs.at_between hrun hk hl]
    exact ⟨between_pc calls [] m k, rfl, rfl⟩
  · intro k hk hl
    rw [hs.at_between hrun hk hl]
    exact between_mem calls [] m k
  · intro k hk hl j c hj hc
    rw [hs.at_between hrun hk hl]
    exact between_data calls [] m hj hc
  · refine ⟨_, hs.leads hrun, ?_⟩
    rfl

theorem run_preloads (p : Image) (entry : Address) {acts : List Turn}
    (hrun : run (uartPair invoke).step
      (uartStart (uartDebugElfPreload p) (uartExec entry ++ uartWait) m) acts = some l) :
    Preloads invoke p entry m l := by
  have hs := exec_session invoke (uartDebugElfPreload p) entry m
  obtain ⟨v, hsettles, _, hvw⟩ := hs.settles hrun
  have hlater := (later_forward invoke).settles hsettles hvw
  have hstart := (later_forward invoke).run hrun
  have hmem : (execEnd invoke (uartDebugElfPreload p) entry m).server.mem
      = memoryAfter (uartDebugElfPreload p) m := by
    refine (between_mem (uartDebugElfPreload p) [] m _).trans ?_
    rw [List.take_length]
  refine ⟨hs.not_failed hrun, fun x hx => ?_, fun hl => ?_, fun a ha => ?_, ⟨_, hs.leads hrun, rfl⟩⟩
  · have hend := hlater.stored.subset hx
    have hserver : (execEnd invoke (uartDebugElfPreload p) entry m).server.stored
        = (callsServer (uartDebugElfPreload p) { serverStart m with pc := .cmd }).stored := by
      show (callsServer ((uartDebugElfPreload p).take _) _).stored = _
      rw [List.take_length]
    exact preload_inside p m (hserver ▸ hend)
  · rw [hs.at_between hrun (Nat.le_refl _) hl]
    refine ⟨between_pc (uartDebugElfPreload p) (uartExec entry ++ uartWait) m _, rfl, rfl, ?_⟩
    have hbetween := between_mem (uartDebugElfPreload p) (uartExec entry ++ uartWait) m
      (uartDebugElfPreload p).length
    rw [List.take_length] at hbetween
    exact hbetween ▸ preload_loaded p m
  · -- the jump is the last thing that happens to the server's memory
    have hleft := hstart.jumped (fun h => absurd rfl h) (ha ▸ Option.some_ne_none a)
    obtain ⟨_, hjumped, hkept⟩ := hlater.left hleft
    refine ⟨Option.some.inj (ha.symm.trans hjumped.symm), ?_⟩
    rw [← hkept, hmem]
    exact preload_loaded p m

/-- Client and server stay in lockstep, whatever the calls and the order of steps. -/
theorem uartDebug_lockstep (invoke : Address → Memory → Program) (m : Memory) :
    (∀ calls acts l, run (uartPair invoke).step (uartStart calls [] m) acts = some l →
      Lockstep invoke calls m l) ∧
    ∀ p entry acts l, run (uartPair invoke).step
        (uartStart (uartDebugElfPreload p) (uartExec entry ++ uartWait) m) acts = some l →
      Preloads invoke p entry m l :=
  ⟨fun calls _ _ hrun => run_lockstep calls hrun, fun p entry _ _ hrun => run_preloads p entry hrun⟩

/-- One instruction at the start of the scratchpad. -/
def spmSection : Section where
  addr := 0x10000000
  bf := [0x13, 0, 0, 0]
  length_pos := by decide
  length_lt := by decide

def spmImage : Image where
  sections := [spmSection]
  apart := List.pairwise_singleton _ _
  burst := 256
  burst_pos := by decide
  block_lt := by decide

/-- A program that returns 0 at once and prints nothing. -/
def idleProgram : Program where
  output := []
  ret := 0

/-- Two calls, by which a byte is written and read back. -/
def pokePeek : List Call :=
  [⟨0x10000000, 0, [0xab], by decide, by decide⟩, ⟨0x10000000, 1, [], by decide, by decide⟩]

/-- Bytes that the server takes as they come, and then a byte of its own. -/
def sendTurns (n : Nat) : List Turn :=
  (List.replicate n [Turn.speak, Turn.serve]).flatten ++ [Turn.serve, Turn.hear]

def pokePeekTurns : List Turn :=
  sendTurns 1 ++ sendTurns 17 ++ sendTurns 1 ++ sendTurns 17 ++ sendTurns 0 ++ sendTurns 0

def preloadTurns : List Turn := sendTurns 1 ++ sendTurns 17 ++ sendTurns 4 ++ sendTurns 9

theorem uartDebug_lockstep_pokePeek :
    (∃ l, run (uartPair fun _ _ => idleProgram).step (uartStart pokePeek [] fun _ => 0) pokePeekTurns
        = some l ∧ l.client.data 1 = [0xab] ∧
      Lockstep (fun _ _ => idleProgram) pokePeek (fun _ => 0) l) ∧
    ∃ l, run (uartPair fun _ _ => idleProgram).step
        (uartStart (uartDebugElfPreload spmImage) (uartExec 0x10000000 ++ uartWait) fun _ => 0)
        preloadTurns = some l ∧ l.server.jumped = some 0x10000000 ∧
      Preloads (fun _ _ => idleProgram) spmImage 0x10000000 (fun _ => 0) l := by
  have hcalls : (run (uartPair fun _ _ => idleProgram).step (uartStart pokePeek [] fun _ => 0)
      pokePeekTurns).map (fun l => l.client.data 1) = some [0xab] := by decide +kernel
  have hpreload : (run (uartPair fun _ _ => idleProgram).step
      (uartStart (uartDebugElfPreload spmImage) (uartExec 0x10000000 ++ uartWait) fun _ => 0)
      preloadTurns).map (fun l => l.server.jumped) = some (some 0x10000000) := by decide +kernel
  obtain ⟨l, hl, hdata⟩ := Option.map_eq_some_iff.mp hcalls
  obtain ⟨l', hl', hjumped⟩ := Option.map_eq_some_iff.mp hpreload
  exact ⟨⟨l, hl, hdata, (uartDebug_lockstep _ _).1 _ _ _ hl⟩,
    l', hl', hjumped, (uartDebug_lockstep _ _).2 _ _ _ _ hl'⟩

end Cheshire.Sim.Uart
