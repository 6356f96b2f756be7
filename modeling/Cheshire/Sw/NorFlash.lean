import Cheshire.Sw.SdCard

/-!
# `spi_s25fs512s.c`: the SPI NOR flash driver

A transaction is a list of segments: an opcode, a 32-bit address, bytes sent or bytes
received. A read is cut into chunks of at most a FIFO. Flashing sends WREN once, and then
for each page erases its two sectors, programs it and polls the status register behind
every one of these.

Two things go wrong from the first page on. The program transaction has a receive segment
in the place of its data, so nothing is transmitted, and the caller's buffer is overwritten;
and the device takes its write enable back behind the first erase, so the commands after it
are ignored (`norFlash_leaves`). A flash is what it should be only if there is nothing to
flash (`norFlash_exact_iff`).
-/

namespace Cheshire.Sw

open Firmware Firmware.Prog

inductive NorSeg where
  | opcode (v : Byte)
  /-- Four bytes. -/
  | address (a : BitVec 32)
  | tx (data : List Byte)
  | rx (len : Nat)
  deriving DecidableEq, Repr

/-- `dif_spi_host_transaction` of these segments at a chip select. -/
structure NorCall where
  csid : Nat
  segs : List NorSeg
  deriving DecidableEq, Repr

/-- `spi_s25fs512s_t`: the fields the functions below read. -/
structure NorHandle where
  spiFreq : Nat
  csid : Nat

/-- The caller's memory, as one object. -/
abbrev NorMem := Mem Unit

abbrev NorSt := St NorCall NorMem

abbrev NorProg := Prog NorCall NorMem Unit

/-! ## The driver -/

/-- A transaction whose last segment is received to `dst`. One that fails may have been
received all the same. -/
def norRxTo (h : NorHandle) (segs : List NorSeg) (dst : Int) (len : Nat) : NorProg := do
  let r ← ask ⟨h.csid, segs ++ [.rx len]⟩
  modifyMem fun m => m.write () dst r.out len
  retCode r.ret

/-- `__spi_s25fs512s_single_read_chunk`: opcode, address and a receive segment. -/
def norReadChunk (h : NorHandle) (buf : Int) (addr len : Nat) : NorProg :=
  norRxTo h [.opcode 0x13, .address (BitVec.ofNat 32 addr)] buf len

/-- `spi_s25fs512s_single_read`. -/
def norRead (h : NorHandle) (rxDepth : Nat) (buf : Int) (addr len : Nat) : NorProg := do
  retCode (if h.spiFreq < 50 * 1000 * 1000 then 0 else 0x15)
  upTo ((len + (rxFifoBytes rxDepth - 1)) / rxFifoBytes rxDepth) fun i =>
    let offs := rxFifoBytes rxDepth * i
    norReadChunk h (buf + offs) (addr + offs) (min (rxFifoBytes rxDepth) (len - offs))

/-- `__spi_s25fs512s_poll_wip`, for at most `polls` polls; the two error bits of the status
are returned. -/
def norPollWip (h : NorHandle) : (polls : Nat) → NorProg
  | 0 => stop .spin
  | polls + 1 => do
    let d ← check ⟨h.csid, [.opcode 0x05, .rx 1]⟩
    if d 0 &&& 1 ≠ 0 then norPollWip h polls else retCode ((d 0 &&& 0b01100000).setWidth 32)

/-- Erase sector `i` of a page, and wait until that is done. -/
def norErase (h : NorHandle) (polls page i : Nat) : NorProg := do
  let _ ← check ⟨h.csid, [.opcode 0xDC, .address (BitVec.ofNat 32 ((page <<< 9) + (i <<< 8)))]⟩
  norPollWip h polls

/-- `__spi_s25fs512s_single_flash_page`: two erases and a program command. -/
def norFlashPage (h : NorHandle) (polls : Nat) (buf : Int) (page : Nat) : NorProg := do
  upTo 2 (norErase h polls page)
  norRxTo h [.opcode 0x12, .address (BitVec.ofNat 32 (page <<< 9))] buf 512
  norPollWip h polls

/-- `spi_s25fs512s_single_flash`, with its one `WREN` in front of all pages. -/
def norFlash (h : NorHandle) (polls : Nat) (buf : Int) (page numPages : Nat) : NorProg := do
  retCode (if h.spiFreq < 100 * 1000 * 1000 then 0 else 0x16)
  let _ ← check ⟨h.csid, [.opcode 0x06]⟩
  upTo numPages fun p => norFlashPage h polls (buf + (p <<< 9 : Nat)) (page + p)

/-! ## Commands -/

/-- The commands that change the device or its write enable latch. -/
inductive NorCmd where
  | wren
  | erase (a : BitVec 32)
  /-- The bytes transmitted behind the address. -/
  | program (a : BitVec 32) (sent : List Byte)
  deriving DecidableEq, Repr

/-- The bytes of those segments that transmit, in order. -/
def sentBytes : List NorSeg → List Byte
  | [] => []
  | .tx data :: segs => data ++ sentBytes segs
  | _ :: segs => sentBytes segs

def norCmd : List NorSeg → Option NorCmd
  | .opcode v :: .address a :: segs =>
    if v = 0xDC then some (.erase a) else if v = 0x12 then some (.program a (sentBytes segs))
    else none
  | .opcode v :: _ => if v = 0x06 then some .wren else none
  | _ => none

/-- The commands of the transactions that succeeded, in order. -/
def norCmds : Trace NorCall → List NorCmd
  | [] => []
  | (q, r) :: t => if r.ret = 0 then norCmds t ++ (norCmd q.segs).toList else norCmds t

/-- From `s` to `s'` these commands were completed. -/
def Commanded (l : List NorCmd) (s s' : NorSt) : Prop := norCmds s'.calls = norCmds s.calls ++ l

theorem commanded_refl (s : NorSt) : Commanded [] s s := (List.append_nil _).symm

theorem Commanded.trans {l l' : List NorCmd} {s s' s'' : NorSt} (h : Commanded l s s')
    (h' : Commanded l' s' s'') : Commanded (l ++ l') s s'' := by
  unfold Commanded at h h' ⊢
  rw [h', h, List.append_assoc]

/-- The commands that are sent for one page: no byte of data is transmitted. -/
def pageCmds (page : Nat) : List NorCmd :=
  [.erase (BitVec.ofNat 32 (page <<< 9)), .erase (BitVec.ofNat 32 ((page <<< 9) + 256)),
    .program (BitVec.ofNat 32 (page <<< 9)) []]

/-- The commands that a whole flash sends, in order. -/
def flashCmds (page numPages : Nat) : List NorCmd :=
  .wren :: (List.range numPages).flatMap fun p => pageCmds (page + p)

/-! ## The commands of a flash -/

variable {env : Env NorCall} {h : NorHandle}

/-- A transaction that succeeds completes its command. -/
theorem check_commanded {q : NorCall} {R : NorSt → Prop} {f : (Nat → Byte) → NorProg} {s : NorSt}
    (hf : ∀ d s', s'.mem = s.mem → Commanded (norCmd q.segs).toList s s' →
      wp env (f d) (fun _ => R) (fun _ _ => True) s') :
    wp env (check q >>= f) (fun _ => R) (fun _ _ => True) s := by
  rw [wp_bind, wp_check]
  exact ⟨fun hret => hf _ _ rfl (if_pos hret), fun _ => trivial⟩

theorem norPollWip_commanded : ∀ (polls : Nat) (s : NorSt),
    wp env (norPollWip h polls) (fun _ s' => s'.mem = s.mem ∧ Commanded [] s s') (fun _ _ => True)
      s := by
  intro polls
  induction polls with
  | zero =>
    intro s
    exact trivial
  | succ polls ih =>
    intro s
    unfold norPollWip
    refine check_commanded fun d s₁ hmem hcmd => ?_
    rw [wp_ite]
    split
    · refine wp_mono (ih s₁) (fun _ s₂ h₂ => ?_) fun _ _ he => he
      exact ⟨h₂.1.trans hmem, hcmd.trans h₂.2⟩
    · rw [wp_retCode]
      exact ⟨fun _ => ⟨hmem, hcmd⟩, fun _ => trivial⟩

theorem norErase_commanded (polls page i : Nat) (s : NorSt) :
    wp env (norErase h polls page i)
      (fun _ => Commanded [.erase (BitVec.ofNat 32 ((page <<< 9) + (i <<< 8)))] s)
      (fun _ _ => True) s := by
  unfold norErase
  refine check_commanded fun d s₁ _ hcmd => ?_
  refine wp_mono (norPollWip_commanded polls s₁) (fun _ s₂ h₂ => ?_) fun _ _ he => he
  exact hcmd.trans h₂.2

theorem norRxTo_commanded (segs : List NorSeg) (dst : Int) (len : Nat) (s : NorSt) :
    wp env (norRxTo h segs dst len)
      (fun _ => Commanded (norCmd (segs ++ [.rx len])).toList s) (fun _ _ => True) s := by
  unfold norRxTo
  rw [wp_bind, wp_ask, wp_bind, wp_modifyMem, wp_retCode]
  exact ⟨fun hret => if_pos hret, fun _ => trivial⟩

/-- The program command of a page has nothing behind its address. -/
theorem norFlashPage_commanded (polls : Nat) (buf : Int) (page : Nat) (s : NorSt) :
    wp env (norFlashPage h polls buf page) (fun _ => Commanded (pageCmds page) s) (fun _ _ => True)
      s := by
  unfold norFlashPage
  rw [wp_bind]
  refine wp_mono (wp_upTo (fun i => Commanded ((pageCmds page).take i) s) ?_ (commanded_refl s))
    (fun _ s₁ h₁ => ?_) fun _ _ he => he
  · intro i hi s' h'
    refine wp_mono (norErase_commanded polls page i s') (fun _ s'' h'' => ?_) fun _ _ he => he
    have hcmd := h'.trans h''
    rcases show i = 0 ∨ i = 1 by omega with rfl | rfl
    · exact hcmd
    · exact hcmd
  · rw [wp_bind]
    refine wp_mono (norRxTo_commanded _ buf 512 s₁) (fun _ s₂ h₂ => ?_) fun _ _ he => he
    refine wp_mono (norPollWip_commanded polls s₂) (fun _ s₃ h₃ => ?_) fun _ _ he => he
    exact (h₁.trans h₂).trans h₃.2

/-- A flash that returns 0 has completed these commands and no others. -/
theorem norFlash_commanded (polls : Nat) (buf : Int) (page numPages : Nat) (s : NorSt) :
    wp env (norFlash h polls buf page numPages) (fun _ => Commanded (flashCmds page numPages) s)
      (fun _ _ => True) s := by
  unfold norFlash
  rw [wp_bind, wp_retCode]
  refine ⟨fun _ => ?_, fun _ => trivial⟩
  refine check_commanded fun _ s₁ _ hwren => ?_
  refine wp_mono (wp_upTo (fun p => Commanded (flashCmds page p) s) ?_ hwren) (fun _ _ h' => h')
    fun _ _ he => he
  intro p _ s' h'
  refine wp_mono (norFlashPage_commanded polls _ _ s') (fun _ s'' h'' => ?_) fun _ _ he => he
  have hcmd := h'.trans h''
  unfold flashCmds at hcmd ⊢
  rwa [List.range_succ, List.flatMap_append, List.flatMap_singleton, ← List.cons_append]

/-! ## The device -/

/-- Every erase and every program comes while the write enable is in force; the device
takes it back when the command has completed. -/
def Enabled : Bool → List NorCmd → Prop
  | _, [] => True
  | _, .wren :: l => Enabled true l
  | wel, .erase _ :: l => wel = true ∧ Enabled false l
  | wel, .program _ _ :: l => wel = true ∧ Enabled false l

/-- Only the first erase of a flash is enabled. -/
theorem enabled_flashCmds_iff (wel : Bool) (page numPages : Nat) :
    Enabled wel (flashCmds page numPages) ↔ numPages = 0 := by
  cases numPages with
  | zero => exact ⟨fun _ => rfl, fun _ => trivial⟩
  | succ n =>
    unfold flashCmds
    rw [List.range_succ_eq_map, List.flatMap_cons]
    exact ⟨fun h => (nomatch h.2.1), fun h => absurd h (Nat.succ_ne_zero n)⟩

/-- The contents of the device and its write enable latch. -/
structure Nor where
  wel : Bool
  cells : Nat → Byte

/-- The contents with the sector of 256 bytes around `a` erased. -/
def eraseSector (cells : Nat → Byte) (a : BitVec 32) : Nat → Byte := fun b =>
  if b / 256 = a.toNat / 256 then 0xFF else cells b

/-- The contents after bytes are programmed from `a` on, which only clears bits. -/
def programAt (cells : Nat → Byte) (a : BitVec 32) (sent : List Byte) : Nat → Byte := fun b =>
  if a.toNat ≤ b then cells b &&& sent.getD (b - a.toNat) 0xFF else cells b

/-- Without a write enable a command is ignored. -/
def Nor.next (d : Nor) : NorCmd → Nor
  | .wren => { d with wel := true }
  | .erase a => if d.wel then ⟨false, eraseSector d.cells a⟩ else d
  | .program a sent => if d.wel then ⟨false, programAt d.cells a sent⟩ else d

/-- The device behind the transactions of a trace. -/
def nor (d : Nor) (t : Trace NorCall) : Nor := (norCmds t).foldl Nor.next d

theorem Nor.ignores {cells : Nat → Byte} : ∀ (l : List NorCmd), .wren ∉ l →
    l.foldl Nor.next ⟨false, cells⟩ = ⟨false, cells⟩ := by
  intro l
  induction l with
  | nil => exact fun _ => rfl
  | cons c l ih =>
    intro hwren
    have hl := ih fun hmem => hwren (List.mem_cons_of_mem _ hmem)
    cases c with
    | wren => exact absurd List.mem_cons_self hwren
    | erase | program => exact hl

theorem wren_not_mem_pages (page : Nat) (l : List Nat) :
    .wren ∉ l.flatMap fun p => pageCmds (page + p) := by
  intro hmem
  obtain ⟨p, -, hp⟩ := List.mem_flatMap.mp hmem
  rcases List.mem_cons.mp hp with hp | hp
  · cases hp
  rcases List.mem_cons.mp hp with hp | hp
  · cases hp
  · cases List.mem_singleton.mp hp

/-- What a flash of at least one page that returns 0 does to the device: it erases the first
sector. -/
theorem norFlash_leaves (polls : Nat) (buf : Int) (page n : Nat) (d : Nor) (s : NorSt) :
    wp env (norFlash h polls buf page (n + 1))
      (fun _ s' => (nor d s'.calls).cells =
        eraseSector (nor d s.calls).cells (BitVec.ofNat 32 (page <<< 9)))
      (fun _ _ => True) s := by
  refine wp_mono (norFlash_commanded polls buf page (n + 1) s) (fun _ s' h' => ?_)
    fun _ _ he => he
  unfold nor
  rw [h', List.foldl_append]
  generalize (norCmds s.calls).foldl Nor.next d = d'
  unfold flashCmds
  have hnone := wren_not_mem_pages page (List.range (n + 1))
  rw [List.range_succ_eq_map, List.flatMap_cons] at hnone ⊢
  exact congrArg Nor.cells (Nor.ignores _ fun hmem => hnone (List.mem_cons_of_mem _ hmem))

/-! ## A flash -/

/-- The `n` bytes of the caller's memory at `p`. -/
def norBytes (m : NorMem) (p : Int) (n : Nat) : List Byte :=
  (List.range n).map fun i => m.get () (p + (i : Nat))

/-- The address and the data of each program command. -/
def programs (l : List NorCmd) : List (BitVec 32 × List Byte) :=
  l.filterMap fun c => match c with
    | .program a sent => some (a, sent)
    | _ => none

/-- What a caller of `spi_s25fs512s_single_flash` gets with a return value of 0. -/
structure FlashExact (env : Env NorCall) (h : NorHandle) (rxDepth : Nat) (buf : Int)
    (page numPages : Nat) (s s' : NorSt) : Prop where
  buf_eq : ∀ k < 512 * numPages, s'.mem.get () (buf + k) = s.mem.get () (buf + k)
  programs_eq : ∀ l, Commanded l s s' → programs l = (List.range numPages).map fun p =>
    (BitVec.ofNat 32 (512 * (page + p)), norBytes s.mem (buf + (512 * p : Nat)) 512)
  enabled : ∀ l, Commanded l s s' → ∀ wel, Enabled wel l
  read : ∀ dst s'', norRead h rxDepth dst (512 * page) (512 * numPages) env s' = (.ok (), s'') →
    ∀ k < 512 * numPages, s''.mem.get () (dst + k) = s.mem.get () (buf + k)

/-- The first page is programmed with no data. -/
theorem FlashExact.numPages_eq {rxDepth : Nat} {buf : Int} {page numPages : Nat} {s s' : NorSt}
    (hexact : FlashExact env h rxDepth buf page numPages s s')
    (hcmd : Commanded (flashCmds page numPages) s s') : numPages = 0 := by
  cases numPages with
  | zero => rfl
  | succ n =>
    have hprograms := hexact.programs_eq _ hcmd
    unfold flashCmds at hprograms
    rw [List.range_succ_eq_map, List.flatMap_cons, List.map_cons] at hprograms
    have hfirst : (BitVec.ofNat 32 (page <<< 9), ([] : List Byte)) =
        (BitVec.ofNat 32 (512 * page), norBytes s.mem (buf + (512 * 0 : Nat)) 512) :=
      (List.cons.inj hprograms).1
    have hlen := congrArg List.length (Prod.mk.inj hfirst).2
    unfold norBytes at hlen
    rw [List.length_map, List.length_range] at hlen
    cases hlen

theorem flashExact_none {rxDepth : Nat} {buf : Int} {page : Nat} {s s' : NorSt}
    (hcmd : Commanded (flashCmds page 0) s s') : FlashExact env h rxDepth buf page 0 s s' := by
  have hnone : ∀ {k}, ¬k < 512 * 0 := fun hk => absurd hk (Nat.not_lt_zero _)
  have hl : ∀ l, Commanded l s s' → l = flashCmds page 0 := fun l hl =>
    List.append_cancel_left (hl.symm.trans hcmd)
  refine ⟨fun k hk => absurd hk hnone, fun l h' => ?_, fun l h' wel => ?_,
    fun _ _ _ k hk => absurd hk hnone⟩
  · rw [hl l h']
    rfl
  · rw [hl l h', enabled_flashCmds_iff]

/-- A flash that returns 0 is exact if and only if it has no pages. -/
theorem norFlash_exact_iff (env : Env NorCall) (h : NorHandle) (rxDepth polls : Nat) (buf : Int)
    (page numPages : Nat) {s s' : NorSt}
    (hrun : norFlash h polls buf page numPages env s = (.ok (), s')) :
    FlashExact env h rxDepth buf page numPages s s' ↔ numPages = 0 := by
  have hcmd := wp_ok (norFlash_commanded polls buf page numPages s) hrun
  constructor
  · intro hexact
    exact hexact.numPages_eq hcmd
  · rintro rfl
    exact flashExact_none hcmd

/-- A device that is never busy and reports no error. -/
def idleNor : Env NorCall := fun _ _ => ⟨0, fun _ => 0⟩

def norStart : NorSt := ⟨[], ⟨fun _ _ => 0xFF, [], []⟩⟩

/-- A flash of no page and one of one page, both of which return 0. -/
theorem norFlash_exact_pages :
    FlashExact idleNor ⟨25000000, 0⟩ 64 0 3 0 norStart
      (norFlash ⟨25000000, 0⟩ 1 0 3 0 idleNor norStart).2 ∧
    ¬FlashExact idleNor ⟨25000000, 0⟩ 64 0 3 1 norStart
      (norFlash ⟨25000000, 0⟩ 1 0 3 1 idleNor norStart).2 := by
  have hrun₀ : (norFlash ⟨25000000, 0⟩ 1 0 3 0 idleNor norStart).1 = .ok () := by decide +kernel
  have hrun₁ : (norFlash ⟨25000000, 0⟩ 1 0 3 1 idleNor norStart).1 = .ok () := by decide +kernel
  exact ⟨(norFlash_exact_iff idleNor ⟨25000000, 0⟩ 64 1 0 3 0 (run_eq hrun₀)).mpr rfl,
    mt (norFlash_exact_iff idleNor ⟨25000000, 0⟩ 64 1 0 3 1 (run_eq hrun₁)).mp Nat.one_ne_zero⟩

/-- One page: nothing is programmed, and the buffer holds what was received. -/
theorem norFlash_one_page :
    (norFlash ⟨25000000, 0⟩ 1 0 3 1 idleNor norStart).1 = .ok () ∧
      norStart.mem.get () 0 = 0xFF ∧
      (norFlash ⟨25000000, 0⟩ 1 0 3 1 idleNor norStart).2.mem.get () 0 = 0 ∧
      ¬FlashExact idleNor ⟨25000000, 0⟩ 64 0 3 1 norStart
        (norFlash ⟨25000000, 0⟩ 1 0 3 1 idleNor norStart).2 := by
  have hrun : (norFlash ⟨25000000, 0⟩ 1 0 3 1 idleNor norStart).1 = .ok () := by decide +kernel
  refine ⟨hrun, rfl, by decide +kernel, fun hexact => ?_⟩
  have hspec : wp idleNor (norFlash ⟨25000000, 0⟩ 1 0 3 1) _ _ norStart :=
    norFlash_commanded 1 0 3 1 norStart
  have hcmd := wp_ok hspec (run_eq hrun)
  exact Nat.one_ne_zero (hexact.numPages_eq hcmd)

end Cheshire.Sw
