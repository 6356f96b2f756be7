import Mathlib.Data.List.GetD
import Cheshire.Sw.SdResponse
import Cheshire.Sw.SpiHost
import Cheshire.Sw.SdTimeout

/-!
# `spi_sdcard_init`: waking the card up

`__spi_sdcard_activate` is a fixed sequence of commands around a loop: CMD0 and CMD8, then
CMD55 and ACMD41 until the card has left its idle state, then CMD58 and CMD16. A card that
the driver calls active has gone through this dialogue (`sdActivate_dialogue`). The checks let
through what `Passes` says: a zero passes for what CMD0 expects, and what of the answer to CMD8
is compared depends on the mask. The loop has no bound, and a card that stays idle keeps it for
ever (`sdActivate_idle`).

`spi_sdcard_init` runs the dialogue at 200 kHz and sets the frequency the caller asked for
behind it, the pins switched off meanwhile: no transfer is faster than a card that is not
active yet can take (`sdInit_sound`).
-/

namespace Cheshire.Sw

open Firmware Firmware.Prog

/-! ## The driver -/

/-- `__spi_sdcard_xfer_csaat(handle, NULL, NULL, len)`. -/
def sdDummy (h : SdHandle) (len : Nat) : SdProg Unit := do
  let r ← ask ⟨h.csid, true, .dummy (8 * len)⟩
  retCode r.ret

/-- `do { CMD55; ACMD41 } while (ret)`, for at most `rounds` rounds. -/
def sdLeaveIdle (h : SdHandle) (junk : SdJunk) : (rounds : Nat) → SdProg Unit
  | 0 => stop .spin
  | rounds + 1 => do
    sdCmdCheck h 0x650000000077 .r1 junk none
    let ret ← sdCmd h 0x770000004069 .r1 false
    if ret.getD 0 1 ≠ 0 then sdLeaveIdle h junk rounds else pure ()

/-- `__spi_sdcard_activate`, its commands with the frames as the source has them. -/
def sdActivate (h : SdHandle) (junk : SdJunk) (rounds : Nat) : SdProg Unit := do
  sdDummy h 10
  sdCmdCheck h 0x950000000040 .r1 junk (some 0x01)
  sdCmdCheck h 0x87AA01000048 .r7 junk (some 0xAA01000001)
  sdLeaveIdle h junk rounds
  sdCmdCheck h 0xFD000000007A .r3 junk none
  sdCmdCheck h 0x150002000050 .r1 junk (some 0x00)

/-- `spi_sdcard_t`, with the frequency that the initialisation checks. -/
structure SdDevice extends SdHandle where
  spiFreq : Nat

/-- `__spi_sdcard_init_clock`, the frequency of the activation. -/
def sdInitClock : Nat := 200000

/-- `config` of the SPI host, at this `spi_clock`. -/
def sdConfig (coreFreq : BitVec 64) (clock : Nat) : SpiConfig :=
  ⟨0, 0, 0, false, false, false, coreFreq, clock⟩

abbrev SdBootProg := Prog (SpiHostCall SpiCall) SdMem

/-- Configure the chip select of the card and the dummy. -/
def sdConfigure (h : SdDevice) (cfg : SpiConfig) : SdBootProg Unit := do
  let _ ← check (.configureCs cfg h.csid)
  let _ ← check (.configureCs cfg h.csidDummy)
  pure ()

/-- `spi_sdcard_init`, with the checks of the handle in the source's order. -/
def sdInit (numCs : Nat) (handle : Option SdDevice) (coreFreq : BitVec 64) (junk : SdJunk)
    (rounds : Nat) : SdBootProg Unit :=
  match handle with
  | none => stop (.ret 0x14)
  | some h => do
    retCode (if h.csid < numCs then 0 else 0x15)
    retCode (if h.csidDummy < numCs then 0 else 0x15)
    retCode (if h.spiFreq ≠ 0 then 0 else 0x16)
    retCode (if h.spiFreq ≤ 25 * 1000 * 1000 then 0 else 0x17)
    retCode (if h.spiFreq ≤ coreFreq.toNat then 0 else 0x18)
    let _ ← check .init
    let _ ← ask .reset
    sdConfigure h (sdConfig coreFreq sdInitClock)
    let _ ← ask (.enable true)
    let _ ← check (.outputSetEnabled true)
    within .transfer (sdActivate h.toSdHandle junk rounds)
    let _ ← check (.outputSetEnabled false)
    sdConfigure h (sdConfig coreFreq h.spiFreq)
    let _ ← check (.outputSetEnabled true)
    pure ()

/-! ## Exchanges -/

/-- What a card sends behind a command whose response is of this type: bytes polled, and then
the response, which is as long as its type says. -/
structure SdReply (resp : SdResp) where
  polls : List Byte
  first : Byte
  rest : List Byte
  polls_busy : ∀ x ∈ polls, x.msb
  first_ready : first.msb = false
  length_rest : rest.length = resp.len - 1

def SdReply.bytes {resp : SdResp} (x : SdReply resp) : List Byte := x.first :: x.rest

/-- A command on the bus: the frame, the reply, and the release of the chip select. -/
def exchange (h : SdHandle) (cmd : BitVec 64) {resp : SdResp} (x : SdReply resp) : List SdEvent :=
  .sent h.csid (leBytes cmd 6) :: h.got (x.polls ++ x.bytes) ++ h.freed

variable {env : Env SpiCall} {h : SdHandle}

/-- Behind the first byte a response has as many as its type says. -/
theorem sdRespRest_wire {resp : SdResp} (hresp : resp ≠ .r1b) (s : SdSt) :
    wp env (sdRespRest h resp)
      (fun rest s' => s'.mem = s.mem ∧ Wire (h.got rest) s s' ∧ rest.length = resp.len - 1)
      (KeepsMem s) s := by
  unfold sdRespRest
  rw [if_neg hresp, wp_ite]
  by_cases hrem : resp.len - 1 ≠ 0
  · rw [if_pos hrem, wp_bind]
    refine wp_mono (sdRx_spec _ s) (fun d s₁ h₁ => ⟨h₁.1, h₁.2, ?_⟩) fun _ _ he => he
    rw [List.length_map, List.length_range]
  · rw [if_neg hrem]
    exact ⟨rfl, wire_refl s, (not_not.mp hrem).symm⟩

theorem sdCmd_exchange {cmd : BitVec 64} (hcmd : cmd &&& 0xFF ≠ 0x4C) {resp : SdResp}
    (hresp : resp ≠ .r1b) (s : SdSt) :
    wp env (sdCmd h cmd resp false)
      (fun rdata s' => s'.mem = s.mem ∧
        ∃ x : SdReply resp, rdata = x.bytes ∧ Wire (exchange h cmd x) s s')
      (KeepsMem s) s := by
  unfold sdCmd sdStuffByte
  rw [wp_bind]
  refine wp_mono (sdTx_spec _ s) (fun _ s₁ h₁ => ?_) fun _ _ he => he
  obtain ⟨hmem₁, hwire₁⟩ := h₁
  rw [if_neg hcmd, wp_bind, wp_pure, wp_bind]
  refine wp_mono (sdPoll_spec _ 8 s₁) (fun r s₂ h₂ => ?_) fun _ _ he => he.trans hmem₁
  obtain ⟨hmem₂, hlast, polls, hpolls, hwire₂⟩ := h₂
  have hkeep₂ : s₂.mem = s.mem := hmem₂.trans hmem₁
  dsimp only
  rw [wp_bind, wp_returnIf _ (by decide)]
  refine ⟨fun htimeout => ?_, fun _ => hkeep₂⟩
  rw [wp_bind]
  refine wp_mono (sdRespRest_wire hresp s₂) (fun rest s₃ h₃ => ?_) fun _ _ he => he.trans hkeep₂
  obtain ⟨hmem₃, hwire₃, hlen⟩ := h₃
  have hkeep₃ : s₃.mem = s.mem := hmem₃.trans hkeep₂
  rw [wp_bind]
  refine wp_mono (sdRelease_spec false s₃) (fun _ s₄ h₄ => ?_) fun _ _ he => he.trans hkeep₃
  obtain ⟨hmem₄, hwire₄⟩ := h₄
  -- the frame, the polls and the first byte of the response, its rest, the release
  have hwire := hwire₁.trans ((hwire₂.trans hwire₃).trans hwire₄)
  rw [← h.got_append, List.append_assoc] at hwire
  exact ⟨hmem₄.trans hkeep₃, ⟨polls, r.1, rest, hpolls, hlast htimeout, hlen⟩, rfl, hwire⟩

/-- A command whose response is not looked at is one exchange on the bus, with some response of
its type. -/
theorem sdCmdCheck_exchange {cmd : BitVec 64} (hcmd : cmd &&& 0xFF ≠ 0x4C) {resp : SdResp}
    (hresp : resp ≠ .r1b) (junk : SdJunk) (s : SdSt) :
    wp env (sdCmdCheck h cmd resp junk none)
      (fun _ s' => s'.mem = s.mem ∧ ∃ x : SdReply resp, Wire (exchange h cmd x) s s')
      (KeepsMem s) s := by
  unfold sdCmdCheck
  rw [wp_bind]
  refine wp_mono (sdCmd_exchange hcmd hresp s) (fun rdata s₁ h₁ => ?_) fun _ _ he => he
  obtain ⟨hmem, x, -, hwire⟩ := h₁
  exact ⟨hmem, x, hwire⟩

/-- A command whose response is checked is one exchange, and if it succeeds the response passes
the check. -/
theorem sdCmdCheck_passes {cmd : BitVec 64} (hcmd : cmd &&& 0xFF ≠ 0x4C) {resp : SdResp}
    (hresp : resp ≠ .r1b) (junk : SdJunk) (exp : BitVec 64) (s : SdSt) :
    wp env (sdCmdCheck h cmd resp junk (some exp))
      (fun _ s' => s'.mem = s.mem ∧ ∃ x : SdReply resp, Passes junk resp x.bytes exp ∧
        Wire (exchange h cmd x) s s') (KeepsMem s) s := by
  unfold sdCmdCheck
  rw [wp_bind]
  refine wp_mono (sdCmd_exchange hcmd hresp s) (fun rdata s₁ h₁ => ?_) fun _ _ he => he
  obtain ⟨hmem, x, rfl, hwire⟩ := h₁
  exact wp_passes (fun hpass => ⟨hmem, x, hpass, hwire⟩) fun _ _ _ => hmem

/-- A response of one byte passes if it is the expected one or zero. -/
theorem passes_r1 {junk : SdJunk} {x : SdReply .r1} {exp : BitVec 64}
    (hpass : Passes junk .r1 x.bytes exp) : x.first = byteOf exp 0 ∨ x.first = 0 := by
  have hlen : x.bytes.length = SdResp.r1.len := by
    unfold SdReply.bytes
    rw [List.length_cons, x.length_rest]
    rfl
  rcases (passes_short (by decide) hlen).mp hpass with hsame | hzero
  · exact Or.inl (hsame 0 Nat.one_pos)
  · refine Or.inr ((hzero 0 Nat.one_pos).trans ?_)
    exact byteOf_zero 0

/-! ## The dialogue of an activation -/

/-- One round of the loop: CMD55 and ACMD41. -/
def idleRound (h : SdHandle) (p : SdReply .r1 × SdReply .r1) : List SdEvent :=
  exchange h 0x650000000077 p.1 ++ exchange h 0x770000004069 p.2

/-- What went over the bus when the card has been activated: 80 dummy cycles, CMD0 and CMD8,
rounds in which the card was busy and one in which it was not, CMD58 and CMD16. -/
structure Activated (h : SdHandle) (junk : SdJunk) (s s' : SdSt) (r0 : SdReply .r1)
    (r8 : SdReply .r7) (busy : List (SdReply .r1 × SdReply .r1))
    (last : SdReply .r1 × SdReply .r1) (r58 : SdReply .r3) (r16 : SdReply .r1) : Prop where
  dialogue : Wire (.dummy h.csid 80 :: exchange h 0x950000000040 r0 ++
    exchange h 0x87AA01000048 r8 ++ (busy ++ [last]).flatMap (idleRound h) ++
    exchange h 0xFD000000007A r58 ++ exchange h 0x150002000050 r16) s s'
  idle : r0.first = 1 ∨ r0.first = 0
  present : Passes junk .r7 r8.bytes 0xAA01000001
  waited : ∀ p ∈ busy, p.2.first ≠ 0
  ready : last.2.first = 0
  blockLen : r16.first = 0

theorem sdDummy_spec (len : Nat) (s : SdSt) :
    wp env (sdDummy h len) (fun _ s' => s'.mem = s.mem ∧ Wire [.dummy h.csid (8 * len)] s s')
      (KeepsMem s) s := by
  unfold sdDummy
  rw [wp_bind, wp_ask, wp_retCode]
  exact ⟨fun _ => ⟨rfl, rfl⟩, fun _ => rfl⟩

/-- The loop ends with the first ACMD41 that is answered with zero. -/
theorem sdLeaveIdle_spec (junk : SdJunk) : ∀ (rounds : Nat) (s : SdSt),
    wp env (sdLeaveIdle h junk rounds)
      (fun _ s' => s'.mem = s.mem ∧ ∃ (busy : List (SdReply .r1 × SdReply .r1)) (last : _),
        (∀ p ∈ busy, p.2.first ≠ 0) ∧ last.2.first = 0 ∧
        Wire ((busy ++ [last]).flatMap (idleRound h)) s s')
      (KeepsMem s) s := by
  intro rounds
  induction rounds with
  | zero => exact fun _ => rfl
  | succ rounds ih =>
    intro s
    unfold sdLeaveIdle
    rw [wp_bind]
    refine wp_mono (sdCmdCheck_exchange (by decide) (by decide) junk s) (fun _ s₁ h₁ => ?_)
      fun _ _ he => he
    obtain ⟨hmem₁, r55, hwire₁⟩ := h₁
    rw [wp_bind]
    refine wp_mono (sdCmd_exchange (by decide) (by decide) s₁) (fun rdata s₂ h₂ => ?_)
      fun _ _ he => he.trans hmem₁
    obtain ⟨hmem₂, x, rfl, hwire₂⟩ := h₂
    have hround : Wire (idleRound h (r55, x)) s s₂ := hwire₁.trans hwire₂
    rw [wp_ite, show x.bytes.getD 0 1 = x.first from rfl]
    -- any other response is one more round, also one with an error bit
    by_cases hr : x.first = 0
    · rw [if_neg (not_not.mpr hr)]
      refine ⟨hmem₂.trans hmem₁, [], (r55, x), fun _ hp => absurd hp List.not_mem_nil, hr, ?_⟩
      rw [List.nil_append, List.flatMap_cons, List.flatMap_nil, List.append_nil]
      exact hround
    · rw [if_pos hr]
      refine wp_mono (ih s₂) (fun _ s₃ h₃ => ?_) fun _ _ he => he.trans (hmem₂.trans hmem₁)
      obtain ⟨hmem₃, busy, last, hbusy, hlast, hwire₃⟩ := h₃
      exact ⟨hmem₃.trans (hmem₂.trans hmem₁), (r55, x) :: busy, last,
        List.forall_mem_cons.mpr ⟨hr, hbusy⟩, hlast, hround.trans hwire₃⟩

theorem sdActivate_spec (junk : SdJunk) (rounds : Nat) (s : SdSt) :
    wp env (sdActivate h junk rounds)
      (fun _ s' => s'.mem = s.mem ∧
        ∃ r0 r8 busy last r58 r16, Activated h junk s s' r0 r8 busy last r58 r16)
      (KeepsMem s) s := by
  unfold sdActivate
  rw [wp_bind]
  refine wp_mono (sdDummy_spec 10 s) (fun _ s₁ h₁ => ?_) fun _ _ he => he
  obtain ⟨hmem₁, hwire₁⟩ := h₁
  rw [wp_bind]
  refine wp_mono (sdCmdCheck_passes (by decide) (by decide) junk _ s₁) (fun _ s₂ h₂ => ?_)
    fun _ _ he => he.trans hmem₁
  obtain ⟨hmem₂, r0, hr0, hwire₂⟩ := h₂
  have hkeep₂ := hmem₂.trans hmem₁
  rw [wp_bind]
  refine wp_mono (sdCmdCheck_passes (by decide) (by decide) junk _ s₂) (fun _ s₃ h₃ => ?_)
    fun _ _ he => he.trans hkeep₂
  obtain ⟨hmem₃, r8, hr8, hwire₃⟩ := h₃
  have hkeep₃ := hmem₃.trans hkeep₂
  rw [wp_bind]
  refine wp_mono (sdLeaveIdle_spec junk rounds s₃) (fun _ s₄ h₄ => ?_) fun _ _ he => he.trans hkeep₃
  obtain ⟨hmem₄, busy, last, hbusy, hlast, hwire₄⟩ := h₄
  have hkeep₄ := hmem₄.trans hkeep₃
  rw [wp_bind]
  refine wp_mono (sdCmdCheck_exchange (by decide) (by decide) junk s₄) (fun _ s₅ h₅ => ?_)
    fun _ _ he => he.trans hkeep₄
  obtain ⟨hmem₅, r58, hwire₅⟩ := h₅
  have hkeep₅ := hmem₅.trans hkeep₄
  refine wp_mono (sdCmdCheck_passes (by decide) (by decide) junk _ s₅) (fun _ s₆ h₆ => ?_)
    fun _ _ he => he.trans hkeep₅
  obtain ⟨hmem₆, r16, hr16, hwire₆⟩ := h₆
  -- CMD16 is checked against 0, and `__spi_sdcard_cmd_check` lets 0 pass anyway
  have hzero : r16.first = 0 := (passes_r1 hr16).elim (fun hr => hr) fun hr => hr
  refine ⟨hmem₆.trans hkeep₅, r0, r8, busy, last, r58, r16, ?_, passes_r1 hr0, hr8, hbusy, hlast,
    hzero⟩
  exact ((((hwire₁.trans hwire₂).trans hwire₃).trans hwire₄).trans hwire₅).trans hwire₆

/-- A card that has been activated was idle or ready at first, answered ACMD41 with zero at
last and accepted the block length; and an activation stores nothing. -/
theorem sdActivate_dialogue (env : Env SpiCall) (h : SdHandle) (junk : SdJunk) (rounds : Nat)
    {s s' : SdSt} {r : Except Stop Unit} (hrun : sdActivate h junk rounds env s = (r, s')) :
    (r = .ok () →
      ∃ r0 r8 busy last r58 r16, Activated h junk s s' r0 r8 busy last r58 r16) ∧
      s'.mem = s.mem := by
  have hspec : wp env (sdActivate h junk rounds) _ _ s := sdActivate_spec junk rounds s
  cases r with
  | ok => exact ⟨fun _ => (wp_ok hspec hrun).2, (wp_ok hspec hrun).1⟩
  | error e => exact ⟨fun hr => (nomatch hr), wp_error hspec hrun⟩

/-- A line that is stuck at zero passes for a card. -/
theorem sdActivate_dialogue_zeros : ∃ r0 r8 busy last r58 r16,
    Activated ⟨0, 2⟩ ⟨0, BitVec.allOnes 64⟩ sdIdle
      (sdActivate ⟨0, 2⟩ ⟨0, BitVec.allOnes 64⟩ 3 (constCard 0) sdIdle).2
      r0 r8 busy last r58 r16 := by
  have hrun : (sdActivate ⟨0, 2⟩ ⟨0, BitVec.allOnes 64⟩ 3 (constCard 0) sdIdle).1 = .ok () := by
    decide +kernel
  exact (sdActivate_dialogue (constCard 0) ⟨0, 2⟩ ⟨0, BitVec.allOnes 64⟩ 3 (run_eq hrun)).1 rfl

/-! ## A card that stays idle -/

/-- Every segment succeeds, every byte polled is an idle response, and the four bytes behind
that of CMD8 are the voltage and the pattern it sent. -/
structure StaysIdle (env : Env SpiCall) : Prop where
  succeeds : ∀ t q, (env t q).ret = 0
  idle : ∀ t q, q.seg = .rx 1 → (env t q).out 0 = 1
  echo : ∀ t q, q.seg = .rx 4 →
    (List.range 4).map (env t q).out = [0x00, 0x00, 0x01, 0xAA]

/-- What an idle card answers: CMD8 is the only command of its type. -/
def idleReply : SdResp → List Byte
  | .r7 => [0x01, 0x00, 0x00, 0x01, 0xAA]
  | _ => [0x01]

section

variable (hidle : StaysIdle env)

include hidle

theorem sdPoll_idle (timeout : Nat) (s : SdSt) :
    wp env (sdPoll h (·.msb) (timeout + 1)) (fun r _ => r = (1, timeout)) (fun _ _ => False) s := by
  unfold sdPoll sdRx
  rw [wp_bind, wp_check]
  refine ⟨fun _ => ?_, fun hne => hne (hidle.succeeds _ _)⟩
  rw [hidle.idle _ _ rfl, if_neg fun hmsb => absurd hmsb.2 (by decide), wp_pure]

theorem sdRespRest_idle {resp : SdResp} (hresp : resp = .r1 ∨ resp = .r7) (s : SdSt) :
    wp env (sdRespRest h resp) (fun rest _ => 1 :: rest = idleReply resp) (fun _ _ => False)
      s := by
  unfold sdRespRest sdRx
  rcases hresp with rfl | rfl
  · exact rfl
  · rw [if_neg (by decide), if_pos (by decide), wp_bind, wp_check]
    refine ⟨fun _ => ?_, fun hne => hne (hidle.succeeds _ _)⟩
    exact congrArg (List.cons 1) (hidle.echo _ _ rfl)

theorem sdCsfree_idle (s : SdSt) :
    wp env (sdCsfree h) (fun _ _ => True) (fun _ _ => False) s := by
  unfold sdCsfree
  rw [wp_bind, wp_ask, wp_retCode]
  exact ⟨fun _ => trivial, fun hne => hne (hidle.succeeds _ _)⟩

/-- Any command is answered at once. -/
theorem sdCmd_idle {cmd : BitVec 64} (hcmd : cmd &&& 0xFF ≠ 0x4C) {resp : SdResp}
    (hresp : resp = .r1 ∨ resp = .r7) (s : SdSt) :
    wp env (sdCmd h cmd resp false) (fun rdata _ => rdata = idleReply resp)
      (fun _ _ => False) s := by
  unfold sdCmd sdTx sdStuffByte
  rw [wp_bind, wp_bind, wp_ask, wp_retCode]
  refine ⟨fun _ => ?_, fun hne => hne (hidle.succeeds _ _)⟩
  rw [if_neg hcmd, wp_bind, wp_pure, wp_bind]
  refine wp_mono (sdPoll_idle hidle 7 _) (fun r s₁ hr => ?_) fun _ _ he => he
  subst hr
  dsimp only
  rw [wp_bind, wp_returnIf _ (by decide)]
  refine ⟨fun _ => ?_, fun h0 => absurd h0 (by decide)⟩
  rw [wp_bind]
  refine wp_mono (sdRespRest_idle hidle hresp s₁) (fun rest s₂ hrest => ?_) fun _ _ he => he
  rw [wp_bind]
  exact wp_mono (sdCsfree_idle hidle s₂) (fun _ _ _ => hrest) fun _ _ he => he

/-- A command does not fail on a card that stays idle, if that card's response passes the check
made of it. -/
theorem sdCmdCheck_idle {cmd : BitVec 64} (hcmd : cmd &&& 0xFF ≠ 0x4C) {resp : SdResp}
    (hresp : resp = .r1 ∨ resp = .r7) {junk : SdJunk} {exp : Option (BitVec 64)}
    (hpass : ∀ v, exp = some v → Passes junk resp (idleReply resp) v) (s : SdSt) :
    wp env (sdCmdCheck h cmd resp junk exp) (fun _ _ => True) (fun _ _ => False) s := by
  unfold sdCmdCheck
  rw [wp_bind]
  refine wp_mono (sdCmd_idle hidle hcmd hresp s) (fun rdata s₁ hr => ?_) fun _ _ he => he
  subst hr
  cases exp with
  | none => trivial
  | some v => exact wp_passes (fun _ => trivial) fun _ _ hfail => hfail (hpass v rfl)

theorem sdLeaveIdle_idle (junk : SdJunk) : ∀ (rounds : Nat) (s : SdSt),
    wp env (sdLeaveIdle h junk rounds) (fun _ _ => False) (fun e _ => e = .spin) s := by
  intro rounds
  induction rounds with
  | zero => exact fun _ => rfl
  | succ rounds ih =>
    intro s
    unfold sdLeaveIdle
    rw [wp_bind]
    refine wp_mono (sdCmdCheck_idle hidle (by decide) (Or.inl rfl) (by simp) s)
      (fun _ s₁ _ => ?_) fun _ _ he => he.elim
    rw [wp_bind]
    refine wp_mono (sdCmd_idle hidle (by decide) (Or.inl rfl) s₁) (fun rdata s₂ hr => ?_)
      fun _ _ he => he.elim
    rw [hr, wp_ite, if_pos (by decide)]
    exact ih s₂

/-- A card that stays idle is asked for ever: there is no number of rounds that is enough. Of
the five bytes of its answer to CMD8 all are right, so the check can only fail by what it takes
of `buf` behind them. -/
theorem sdActivate_idle {junk : SdJunk} (hrest : junk.RestFits 0xAA01000001) (rounds : Nat)
    (s : SdSt) : (sdActivate h junk rounds env s).1 = .error .spin := by
  have hpass0 : Passes junk .r1 (idleReply .r1) 0x01 :=
    (passes_short (by decide) rfl).mpr (Or.inl (show ∀ k < 1, _ by decide))
  have hpass8 : Passes junk .r7 (idleReply .r7) 0xAA01000001 := by
    have hsame : SameBytes (idleReply .r7) 0xAA01000001 5 := show ∀ k < 5, _ by decide
    exact (passes_five rfl rfl).mpr
      (Or.inl ⟨fun i hi _ => sameBytes_iff.mp hsame i hi, hrest⟩)
  have hspec : wp env (sdActivate h junk rounds) (fun _ _ => False) (fun e _ => e = .spin) s := by
    unfold sdActivate sdDummy
    rw [wp_bind, wp_bind, wp_ask, wp_retCode]
    refine ⟨fun _ => ?_, fun hne => absurd (hidle.succeeds _ _) hne⟩
    rw [wp_bind]
    refine wp_mono (sdCmdCheck_idle hidle (by decide) (Or.inl rfl)
      (fun v hv => Option.some.inj hv ▸ hpass0) _) (fun _ s₁ _ => ?_) fun _ _ he => he.elim
    rw [wp_bind]
    refine wp_mono (sdCmdCheck_idle hidle (by decide) (Or.inr rfl)
      (fun v hv => Option.some.inj hv ▸ hpass8) _) (fun _ s₂ _ => ?_) fun _ _ he => he.elim
    rw [wp_bind]
    -- CMD0 and CMD8 ask for an idle card, so the loop is reached
    exact wp_mono (sdLeaveIdle_idle hidle junk rounds s₂) (fun _ _ hf => hf.elim) fun _ _ he => he
  unfold wp at hspec
  split at hspec
  next => exact hspec.elim
  next e s' hx =>
    rw [hx, hspec]

end

theorem idleCard_staysIdle : StaysIdle idleCard := by
  refine ⟨fun _ _ => rfl, fun _ q hq => ?_, fun _ q hq => ?_⟩
  · show (if q.seg = .rx 1 then _ else _) = _
    rw [if_pos hq]
  · show (List.range 4).map (fun i => if q.seg = .rx 1 then _ else _) = _
    rw [hq]
    rfl

/-- With a mask that is all ones, where `buf` held zeros. -/
theorem sdActivate_idle_echo :
    (sdActivate ⟨0, 2⟩ ⟨0, BitVec.allOnes 64⟩ 100 idleCard sdIdle).1 = .error .spin := by
  refine sdActivate_idle idleCard_staysIdle (fun i hlo hi _ => ?_) 100 sdIdle
  have hbits : ∀ i < 64, 40 ≤ i → (0 : BitVec 64).getLsbD i = (0xAA01000001 : BitVec 64).getLsbD i
    := by decide
  exact hbits i hi hlo

/-! ## Chip selects -/

/-- Only the card's chip select and the dummy are used. -/
def SdHandle.Uses (h : SdHandle) (q : SpiCall) : Prop := q.csid = h.csid ∨ q.csid = h.csidDummy

/-- What every function of the driver keeps to. -/
def sdGuarantee (h : SdHandle) : Guarantee SpiCall SdMem := (callsIn h.Uses).and onlyStores

/-- A function of the driver that ends: with a code if it stops early. -/
def SdEnds {α : Type} (h : SdHandle) (x : SdProg α) : Prop := Meets (sdGuarantee h) IsCode x

theorem isCode_ret (c : Code) (hc : c ≠ 0) : IsCode (.ret c) := ⟨c, hc, rfl⟩

theorem sdGuarantee_allows {q : SpiCall} (hq : h.Uses q) : (sdGuarantee h).Allows q :=
  fun env s => ⟨callsIn_allows hq env s, onlyStores_allows q env s⟩

theorem sdModify_ends {f : SdMem → SdMem} (hf : ∀ m : SdMem, m.OnlyStores (f m)) :
    SdEnds h (modifyMem f) :=
  fun env s =>
    ⟨callsIn_modifyMem (P := IsCode) f env s, onlyStores_modifyMem (P := IsCode) hf env s⟩

theorem sdTx_ends (data : List Byte) : SdEnds h (sdTx h data) :=
  meets_bind (meets_ask (sdGuarantee_allows (Or.inl rfl))) fun _ => meets_retCode isCode_ret _

theorem sdRx_ends (n : Nat) : SdEnds h (sdRx h n) :=
  meets_check isCode_ret (sdGuarantee_allows (Or.inl rfl))

theorem sdCsfree_ends : SdEnds h (sdCsfree h) :=
  meets_bind (meets_ask (sdGuarantee_allows (Or.inr rfl))) fun _ => meets_retCode isCode_ret _

theorem sdDummy_ends (n : Nat) : SdEnds h (sdDummy h n) :=
  meets_bind (meets_ask (sdGuarantee_allows (Or.inl rfl))) fun _ => meets_retCode isCode_ret _

theorem sdPoll_ends (again : Byte → Bool) : ∀ timeout, SdEnds h (sdPoll h again (timeout + 1))
  | 0 => meets_bind (sdRx_ends 1) fun _ => by
    rw [if_neg fun h0 => h0.1 rfl]
    exact meets_pure _
  | timeout + 1 => meets_bind (sdRx_ends 1) fun _ =>
    meets_ite (sdPoll_ends again timeout) (meets_pure _)

theorem sdRespRest_ends (resp : SdResp) : SdEnds h (sdRespRest h resp) :=
  meets_ite
    (meets_bind (sdPoll_ends _ 9999) fun _ =>
      meets_bind (meets_retCode isCode_ret _) fun _ => meets_pure _)
    (meets_ite (meets_bind (sdRx_ends _) fun _ => meets_pure _) (meets_pure _))

/-- A command, behind its frame. -/
theorem sdResponse_ends (cmd : BitVec 64) (resp : SdResp) (csaat : Bool) :
    SdEnds h (do
      sdStuffByte h cmd
      let (r, timeout) ← sdPoll h (·.msb) 8
      retCode (if timeout = 0 then 0x12 else 0)
      let rest ← sdRespRest h resp
      sdRelease h csaat
      pure (r :: rest)) :=
  meets_bind (meets_ite (meets_bind (sdRx_ends 1) fun _ => meets_pure _) (meets_pure _)) fun _ =>
    meets_bind (sdPoll_ends _ 7) fun _ =>
      meets_bind (meets_retCode isCode_ret _) fun _ =>
        meets_bind (sdRespRest_ends resp) fun _ =>
          meets_bind (meets_ite (meets_pure _) sdCsfree_ends) fun _ => meets_pure _

theorem sdCmd_ends (cmd : BitVec 64) (resp : SdResp) (csaat : Bool) :
    SdEnds h (sdCmd h cmd resp csaat) :=
  meets_bind (sdTx_ends _) fun _ => sdResponse_ends cmd resp csaat

theorem sdCmdCheck_ends (cmd : BitVec 64) (resp : SdResp) (junk : SdJunk)
    (exp : Option (BitVec 64)) : SdEnds h (sdCmdCheck h cmd resp junk exp) :=
  meets_bind (sdCmd_ends cmd resp false) fun _ => by
    cases exp with
    | none => exact meets_pure _
    | some v => exact meets_retCode isCode_ret _

/-- What a function of the driver that ends keeps to, it keeps to however it ends. -/
theorem SdEnds.may {α : Type} {x : SdProg α} (hx : SdEnds h x) :
    Meets (sdGuarantee h) (fun _ => True) x := hx.mono (fun hg => hg) fun _ _ => trivial

/-- The ACMD41 loop may go on for ever, but it uses the card's chip select and the dummy only,
and only bytes that it stored to have changed. -/
theorem sdLeaveIdle_meets (junk : SdJunk) : ∀ rounds,
    Meets (sdGuarantee h) (fun _ => True) (sdLeaveIdle h junk rounds)
  | 0 => meets_stop trivial
  | rounds + 1 =>
    meets_bind (sdCmdCheck_ends _ _ junk none).may fun _ =>
      meets_bind (sdCmd_ends _ _ false).may fun _ =>
        meets_ite (sdLeaveIdle_meets junk rounds) (meets_pure _)

theorem sdActivate_meets (junk : SdJunk) (rounds : Nat) :
    Meets (sdGuarantee h) (fun _ => True) (sdActivate h junk rounds) :=
  meets_bind (sdDummy_ends 10).may fun _ =>
    meets_bind (sdCmdCheck_ends _ _ junk _).may fun _ =>
      meets_bind (sdCmdCheck_ends _ _ junk _).may fun _ =>
        meets_bind (sdLeaveIdle_meets junk rounds) fun _ =>
          meets_bind (sdCmdCheck_ends _ _ junk _).may fun _ => (sdCmdCheck_ends _ _ junk _).may

/-! ## The frequency of each transfer -/

/-- Behind `t₀`, every transfer of these calls was made on a chip select configured for `f`,
with the pins driven. -/
def TransfersAt (f : Nat) (t₀ : Trace (SpiHostCall SpiCall)) : Trace (SpiHostCall SpiCall) → Prop
  | [] => True
  | (.transfer q, _) :: t =>
    clockOf q.csid (t ++ t₀) = some f ∧ outputOn (t ++ t₀) = true ∧ TransfersAt f t₀ t
  | _ :: t => TransfersAt f t₀ t

def isTransfer : SpiHostCall SpiCall → Bool
  | .transfer _ => true
  | _ => false

abbrev SdBootSt := St (SpiHostCall SpiCall) SdMem

/-- Since `s` all transfers were at the frequency `f`. -/
def AllAt (f : Nat) (s s' : SdBootSt) : Prop :=
  ∃ new, s'.calls = new ++ s.calls ∧ TransfersAt f s.calls new

/-- Since `s` nothing was stored, and all transfers were at the slow clock of the initialisation. -/
structure SlowSince (s s' : SdBootSt) : Prop where
  slow : AllAt sdInitClock s s'
  mem : s'.mem = s.mem

/-- The card's chip select and the dummy are configured for `f`. -/
def Configured (h : SdHandle) (f : Nat) (s : SdBootSt) : Prop :=
  clockOf h.csid s.calls = some f ∧ clockOf h.csidDummy s.calls = some f

theorem slowSince_refl (s : SdBootSt) : SlowSince s s :=
  ⟨⟨[], rfl, trivial⟩, rfl⟩

theorem SlowSince.call {s s₁ : SdBootSt} (h₁ : SlowSince s s₁) {q : SpiHostCall SpiCall}
    (hq : isTransfer q = false) (r : Reply) :
    SlowSince s { s₁ with calls := (q, r) :: s₁.calls } := by
  obtain ⟨⟨new, hnew, hslow⟩, hmem⟩ := h₁
  refine ⟨⟨(q, r) :: new, by rw [hnew]; rfl, ?_⟩, hmem⟩
  cases q with
  | transfer => cases hq
  | init | reset | configureCs | enable | outputSetEnabled | spinUntil => exact hslow

variable {env : Env (SpiHostCall SpiCall)} {s s₁ : SdBootSt}

/-- A call to the host that is no transfer, and its check. -/
theorem wp_check_host {q : SpiHostCall SpiCall} {R : (Nat → Byte) → SdBootSt → Prop}
    (h₁ : SlowSince s s₁) (hq : isTransfer q = false)
    (hR : ∀ r, r.ret = 0 → SlowSince s { s₁ with calls := (q, r) :: s₁.calls } →
      R r.out { s₁ with calls := (q, r) :: s₁.calls }) :
    wp env (check q) R (fun _ => SlowSince s) s₁ := by
  rw [wp_check]
  exact ⟨fun hret => hR _ hret (h₁.call hq _), fun _ => h₁.call hq _⟩

theorem wp_assert_host {c : Prop} [Decidable c] {k : Code} {R : Unit → SdBootSt → Prop}
    (h₁ : SlowSince s s₁) (hR : R () s₁) :
    wp env (retCode (if c then 0 else k)) R (fun _ => SlowSince s) s₁ := by
  rw [wp_retCode]
  exact ⟨fun _ => hR, fun _ => h₁⟩

theorem sdConfigure_spec (d : SdDevice) (cfg : SpiConfig) (h₁ : SlowSince s s₁) :
    wp env (sdConfigure d cfg)
      (fun _ s' => SlowSince s s' ∧ Configured d.toSdHandle cfg.spiClock s' ∧
        outputOn s'.calls = outputOn s₁.calls)
      (fun _ => SlowSince s) s₁ := by
  unfold sdConfigure
  rw [wp_bind]
  refine wp_check_host h₁ rfl fun r hr h₂ => ?_
  rw [wp_bind]
  refine wp_check_host h₂ rfl fun r' hr' h₃ => ⟨h₃, ⟨?_, ?_⟩, rfl⟩
  · show (if d.csidDummy = d.csid ∧ r'.ret = 0 then some cfg.spiClock
      else if d.csid = d.csid ∧ r.ret = 0 then some cfg.spiClock else _) = _
    rw [if_pos (show d.csid = d.csid ∧ r.ret = 0 from ⟨rfl, hr⟩), ite_self]
  · exact if_pos ⟨rfl, hr'⟩

/-- Transfers do not change what the host is set to, and are made at it. -/
theorem transfersAt_transfers {d : SdHandle} {f : Nat} {t₀ t : Trace (SpiHostCall SpiCall)}
    (hclock : clockOf d.csid (t ++ t₀) = some f ∧ clockOf d.csidDummy (t ++ t₀) = some f)
    (hout : outputOn (t ++ t₀) = true) (ht : TransfersAt f t₀ t) :
    ∀ {new : Trace (SpiHostCall SpiCall)}, (∀ c ∈ new, ∃ q, c.1 = .transfer q ∧ d.Uses q) →
      TransfersAt f t₀ (new ++ t) ∧ (∀ i, clockOf i (new ++ t ++ t₀) = clockOf i (t ++ t₀)) ∧
        outputOn (new ++ t ++ t₀) = true
  | [], _ => ⟨ht, fun _ => rfl, hout⟩
  | (q, r) :: new, hnew => by
    obtain ⟨⟨c, hc, huses⟩, hrest⟩ := List.forall_mem_cons.mp hnew
    obtain ⟨hat, hsame, hon⟩ := transfersAt_transfers hclock hout ht hrest
    obtain rfl : q = .transfer c := hc
    refine ⟨⟨?_, hon, hat⟩, hsame, hon⟩
    show clockOf c.csid (new ++ t ++ t₀) = some f
    rw [hsame]
    rcases huses with hid | hid
    · rw [hid]
      exact hclock.1
    · rw [hid]
      exact hclock.2

/-- The host is set to `f` for this card, and has been for all transfers since `s`. -/
structure RunsAt (d : SdHandle) (f : Nat) (s s' : SdBootSt) : Prop where
  all : AllAt f s s'
  clock : Configured d f s'
  out : outputOn s'.calls = true

/-- Transfers of the card's driver, among the calls of the host. -/
abbrev SdTransfers (env : Env (SpiHostCall SpiCall)) (d : SdHandle) : SdBootSt → SdBootSt → Prop :=
  MadeCalls env fun q => ∃ c, q = .transfer c ∧ d.Uses c

theorem RunsAt.transfers {d : SdHandle} {f : Nat} {s s₁ s' : SdBootSt} (h : RunsAt d f s s₁)
    (h' : SdTransfers env d s₁ s') : RunsAt d f s s' := by
  obtain ⟨⟨t, ht, hat⟩, hclock, hout⟩ := h
  obtain ⟨new, hnew, hall, -⟩ := h'
  unfold Configured at hclock
  rw [ht] at hclock hout hnew
  obtain ⟨hat', hsame, hon⟩ := transfersAt_transfers hclock hout hat hall
  rw [← List.append_assoc] at hnew
  refine ⟨⟨new ++ t, hnew, hat'⟩, ?_, ?_⟩
  · unfold Configured
    rw [hnew, hsame, hsame]
    exact hclock
  · rw [hnew]
    exact hon

theorem sdActivate_slow (d : SdHandle) (junk : SdJunk) (rounds : Nat) (h₁ : SlowSince s s₁)
    (hclock : Configured d sdInitClock s₁) (hout : outputOn s₁.calls = true) :
    wp env (within .transfer (sdActivate d junk rounds)) (fun _ => SlowSince s)
      (fun _ => SlowSince s) s₁ := by
  have hslow : ∀ s', SdTransfers env d s₁ s' → s'.mem = s₁.mem → SlowSince s s' := by
    intro s' hmade hkeep
    have hat : RunsAt d sdInitClock s s₁ := ⟨h₁.slow, hclock, hout⟩
    exact ⟨(hat.transfers hmade).all, hkeep.trans h₁.mem⟩
  rw [wp_within]
  exact wp_mono (wp_and (sdActivate_meets junk rounds _ _) (sdActivate_spec junk rounds _))
    (fun _ _ h' => hslow _ h'.1.1.under h'.2.1) fun _ _ he => hslow _ he.1.1.1.under he.2

theorem sdInit_spec (numCs : Nat) (d : SdDevice) (coreFreq : BitVec 64) (junk : SdJunk)
    (rounds : Nat) (s : SdBootSt) :
    wp env (sdInit numCs (some d) coreFreq junk rounds)
      (fun _ s' => SlowSince s s' ∧ Configured d.toSdHandle d.spiFreq s' ∧
        outputOn s'.calls = true)
      (fun _ => SlowSince s) s := by
  have h₀ := slowSince_refl s
  unfold sdInit
  dsimp only
  rw [wp_bind]
  refine wp_assert_host h₀ ?_
  rw [wp_bind]
  refine wp_assert_host h₀ ?_
  rw [wp_bind]
  refine wp_assert_host h₀ ?_
  rw [wp_bind]
  refine wp_assert_host h₀ ?_
  rw [wp_bind]
  refine wp_assert_host h₀ ?_
  rw [wp_bind]
  refine wp_check_host h₀ rfl fun r₁ _ h₁ => ?_
  rw [wp_bind, wp_ask, wp_bind]
  have h₂ := h₁.call (q := .reset) rfl (env ((.init, r₁) :: s.calls) .reset)
  refine wp_mono (sdConfigure_spec d _ h₂) (fun _ s₃ h₃ => ?_) fun _ _ he => he
  obtain ⟨hslow₃, hclock₃, -⟩ := h₃
  rw [wp_bind, wp_ask, wp_bind]
  have h₄ := hslow₃.call (q := .enable true) rfl (env s₃.calls (.enable true))
  refine wp_check_host h₄ rfl fun r₅ hr₅ h₅ => ?_
  rw [wp_bind]
  -- enabling changes no chip select
  refine wp_mono (sdActivate_slow d.toSdHandle junk rounds h₅ hclock₃ (if_pos hr₅))
    (fun _ s₆ h₆ => ?_) fun _ _ he => he
  rw [wp_bind]
  refine wp_check_host h₆ rfl fun r₇ _ h₇ => ?_
  rw [wp_bind]
  refine wp_mono (sdConfigure_spec d _ h₇) (fun _ s₈ h₈ => ?_) fun _ _ he => he
  obtain ⟨hslow₈, hclock₈, -⟩ := h₈
  rw [wp_bind]
  exact wp_check_host hslow₈ rfl fun r₉ hr₉ h₉ => ⟨h₉, hclock₈, if_pos hr₉⟩

/-- Whatever the card and the host do: no transfer of an initialisation is faster than 200 kHz
or made with the pins off, and behind one that succeeds both chip selects are at the frequency
asked for. -/
theorem sdInit_sound (env : Env (SpiHostCall SpiCall)) (numCs : Nat) (d : SdDevice)
    (coreFreq : BitVec 64) (junk : SdJunk) (rounds : Nat) {s s' : SdBootSt} {r : Except Stop Unit}
    (hrun : sdInit numCs (some d) coreFreq junk rounds env s = (r, s')) :
    SlowSince s s' ∧
      (r = .ok () → Configured d.toSdHandle d.spiFreq s' ∧ outputOn s'.calls = true) := by
  have hspec : wp env (sdInit numCs (some d) coreFreq junk rounds) _ _ s :=
    sdInit_spec numCs d coreFreq junk rounds s
  cases r with
  | ok => exact ⟨(wp_ok hspec hrun).1, fun _ => (wp_ok hspec hrun).2⟩
  | error e => exact ⟨wp_error hspec hrun, fun hr => (nomatch hr)⟩

/-- All transfers succeed, and every byte received is zero. -/
def zerosHost : Env (SpiHostCall SpiCall) := fun _ _ => ⟨0, fun _ => 0⟩

theorem sdInit_sound_zeros :
    SlowSince ⟨[], sdIdle.mem⟩
      (sdInit 3 (some ⟨⟨0, 2⟩, 24000000⟩) 50000000 ⟨0, 0⟩ 1 zerosHost ⟨[], sdIdle.mem⟩).2 ∧
    Configured ⟨0, 2⟩ 24000000
      (sdInit 3 (some ⟨⟨0, 2⟩, 24000000⟩) 50000000 ⟨0, 0⟩ 1 zerosHost ⟨[], sdIdle.mem⟩).2 := by
  have hrun : (sdInit 3 (some ⟨⟨0, 2⟩, 24000000⟩) 50000000 ⟨0, 0⟩ 1 zerosHost ⟨[], sdIdle.mem⟩).1
      = .ok () := by decide +kernel
  obtain ⟨hslow, hset⟩ := sdInit_sound zerosHost 3 ⟨⟨0, 2⟩, 24000000⟩ 50000000 ⟨0, 0⟩ 1
    (run_eq hrun)
  exact ⟨hslow, (hset rfl).1⟩

end Cheshire.Sw
