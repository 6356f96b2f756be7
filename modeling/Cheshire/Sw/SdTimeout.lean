import Cheshire.Sw.SdRead

/-!
# When a polling loop times out

Three loops of the driver receive a byte at a time until it meets a condition: the
response of a command, the end of a busy phase, a data token. All three count down in
front of the test,

    do CHECK_CALL(..) while (--timeout && ..);
    if (timeout == 0) return ..;

so the byte of the last poll is not looked at: the counter alone says that it came too
late (`run_late`). An answer on any other poll is taken, and no answer is a timeout.
-/

namespace Cheshire.Sw

open Firmware Firmware.Prog

/-! ## The loops -/

inductive SdLoop where
  /-- `__spi_sdcard_cmd`, for the first byte of a response. -/
  | response
  /-- `__spi_sdcard_cmd`, behind an R1b response. -/
  | busy
  /-- `__spi_sdcard_read_blocks`, for the token of a block. -/
  | token
  deriving DecidableEq, Repr

/-- The data test of the loop: another poll is needed. -/
def SdLoop.again : SdLoop → Byte → Bool
  | .response, v => v.msb
  | .busy, v => v == 0
  | .token, v => v == 0xFF

def SdLoop.bound : SdLoop → Nat
  | .response => 8
  | .busy => sdR1bTimeout
  | .token => sdDataTimeout

def SdLoop.code : SdLoop → Code
  | .response => 0x12
  | .busy => 0x13
  | .token => 0x19

theorem SdLoop.code_ne (l : SdLoop) : l.code ≠ 0 := by
  cases l with
  | response | busy | token => decide

theorem SdLoop.bound_eq (l : SdLoop) : l.bound = l.bound - 1 + 1 := by
  cases l with
  | response | busy | token => rfl

/-- The loop with its check of the timeout. -/
def SdLoop.run (l : SdLoop) (h : SdHandle) : SdProg Byte := do
  let (r, timeout) ← sdPoll h l.again l.bound
  retCode (if timeout = 0 then l.code else 0)
  pure r

theorem sdCmd_eq (h : SdHandle) (cmd : BitVec 64) (resp : SdResp) (csaat : Bool) :
    sdCmd h cmd resp csaat = (do
      sdTx h (leBytes cmd 6)
      sdStuffByte h cmd
      let r ← SdLoop.response.run h
      let rest ← sdRespRest h resp
      sdRelease h csaat
      pure (r :: rest)) := by
  unfold sdCmd SdLoop.run
  simp only [bind_assoc, pure_bind]
  rfl

theorem sdRespRest_r1b (h : SdHandle) :
    sdRespRest h .r1b = (do let _ ← SdLoop.busy.run h; pure []) := by
  unfold sdRespRest SdLoop.run
  rw [if_pos rfl]
  simp only [bind_assoc, pure_bind]
  rfl

theorem block_eq (p : SdRead) (b : Nat) :
    p.block b = (do
      let token ← SdLoop.token.run p.handle
      retCode (if token ≠ 0xFE then 0x20 else 0)
      sdRxBlock p.handle p.rxDepth (p.blockBuf b)
      p.crc b
      modifyMem (p.copyOut b)) := by
  unfold SdRead.block SdLoop.run
  simp only [bind_assoc, pure_bind]
  rfl

/-! ## Polling a stream -/

/-- Every call succeeds, and the card sends these bytes. -/
def Streams (env : Env SpiCall) (bytes : Nat → Byte) : Prop :=
  ∀ t q, (env t q).ret = 0 ∧ (env t q).out = fun i => bytes ((rxBytes t).length + i)

/-- The number of bytes that were received so far. -/
def rxCount (s : SdSt) : Nat := (rxBytes s.calls).length

variable {env : Env SpiCall} {bytes : Nat → Byte} {h : SdHandle}

/-- The state after one more byte was received. -/
def afterPoll (env : Env SpiCall) (h : SdHandle) (s : SdSt) : SdSt :=
  { s with calls := (⟨h.csid, true, .rx 1⟩, env s.calls ⟨h.csid, true, .rx 1⟩) :: s.calls }

theorem sdRx_stream (henv : Streams env bytes) (s : SdSt) :
    ∃ d, sdRx h 1 env s = (.ok d, afterPoll env h s) ∧ d 0 = bytes (rxCount s) := by
  obtain ⟨hret, hout⟩ := henv s.calls ⟨h.csid, true, .rx 1⟩
  refine ⟨(env s.calls ⟨h.csid, true, .rx 1⟩).out, ?_, by rw [hout]; rfl⟩
  have hspec : wp env (sdRx h 1) (fun d s' => d = (env s.calls ⟨h.csid, true, .rx 1⟩).out ∧
      s' = afterPoll env h s) (fun _ _ => False) s := by
    unfold sdRx
    rw [wp_check]
    exact ⟨fun _ => ⟨rfl, rfl⟩, fun hne => hne hret⟩
  unfold wp at hspec
  split at hspec
  next d s' hrun =>
    rw [hrun, hspec.1, hspec.2]
  next => exact hspec.elim

theorem rxBytes_afterPoll (henv : Streams env bytes) (s : SdSt) :
    rxBytes (afterPoll env h s).calls = rxBytes s.calls ++ [bytes (rxCount s)] := by
  show rxBytes s.calls ++ [(env s.calls ⟨h.csid, true, .rx 1⟩).out 0] = _
  rw [(henv s.calls ⟨h.csid, true, .rx 1⟩).2]
  rfl

theorem rxCount_afterPoll (henv : Streams env bytes) (s : SdSt) :
    rxCount (afterPoll env h s) = rxCount s + 1 := by
  unfold rxCount
  rw [rxBytes_afterPoll henv, List.length_append]
  rfl

/-- One poll of the loop. -/
theorem sdPoll_succ (henv : Streams env bytes) (again : Byte → Bool) (n : Nat) (s : SdSt) :
    sdPoll h again (n + 1) env s = if n ≠ 0 ∧ again (bytes (rxCount s))
      then sdPoll h again n env (afterPoll env h s)
      else (.ok (bytes (rxCount s), n), afterPoll env h s) := by
  obtain ⟨d, hrx, hd⟩ := @sdRx_stream env bytes h henv s
  show Prog.bind (sdRx h 1) (fun d => if n ≠ 0 ∧ again (d 0) then sdPoll h again n
    else pure (d 0, n)) env s = _
  unfold Prog.bind
  rw [hrx]
  dsimp only
  rw [hd]
  split
  · rfl
  · rfl

/-- The bytes `k`, `k + 1`, .. `k + n - 1` of the stream. -/
def slice (bytes : Nat → Byte) (k n : Nat) : List Byte := (List.range' k n).map bytes

/-- What the polling itself does with a bound of `n + 1`: it stops at the first of the
first `n` bytes that will do, or behind all `n + 1`. -/
theorem sdPoll_stream (henv : Streams env bytes) (again : Byte → Bool) : ∀ (n : Nat) (s : SdSt),
    (∃ k < n, again (bytes (rxCount s + k)) = false ∧ (∀ j < k, again (bytes (rxCount s + j))) ∧
      ∃ s', sdPoll h again (n + 1) env s = (.ok (bytes (rxCount s + k), n - k), s') ∧
        rxBytes s'.calls = rxBytes s.calls ++ slice bytes (rxCount s) (k + 1)) ∨
    ((∀ j < n, again (bytes (rxCount s + j))) ∧
      ∃ s', sdPoll h again (n + 1) env s = (.ok (bytes (rxCount s + n), 0), s') ∧
        rxBytes s'.calls = rxBytes s.calls ++ slice bytes (rxCount s) (n + 1)) := by
  intro n
  induction n with
  | zero =>
    intro s
    refine Or.inr ⟨fun j hj => absurd hj (Nat.not_lt_zero j), afterPoll env h s, ?_,
      rxBytes_afterPoll henv s⟩
    rw [sdPoll_succ henv, if_neg fun hn => hn.1 rfl]
    rfl
  | succ n ih =>
    intro s
    rw [sdPoll_succ henv]
    cases hfirst : again (bytes (rxCount s)) with
    | false =>
      refine Or.inl ⟨0, Nat.succ_pos n, hfirst, fun j hj => absurd hj (Nat.not_lt_zero j),
        afterPoll env h s, ?_, rxBytes_afterPoll henv s⟩
      rw [if_neg fun hn => Bool.noConfusion hn.2]
      rfl
    | true =>
      rw [if_pos ⟨Nat.succ_ne_zero n, rfl⟩]
      have hcount := rxCount_afterPoll (h := h) henv s
      have hrx : ∀ m, rxBytes (afterPoll env h s).calls ++ slice bytes (rxCount s + 1) m
          = rxBytes s.calls ++ slice bytes (rxCount s) (m + 1) := by
        intro m
        rw [rxBytes_afterPoll henv, List.append_assoc]
        rfl
      have hshift : ∀ j, rxCount s + 1 + j = rxCount s + (j + 1) := fun j => by omega
      have hmore : ∀ m, (∀ j < m, again (bytes (rxCount s + (j + 1))) = true) →
          ∀ j < m + 1, again (bytes (rxCount s + j)) = true := by
        intro m hm j hj
        cases j with
        | zero => exact hfirst
        | succ j => exact hm j (Nat.lt_of_succ_lt_succ hj)
      have hrest := ih (afterPoll env h s)
      simp only [hcount, hshift, hrx] at hrest
      rcases hrest with ⟨k, hk, hok, hbefore, s', hrun, hbytes⟩ | ⟨hall, s', hrun, hbytes⟩
      · refine Or.inl ⟨k + 1, Nat.succ_lt_succ hk, hok, hmore k hbefore, s', ?_, hbytes⟩
        rw [hrun, Nat.succ_sub_succ]
      · exact Or.inr ⟨hmore n hall, s', hrun, hbytes⟩

/-! ## The loops on a stream -/

/-- Byte `k` of those polled from state `s` on meets the loop's condition. -/
def SdLoop.Accepts (l : SdLoop) (bytes : Nat → Byte) (s : SdSt) (k : Nat) : Prop :=
  l.again (bytes (rxCount s + k)) = false

/-- An answer on any of the allowed polls is taken, the first one if there are more; and
the loop times out exactly if there is none. -/
def SdLoop.Exact (l : SdLoop) (env : Env SpiCall) (h : SdHandle) (bytes : Nat → Byte)
    (s : SdSt) : Prop :=
  (∀ k < l.bound, l.Accepts bytes s k → (∀ j < k, ¬l.Accepts bytes s j) →
    ∃ s', l.run h env s = (.ok (bytes (rxCount s + k)), s') ∧
      rxBytes s'.calls = rxBytes s.calls ++ slice bytes (rxCount s) (k + 1)) ∧
  ((l.run h env s).1 = .error (.ret l.code) ↔ ∀ k < l.bound, ¬l.Accepts bytes s k)

/-- The loop is over before its last poll, or goes through all of them. -/
theorem SdLoop.run_stream (henv : Streams env bytes) (l : SdLoop) (s : SdSt) :
    (∃ k, k + 1 < l.bound ∧ l.Accepts bytes s k ∧ (∀ j < k, ¬l.Accepts bytes s j) ∧
      ∃ s', l.run h env s = (.ok (bytes (rxCount s + k)), s') ∧
        rxBytes s'.calls = rxBytes s.calls ++ slice bytes (rxCount s) (k + 1)) ∨
    ((∀ j, j + 1 < l.bound → ¬l.Accepts bytes s j) ∧
      (l.run h env s).1 = .error (.ret l.code)) := by
  obtain ⟨n, hn⟩ : ∃ n, l.bound = n + 1 := ⟨_, l.bound_eq⟩
  have hrun : ∀ (r : Byte × Nat) (s' : SdSt), sdPoll h l.again l.bound env s = (.ok r, s') →
      l.run h env s =
        (do retCode (if r.2 = 0 then l.code else 0); pure r.1 : SdProg Byte) env s' := by
    intro r s' hpoll
    show Prog.bind (sdPoll h l.again l.bound) _ env s = _
    unfold Prog.bind
    rw [hpoll]
  rw [hn] at hrun ⊢
  rcases sdPoll_stream (h := h) henv l.again n s with
    ⟨k, hk, hok, hbefore, s', hpoll, hbytes⟩ | ⟨hall, s', hpoll, -⟩
  · refine Or.inl ⟨k, Nat.succ_lt_succ hk, hok, fun j hj hacc => ?_, s', ?_, hbytes⟩
    · exact Bool.noConfusion (hacc.symm.trans (hbefore j hj))
    · rw [hrun _ _ hpoll, if_neg (by show ¬n - k = 0; omega)]
      rfl
  · refine Or.inr ⟨fun j hj hacc => ?_, ?_⟩
    · exact Bool.noConfusion (hacc.symm.trans (hall j (Nat.lt_of_succ_lt_succ hj)))
    · rw [hrun _ _ hpoll, if_pos rfl]
      unfold retCode
      rw [if_neg l.code_ne]
      rfl

/-- An answer on the last allowed poll, and none before it. -/
def SdLoop.Late (l : SdLoop) (bytes : Nat → Byte) (s : SdSt) : Prop :=
  l.Accepts bytes s (l.bound - 1) ∧ ∀ j, j + 1 < l.bound → ¬l.Accepts bytes s j

theorem SdLoop.not_exact_of_late {l : SdLoop} (henv : Streams env bytes) {s : SdSt}
    (hlate : l.Late bytes s) : ¬l.Exact env h bytes s := by
  have hbound := l.bound_eq
  rintro ⟨htaken, -⟩
  obtain ⟨hlast, hnone⟩ := hlate
  obtain ⟨s', hok, -⟩ := htaken (l.bound - 1) (by omega) hlast fun j hj => hnone j (by omega)
  rcases l.run_stream (h := h) henv s with ⟨k, hk, hacc, -⟩ | ⟨-, herr⟩
  · exact hnone k hk hacc
  · rw [hok] at herr
    cases herr

/-- Each of the loops is exact, unless the answer comes on the last allowed poll. -/
theorem sdLoop_exact_iff (l : SdLoop) (env : Env SpiCall) (h : SdHandle) (bytes : Nat → Byte)
    (henv : Streams env bytes) (s : SdSt) : l.Exact env h bytes s ↔ ¬l.Late bytes s := by
  refine ⟨fun hexact hlate => SdLoop.not_exact_of_late henv hlate hexact, fun hlate => ?_⟩
  rcases l.run_stream (h := h) henv s with ⟨k, hk, hacc, hbefore, s', hrun, hbytes⟩ | ⟨hnone, herr⟩
  · refine ⟨fun i _ hi hfirst => ?_, ?_⟩
    · -- the first answer is the one that was taken
      have hik : i = k := by
        rcases Nat.lt_trichotomy i k with hlt | heq | hgt
        · exact absurd hi (hbefore i hlt)
        · exact heq
        · exact absurd hacc (hfirst k hgt)
      subst hik
      exact ⟨s', hrun, hbytes⟩
    · rw [hrun]
      exact ⟨fun herr => (nomatch herr), fun hall => absurd hacc (hall k (by omega))⟩
  · have hall : ∀ k < l.bound, ¬l.Accepts bytes s k := by
      intro k hk hacc
      by_cases hlast : k + 1 < l.bound
      · exact hnone k hlast hacc
      · rw [show k = l.bound - 1 by omega] at hacc
        exact hlate ⟨hacc, hnone⟩
    exact ⟨fun k hk hacc _ => absurd hacc (hall k hk), fun _ => hall, fun _ => herr⟩

/-- A card that sends these bytes, whatever it is asked. -/
def streamCard (bytes : Nat → Byte) : Env SpiCall := fun t _ =>
  ⟨0, fun i => bytes ((rxBytes t).length + i)⟩

theorem streams_streamCard (bytes : Nat → Byte) : Streams (streamCard bytes) bytes :=
  fun _ _ => ⟨rfl, rfl⟩

/-- A response at once. -/
theorem sdLoop_exact_response :
    SdLoop.response.Exact (streamCard fun _ => 0x01) ⟨0, 1⟩ (fun _ => 0x01) sdStart :=
  (sdLoop_exact_iff .response (streamCard fun _ => 0x01) ⟨0, 1⟩ (fun _ => 0x01)
    (streams_streamCard _) sdStart).mpr fun hlate => hlate.2 0 (by decide) rfl

/-- A byte for which the loop polls once more. -/
def SdLoop.pending : SdLoop → Byte
  | .response => 0xFF
  | .busy => 0x00
  | .token => 0xFF

/-- A byte for which the loop ends. -/
def SdLoop.answer : SdLoop → Byte
  | .response => 0x01
  | .busy => 0xFF
  | .token => 0xFE

/-- An answer on the last poll of all those that are allowed. -/
def SdLoop.lateBytes (l : SdLoop) (k : Nat) : Byte :=
  if k + 1 < l.bound then l.pending else l.answer

theorem SdLoop.late_lateBytes (l : SdLoop) : l.Late l.lateBytes sdStart := by
  have hstart : ∀ k, rxCount sdStart + k = k := fun k => Nat.zero_add k
  constructor
  · unfold Accepts lateBytes
    rw [hstart, ← l.bound_eq, if_neg (Nat.lt_irrefl _)]
    cases l with
    | response | busy | token => rfl
  · intro j hj
    unfold Accepts lateBytes
    rw [hstart, if_pos hj]
    cases l with
    | response | busy | token => exact Bool.noConfusion

/-- None of the three takes an answer on its last poll; for a command it is the timeout
code that comes back. -/
theorem sdLoop_late :
    (∀ l : SdLoop, Streams (streamCard l.lateBytes) l.lateBytes ∧
      ¬l.Exact (streamCard l.lateBytes) ⟨0, 1⟩ l.lateBytes sdStart) ∧
    (sdCmd ⟨0, 1⟩ 0x950000000040 .r1 false (streamCard SdLoop.response.lateBytes) sdStart).1
      = .error (.ret 0x12) := by
  refine ⟨fun l => ⟨streams_streamCard _, ?_⟩, by decide +kernel⟩
  exact SdLoop.not_exact_of_late (streams_streamCard _) l.late_lateBytes

end Cheshire.Sw
