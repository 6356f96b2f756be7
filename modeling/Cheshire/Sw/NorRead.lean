import Mathlib.Algebra.Group.Nat.Defs
import Cheshire.Sw.NorFlash

/-!
# What a NOR flash read delivers

`norReadLoop` is the loop of `spi_s25fs512s_single_read` as it is written, an offset that
grows by a FIFO until it is no longer below `len`. It makes `norRead`'s chunks and ends
behind them (`norReadLoop_eq`), so that the invariant is stated on chunks: `Copied` says
which transactions were made and that the memory differs from the first one by a prefix of
the image. A transaction that fails is the last one (`Failed`).
-/

namespace Cheshire.Sw

open Firmware Firmware.Prog

/-! ## The loop -/

/-- `for (; offs < len; offs += f)`, for at most `fuel` rounds. -/
def norReadLoop (h : NorHandle) (f : Nat) (buf : Int) (addr len : Nat) :
    (fuel offs : Nat) → NorProg
  | 0, _ => stop .spin
  | fuel + 1, offs =>
    if offs < len then do
      norReadChunk h (buf + offs) (addr + offs) (min f (len - offs))
      norReadLoop h f buf addr len fuel (offs + f)
    else pure ()

/-- `spi_s25fs512s_single_read`, for at most `fuel` rounds. -/
def norSingleRead (h : NorHandle) (rxDepth fuel : Nat) (buf : Int) (addr len : Nat) : NorProg := do
  retCode (if h.spiFreq < 50 * 1000 * 1000 then 0 else 0x15)
  norReadLoop h (rxFifoBytes rxDepth) buf addr len fuel 0

variable {h : NorHandle}

/-- From chunk `k` on the loop makes the `n` chunks that are left. -/
theorem norReadLoop_upFrom {f : Nat} (hf : 0 < f) (buf : Int) (addr : Nat) {len : Nat} :
    ∀ (n k fuel : Nat), n < fuel → k + n = (len + (f - 1)) / f →
      norReadLoop h f buf addr len fuel (f * k) =
        upFrom (fun i => norReadChunk h (buf + (f * i : Nat)) (addr + f * i)
          (min f (len - f * i))) k n := by
  intro n
  induction n with
  | zero =>
    intro k fuel hfuel hk
    obtain ⟨fuel, rfl⟩ := Nat.exists_eq_add_of_lt hfuel
    have hend := @rxChunks_end len f hf
    rw [← hk, Nat.add_zero] at hend
    unfold norReadLoop
    rw [if_neg (by omega)]
    rfl
  | succ n ih =>
    intro k fuel hfuel hk
    obtain ⟨fuel, rfl⟩ := Nat.exists_eq_succ_of_ne_zero (Nat.ne_zero_of_lt hfuel)
    have hlt : f * k < len := rxChunk_lt hf (by omega)
    unfold norReadLoop
    rw [if_pos hlt, ← Nat.mul_succ, ih (k + 1) fuel (by omega) (by omega)]
    rfl

/-- With fuel for `len` bytes the loop ends: it makes the chunks of `norRead`. -/
theorem norSingleRead_eq {rxDepth : Nat} (hdepth : 0 < rxDepth) (buf : Int) (addr : Nat)
    {len fuel : Nat} (hfuel : len < fuel) :
    norSingleRead h rxDepth fuel buf addr len = norRead h rxDepth buf addr len := by
  have hfifo : 0 < rxFifoBytes rxDepth := Nat.mul_pos (by omega) hdepth
  unfold norSingleRead norRead
  generalize rxFifoBytes rxDepth = f at hfifo
  have hchunks : (len + (f - 1)) / f ≤ len := by
    rw [Nat.div_le_iff_le_mul_add_pred hfifo]
    exact Nat.add_le_add_right (Nat.le_mul_of_pos_left len hfifo) _
  have hloop := norReadLoop_upFrom (h := h) hfifo buf addr ((len + (f - 1)) / f) 0 fuel
    (by omega) (Nat.zero_add _)
  rw [Nat.mul_zero] at hloop
  rw [hloop]
  rfl

/-! ## Transactions -/

/-- A read transaction for at least one byte and at most `f`. -/
def NorReadCall (csid f : Nat) (q : NorCall) : Prop :=
  ∃ a n, q = ⟨csid, [.opcode 0x13, .address a, .rx n]⟩ ∧ 1 ≤ n ∧ n ≤ f

/-- The DIF: a read transaction that succeeds delivers the device's bytes from the address
sent. -/
def DeliversImage (env : Env NorCall) (csid : Nat) (image : List Byte) : Prop :=
  ∀ t a n, (env t ⟨csid, [.opcode 0x13, .address a, .rx n]⟩).ret = 0 →
    ∀ i < n, a.toNat + i < image.length →
      (env t ⟨csid, [.opcode 0x13, .address a, .rx n]⟩).out i = image.getD (a.toNat + i) 0

/-- The caller's range of `len` bytes at `buf`. -/
def InRange (buf : Int) (len : Nat) : Unit → Int → Prop := fun _ x => buf ≤ x ∧ x < buf + len

/-- The first `n` bytes asked for are in the buffer, and every transaction succeeded. -/
structure Copied (csid f : Nat) (image : List Byte) (buf : Int) (addr n : Nat)
    (new : Trace NorCall) (s s' : NorSt) : Prop where
  calls : s'.calls = new ++ s.calls
  reads : ∀ c ∈ new, NorReadCall csid f c.1
  succeed : ∀ c ∈ new, c.2.ret = 0
  mem : s'.mem = s.mem.write () buf (fun k => image.getD (addr + k) 0) n

/-- The last transaction failed; it may have been received all the same. -/
structure Failed (csid f : Nat) (buf : Int) (len : Nat) (s : NorSt) (e : Stop) (s' : NorSt)
    (c : NorCall × Reply) (new : Trace NorCall) : Prop where
  ret : c.2.ret ≠ 0 ∧ e = .ret c.2.ret
  calls : s'.calls = c :: new ++ s.calls
  reads : ∀ c' ∈ c :: new, NorReadCall csid f c'.1
  succeed : ∀ c' ∈ new, c'.2.ret = 0
  mem : ∃ d n, n ≤ len ∧ s'.mem = s.mem.write () buf d n

variable {env : Env NorCall} {image : List Byte} {buf : Int} {addr len f : Nat} {s s₁ : NorSt}

/-- One more chunk. -/
theorem norReadChunk_spec (himage : image.length ≤ 2 ^ 32)
    (henv : DeliversImage env h.csid image) (hrange : addr + len ≤ image.length) (hf : 0 < f)
    {offs : Nat} (hlt : offs < len) {new : Trace NorCall}
    (h₁ : Copied h.csid f image buf addr offs new s s₁) :
    wp env (norReadChunk h (buf + offs) (addr + offs) (min f (len - offs)))
      (fun _ s₂ => ∃ c, Copied h.csid f image buf addr (offs + min f (len - offs)) (c :: new) s s₂)
      (fun e s₂ => ∃ c, Failed h.csid f buf len s e s₂ c new) s₁ := by
  have haddr : (BitVec.ofNat 32 (addr + offs)).toNat = addr + offs := by
    rw [BitVec.toNat_ofNat]
    omega
  have hbytes := henv s₁.calls (BitVec.ofNat 32 (addr + offs)) (min f (len - offs))
  rw [haddr] at hbytes
  unfold norReadChunk norRxTo
  rw [wp_bind, wp_ask, wp_bind, wp_modifyMem, wp_retCode, List.cons_append, List.cons_append,
    List.nil_append]
  generalize hq : NorCall.mk h.csid _ = q at hbytes
  have hread : NorReadCall h.csid f q := ⟨_, _, hq.symm, by omega, by omega⟩
  generalize env s₁.calls q = r at hbytes
  have hcalls : (q, r) :: s₁.calls = (q, r) :: new ++ s.calls := by
    rw [List.cons_append, ← h₁.calls]
  have hreads : ∀ c ∈ (q, r) :: new, NorReadCall h.csid f c.1 :=
    List.forall_mem_cons.mpr ⟨hread, h₁.reads⟩
  constructor
  · intro hret
    refine ⟨(q, r), hcalls, hreads, List.forall_mem_cons.mpr ⟨hret, h₁.succeed⟩, ?_⟩
    dsimp only
    rw [h₁.mem, ← Mem.write_write]
    refine Mem.write_congr _ _ _ fun i hi => ?_
    rw [hbytes hret i hi (by omega), Nat.add_assoc]
  · intro hret
    refine ⟨(q, r), ⟨hret, rfl⟩, hcalls, hreads, h₁.succeed, ?_⟩
    -- the chunk that failed is still inside the buffer
    have hend : offs + min f (len - offs) ≤ len := by omega
    have hmem := s.mem.write_append () buf (fun k => image.getD (addr + k) 0) r.out offs
      (min f (len - offs))
    rw [← h₁.mem] at hmem
    exact ⟨_, _, hend, hmem⟩

/-- The invariant of the chunks carries the read to its end. -/
theorem norRead_spec (himage : image.length ≤ 2 ^ 32) (henv : DeliversImage env h.csid image)
    (hrange : addr + len ≤ image.length) {rxDepth : Nat} (hdepth : 0 < rxDepth) (s : NorSt) :
    wp env (norRead h rxDepth buf addr len)
      (fun _ s' => ∃ new, Copied h.csid (rxFifoBytes rxDepth) image buf addr len new s s')
      (fun e s' => (e = .ret 0x15 ∧ s' = s) ∨
        ∃ c new, Failed h.csid (rxFifoBytes rxDepth) buf len s e s' c new) s := by
  have hfifo : 0 < rxFifoBytes rxDepth := Nat.mul_pos (by omega) hdepth
  unfold norRead
  generalize rxFifoBytes rxDepth = f at hfifo
  rw [wp_bind, wp_retCode]
  refine ⟨fun _ => ?_, fun hfreq => Or.inl ⟨?_, rfl⟩⟩
  · have hstart : Copied h.csid f image buf addr (min len (f * 0)) [] s s := by
      rw [Nat.mul_zero, Nat.min_zero]
      exact ⟨rfl, fun _ hc => absurd hc List.not_mem_nil, fun _ hc => absurd hc List.not_mem_nil,
        (Mem.write_zero ..).symm⟩
    refine wp_mono (wp_upTo
      (fun i s' => ∃ new, Copied h.csid f image buf addr (min len (f * i)) new s s') ?_
      ⟨[], hstart⟩) (fun _ s' h' => ?_) fun _ _ he => Or.inr he
    · rintro i hi s₁ ⟨new, h₁⟩
      have hlt := rxChunk_lt hfifo hi
      rw [Nat.min_eq_right (Nat.le_of_lt hlt)] at h₁
      refine wp_mono (norReadChunk_spec himage henv hrange hfifo hlt h₁) (fun _ s₂ h₂ => ?_)
        fun _ _ he => ?_
      · obtain ⟨c, hc⟩ := h₂
        rw [rxChunk_next hlt]
        exact ⟨c :: new, hc⟩
      · obtain ⟨c, hc⟩ := he
        exact ⟨c, new, hc⟩
    · rwa [rxChunks_end hfifo] at h'
  · by_cases hslow : h.spiFreq < 50 * 1000 * 1000
    · rw [if_pos hslow] at hfreq
      exact absurd rfl hfreq
    · rw [if_neg hslow]

/-! ## The caller's view -/

/-- What a caller of `spi_s25fs512s_single_read` gets, however the read ends. -/
structure NorReadExact (csid rxDepth : Nat) (image : List Byte) (buf : Int) (addr len : Nat)
    (r : Except Stop Unit) (s s' : NorSt) : Prop where
  returns : r ≠ .error .spin
  data : r = .ok () → ∀ k < len, s'.mem.get () (buf + k) = image.getD (addr + k) 0
  /-- Nothing else is stored to, nor changed. -/
  stores : s.mem.StoresIn (InRange buf len) s'.mem
  frame : ∀ x, x < buf ∨ buf + len ≤ x → s'.mem.get () x = s.mem.get () x
  /-- The transactions of the call, newest first: one that fails is the last one, and its
  code is returned. -/
  transactions : ∃ new, s'.calls = new ++ s.calls ∧
    (∀ c ∈ new, NorReadCall csid (4 * rxDepth) c.1) ∧
    ∀ later c earlier, new = later ++ c :: earlier → c.2.ret ≠ 0 →
      later = [] ∧ r = .error (.ret c.2.ret)

theorem storesIn_range {m : NorMem} {d : Nat → Byte} {n : Nat} (hn : n ≤ len) :
    m.StoresIn (InRange buf len) (m.write () buf d n) :=
  Mem.storesIn_write _ fun _ hlo hhi => ⟨hlo, by omega⟩

theorem get_write_range {m : NorMem} {d : Nat → Byte} {n : Nat} (hn : n ≤ len) (x : Int)
    (hx : x < buf ∨ buf + len ≤ x) : (m.write () buf d n).get () x = m.get () x :=
  Mem.get_write_outside _ _ _ _ (hx.imp_right fun hge => by omega)

theorem Copied.exact {rxDepth : Nat} {new : Trace NorCall} {s' : NorSt}
    (hc : Copied h.csid (rxFifoBytes rxDepth) image buf addr len new s s') :
    NorReadExact h.csid rxDepth image buf addr len (.ok ()) s s' := by
  refine ⟨fun hr => (nomatch hr), fun _ k hk => ?_, ?_, ?_, new, hc.calls, hc.reads, ?_⟩
  · rw [hc.mem, Mem.get_write_at _ _ _ _ hk]
  · rw [hc.mem]
    exact storesIn_range (Nat.le_refl len)
  · rw [hc.mem]
    exact get_write_range (Nat.le_refl len)
  · rintro later c earlier rfl hret
    exact absurd (hc.succeed c (List.mem_append_right _ List.mem_cons_self)) hret

theorem Failed.exact {rxDepth : Nat} {c : NorCall × Reply} {new : Trace NorCall} {e : Stop}
    {s' : NorSt} (hfail : Failed h.csid (rxFifoBytes rxDepth) buf len s e s' c new) :
    NorReadExact h.csid rxDepth image buf addr len (.error e) s s' := by
  obtain ⟨⟨hret, rfl⟩, hcalls, hreads, hsucceed, d, n, hn, hmem⟩ := hfail
  refine ⟨fun hr => (nomatch hr), fun hr => (nomatch hr), ?_, ?_, c :: new, hcalls, hreads, ?_⟩
  · rw [hmem]
    exact storesIn_range hn
  · rw [hmem]
    exact get_write_range hn
  · intro later c' earlier heq hret'
    cases later with
    | nil =>
      obtain ⟨rfl, -⟩ := List.cons.inj heq
      exact ⟨rfl, rfl⟩
    | cons l later =>
      -- it is not the newest, so it succeeded
      have hmem' : c' ∈ new := by
        rw [(List.cons.inj heq).2]
        exact List.mem_append_right _ List.mem_cons_self
      exact absurd (hsucceed c' hmem') hret'

/-- A read that is refused for its frequency. -/
theorem norReadExact_refused {rxDepth : Nat} {c : Code} :
    NorReadExact h.csid rxDepth image buf addr len (.error (.ret c)) s s :=
  ⟨fun hr => (nomatch hr), fun hr => (nomatch hr), Mem.storesIn_refl _ _, fun _ _ => rfl,
    [], rfl, fun _ hc => absurd hc List.not_mem_nil,
    fun _ _ _ heq => absurd heq.symm (List.append_ne_nil_of_right_ne_nil _ (List.cons_ne_nil _ _))⟩

/-- The boot read sends the commands for its chunks, ends, and leaves exactly the image's bytes
in the buffer, for every range of the image. -/
theorem norSingleRead_exact (env : Env NorCall) (h : NorHandle) {image : List Byte}
    (himage : image.length ≤ 2 ^ 32) (henv : DeliversImage env h.csid image) {rxDepth : Nat}
    (hdepth : 0 < rxDepth) (buf : Int) {addr len : Nat} (hrange : addr + len ≤ image.length)
    {fuel : Nat} (hfuel : len < fuel) {s s' : NorSt} {r : Except Stop Unit}
    (hrun : norSingleRead h rxDepth fuel buf addr len env s = (r, s')) :
    NorReadExact h.csid rxDepth image buf addr len r s s' := by
  rw [norSingleRead_eq hdepth buf addr hfuel] at hrun
  have hspec : wp env (norRead h rxDepth buf addr len) _ _ s :=
    norRead_spec himage henv hrange hdepth s
  cases r with
  | ok =>
    obtain ⟨new, hc⟩ := wp_ok hspec hrun
    exact hc.exact
  | error e =>
    rcases wp_error hspec hrun with ⟨rfl, rfl⟩ | ⟨c, new, hfail⟩
    · exact norReadExact_refused
    · exact hfail.exact

/-- A flash of these bytes, in which every transaction succeeds. -/
def imageNor (image : List Byte) : Env NorCall := fun _ q =>
  match q.segs with
  | [.opcode 0x13, .address a, .rx _] => ⟨0, fun i => image.getD (a.toNat + i) 0⟩
  | _ => ⟨0, fun _ => 0⟩

theorem imageNor_delivers (image : List Byte) (csid : Nat) :
    DeliversImage (imageNor image) csid image := fun _ _ _ _ _ _ _ => rfl

/-- Eleven bytes from address 2, with a FIFO of four. -/
theorem norSingleRead_exact_eleven :
    NorReadExact 0 1 ((List.range 16).map (BitVec.ofNat 8)) 0 2 11 (.ok ()) norStart
      (norSingleRead ⟨25000000, 0⟩ 1 12 0 2 11
        (imageNor ((List.range 16).map (BitVec.ofNat 8))) norStart).2 := by
  have hrun : (norSingleRead ⟨25000000, 0⟩ 1 12 0 2 11
      (imageNor ((List.range 16).map (BitVec.ofNat 8))) norStart).1 = .ok () := by decide +kernel
  exact norSingleRead_exact _ ⟨25000000, 0⟩ (by decide) (imageNor_delivers _ 0) (by omega) 0
    (by decide) (by omega) (run_eq hrun)

end Cheshire.Sw
