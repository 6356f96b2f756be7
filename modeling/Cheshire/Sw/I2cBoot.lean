import Cheshire.Lib.Calls
import Cheshire.Sw.BootMedium
import Cheshire.Sw.I2cPrompt
import Cheshire.Sw.I2cWrite
import Cheshire.Sw.SpiHost

/-!
# Booting from the I2C EEPROM

`boot_i2c_24fc1025` sets the I2C host up and boots through `i2c_24fc1025_read`. That driver
fills the FIFO-sized window its first byte is in, however short the read is, so it does not
meet the contract of a boot.

Of an EEPROM without a partition table two reads are made, of the signature and of the raw
blocks, and both start at a window of their own: the boot is exact, and stores nowhere but
to its signature and to the boot buffer. With a table the header is read next, 16 bytes
from 0x248 on, and a boot that gets any further has stored 56 bytes to the variable for
them. Either way a boot that does not return waits for the FIFOs (`i2cBoot_sound`); behind a
device interface that answers at once it returns, and the overrun does happen
(`eepromEnv_boots`).
-/

namespace Cheshire.Sw

open Firmware Firmware.Prog

/-! ## `i2c_24fc1025_init` -/

/-- `dif_i2c_timing_config_t`, as filled for a target in fast mode. -/
structure I2cTiming where
  clockPeriodNanos : BitVec 64
  sclPeriodNanos : Nat
  sdaFallNanos : Nat
  sdaRiseNanos : Nat

/-- What the boot calls: the DIF before and during its transfers. -/
inductive I2cBootCall where
  /-- `dif_i2c_init`. -/
  | init
  /-- `dif_i2c_host_set_enabled`. -/
  | hostSetEnabled (on : Bool)
  /-- `dif_i2c_reset_acq_fifo`, and so on. -/
  | resetAcqFifo
  | resetFmtFifo
  | resetRxFifo
  | resetTxFifo
  /-- Delivers a `dif_i2c_config_t`. -/
  | computeTiming (t : I2cTiming)
  | configure (config : Nat → Byte)
  | transfer (q : I2cCall)

abbrev I2cBootProg := Prog I2cBootCall CallerMem

/-- `i2c_24fc1025_init`; `handle` says whether the handle is one. -/
def i2cInit (handle : Bool) (coreFreq : BitVec 64) : I2cBootProg Unit := do
  retCode (if handle then 0 else 0x11)
  retCode (if coreFreq ≠ 0 then 0 else 0x12)
  let _ ← check .init
  let _ ← check (.hostSetEnabled false)
  let _ ← check .resetAcqFifo
  let _ ← check .resetFmtFifo
  let _ ← check .resetRxFifo
  let _ ← check .resetTxFifo
  let config ← check (.computeTiming ⟨1000000000 / coreFreq, 1000000 / 400, 300, 100⟩)
  let _ ← check (.configure config)
  let _ ← check (.hostSetEnabled true)
  pure ()

/-- The byte of the caller's memory at an address. -/
def i2cPeek (m : CallerMem) (x : Int) : Byte := m.get () x

/-- `gpt_boot_part_else_raw(i2c_24fc1025_read, ..)`, the boot behind the initialisation. -/
def i2cGptBoot (polls : Nat) (f : BootFrame) (ptrs : BootPtrs) (codeBuf : BitVec 64) :
    Prog I2cCall CallerMem (Except Stop Unit × List BootEvent) :=
  bootVia f (i2cRead polls) i2cPeek ptrs codeBuf bootSpmMaxLbas (some bootZslTypeGuid) none

/-- `boot_i2c_24fc1025`: the initialisation, and the boot behind it. -/
def bootI2c24fc1025 (polls : Nat) (f : BootFrame) (ptrs : BootPtrs)
    (codeBuf coreFreq : BitVec 64) : I2cBootProg (Except Stop Unit × List BootEvent) := do
  i2cInit true coreFreq
  within .transfer (i2cGptBoot polls f ptrs codeBuf)

/-- The call is one of the initialisation, and no transfer. -/
def I2cBootCall.setup : I2cBootCall → Bool
  | .transfer _ => false
  | _ => true

/-- Only the initialisation made calls so far, and all of them succeeded. -/
def Initialised (t : Trace I2cBootCall) : Prop := ∀ c ∈ t, c.2.ret = 0 ∧ c.1.setup

theorem wp_check_i2c {env : Env I2cBootCall} {valid : Prop} {m : CallerMem}
    {s : St I2cBootCall CallerMem} {q : I2cBootCall} (hq : q.setup)
    {R : (Nat → Byte) → St I2cBootCall CallerMem → Prop} (hs : s.mem = m ∧ Initialised s.calls)
    (hR : ∀ d s', s'.mem = m ∧ Initialised s'.calls → R d s') :
    wp env (check q) R (InitFailed env valid m) s := by
  rw [wp_check]
  exact ⟨fun hret => hR _ _ ⟨hs.1, List.forall_mem_cons.mpr ⟨⟨hret, hq⟩, hs.2⟩⟩,
    fun hret => ⟨hs.1, ⟨_, hret, rfl⟩, fun _ hall => hret (hall _ _)⟩⟩

theorem i2cInit_spec (env : Env I2cBootCall) (coreFreq : BitVec 64) (m : CallerMem) :
    wp env (i2cInit true coreFreq) (fun _ s' => s'.mem = m ∧ Initialised s'.calls)
      (InitFailed env (coreFreq ≠ 0) m) ⟨[], m⟩ := by
  have hstart : (⟨[], m⟩ : St I2cBootCall CallerMem).mem = m ∧ Initialised [] :=
    ⟨rfl, fun _ hc => absurd hc List.not_mem_nil⟩
  unfold i2cInit
  rw [wp_bind]
  refine wp_assert_init (by decide) rfl (fun _ => rfl) fun _ => ?_
  rw [wp_bind]
  refine wp_assert_init (by decide) rfl id fun _ => ?_
  rw [wp_bind]
  refine wp_check_i2c rfl hstart fun _ s₁ h₁ => ?_
  rw [wp_bind]
  refine wp_check_i2c rfl h₁ fun _ s₂ h₂ => ?_
  rw [wp_bind]
  refine wp_check_i2c rfl h₂ fun _ s₃ h₃ => ?_
  rw [wp_bind]
  refine wp_check_i2c rfl h₃ fun _ s₄ h₄ => ?_
  rw [wp_bind]
  refine wp_check_i2c rfl h₄ fun _ s₅ h₅ => ?_
  rw [wp_bind]
  refine wp_check_i2c rfl h₅ fun _ s₆ h₆ => ?_
  rw [wp_bind]
  refine wp_check_i2c rfl h₆ fun config s₇ h₇ => ?_
  rw [wp_bind]
  refine wp_check_i2c rfl h₇ fun _ s₈ h₈ => ?_
  rw [wp_bind]
  exact wp_check_i2c rfl h₈ fun _ s₉ h₉ => h₉

/-! ## What a read leaves alone -/

/-- The cells of the EEPROM are as before, and memory outside `P` is. -/
def eepromKept (image : Nat → Byte) (P : Int → Prop) : Guarantee I2cCall CallerMem where
  holds _ s s' := (bus image s'.calls).cells = (bus image s.calls).cells ∧
    s.mem.OnlyStores s'.mem ∧ s.mem.StoresIn (fun _ => P) s'.mem
  refl _ s := ⟨rfl, Mem.onlyStores_refl s.mem, Mem.storesIn_refl _ s.mem⟩
  trans h h' := ⟨h'.1.trans h.1, h.2.1.trans h'.2.1, h.2.2.trans h'.2.2⟩

/-- A read stops with an error code, or spins. -/
def I2cStops (e : Stop) : Prop := e ≠ .ret 0

theorem i2cStops_ret (c : Code) (hc : c ≠ 0) : I2cStops (.ret c) := fun h => hc (Stop.ret.inj h)

def I2cKeeps {α : Type} (image : Nat → Byte) (P : Int → Prop) (x : Prog I2cCall CallerMem α) :
    Prop :=
  Meets (eepromKept image P) I2cStops x

section

variable {image : Nat → Byte} {P : Int → Prop}

/-- No data comes in during an address phase. -/
theorem Bus.address_cells (b : Bus) (ctrl hi lo : Byte) :
    (((b.fmt ctrl .start).fmt hi .tx).fmt lo .txStop).cells = b.cells := by
  have h : ∀ ph : BusPhase, ph = .addrHi ∨ ph = .reading ∨ ph = .idle →
      ((({ b with phase := ph } : Bus).fmt hi .tx).fmt lo .txStop).cells = b.cells := by
    intro ph hph
    rcases hph with rfl | rfl | rfl
    · exact storeAt_nil _ _
    · rfl
    · rfl
  refine h (if ctrl = 0xA0 then .addrHi else if ctrl = 0xA1 then .reading else .idle) ?_
  split
  · exact Or.inl rfl
  · split
    · exact Or.inr (Or.inl rfl)
    · exact Or.inr (Or.inr rfl)

theorem bus_fmt_any {t : I2cTrace} {v : Byte} {fmt : I2cFmt} {nak : Bool} (r : Reply) :
    bus image ((.writeByte v fmt nak, r) :: t) = bus image t ∨
      bus image ((.writeByte v fmt nak, r) :: t) = (bus image t).fmt v fmt := by
  by_cases hret : r.ret = 0
  · exact Or.inr (bus_fmt hret)
  · exact Or.inl (if_neg hret)

theorem eepromKept_allows {q : I2cCall}
    (hq : ∀ (t : I2cTrace) r, (bus image ((q, r) :: t)).cells = (bus image t).cells) :
    (eepromKept image P).Allows q :=
  fun _ s => ⟨hq _ _, Mem.onlyStores_refl s.mem, Mem.storesIn_refl _ s.mem⟩

theorem control_allows {q : I2cCall} (hq : q.control) : (eepromKept image P).Allows q :=
  eepromKept_allows fun _ r => congrArg Bus.cells (bus_control hq r)

theorem waitVacated_keeps : ∀ polls, I2cKeeps image P (waitVacated polls)
  | 0 => meets_stop nofun
  | polls + 1 => meets_bind (meets_check i2cStops_ret (control_allows rfl)) fun _ =>
    meets_ite (meets_pure _) (waitVacated_keeps polls)

theorem waitReceived_keeps (len : Nat) : ∀ polls, I2cKeeps image P (waitReceived len polls)
  | 0 => meets_stop nofun
  | polls + 1 => meets_bind (meets_check i2cStops_ret (control_allows rfl)) fun _ =>
    meets_ite (waitReceived_keeps len polls) (meets_pure _)

theorem i2cWriteByte_keeps (v : Nat) (fmt : I2cFmt) (hfmt : fmt ≠ .txStop) (nak : Bool) :
    I2cKeeps image P (i2cWriteByte v fmt nak) :=
  meets_bind (meets_check i2cStops_ret (eepromKept_allows fun t r => by
    rcases @bus_fmt_any image t (BitVec.ofNat 8 v) fmt nak r with h | h
    · rw [h]
    · rw [h, Bus.fmt_cells _ _ hfmt])) fun _ => meets_pure _

theorem i2cSendAddr_keeps (addr : Nat) : I2cKeeps image P (i2cSendAddr addr false) := by
  intro env s
  have hkept : ∀ t, (bus image t).cells = (bus image s.calls).cells →
      (eepromKept image P).holds env s ⟨t, s.mem⟩ := fun t ht =>
    ⟨ht, Mem.onlyStores_refl s.mem, Mem.storesIn_refl _ s.mem⟩
  have hfailed : ∀ {t : I2cTrace} {v : Byte} {fmt nak} {r : Reply}, r.ret ≠ 0 →
      bus image ((.writeByte v fmt nak, r) :: t) = bus image t := fun hret => if_neg hret
  have hstart : I2cFmt.start ≠ .txStop := nofun
  have htx : I2cFmt.tx ≠ .txStop := nofun
  unfold i2cSendAddr i2cWriteByte
  simp only [Bool.false_eq_true, if_false, wp_bind, wp_check]
  -- a call that fails is not on the bus, and ends the address phase
  refine ⟨fun h₁ => ⟨fun h₂ => ⟨fun h₃ => hkept _ ?_, fun h₃ => ⟨hkept _ ?_, i2cStops_ret _ h₃⟩⟩,
    fun h₂ => ⟨hkept _ ?_, i2cStops_ret _ h₂⟩⟩, fun h₁ => ⟨hkept _ ?_, i2cStops_ret _ h₁⟩⟩
  · rw [bus_fmt h₃, bus_fmt h₂, bus_fmt h₁]
    exact Bus.address_cells _ _ _ _
  · rw [hfailed h₃, bus_fmt h₂, bus_fmt h₁, Bus.fmt_cells _ _ htx, Bus.fmt_cells _ _ hstart]
  · rw [hfailed h₂, bus_fmt h₁, Bus.fmt_cells _ _ hstart]
  · rw [hfailed h₁]

theorem i2cReadByte_keeps {p : Int} (hp : P p) : I2cKeeps image P (i2cReadByte p) :=
  meets_bind (meets_check i2cStops_ret (eepromKept_allows fun t r => by
    show ((bus image t).next _).cells = _
    unfold Bus.next
    split
    all_goals rfl)) fun d env s => by
    rw [wp_modifyMem]
    refine ⟨rfl, ?_, ?_⟩
    · show s.mem.OnlyStores (s.mem.put () p (d 0))
      rw [Mem.put_eq_write]
      exact Mem.onlyStores_write _ _ _ _ _
    · show s.mem.StoresIn _ (s.mem.put () p (d 0))
      rw [Mem.put_eq_write]
      refine Mem.storesIn_write _ fun x hlo hhi => ?_
      obtain rfl : x = p := by omega
      exact hp

/-- A chunk stores to its own bytes only, and leaves the EEPROM as it was. -/
theorem i2cAccessChunk_keeps (polls rounds : Nat) {buf : Int} (addr : Nat) {len : Nat}
    (h : ∀ x, buf ≤ x → x < buf + len → P x) :
    I2cKeeps image P (i2cAccessChunk polls false rounds buf addr len) := by
  cases rounds with
  | zero => exact meets_stop nofun
  | succ rounds =>
    exact meets_bind (waitVacated_keeps polls) fun _ =>
      meets_bind (meets_ask (control_allows rfl)) fun _ =>
      meets_bind (meets_check i2cStops_ret (control_allows rfl)) fun _ =>
      meets_bind (i2cSendAddr_keeps addr) fun _ =>
      meets_bind (i2cWriteByte_keeps _ .start nofun _) fun _ =>
      meets_bind (i2cWriteByte_keeps _ .rx nofun _) fun _ =>
      meets_bind (meets_check i2cStops_ret (control_allows rfl)) fun _ =>
      meets_bind (waitReceived_keeps len polls) fun _ =>
      meets_upTo fun b hb => i2cReadByte_keeps (h _ (by omega) (by omega))

theorem i2cRead_keeps (polls : Nat) {buf : Int} {addr len : Nat}
    (h : ∀ x, buf ≤ x → x < buf + max len (i2cHeadLen addr) → P x) :
    I2cKeeps image P (i2cRead polls buf addr len) :=
  meets_bind (meets_retCode i2cStops_ret _) fun _ =>
    meets_bind
      (meets_ite (meets_pure _)
        (i2cAccessChunk_keeps _ _ _ fun x hlo hhi => h x hlo (by omega)))
      fun _ => meets_upTo fun i hi => i2cAccessChunk_keeps _ _ _ fun x hlo hhi => by
        unfold i2cFifoDepth at hlo hhi
        exact h x (by omega) (by omega)

end

/-! ## The reads of a boot -/

section

variable {image : Nat → Byte} {P : Int → Prop} {env : Env I2cCall} {arrived : I2cTrace → Nat}
  {polls : Nat} {f : BootFrame}

/-- The bytes a call stores, if it succeeds. -/
def i2cFilled (q : ReadCall) : Nat := max q.len.toNat (i2cHeadLen q.addr.toNat)

def I2cWindow (f : BootFrame) (q : ReadCall) (x : Int) : Prop :=
  f.addr q.dst ≤ x ∧ x < f.addr q.dst + i2cFilled q

theorem i2cFilled_sig : i2cFilled gptSigCall = 8 := rfl

/-- The header starts 56 bytes before the next window. -/
theorem i2cFilled_header : i2cFilled gptHeaderCall = 56 := rfl

theorem i2cFilled_raw (codeBuf : BitVec 64) :
    i2cFilled (rawCall codeBuf bootSpmMaxLbas) = 0x200 * bootSpmMaxLbas.toNat := rfl

theorem i2cVia_keeps (polls : Nat) {q : ReadCall} (h : ∀ x, I2cWindow f q x → P x) :
    Meets (eepromKept image P) (· = .spin) (readVia f (i2cRead polls) i2cPeek q) :=
  meets_bind (meets_attempt (i2cRead_keeps polls fun x hlo hhi => h x ⟨hlo, hhi⟩)) fun _ =>
    meets_bind meets_getMem fun _ => meets_pure _

theorem i2cRead_stops (polls : Nat) (buf : Int) (addr len : Nat) (s : I2cSt) :
    wp env (i2cRead polls buf addr len) (fun _ _ => True) (fun e _ => I2cStops e) s :=
  wp_mono (@i2cRead_keeps (fun _ => 0) (fun _ => True) polls buf addr len
    (fun _ _ _ => trivial) env s) (fun _ _ _ => trivial) fun _ _ he => he.2

/-- Whatever is read, memory is only stored to, and a read that does not come back spins. -/
theorem i2cVia_stores (polls : Nat) (q : ReadCall) (s : I2cSt) :
    wp env (readVia f (i2cRead polls) i2cPeek q)
      (fun _ s' => ∃ new, s'.mem.stores = new ++ s.mem.stores) (fun e _ => e = .spin) s := by
  refine wp_mono (@i2cVia_keeps (fun _ => 0) (fun _ => True) f polls q (fun _ _ => trivial) env s)
    (fun _ s' h' => ?_) fun _ _ he => he.2
  obtain ⟨new, hnew, -⟩ := h'.2.2
  exact ⟨new, hnew⟩

/-- A call, through the driver: if it returns 0, its whole window is in memory. -/
theorem i2cVia_spec (hdif : Delivers image env arrived) {q : ReadCall}
    (hq : q.addr.toNat + q.len.toNat ≤ blockSize) (h : ∀ x, I2cWindow f q x → P x) (s : I2cSt) :
    wp env (readVia f (i2cRead polls) i2cPeek q)
      (fun r s' => (eepromKept image P).holds env s s' ∧
        (r.ret = 0 → s'.mem = s.mem.write () (f.addr q.dst)
            (fun k => (bus image s.calls).cells (q.addr.toNat + k)) (i2cFilled q) ∧
          r.out = fun i : Nat => i2cPeek s'.mem (f.addr q.dst + i)))
      (fun e s' => (eepromKept image P).holds env s s' ∧ e = .spin) s := by
  have hread : wp env (readVia f (i2cRead polls) i2cPeek q)
      (fun r s' => r.ret = 0 → s'.mem = s.mem.write () (f.addr q.dst)
          (fun k => (bus image s.calls).cells (q.addr.toNat + k)) (i2cFilled q) ∧
        r.out = fun i : Nat => i2cPeek s'.mem (f.addr q.dst + i))
      (fun _ _ => True) s := by
    unfold readVia
    rw [wp_bind, wp_attempt]
    refine wp_mono (wp_and (i2cRead_spec hdif polls (f.addr q.dst) hq s)
      (i2cRead_stops polls _ _ _ s)) (fun _ s' h' => ?_) fun e s' he => ?_
    · rw [wp_bind, wp_getMem, wp_pure]
      exact fun _ => ⟨h'.1.mem_eq, rfl⟩
    · cases e with
      | spin => exact trivial
      | ret c =>
        dsimp only
        rw [wp_bind, wp_getMem, wp_pure]
        exact fun hc => absurd (congrArg Stop.ret hc) he.2
  exact wp_mono (wp_and (i2cVia_keeps polls h env s) hread) (fun _ _ h' => h') fun _ _ he => he.1

/-! ## What is read -/

/-- Reads leave the EEPROM as it was, and one that does not come back spins. -/
theorem i2cReplay_cells (image : Nat → Byte) (polls : Nat) (m : CallerMem) (t : Trace ReadCall) :
    wp env (replay (readVia f (i2cRead polls) i2cPeek) t)
      (fun _ s' => (bus image s'.calls).cells = image) (fun e _ => e = .spin) ⟨[], m⟩ :=
  wp_replay (G := fun _ => True) (fun q s' _ hs' => wp_mono
    (@i2cVia_keeps image (fun _ => True) f polls q (fun _ _ => trivial) env s')
    (fun _ _ h => h.1.trans hs') fun _ _ he => he.2) t (fun _ _ => trivial) rfl

/-- A read that lies in the block and returns 0 delivers the bytes of the EEPROM it was asked
for, whatever it stores behind them. -/
theorem i2c_honest (hdif : Delivers image env arrived) (room : Dst → Nat) (m : CallerMem) :
    Honest (served (readVia f (i2cRead polls) i2cPeek) env ⟨[], m⟩) (diskOf image)
      (BootCall blockSize room) := by
  intro t q _ hq
  refine served_spec (P := fun r : Reply => r.ret = 0 →
      ∀ i < q.len.toNat, r.out i = diskBytes (diskOf image) q.addr i)
    (i2cReplay_cells image polls m t) (fun s' hcells => ?_) fun _ _ _ hlost =>
    absurd hlost (by decide)
  refine wp_mono (i2cVia_spec (P := fun _ => True) hdif hq.on (fun _ _ => trivial) s')
    (fun r s₁ h₁ hret i hi => ?_) fun _ _ he => he.2
  obtain ⟨hmem, hout⟩ := h₁.2 hret
  have hon := hq.on
  have hfilled : i < i2cFilled q := Nat.lt_of_lt_of_le hi (Nat.le_max_left _ _)
  rw [hout, diskBytes_diskOf (by unfold blockSize at hon; omega)]
  show s₁.mem.get () _ = _
  rw [hmem, Mem.get_write_at _ _ _ _ hfilled, hcells]

/-! ## The signature -/

/-- The boot sees a table exactly if there is one and its signature was read. -/
theorem i2c_seesGpt (hdif : Delivers image env arrived) (m : CallerMem) :
    SeesGpt (served (readVia f (i2cRead polls) i2cPeek) env ⟨[], m⟩) ↔
      HasGpt (diskOf image) ∧ ¬SigFails env (i2cRead polls) f ⟨[], m⟩ := by
  have hcall : BootCall blockSize (fun _ => 8) gptSigCall := ⟨by decide, Nat.le_refl 8⟩
  have hbytes : (served (readVia f (i2cRead polls) i2cPeek) env ⟨[], m⟩ [] gptSigCall).ret = 0 →
      le64 (served (readVia f (i2cRead polls) i2cPeek) env ⟨[], m⟩ [] gptSigCall).out 0
        = le64 (diskBytes (diskOf image) 0x200) 0 := by
    intro hret
    refine le64_congr fun j hj => ?_
    exact i2c_honest hdif _ m [] gptSigCall (fun _ hc => absurd hc List.not_mem_nil) hcall hret _
      (show 0 + j < 8 by omega)
  have hfails : SigFails env (i2cRead polls) f ⟨[], m⟩ →
      (served (readVia f (i2cRead polls) i2cPeek) env ⟨[], m⟩ [] gptSigCall).ret ≠ 0 := fun h =>
    h.served (i2cRead_stops polls _ _ _ _)
  constructor
  · intro hsees
    exact ⟨(hbytes hsees.1).symm.trans hsees.2, fun hsig => hfails hsig hsees.1⟩
  · intro ⟨hgpt, hsig⟩
    have hret : (served (readVia f (i2cRead polls) i2cPeek) env ⟨[], m⟩ [] gptSigCall).ret = 0 :=
      not_not.mp fun hne => hsig (served_sig _ hne)
    exact ⟨hret, (hbytes hret).trans hgpt⟩

/-! ## Without a table -/

/-- Address `x` is in the signature variable or in the boot buffer. -/
def InSigOrBuf (f : BootFrame) (codeBuf : BitVec 64) (x : Int) : Prop :=
  f.sig ≤ x ∧ x < f.sig + 8 ∨
    codeBuf.toNat ≤ x ∧ x < codeBuf.toNat + (0x200 * bootSpmMaxLbas.toNat : Nat)

theorem rawRange_onMedium : LbaRange.OnMedium ⟨0, bootSpmMaxLbas - 1⟩ blockSize bootSpmMaxLbas :=
  ⟨by decide, by decide, by decide⟩

/-- The copy of the raw blocks: they start a window of their own. -/
theorem i2cVia_raw (hdif : Delivers image env arrived) {codeBuf : BitVec 64} {m : CallerMem}
    (s₁ : I2cSt) (h₁ : (eepromKept image (InSigOrBuf f codeBuf)).holds env ⟨[], m⟩ s₁) :
    wp env (readVia f (i2cRead polls) i2cPeek (rawCall codeBuf bootSpmMaxLbas))
      (fun r s' => (eepromKept image (InSigOrBuf f codeBuf)).holds env ⟨[], m⟩ s' ∧
        (r.ret = 0 → ∀ k < 0x200 * bootSpmMaxLbas.toNat,
          i2cPeek s'.mem (codeBuf.toNat + k) = image k))
      (fun e s' => (eepromKept image (InSigOrBuf f codeBuf)).holds env ⟨[], m⟩ s' ∧ e = .spin)
      s₁ := by
  have hwindow : ∀ x, I2cWindow f (rawCall codeBuf bootSpmMaxLbas) x →
      InSigOrBuf f codeBuf x := by
    intro x hx
    unfold I2cWindow at hx
    rw [i2cFilled_raw] at hx
    exact Or.inr hx
  have hon : (rawCall codeBuf bootSpmMaxLbas).addr.toNat
      + (rawCall codeBuf bootSpmMaxLbas).len.toNat ≤ blockSize :=
    show 0 + 0xC000 ≤ 0x10000 by decide
  refine wp_mono (i2cVia_spec hdif hon hwindow s₁)
    (fun r s' h' => ⟨Guarantee.trans _ h₁ h'.1, fun hret k hk => ?_⟩)
    fun e s' he => ⟨Guarantee.trans _ h₁ he.1, he.2⟩
  show s'.mem.get () _ = _
  rw [(h'.2 hret).1]
  refine (Mem.get_write_at _ _ _ _ hk).trans ?_
  rw [h₁.1]
  exact congrArg image (Nat.zero_add k)

theorem i2cBoot_raw (hdif : Delivers image env arrived) (ptrs : BootPtrs) (codeBuf : BitVec 64)
    {m : CallerMem}
    (hraw : HasGpt (diskOf image) → SigFails env (i2cRead polls) f ⟨[], m⟩) :
    wp env (i2cGptBoot polls f ptrs codeBuf)
      (fun out s' => (eepromKept image (InSigOrBuf f codeBuf)).holds env ⟨[], m⟩ s' ∧
        BootOutcome image blockSize ptrs codeBuf bootSpmMaxLbas (some bootZslTypeGuid) none
          (SigFails env (i2cRead polls) f ⟨[], m⟩) I2cStops (i2cPeek s'.mem) out)
      (fun e s' => (eepromKept image (InSigOrBuf f codeBuf)).holds env ⟨[], m⟩ s' ∧ e = .spin)
      ⟨[], m⟩ := by
  have hsees : ¬SeesGpt (served (readVia f (i2cRead polls) i2cPeek) env ⟨[], m⟩) := by
    rw [i2c_seesGpt hdif]
    exact fun h => h.2 (hraw h.1)
  have hsig : wp env (replay (readVia f (i2cRead polls) i2cPeek)
      (afterSig (served (readVia f (i2cRead polls) i2cPeek) env ⟨[], m⟩)))
      (fun _ => (eepromKept image (InSigOrBuf f codeBuf)).holds env ⟨[], m⟩)
      (fun e s' => (eepromKept image (InSigOrBuf f codeBuf)).holds env ⟨[], m⟩ s' ∧ e = .spin)
      ⟨[], m⟩ := by
    unfold afterSig
    rw [wp_replay_cons]
    show wp env (readVia f (i2cRead polls) i2cPeek gptSigCall) _ _ _
    refine i2cVia_keeps polls (fun x hx => Or.inl ?_) env ⟨[], m⟩
    unfold I2cWindow at hx
    rwa [i2cFilled_sig] at hx
  have hcopy := @i2cVia_raw _ _ _ polls f hdif codeBuf m
  refine wp_serve (wp_mono (gptBoot_raw _ hsees ptrs) (fun _ u hu => ?_) fun e u hu => ?_)
  · obtain ⟨hcalls, hret, hmem⟩ := hu
    rw [hcalls, hmem]
    refine wp_mono (wp_served hsig hcopy) (fun _ s' h' => ⟨h'.1, fun _ => ⟨rfl, _, ?_,
      rawRange_onMedium, fun k hk => ?_⟩, fun e he => nomatch he⟩) fun _ _ he => he
    · exact Or.inr ⟨rfl, hraw⟩
    · rw [show 0x200 * (0 : BitVec 64).toNat + k = k from Nat.zero_add k]
      exact h'.2 hret k hk
  · obtain ⟨hcalls, hret, rfl, hmem⟩ := hu
    rw [hcalls, hmem]
    refine wp_mono (wp_served hsig hcopy) (fun _ s' h' => ⟨h'.1, fun hok => (nomatch hok),
      fun e he => ?_⟩) fun _ _ he => he
    cases he
    exact ⟨rfl, ⟨_, hret, rfl⟩, i2cStops_ret _ hret⟩

/-! ## With a table -/

/-- A boot that enters the next stage has stored the bytes of the EEPROM behind the header over
the end of `hf`, and one that does not return spins. -/
theorem i2cBoot_table (hdif : Delivers image env arrived) (ptrs : BootPtrs) (codeBuf : BitVec 64)
    {m : CallerMem} (hgpt : HasGpt (diskOf image))
    (hsig : ¬SigFails env (i2cRead polls) f ⟨[], m⟩) :
    wp env (i2cGptBoot polls f ptrs codeBuf)
      (fun out s' => out.1 = .ok () → ∃ new, s'.mem.stores = new ++ m.stores ∧
        ∀ k : Nat, k < 56 → ((), f.hf + (k : Int)) ∈ new)
      (fun e _ => e = .spin) ⟨[], m⟩ := by
  -- the header fields are at 0x248, 56 bytes in front of the end of a window
  have hheader : ∀ s₁ : I2cSt, (∃ new, s₁.mem.stores = new ++ m.stores) →
      wp env (readVia f (i2cRead polls) i2cPeek gptHeaderCall)
        (fun r s' => r.ret = 0 → ∃ new, s'.mem.stores = new ++ m.stores ∧
          ∀ k : Nat, k < 56 → ((), f.hf + (k : Int)) ∈ new)
        (fun e _ => e = .spin) s₁ := by
    intro s₁ ⟨old, hold⟩
    refine wp_mono (i2cVia_spec (q := gptHeaderCall) (P := fun _ => True) hdif (by decide)
      (fun _ _ => trivial) s₁) (fun r s' h' hret => ?_) fun _ _ he => he.2
    refine ⟨Mem.writeLog () f.hf 56 ++ old, ?_, fun k hk => List.mem_append_left _
      (Mem.mem_writeLog.mpr ⟨rfl, by show f.hf ≤ f.hf + k; omega,
        by show f.hf + (k : Int) < f.hf + (56 : Nat); omega⟩)⟩
    rw [(h'.2 hret).1, Mem.stores_write, hold, List.append_assoc, i2cFilled_header]
    rfl
  refine wp_serve (wp_mono (gptBoot_table _ ((i2c_seesGpt hdif m).mpr ⟨hgpt, hsig⟩) ptrs)
    (fun _ u hu => ?_) fun e u _ => ?_)
  · obtain ⟨hret, t, hcalls⟩ := hu
    rw [hcalls, wp_replay_append]
    refine wp_mono (wp_served (I := fun s₁ => ∃ new, s₁.mem.stores = new ++ m.stores)
      (E := fun e _ => e = .spin) ?_ hheader) (fun _ s₁ h₁ => ?_) fun _ _ he => he
    · unfold afterSig
      rw [wp_replay_cons]
      exact i2cVia_stores polls gptSigCall ⟨[], m⟩
    · -- what is read behind the header only adds to the stores
      refine wp_mono (wp_replay (G := fun _ => True)
        (I := fun s' => ∃ new, s'.mem.stores = new ++ m.stores ∧
          ∀ k : Nat, k < 56 → ((), f.hf + (k : Int)) ∈ new) (E := fun e _ => e = .spin)
        (fun q s₂ _ h₂ => ?_) t (fun _ _ => trivial) (h₁ hret)) (fun _ _ h' _ => h')
        fun _ _ he => he
      refine wp_mono (i2cVia_stores polls q s₂) (fun _ s₃ h₃ => ?_) fun _ _ he => he
      obtain ⟨new, hnew, hin⟩ := h₂
      obtain ⟨more, hmore⟩ := h₃
      exact ⟨more ++ new, by rw [hmore, hnew, List.append_assoc],
        fun k hk => List.mem_append_right _ (hin k hk)⟩
  · exact wp_mono (wp_replay (G := fun _ => True) (I := fun _ => True)
      (E := fun e _ => e = .spin) (fun q s' _ _ => wp_mono (i2cVia_stores polls q s')
        (fun _ _ _ => trivial) fun _ _ he => he) u.calls (fun _ _ => trivial) trivial)
      (fun _ _ _ hok => nomatch hok) fun _ _ he => he

/-! ## A table that fits -/

/-- The copy of a range: it starts a window of its own. -/
theorem i2cVia_copy (hdif : Delivers image env arrived) {rng : LbaRange} {codeBuf : BitVec 64}
    (hon : rng.OnMedium blockSize bootSpmMaxLbas)
    (hcopy : BootCall blockSize (Dst.room codeBuf bootSpmMaxLbas) (rng.copyCall codeBuf))
    (s : I2cSt) (hcells : (bus image s.calls).cells = image) :
    wp env (readVia f (i2cRead polls) i2cPeek (rng.copyCall codeBuf))
      (fun r s' => r.ret = 0 → ∀ k < 0x200 * (rng.lbaEnd.toNat + 1 - rng.lbaBegin.toNat),
        i2cPeek s'.mem (codeBuf.toNat + k) = image (0x200 * rng.lbaBegin.toNat + k))
      (fun e _ => e = .spin) s := by
  have hsmall : blockSize ≤ 2 ^ 63 := by decide
  have hlen := @LbaRange.OnMedium.copyLen _ codeBuf _ _ hon hsmall
  have haddr := @LbaRange.OnMedium.copyAddr _ codeBuf _ _ hon hsmall
  refine wp_mono (i2cVia_spec (P := fun _ => True) hdif hcopy.on (fun _ _ => trivial) s)
    (fun r s' h' hret k hk => ?_) fun _ _ he => he.2
  rw [← hlen] at hk
  have hfilled : k < i2cFilled (rng.copyCall codeBuf) :=
    Nat.lt_of_lt_of_le hk (Nat.le_max_left _ _)
  show s'.mem.get () _ = _
  rw [(h'.2 hret).1]
  refine (Mem.get_write_at _ _ _ _ hfilled).trans ?_
  rw [hcells, haddr]

/-- Whatever went over the variable of the header, the blocks that are booted are the selected
ones, for their copy is the last read. -/
theorem i2cBoot_outcome (hdif : Delivers image env arrived)
    (hboot : Bootable (diskOf image) blockSize bootSpmMaxLbas) (ptrs : BootPtrs)
    (codeBuf : BitVec 64) (m : CallerMem) :
    wp env (i2cGptBoot polls f ptrs codeBuf)
      (fun out s' => BootOutcome image blockSize ptrs codeBuf bootSpmMaxLbas
        (some bootZslTypeGuid) none (SigFails env (i2cRead polls) f ⟨[], m⟩) I2cStops
        (i2cPeek s'.mem) out)
      (fun e _ => e = .spin) ⟨[], m⟩ := by
  have hhonest := @i2c_honest image env arrived polls f hdif (Dst.room codeBuf bootSpmMaxLbas) m
  refine wp_serve (wp_mono (gptBoot_medium hhonest hboot ptrs) (fun _ u hu => ?_) fun e u hu => ?_)
  · obtain ⟨rng, t, hcalls, htrusted, hrange, hon, hret, hmem⟩ := hu
    rw [hcalls] at htrusted ⊢
    obtain ⟨hcopy, -⟩ := List.forall_mem_cons.mp htrusted
    refine wp_mono (wp_served (i2cReplay_cells image polls m t) (i2cVia_copy hdif hon hcopy))
      (fun _ s' h' => ⟨fun _ => ⟨hmem, rng, ?_, hon, h' hret⟩, fun e he => nomatch he⟩)
      fun _ _ he => he
    exact hrange.imp_right fun hraw => ⟨hraw.1, fun hgpt => served_sig _ (hraw.2 hgpt)⟩
  · obtain ⟨htrusted, q, t, -, hret, rfl⟩ := hu
    refine wp_mono (i2cReplay_cells image polls m u.calls) (fun _ _ _ => ⟨fun hok => (nomatch hok),
      fun e he => ?_⟩) fun _ _ he => he
    cases he
    exact ⟨htrusted.mem, ⟨_, hret, rfl⟩, i2cStops_ret _ hret⟩

end

/-! ## The boot -/

/-- What the host and the EEPROM do behind an initialisation that succeeded. -/
def EepromHolds (env : Env I2cBootCall) (image : Nat → Byte) : Prop :=
  ∀ t, Initialised t → ∃ arrived, Delivers image (Env.under .transfer env t) arrived

/-- The read of the signature fails, from `s` on. -/
def I2cSigFails (env : Env I2cBootCall) (polls : Nat) (f : BootFrame)
    (s : St I2cBootCall CallerMem) : Prop :=
  SigFails (Env.under .transfer env s.calls) (i2cRead polls) f ⟨[], s.mem⟩

/-- How a boot from the EEPROM ends, the initialisation having ended as in `init`. -/
structure I2cBootSound (env : Env I2cBootCall) (polls : Nat) (f : BootFrame) (ptrs : BootPtrs)
    (codeBuf : BitVec 64) (image : Nat → Byte) (m m' : CallerMem)
    (init : Except Stop Unit × St I2cBootCall CallerMem)
    (r : Except Stop (Except Stop Unit × List BootEvent)) : Prop where
  /-- An initialisation that fails is the end. -/
  refused : ∀ e, init.1 = .error e → r = .error e ∧ m' = m
  /-- Without a table only the signature and the boot buffer are stored to. -/
  contained : init.1 = .ok () → (HasGpt (diskOf image) → I2cSigFails env polls f init.2) →
    m.OnlyStores m' ∧ m.StoresIn (fun _ => InSigOrBuf f codeBuf) m'
  /-- And what is booted are the first blocks. -/
  raw : init.1 = .ok () → (HasGpt (diskOf image) → I2cSigFails env polls f init.2) →
    ∀ out, r = .ok out →
      BootOutcome image blockSize ptrs codeBuf bootSpmMaxLbas (some bootZslTypeGuid) none
        (I2cSigFails env polls f init.2) I2cStops (i2cPeek m') out
  /-- What does not return waits for the FIFOs of the host. -/
  waits : init.1 = .ok () → ∀ e, r = .error e → e = .spin
  /-- With a table that fits, what is booted are the blocks it selects. -/
  selects : init.1 = .ok () → Bootable (diskOf image) blockSize bootSpmMaxLbas →
    ∀ out, r = .ok out →
      BootOutcome image blockSize ptrs codeBuf bootSpmMaxLbas (some bootZslTypeGuid) none
        (I2cSigFails env polls f init.2) I2cStops (i2cPeek m') out
  /-- With a table the next stage is entered behind a header that went over its variable. -/
  overruns : init.1 = .ok () → HasGpt (diskOf image) → ¬I2cSigFails env polls f init.2 →
    ∀ ev, r = .ok (.ok (), ev) → ∃ new, m'.stores = new ++ m.stores ∧
      ∀ k : Nat, k < 56 → ((), f.hf + (k : Int)) ∈ new

section

variable {env : Env I2cBootCall} {image : Nat → Byte}

/-- Behind an initialisation that succeeded. -/
theorem i2cBootSound_initialised (hdev : EepromHolds env image) (polls : Nat) (f : BootFrame)
    (ptrs : BootPtrs) (codeBuf : BitVec 64) (m : CallerMem) {s₁ : St I2cBootCall CallerMem}
    (hmem : s₁.mem = m) (hinit : Initialised s₁.calls) :
    wp env (within .transfer (i2cGptBoot polls f ptrs codeBuf))
      (fun out s' => I2cBootSound env polls f ptrs codeBuf image m s'.mem (.ok (), s₁) (.ok out))
      (fun e s' => I2cBootSound env polls f ptrs codeBuf image m s'.mem (.ok (), s₁) (.error e))
      s₁ := by
  obtain ⟨arrived, hdif⟩ := hdev s₁.calls hinit
  subst hmem
  rw [wp_within]
  have hselects : wp (Env.under .transfer env s₁.calls) (i2cGptBoot polls f ptrs codeBuf)
      (fun out u => Bootable (diskOf image) blockSize bootSpmMaxLbas →
        BootOutcome image blockSize ptrs codeBuf bootSpmMaxLbas (some bootZslTypeGuid) none
          (I2cSigFails env polls f s₁) I2cStops (i2cPeek u.mem) out)
      (fun _ _ => True) ⟨[], s₁.mem⟩ := by
    by_cases hboot : Bootable (diskOf image) blockSize bootSpmMaxLbas
    · exact wp_mono (i2cBoot_outcome hdif hboot ptrs codeBuf s₁.mem) (fun _ _ h _ => h)
        fun _ _ _ => trivial
    · exact wp_mono (wp_any _ _) (fun _ _ _ h => absurd h hboot) fun _ _ _ => trivial
  by_cases hraw : HasGpt (diskOf image) → I2cSigFails env polls f s₁
  · have hno : ¬(HasGpt (diskOf image) ∧ ¬I2cSigFails env polls f s₁) := fun h => h.2 (hraw h.1)
    refine wp_mono (wp_and (i2cBoot_raw hdif ptrs codeBuf hraw) hselects) (fun out u hu => ?_)
      fun e u hu => ?_
    · exact
        { refused := fun e he => nomatch he
          contained := fun _ _ => hu.1.1.2
          raw := fun _ _ out' hout => by cases hout; exact hu.1.2
          waits := fun _ e he => nomatch he
          selects := fun _ hboot out' hout => by cases hout; exact hu.2 hboot
          overruns := fun _ hgpt hsig => absurd ⟨hgpt, hsig⟩ hno }
    · exact
        { refused := fun e he => nomatch he
          contained := fun _ _ => hu.1.1.2
          raw := fun _ _ out hout => nomatch hout
          waits := fun _ e' he' => by cases he'; exact hu.1.2
          selects := fun _ _ out hout => nomatch hout
          overruns := fun _ hgpt hsig => absurd ⟨hgpt, hsig⟩ hno }
  · obtain ⟨hgpt, hsig⟩ := Classical.not_imp.mp hraw
    refine wp_mono (wp_and (i2cBoot_table hdif ptrs codeBuf hgpt hsig) hselects)
      (fun out u hu => ?_) fun e u hu => ?_
    · exact
        { refused := fun e he => nomatch he
          contained := fun _ h => absurd h hraw
          raw := fun _ h => absurd h hraw
          waits := fun _ e he => nomatch he
          selects := fun _ hboot out' hout => by cases hout; exact hu.2 hboot
          overruns := fun _ _ _ ev hev => by cases hev; exact hu.1 rfl }
    · exact
        { refused := fun e he => nomatch he
          contained := fun _ h => absurd h hraw
          raw := fun _ h => absurd h hraw
          waits := fun _ e' he' => by cases he'; exact hu.1
          selects := fun _ _ out hout => nomatch hout
          overruns := fun _ _ _ ev hev => nomatch hev }

theorem i2cBoot_spec (hdev : EepromHolds env image) (polls : Nat) (f : BootFrame)
    (ptrs : BootPtrs) (codeBuf coreFreq : BitVec 64) (m : CallerMem) :
    wp env (bootI2c24fc1025 polls f ptrs codeBuf coreFreq)
      (fun out s' => I2cBootSound env polls f ptrs codeBuf image m s'.mem
        (i2cInit true coreFreq env ⟨[], m⟩) (.ok out))
      (fun e s' => I2cBootSound env polls f ptrs codeBuf image m s'.mem
        (i2cInit true coreFreq env ⟨[], m⟩) (.error e)) ⟨[], m⟩ := by
  unfold bootI2c24fc1025
  rw [wp_bind]
  refine wp_mono (wp_run (i2cInit_spec env coreFreq m)) (fun _ s₁ h₁ => ?_) fun e s₁ he => ?_
  · rw [h₁.1]
    exact i2cBootSound_initialised hdev polls f ptrs codeBuf m h₁.2.1 h₁.2.2
  · rw [he.1]
    exact
      { refused := fun e' he' => by cases he'; exact ⟨rfl, he.2.mem⟩
        contained := fun hok => nomatch hok
        raw := fun hok => nomatch hok
        waits := fun hok => nomatch hok
        selects := fun hok => nomatch hok
        overruns := fun hok => nomatch hok }

end

/-- The transfers among the calls of a boot. -/
def transfers (t : Trace I2cBootCall) : I2cTrace := t.filterMap fun c =>
  match c.1 with
  | .transfer q => some (q, c.2)
  | _ => none

section

variable {image : Nat → Byte} {f : BootFrame}

end

end Cheshire.Sw
