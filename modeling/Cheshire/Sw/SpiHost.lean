import Cheshire.Lib.Calls

/-!
# The SPI host, as the boot sets it up

The DIF of the SPI host is not part of this repository. A boot calls it to configure the
host and for its transfers, which differ from driver to driver; `T` stands for them. The
environment answers each call with any return value.

What the host is set to follows from the calls that succeeded: `clockOf` is the frequency a
chip select was configured for last, and `outputOn` whether the pins are driven.
-/

namespace Cheshire.Sw

open Firmware Firmware.Prog

/-! ## The DIF -/

/-- `dif_spi_host_config_t`. Fields a driver leaves out are zero. -/
structure SpiConfig where
  idle : Nat
  lead : Nat
  trail : Nat
  cpha : Bool
  cpol : Bool
  fullCycle : Bool
  peripheralClockFreq : BitVec 64
  spiClock : Nat

/-- What a boot calls, `T` being its transfers. -/
inductive SpiHostCall (T : Type) where
  /-- `dif_spi_host_init`. -/
  | init
  /-- `dif_spi_host_reset`. -/
  | reset
  /-- `dif_spi_host_configure_cs`. -/
  | configureCs (cfg : SpiConfig) (csid : Nat)
  /-- `dif_spi_host_enable`. -/
  | enable (on : Bool)
  /-- `dif_spi_host_output_set_enabled`. -/
  | outputSetEnabled (on : Bool)
  | transfer (t : T)
  /-- `clint_spin_until`. -/
  | spinUntil (mtime : BitVec 64)

/-- `SPI_HOST_PARAM_NUM_C_S` and `SPI_HOST_PARAM_RX_DEPTH`. -/
structure SpiHostParams where
  numCs : Nat
  rxDepth : Nat

/-- Every call of the environment returns 0. -/
def AllSucceed {Q : Type} (env : Env Q) : Prop := ∀ t q, (env t q).ret = 0

/-! ## What the host is set to -/

variable {T : Type}

/-- The frequency chip select `csid` is configured for. -/
def clockOf (csid : Nat) : Trace (SpiHostCall T) → Option Nat
  | [] => none
  | (.reset, _) :: _ => none
  | (.configureCs cfg csid', r) :: t =>
    if csid' = csid ∧ r.ret = 0 then some cfg.spiClock else clockOf csid t
  | _ :: t => clockOf csid t

def outputOn : Trace (SpiHostCall T) → Bool
  | [] => false
  | (.reset, _) :: _ => false
  | (.outputSetEnabled on, r) :: t => if r.ret = 0 then on else outputOn t
  | _ :: t => outputOn t

/-! ## Initialisation -/

/-- An initialisation that fails has changed nothing in memory; with valid arguments a call
failed. -/
structure InitFailed {Q M : Type} (env : Env Q) (valid : Prop) (m : M) (e : Stop) (s : St Q M) :
    Prop where
  mem : s.mem = m
  code : ∃ c, c ≠ 0 ∧ e = .ret c
  blame : valid → ¬AllSucceed env

section

variable {Q M : Type} {env : Env Q} {valid : Prop} {m : M} {s : St Q M}

/-- `CHECK_ASSERT(k, c)`. -/
theorem wp_assert_init {c : Prop} [Decidable c] {k : Code} (hk : k ≠ 0)
    {R : Unit → St Q M → Prop} (hm : s.mem = m) (hvalid : valid → c) (hR : c → R () s) :
    wp env (retCode (if c then 0 else k)) R (InitFailed env valid m) s := by
  rw [wp_retCode]
  by_cases hc : c
  · rw [if_pos hc]
    exact ⟨fun _ => hR hc, fun hne => absurd rfl hne⟩
  · rw [if_neg hc]
    exact ⟨fun h0 => absurd h0 hk, fun _ => ⟨hm, ⟨k, hk, rfl⟩, fun hv => absurd (hvalid hv) hc⟩⟩

/-- A call whose return value is not looked at meets a postcondition if what follows does,
whatever the device answers. -/
theorem wp_void {α : Type} {q : Q} {x : Prog Q M α} {R : α → St Q M → Prop}
    {E : Stop → St Q M → Prop} (h : ∀ s', s'.mem = s.mem → wp env x R E s') :
    wp env (ask q >>= fun _ => x) R E s := by
  rw [wp_bind, wp_ask]
  exact h _ rfl

theorem wp_check_init {q : Q} {R : (Nat → Byte) → St Q M → Prop} (hm : s.mem = m)
    (hR : ∀ d s', s'.mem = m → R d s') : wp env (check q) R (InitFailed env valid m) s := by
  rw [wp_check]
  exact ⟨fun _ => hR _ _ hm, fun hr => ⟨hm, ⟨_, hr, rfl⟩, fun _ hall => hr (hall _ _)⟩⟩

end

end Cheshire.Sw
