/-!
# `cheshire_pkg.sv`: the configuration and the static addresses

The fields of `cheshire_cfg_t` that the address maps, the CVA6 configuration and
the AXI user mapping read, at their own widths, with the values of `DefaultCfg` as
defaults. The arrays of external regions are indexed by a number below the
matching rule count.
-/

namespace Cheshire.Hw

/-- `doub_bt`, the type of all addresses of the package. -/
abbrev Addr := BitVec 64

structure CheshireCfg where
  -- the external cached, idempotent and executable region
  cva6ExtCieLength : Addr := 0x20000000
  cva6ExtCieOnTop : Bool := false
  numCores : BitVec 5 := 1
  coreUserAmoOffs : BitVec 64 := 0
  addrWidth : BitVec 6 := 48
  axiDataWidth : BitVec 10 := 64
  axiUserWidth : BitVec 10 := 2
  axiUserAmoMsb : BitVec 10 := 1
  axiUserAmoLsb : BitVec 10 := 0
  axiUserDefault : BitVec 64 := 0
  -- external AXI ports
  axiExtNumSlv : BitVec 4 := 0
  axiExtNumRules : BitVec 4 := 0
  axiExtRegionIdx : Nat → BitVec 8 := fun _ => 0
  axiExtRegionStart : Nat → Addr := fun _ => 0
  axiExtRegionEnd : Nat → Addr := fun _ => 0
  -- external reg slaves
  regExtNumSlv : BitVec 4 := 0
  regExtNumRules : BitVec 4 := 0
  regExtRegionIdx : Nat → BitVec 8 := fun _ => 0
  regExtRegionStart : Nat → Addr := fun _ => 0
  regExtRegionEnd : Nat → Addr := fun _ => 0
  -- enabled hardware features
  bootrom : Bool := true
  uart : Bool := true
  i2c : Bool := true
  spiHost : Bool := true
  gpio : Bool := true
  dma : Bool := true
  serialLink : Bool := true
  vga : Bool := true
  axiRt : Bool := false
  clic : Bool := false
  irqRouter : Bool := false
  busErr : Bool := true
  -- LLC
  llcNotBypass : Bool := true
  llcSetAssoc : BitVec 16 := 8
  llcNumLines : BitVec 16 := 256
  llcNumBlocks : BitVec 16 := 8
  llcOutConnect : Bool := true
  llcOutRegionStart : Addr := 0x80000000
  llcOutRegionEnd : Addr := 0x100000000
  -- serial link
  slinkRegionStart : Addr := 0x100000000
  slinkRegionEnd : Addr := 0x200000000
  slinkUserAmoBit : BitVec 10 := 1

/-- `return LlcSetAssoc * LlcNumLines * LlcNumBlocks * AxiDataWidth / 8;` in an
`int unsigned`: the product wraps before the division. -/
def getLlcSize (cfg : CheshireCfg) : BitVec 32 :=
  cfg.llcSetAssoc.setWidth 32 * cfg.llcNumLines.setWidth 32 * cfg.llcNumBlocks.setWidth 32
    * cfg.axiDataWidth.setWidth 32 / 8

/-- `doub_bt SizeSpm = get_llc_size(cfg);`, the size widened to an address. -/
def sizeSpm (cfg : CheshireCfg) : Addr := (getLlcSize cfg).setWidth 64

theorem sizeSpm_toNat (cfg : CheshireCfg) : (sizeSpm cfg).toNat = (getLlcSize cfg).toNat := by
  unfold sizeSpm
  rw [BitVec.toNat_setWidth]
  have h := (getLlcSize cfg).isLt
  omega

/-! ## Static addresses -/

def amDbg : Addr := 0x00000000
def amBrom : Addr := 0x02000000
def amRegs : Addr := 0x03000000
def amLlc : Addr := 0x03001000
def amSlink : Addr := 0x03006000
def amBusErr : Addr := 0x03008000
/-- Cached region at the bottom, uncached on top. -/
def amSpm : Addr := 0x10000000
def amClic : Addr := 0x08000000

def amSpmBaseUncached : Addr := 0x14000000
def amSpmRegionMask : Addr := 0x03FFFFFF

/-! ## Reg bus error unit indices -/

def regBusErrVga : Nat := 0
def regBusErrDma : Nat := 1
def regBusErrCoresBase : Nat := 2

end Cheshire.Hw
