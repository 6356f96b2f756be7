import Mathlib.Data.List.Basic
import Cheshire.Hw.Config

/-!
# The register file

`cheshire_reg_top.sv` as a state machine: sixteen scratch registers, and seven read-only
registers whose fields the SoC drives. A request is answered in its cycle.

The subregisters are modules from elsewhere, so they are parameters with their documented
behaviour (`PrimSubreg`, `PrimSubregExt`). `regTop_exact` says what the file is for: after
any requests, a scratch register holds the last word that was written to it as a whole,
a read-only register shows its fields as they are now, and the only errors are an unmapped
address and a write that leaves out a byte its register has.
-/

namespace Cheshire.Hw

/-! ## Ports -/

/-- `reg_req_t`, a request on the register interface. -/
structure RegReq where
  addr : Addr
  write : Bool
  wdata : BitVec 32
  wstrb : BitVec 4
  valid : Bool

/-- `reg_rsp_t`, the answer in the same cycle. -/
structure RegRsp where
  rdata : BitVec 32
  error : Bool
  ready : Bool
  deriving DecidableEq

/-- `cheshire_hw2reg_hw_features_reg_t`: which devices the SoC has. -/
structure HwFeatures where
  bootrom : Bool
  llc : Bool
  uart : Bool
  spiHost : Bool
  i2c : Bool
  gpio : Bool
  dma : Bool
  serialLink : Bool
  vga : Bool
  axirt : Bool
  clic : Bool
  irqRouter : Bool
  busErr : Bool

/-- `cheshire_hw2reg_t`, the values that the SoC drives into the file. -/
structure Hw2reg where
  bootMode : BitVec 2
  rtcFreq : BitVec 32
  platformRom : BitVec 32
  numIntHarts : BitVec 32
  hwFeatures : HwFeatures
  llcSize : BitVec 32
  redWidth : BitVec 8
  greenWidth : BitVec 8
  blueWidth : BitVec 8

/-! ## Subregisters -/

/-- `prim_subreg` of a register that software can write. -/
structure PrimSubreg (w : Nat) (resval : BitVec w) where
  St : Type
  rst : St
  clk (we : Bool) (wd : BitVec w) (de : Bool) (d : BitVec w) : St → St
  qs : St → BitVec w
  qs_rst : qs rst = resval
  qs_we : ∀ wd de d s, qs (clk true wd de d s) = wd
  qs_hold : ∀ wd d s, qs (clk false wd false d s) = qs s

/-- `prim_subreg_ext`: it has no state of its own. -/
structure PrimSubregExt (w : Nat) where
  qs (re : Bool) (we : Bool) (wd : BitVec w) (d : BitVec w) : BitVec w
  qs_eq : ∀ re we wd d, qs re we wd d = d

/-- The subregisters that the file is built from, by width. -/
structure Prims where
  reg : PrimSubreg 32 0
  ext : (w : Nat) → PrimSubregExt w

/-- The subregisters as they are documented. -/
instance : Inhabited Prims where
  default := {
    reg := {
      St := BitVec 32
      rst := 0
      clk := fun we wd de d s => if we then wd else if de then d else s
      qs := id
      qs_rst := rfl
      qs_we := fun _ _ _ _ => rfl
      qs_hold := fun _ _ _ => rfl }
    ext := fun _ => ⟨fun _ _ _ d => d, fun _ _ _ _ => rfl⟩ }

/-! ## `cheshire_reg_pkg` -/

/-- `cheshire_id_e`, the registers of the file by name. -/
inductive RegId where
  | scratch (i : Fin 16)
  | bootMode
  | rtcFreq
  | platformRom
  | numIntHarts
  | hwFeatures
  | llcSize
  | vgaParams
  deriving DecidableEq

/-- `CHESHIRE_<NAME>_OFFSET`, the register's byte address in the file. -/
def RegId.offset : RegId → BitVec 7
  | .scratch i => BitVec.ofNat 7 (4 * i)
  | .bootMode => 0x40
  | .rtcFreq => 0x44
  | .platformRom => 0x48
  | .numIntHarts => 0x4c
  | .hwFeatures => 0x50
  | .llcSize => 0x54
  | .vgaParams => 0x58

/-- `CHESHIRE_PERMIT`: the byte strobes that a write to the register has to have. -/
def RegId.permit : RegId → BitVec 4
  | .scratch _ => 0b1111
  | .bootMode => 0b0001
  | .rtcFreq => 0b1111
  | .platformRom => 0b1111
  | .numIntHarts => 0b1111
  | .hwFeatures => 0b0011
  | .llcSize => 0b1111
  | .vgaParams => 0b0111

/-- The registers in the order of their indices. -/
def RegId.all : List RegId :=
  (List.finRange 16).map .scratch ++
    [.bootMode, .rtcFreq, .platformRom, .numIntHarts, .hwFeatures, .llcSize, .vgaParams]

/-! ## `cheshire_reg_top` -/

def RegReq.regWe (q : RegReq) : Bool := q.valid && q.write

def RegReq.regRe (q : RegReq) : Bool := q.valid && !q.write

/-- `reg_intf_req.addr[BlockAw-1:0]`, the part of the address that the file decodes. -/
def RegReq.regAddr (q : RegReq) : BitVec 7 := q.addr.setWidth 7

def RegReq.addrHit (q : RegReq) (r : RegId) : Bool := q.regAddr == r.offset

def RegReq.addrmiss (q : RegReq) : Bool :=
  (q.regRe || q.regWe) && !RegId.all.any q.addrHit

/-- `wr_err`: a write that leaves out a byte its register needs. -/
def RegReq.wrErr (q : RegReq) : Bool :=
  q.regWe && RegId.all.any fun r => q.addrHit r && (r.permit &&& ~~~q.wstrb) != 0

def RegReq.regError (devmode : Bool) (q : RegReq) : Bool := (devmode && q.addrmiss) || q.wrErr

variable (P : Prims)

/-- The state of the file: one subregister for each scratch register. -/
abbrev RegSt := Fin 16 → P.reg.St

def regRst : RegSt P := fun _ => P.reg.rst

/-- One clock of the file while a request is at its interface. -/
def regClk (devmode : Bool) (q : RegReq) (s : RegSt P) : RegSt P := fun i =>
  P.reg.clk (q.addrHit (.scratch i) && q.regWe && !q.regError devmode) q.wdata false 0 (s i)

/-- What is read of a field that the SoC drives with `d`. -/
def extQs {w : Nat} (devmode : Bool) (q : RegReq) (r : RegId) (d : BitVec w) : BitVec w :=
  (P.ext w).qs (q.addrHit r && q.regRe && !q.regError devmode) false 0 d

/-- The fields of `hw_features`, bit 0 first. -/
def HwFeatures.fields (f : HwFeatures) : List Bool :=
  [f.bootrom, f.llc, f.uart, f.spiHost, f.i2c, f.gpio, f.dma, f.serialLink, f.vga, f.axirt,
    f.clic, f.irqRouter, f.busErr]

/-- `reg_rdata_next` where register `r` is hit. -/
def regQs (devmode : Bool) (q : RegReq) (hw : Hw2reg) (s : RegSt P) : RegId → BitVec 32
  | .scratch i => P.reg.qs (s i)
  | .bootMode => (extQs P devmode q .bootMode hw.bootMode).setWidth 32
  | .rtcFreq => extQs P devmode q .rtcFreq hw.rtcFreq
  | .platformRom => extQs P devmode q .platformRom hw.platformRom
  | .numIntHarts => extQs P devmode q .numIntHarts hw.numIntHarts
  | .hwFeatures => (BitVec.ofBoolListLE (hw.hwFeatures.fields.map fun b =>
      (extQs P devmode q .hwFeatures (BitVec.ofBool b)).getLsbD 0)).setWidth 32
  | .llcSize => extQs P devmode q .llcSize hw.llcSize
  | .vgaParams => (extQs P devmode q .vgaParams hw.blueWidth ++
      extQs P devmode q .vgaParams hw.greenWidth ++
      extQs P devmode q .vgaParams hw.redWidth).setWidth 32

/-- `reg_rdata_next`: the register that is hit, or all ones. -/
def regRdata (devmode : Bool) (q : RegReq) (hw : Hw2reg) (s : RegSt P) : BitVec 32 :=
  match RegId.all.find? q.addrHit with
  | some r => regQs P devmode q hw s r
  | none => BitVec.allOnes 32

/-- `reg_rsp_o`: data and error of a request, which is always ready. -/
def regRsp (devmode : Bool) (q : RegReq) (hw : Hw2reg) (s : RegSt P) : RegRsp :=
  ⟨regRdata P devmode q hw s, q.regError devmode, true⟩

/-- The state after these cycles, the newest first. -/
def regRun (devmode : Bool) : List RegReq → RegSt P
  | [] => regRst P
  | q :: older => regClk P devmode q (regRun devmode older)

/-! ## Addresses -/

/-- The value of `cheshire_id_e`, which is the bit of `addr_hit`. -/
def RegId.index : RegId → Nat
  | .scratch i => i
  | .bootMode => 16
  | .rtcFreq => 17
  | .platformRom => 18
  | .numIntHarts => 19
  | .hwFeatures => 20
  | .llcSize => 21
  | .vgaParams => 22

theorem index_inj : ∀ {r r' : RegId}, r.index = r'.index → r = r' := by
  intro r r' h
  cases r with
  | scratch i =>
    have hi := i.isLt
    cases r' with
    | scratch j => rw [Fin.ext (show i.val = j.val from h)]
    | bootMode | rtcFreq | platformRom | numIntHarts | hwFeatures | llcSize | vgaParams =>
      exact absurd h (Nat.ne_of_lt (Nat.lt_of_lt_of_le hi (by decide)))
  | bootMode | rtcFreq | platformRom | numIntHarts | hwFeatures | llcSize | vgaParams =>
    cases r' with
    | scratch j => exact absurd h.symm (Nat.ne_of_lt (Nat.lt_of_lt_of_le j.isLt (by decide)))
    | bootMode | rtcFreq | platformRom | numIntHarts | hwFeatures | llcSize | vgaParams =>
      first | rfl | cases h

theorem offset_toNat (r : RegId) : r.offset.toNat = 4 * r.index := by
  cases r with
  | scratch i => exact Nat.mod_eq_of_lt (by omega)
  | bootMode | rtcFreq | platformRom | numIntHarts | hwFeatures | llcSize | vgaParams => rfl

/-- No two registers have one address. -/
theorem offset_inj {r r' : RegId} (h : r.offset = r'.offset) : r = r' := by
  have hnat := congrArg BitVec.toNat h
  rw [offset_toNat, offset_toNat] at hnat
  exact index_inj (by omega)

theorem mem_all (r : RegId) : r ∈ RegId.all := by
  unfold RegId.all
  cases r with
  | scratch i => exact List.mem_append_left _ (List.mem_map_of_mem (List.mem_finRange i))
  | bootMode | rtcFreq | platformRom | numIntHarts | hwFeatures | llcSize | vgaParams =>
    exact List.mem_append_right _ (by simp)

variable {P} {devmode : Bool} {q : RegReq} {r : RegId}

/-- The request is to register `r`, by the part of its address that is decoded. -/
def RegReq.To (q : RegReq) (r : RegId) : Prop := q.regAddr = r.offset

theorem addrHit_iff : q.addrHit r = true ↔ q.To r := beq_iff_eq

theorem RegReq.To.unique {r' : RegId} (h : q.To r) (h' : q.To r') : r = r' :=
  offset_inj (h.symm.trans h')

/-- The assertion of the file: at most one hit. -/
theorem find_hit (h : q.To r) : RegId.all.find? q.addrHit = some r := by
  cases hfind : RegId.all.find? q.addrHit with
  | some r' => rw [(addrHit_iff.mp (List.find?_some hfind)).unique h]
  | none => exact absurd (addrHit_iff.mpr h) (List.find?_eq_none.mp hfind r (mem_all r))

theorem find_miss (h : ∀ r, ¬q.To r) : RegId.all.find? q.addrHit = none :=
  List.find?_eq_none.mpr fun r _ hr => h r (addrHit_iff.mp hr)

/-! ## Errors -/

theorem regError_hit (h : q.To r) :
    q.regError devmode = true ↔ q.valid ∧ q.write ∧ r.permit &&& ~~~q.wstrb ≠ 0 := by
  have hmiss : q.addrmiss = false := by
    have hany : RegId.all.any q.addrHit = true :=
      List.any_eq_true.mpr ⟨r, mem_all r, addrHit_iff.mpr h⟩
    unfold RegReq.addrmiss
    rw [hany, Bool.not_true, Bool.and_false]
  unfold RegReq.regError RegReq.wrErr RegReq.regWe
  rw [hmiss, Bool.and_false, Bool.false_or, Bool.and_eq_true, Bool.and_eq_true, and_assoc,
    List.any_eq_true]
  refine and_congr_right fun _ => and_congr_right fun _ => ⟨?_, fun hbe => ?_⟩
  · rintro ⟨r', -, hr'⟩
    obtain ⟨hhit, hbe⟩ := Bool.and_eq_true_iff.mp hr'
    obtain rfl : r' = r := (addrHit_iff.mp hhit).unique h
    exact bne_iff_ne.mp hbe
  · exact ⟨r, mem_all r, Bool.and_eq_true_iff.mpr ⟨addrHit_iff.mpr h, bne_iff_ne.mpr hbe⟩⟩

theorem regError_miss (h : ∀ r, ¬q.To r) : q.regError devmode = (devmode && q.valid) := by
  have hhit : ∀ r, q.addrHit r = false := fun r =>
    Bool.eq_false_iff.mpr fun hr => h r (addrHit_iff.mp hr)
  have hany : ∀ f : RegId → Bool, (RegId.all.any fun r => q.addrHit r && f r) = false := by
    intro f
    refine List.any_eq_false.mpr fun r _ => ?_
    rw [hhit, Bool.false_and]
    exact Bool.false_ne_true
  have hmiss : RegId.all.any q.addrHit = false :=
    List.any_eq_false.mpr fun r _ => Bool.eq_false_iff.mp (hhit r)
  unfold RegReq.regError RegReq.wrErr RegReq.addrmiss RegReq.regRe RegReq.regWe
  rw [hany, hmiss, Bool.and_false, Bool.or_false, Bool.not_false, Bool.and_true,
    ← Bool.and_or_distrib_left, Bool.not_or_self, Bool.and_true]

/-! ## What the file is for -/

/-- The request stores a whole word to scratch register `i`. -/
def RegReq.Stores (q : RegReq) (i : Fin 16) : Prop :=
  q.valid ∧ q.write ∧ q.wstrb = 0b1111 ∧ q.To (.scratch i)

instance (q : RegReq) (i : Fin 16) : Decidable (q.Stores i) :=
  inferInstanceAs (Decidable (_ ∧ _ ∧ _ ∧ (_ = _)))

/-- The last word stored to each scratch register, by requests the newest of which comes first. -/
def lastWord : List RegReq → Fin 16 → BitVec 32
  | [], _ => 0
  | q :: older, i => if q.Stores i then q.wdata else lastWord older i

/-- What a register shows, given the values that the SoC drives and the scratch words. -/
def RegId.value (hw : Hw2reg) (words : Fin 16 → BitVec 32) : RegId → BitVec 32
  | .scratch i => words i
  | .bootMode => hw.bootMode.setWidth 32
  | .rtcFreq => hw.rtcFreq
  | .platformRom => hw.platformRom
  | .numIntHarts => hw.numIntHarts
  | .hwFeatures => (BitVec.ofBoolListLE hw.hwFeatures.fields).setWidth 32
  | .llcSize => hw.llcSize
  | .vgaParams => (hw.blueWidth ++ hw.greenWidth ++ hw.redWidth).setWidth 32

/-- Write enable of a scratch register. -/
theorem scratchWe_iff (i : Fin 16) :
    (q.addrHit (.scratch i) && q.regWe && !q.regError devmode) = true ↔ q.Stores i := by
  rw [Bool.and_eq_true, Bool.and_eq_true, addrHit_iff, Bool.not_eq_true']
  unfold RegReq.Stores
  constructor
  · rintro ⟨⟨hto, hwe⟩, herr⟩
    obtain ⟨hvalid, hwrite⟩ := Bool.and_eq_true_iff.mp hwe
    refine ⟨hvalid, hwrite, ?_, hto⟩
    -- a write that leaves out one of the four bytes is an error
    have hall : ¬(0b1111 &&& ~~~q.wstrb ≠ 0) := fun hbe =>
      Bool.eq_false_iff.mp herr ((regError_hit hto).mpr ⟨hvalid, hwrite, hbe⟩)
    revert hall
    generalize q.wstrb = b
    revert b
    decide
  · rintro ⟨hvalid, hwrite, hbe, hto⟩
    refine ⟨⟨hto, Bool.and_eq_true_iff.mpr ⟨hvalid, hwrite⟩⟩, Bool.eq_false_iff.mpr fun herr => ?_⟩
    have hmissing := ((regError_hit hto).mp herr).2.2
    rw [hbe] at hmissing
    exact hmissing (show (0b1111 &&& ~~~0b1111 : BitVec 4) = 0 by decide)

/-- One clock gives a scratch register the data of a request that stores to it, and else keeps its
value. -/
theorem regClk_qs (i : Fin 16) (s : RegSt P) :
    P.reg.qs (regClk P devmode q s i) = if q.Stores i then q.wdata else P.reg.qs (s i) := by
  unfold regClk
  by_cases hstores : q.Stores i
  · rw [(scratchWe_iff i).mpr hstores, P.reg.qs_we, if_pos hstores]
  · rw [Bool.eq_false_iff.mpr fun hwe => hstores ((scratchWe_iff i).mp hwe), P.reg.qs_hold,
      if_neg hstores]

theorem regRun_qs (i : Fin 16) : ∀ hist : List RegReq,
    P.reg.qs (regRun P devmode hist i) = lastWord hist i
  | [] => P.reg.qs_rst
  | q :: older => by
    show P.reg.qs (regClk P devmode q (regRun P devmode older) i) = _
    rw [regClk_qs, regRun_qs i older]
    rfl

theorem extQs_eq {w : Nat} (r : RegId) (d : BitVec w) : extQs P devmode q r d = d :=
  (P.ext w).qs_eq _ _ _ _

theorem bits_congr {l l' : List Bool} (h : l = l') :
    (BitVec.ofBoolListLE l).setWidth 32 = (BitVec.ofBoolListLE l').setWidth 32 := by rw [h]

theorem regQs_run (hw : Hw2reg) (hist : List RegReq) (r : RegId) :
    regQs P devmode q hw (regRun P devmode hist) r = r.value hw (lastWord hist) := by
  cases r with
  | scratch i => exact regRun_qs i hist
  | hwFeatures =>
    unfold regQs RegId.value
    refine bits_congr ((List.map_congr_left fun b _ => ?_).trans (List.map_id _))
    rw [extQs_eq]
    cases b <;> rfl
  | bootMode | rtcFreq | platformRom | numIntHarts | llcSize | vgaParams =>
    unfold regQs RegId.value
    simp only [extQs_eq]

/-- The answer to a request, whatever was requested before: a hit reads the register's value and
fails exactly for a write without all strobes it needs; a miss reads ones, and is an error in
developer mode only. -/
theorem regTop_exact (P : Prims) (devmode : Bool) (hist : List RegReq) (q : RegReq)
    (hw : Hw2reg) :
    (regRsp P devmode q hw (regRun P devmode hist)).ready = true ∧
    (∀ r, q.To r →
      (regRsp P devmode q hw (regRun P devmode hist)).rdata = r.value hw (lastWord hist) ∧
      ((regRsp P devmode q hw (regRun P devmode hist)).error = true ↔
        q.valid ∧ q.write ∧ r.permit &&& ~~~q.wstrb ≠ 0)) ∧
    ((∀ r, ¬q.To r) →
      (regRsp P devmode q hw (regRun P devmode hist)).rdata = BitVec.allOnes 32 ∧
      (regRsp P devmode q hw (regRun P devmode hist)).error = (devmode && q.valid)) := by
  refine ⟨rfl, fun r hto => ⟨?_, regError_hit hto⟩, fun hmiss => ⟨?_, regError_miss hmiss⟩⟩
  · show regRdata P devmode q hw _ = _
    unfold regRdata
    rw [find_hit hto]
    exact regQs_run hw hist r
  · show regRdata P devmode q hw _ = _
    unfold regRdata
    rw [find_miss hmiss]

/-! ## The file of the SoC -/

/-- The fields of `cheshire_cfg_t` that are shown in the file only. -/
structure SocCfg extends CheshireCfg where
  rtcFreq : BitVec 32 := 32768
  platformRom : BitVec 32 := 0
  vgaRedWidth : BitVec 8 := 3
  vgaGreenWidth : BitVec 8 := 3
  vgaBlueWidth : BitVec 8 := 2

/-- `reg_hw2reg`, as `cheshire_soc` fills it from its parameters and the boot mode pins. -/
def socHw2reg (cfg : SocCfg) (bootMode : BitVec 2) : Hw2reg where
  bootMode := bootMode
  rtcFreq := cfg.rtcFreq
  platformRom := cfg.platformRom
  numIntHarts := cfg.numCores.setWidth 32
  hwFeatures := ⟨cfg.bootrom, cfg.llcNotBypass, cfg.uart, cfg.spiHost, cfg.i2c, cfg.gpio, cfg.dma,
    cfg.serialLink, cfg.vga, cfg.axiRt, cfg.clic, cfg.irqRouter, cfg.busErr⟩
  llcSize := getLlcSize cfg.toCheshireCfg
  redWidth := cfg.vgaRedWidth
  greenWidth := cfg.vgaGreenWidth
  blueWidth := cfg.vgaBlueWidth

/-- A 32-bit load from the file, at this offset, after these requests. -/
def socRead (P : Prims) (cfg : SocCfg) (bootMode : BitVec 2) (hist : List RegReq) (offset : Addr) :
    RegRsp :=
  regRsp P true ⟨amRegs + offset, false, 0, 0, true⟩ (socHw2reg cfg bootMode) (regRun P true hist)

/-- `CHESHIRE_HW_FEATURES_<NAME>_BIT`, and the parameter the bit stands for. -/
def featureBits (cfg : CheshireCfg) : List (Nat × Bool) :=
  [(0, cfg.bootrom), (1, cfg.llcNotBypass), (2, cfg.uart), (3, cfg.spiHost), (4, cfg.i2c),
    (5, cfg.gpio), (6, cfg.dma), (7, cfg.serialLink), (8, cfg.vga), (9, cfg.axiRt),
    (10, cfg.clic), (11, cfg.irqRouter), (12, cfg.busErr)]

/-- What a program finds with the offsets, bits and fields of `regs/cheshire.h`. -/
structure DiscoversCfg (cfg : SocCfg) (bootMode : BitVec 2) (read : Addr → RegRsp) : Prop where
  bootMode : (read 0x40).rdata = bootMode.setWidth 32
  rtcFreq : (read 0x44).rdata = cfg.rtcFreq
  platformRom : (read 0x48).rdata = cfg.platformRom
  numIntHarts : (read 0x4c).rdata.toNat = cfg.numCores.toNat
  features : ∀ p ∈ featureBits cfg.toCheshireCfg, (read 0x50).rdata.getLsbD p.1 = p.2
  noFeature : ∀ k, 13 ≤ k → (read 0x50).rdata.getLsbD k = false
  llcSize : (read 0x54).rdata = getLlcSize cfg.toCheshireCfg
  redWidth : (read 0x58).rdata &&& 0xff = cfg.vgaRedWidth.setWidth 32
  greenWidth : (read 0x58).rdata >>> 8 &&& 0xff = cfg.vgaGreenWidth.setWidth 32
  blueWidth : (read 0x58).rdata >>> 16 &&& 0xff = cfg.vgaBlueWidth.setWidth 32
  noError : ∀ r : RegId, (read (r.offset.setWidth 64)).error = false

theorem amRegs_offset (r : RegId) :
    (amRegs + r.offset.setWidth 64 : Addr).setWidth 7 = r.offset := by
  refine BitVec.eq_of_toNat_eq ?_
  have hlt := r.offset.isLt
  rw [BitVec.toNat_setWidth, BitVec.toNat_add, BitVec.toNat_setWidth]
  show (50331648 + _) % _ % _ = _
  omega

theorem socRead_hit (P : Prims) (cfg : SocCfg) (bootMode : BitVec 2) (hist : List RegReq)
    (r : RegId) :
    (socRead P cfg bootMode hist (r.offset.setWidth 64)).rdata
        = r.value (socHw2reg cfg bootMode) (lastWord hist) ∧
      (socRead P cfg bootMode hist (r.offset.setWidth 64)).error = false := by
  have hto : RegReq.To ⟨amRegs + r.offset.setWidth 64, false, 0, 0, true⟩ r := amRegs_offset r
  constructor
  · show regRdata P true _ _ _ = _
    unfold regRdata
    rw [find_hit hto]
    exact regQs_run _ hist r
  · exact Bool.eq_false_iff.mpr fun herr => Bool.false_ne_true ((regError_hit hto).mp herr).2.1

theorem features_getLsbD (hw : Hw2reg) (words : Fin 16 → BitVec 32) (k : Nat) :
    (RegId.hwFeatures.value hw words).getLsbD k = hw.hwFeatures.fields.getD k false := by
  show ((BitVec.ofBoolListLE hw.hwFeatures.fields).setWidth 32).getLsbD k = _
  rw [BitVec.getLsbD_setWidth, BitVec.getLsbD_ofBoolListLE]
  by_cases hk : k < 13
  · rw [decide_eq_true (show k < 32 by omega), Bool.true_and]
  · rw [show hw.hwFeatures.fields.getD k false = false from
      List.getD_eq_getElem?_getD.trans (by rw [List.getElem?_eq_none (Nat.not_lt.mp hk)]; rfl),
      Bool.and_false]

/-- One of three bytes. -/
theorem and_ff (v : BitVec 32) : (v &&& 0xff).toNat = v.toNat % 256 := by
  rw [BitVec.toNat_and]
  exact Nat.and_two_pow_sub_one_eq_mod v.toNat 8

theorem vgaParams_fields (r g b : BitVec 8) :
    ((b ++ g ++ r : BitVec 24).setWidth 32) &&& 0xff = r.setWidth 32 ∧
    ((b ++ g ++ r : BitVec 24).setWidth 32) >>> 8 &&& 0xff = g.setWidth 32 ∧
    ((b ++ g ++ r : BitVec 24).setWidth 32) >>> 16 &&& 0xff = b.setWidth 32 := by
  have hr := r.isLt
  have hg := g.isLt
  have hb := b.isLt
  have hnat : ((b ++ g ++ r : BitVec 24).setWidth 32).toNat
      = 65536 * b.toNat + 256 * g.toNat + r.toNat := by
    rw [BitVec.toNat_setWidth, BitVec.toNat_append, BitVec.toNat_append,
      ← Nat.shiftLeft_add_eq_or_of_lt hr, ← Nat.shiftLeft_add_eq_or_of_lt hg, Nat.shiftLeft_eq,
      Nat.shiftLeft_eq]
    omega
  generalize (b ++ g ++ r : BitVec 24).setWidth 32 = v at hnat
  refine ⟨BitVec.eq_of_toNat_eq ?_, BitVec.eq_of_toNat_eq ?_, BitVec.eq_of_toNat_eq ?_⟩
  · rw [and_ff, BitVec.toNat_setWidth]
    omega
  · rw [and_ff, BitVec.toNat_ushiftRight, Nat.shiftRight_eq_div_pow, BitVec.toNat_setWidth]
    omega
  · rw [and_ff, BitVec.toNat_ushiftRight, Nat.shiftRight_eq_div_pow, BitVec.toNat_setWidth]
    omega

/-- Whatever was written before, the file shows how the SoC was configured. -/
theorem socRead_discovers (P : Prims) (cfg : SocCfg) (bootMode : BitVec 2) (hist : List RegReq) :
    DiscoversCfg cfg bootMode (socRead P cfg bootMode hist) := by
  have hread := fun r => (socRead_hit P cfg bootMode hist r).1
  have hharts : (socRead P cfg bootMode hist 0x4c).rdata = cfg.numCores.setWidth 32 :=
    hread .numIntHarts
  have hfeatures : (socRead P cfg bootMode hist 0x50).rdata
      = RegId.hwFeatures.value (socHw2reg cfg bootMode) (lastWord hist) := hread .hwFeatures
  have hvga : (socRead P cfg bootMode hist 0x58).rdata
      = (cfg.vgaBlueWidth ++ cfg.vgaGreenWidth ++ cfg.vgaRedWidth : BitVec 24).setWidth 32 :=
    hread .vgaParams
  have hfields := vgaParams_fields cfg.vgaRedWidth cfg.vgaGreenWidth cfg.vgaBlueWidth
  rw [← hvga] at hfields
  refine ⟨hread .bootMode, hread .rtcFreq, hread .platformRom, ?_, ?_, fun k hk => ?_,
    hread .llcSize, hfields.1, hfields.2.1, hfields.2.2,
    fun r => (socRead_hit P cfg bootMode hist r).2⟩
  · have hlt := cfg.numCores.isLt
    rw [hharts, BitVec.toNat_setWidth]
    omega
  · rw [hfeatures]
    simp only [features_getLsbD]
    simp [featureBits, HwFeatures.fields, socHw2reg]
  · rw [hfeatures, features_getLsbD]
    exact List.getD_eq_getElem?_getD.trans (by rw [List.getElem?_eq_none hk]; rfl)

end Cheshire.Hw
