import Cheshire.Hw.MemoryMap

/-!
# `gen_cva6_cfg`: the memory attributes of the cores

CVA6 gets three lists of ranges: where accesses are not idempotent, where it may
execute, and what it may cache. The documented memory map flags each region with
the same three attributes. The external on-chip region is the parameterized one,
split into a part with all flags and a part with none.

The lists follow the flags in every region but one (`attributes_of_region`): the
execute range meant for both SPM windows is twice as long as one window, but the
second window starts 64 MiB above the first. `attributes_sound_iff` is exact: the
flags hold everywhere when the SPM has that size, or none.
-/

namespace Cheshire.Hw

open AddrMap

/-- One rule of `ariane_cfg_t`, an address base and a length. -/
structure Range where
  base : Addr
  length : Addr
  deriving DecidableEq, Repr

/-- `base <= a < base + length`, and the sum does not wrap. -/
def Range.Matches (r : Range) (a : Addr) : Prop :=
  r.base.toNat ≤ a.toNat ∧ a.toNat < r.base.toNat + r.length.toNat

instance (r : Range) (a : Addr) : Decidable (r.Matches a) := inferInstanceAs (Decidable (_ ∧ _))

/-- The rules of `ariane_cfg_t` for the memory attributes. -/
structure ArianeCfg where
  nonIdempotent : List Range
  execute : List Range
  cached : List Range

/-- The part of the external region that has all flags, at its top or at its bottom. -/
def extCie (cfg : CheshireCfg) : Range where
  base := if cfg.cva6ExtCieOnTop then 0x80000000 - cfg.cva6ExtCieLength else 0x20000000
  length := cfg.cva6ExtCieLength

/-- The part of the external region without flags, which is what the other part leaves. -/
def extNoCie (cfg : CheshireCfg) : Range where
  base := if cfg.cva6ExtCieOnTop then 0x20000000 else 0x20000000 + cfg.cva6ExtCieLength
  length := 0x60000000 - cfg.cva6ExtCieLength

def llcOut (cfg : CheshireCfg) : Range where
  base := cfg.llcOutRegionStart
  length := cfg.llcOutRegionEnd - cfg.llcOutRegionStart

def genCva6Cfg (cfg : CheshireCfg) : ArianeCfg where
  -- periphs, external non-CIE
  nonIdempotent := [⟨0x00000000, 0x10000000⟩, extNoCie cfg]
  -- debug, boot ROM, all SPM, LLC out, external CIE
  execute := [⟨amDbg, 0x40000⟩, ⟨amBrom, 0x40000⟩, ⟨amSpm, 2 * sizeSpm cfg⟩, llcOut cfg, extCie cfg]
  -- cached SPM, LLC out, external CIE
  cached := [⟨amSpm, sizeSpm cfg⟩, llcOut cfg, extCie cfg]

def ArianeCfg.Executable (c : ArianeCfg) (a : Addr) : Prop := ∃ r ∈ c.execute, r.Matches a

def ArianeCfg.Cacheable (c : ArianeCfg) (a : Addr) : Prop := ∃ r ∈ c.cached, r.Matches a

def ArianeCfg.Idempotent (c : ArianeCfg) (a : Addr) : Prop := ∀ r ∈ c.nonIdempotent, ¬r.Matches a

/-! ## The documented map -/

/-- A row of the documented memory map, the external one split into its two parts. -/
inductive Region where
  | debugRom
  | dma
  | reg (d : RegDev)
  | spmCached
  | spmUncached
  | extCie
  | extNoCie
  | llcOut
  deriving DecidableEq, Repr

structure Flags where
  cacheable : Bool
  idempotent : Bool
  executable : Bool
  deriving DecidableEq, Repr

def Region.flags : Region → Flags
  | .debugRom => ⟨false, false, true⟩
  | .dma => ⟨false, false, false⟩
  | .reg .bootrom => ⟨false, false, true⟩
  | .reg _ => ⟨false, false, false⟩
  | .spmCached => ⟨true, true, true⟩
  | .spmUncached => ⟨false, true, true⟩
  | .extCie => ⟨true, true, true⟩
  | .extNoCie => ⟨false, false, false⟩
  | .llcOut => ⟨true, true, true⟩

/-- Where a row is mapped. Of an SPM window only the bytes the LLC has are. -/
def Region.block (cfg : CheshireCfg) : Region → Window Nat
  | .debugRom => ⟨0x00000000, 0x00040000⟩
  | .dma => ⟨0x01000000, 0x01001000⟩
  | .reg d => d.block
  | .spmCached => ⟨0x10000000, 0x10000000 + (getLlcSize cfg).toNat⟩
  | .spmUncached => ⟨0x14000000, 0x14000000 + (getLlcSize cfg).toNat⟩
  | .extCie =>
    if cfg.cva6ExtCieOnTop then ⟨0x80000000 - cfg.cva6ExtCieLength.toNat, 0x80000000⟩
    else ⟨0x20000000, 0x20000000 + cfg.cva6ExtCieLength.toNat⟩
  | .extNoCie =>
    if cfg.cva6ExtCieOnTop then ⟨0x20000000, 0x80000000 - cfg.cva6ExtCieLength.toNat⟩
    else ⟨0x20000000 + cfg.cva6ExtCieLength.toNat, 0x80000000⟩
  | .llcOut => ⟨cfg.llcOutRegionStart.toNat, cfg.llcOutRegionEnd.toNat⟩

/-- The attributes at `a` are the flags `f`. -/
structure ArianeCfg.Agrees (c : ArianeCfg) (f : Flags) (a : Addr) : Prop where
  cacheable : c.Cacheable a ↔ f.cacheable = true
  idempotent : c.Idempotent a ↔ f.idempotent = true
  executable : c.Executable a ↔ f.executable = true

/-- The two external ranges partition `[0x2000_0000, 0x8000_0000)`. -/
def ExtPartition (cfg : CheshireCfg) : Prop :=
  ∀ a : Addr, ((extCie cfg).Matches a ∨ (extNoCie cfg).Matches a ↔
      0x20000000 ≤ a.toNat ∧ a.toNat < 0x80000000) ∧
    ¬((extCie cfg).Matches a ∧ (extNoCie cfg).Matches a)

/-- The attributes of every mapped address are the documented ones. -/
structure AttributesSound (cfg : CheshireCfg) : Prop where
  region : ∀ (r : Region) (a : Addr), (r.block cfg).Covers a.toNat →
    (genCva6Cfg cfg).Agrees r.flags a
  partition : ExtPartition cfg

/-- The documented ranges of the parameters the attributes depend on. -/
structure AttrParams (cfg : CheshireCfg) : Prop where
  llc : cfg.llcNotBypass = true
  llcSize : (getLlcSize cfg).toNat ≤ 0x04000000
  cieLength : cfg.cva6ExtCieLength.toNat ≤ 0x60000000
  llcOut : 0x80000000 ≤ cfg.llcOutRegionStart.toNat

/-! ## The lists in numbers -/

variable {cfg : CheshireCfg} {a : Addr}

theorem extCie_matches (h : AttrParams cfg) :
    (extCie cfg).Matches a ↔ (Region.extCie.block cfg).Covers a.toNat := by
  have hlen := h.cieLength
  unfold extCie Region.block Range.Matches Window.Covers
  cases cfg.cva6ExtCieOnTop
  · exact Iff.rfl
  · have hbase : (0x80000000 - cfg.cva6ExtCieLength : Addr).toNat
        = 0x80000000 - cfg.cva6ExtCieLength.toNat := by bv_omega
    simp only [↓reduceIte, hbase]
    omega

theorem extNoCie_matches (h : AttrParams cfg) :
    (extNoCie cfg).Matches a ↔ (Region.extNoCie.block cfg).Covers a.toNat := by
  have hlen := h.cieLength
  have hrest : (0x60000000 - cfg.cva6ExtCieLength : Addr).toNat
      = 0x60000000 - cfg.cva6ExtCieLength.toNat := by bv_omega
  unfold extNoCie Region.block Range.Matches Window.Covers
  cases cfg.cva6ExtCieOnTop
  · have hbase : (0x20000000 + cfg.cva6ExtCieLength : Addr).toNat
        = 0x20000000 + cfg.cva6ExtCieLength.toNat := by bv_omega
    simp only [Bool.false_eq_true, ↓reduceIte, hbase, hrest]
    omega
  · simp only [↓reduceIte, hrest]
    show 0x20000000 ≤ _ ∧ _ < 0x20000000 + _ ↔ _
    omega

/-- The two external rows meet where the length says, and share no address. -/
theorem ext_blocks (h : AttrParams cfg) (n : Nat) :
    ((Region.extCie.block cfg).Covers n ∨ (Region.extNoCie.block cfg).Covers n ↔
      0x20000000 ≤ n ∧ n < 0x80000000) ∧
    ¬((Region.extCie.block cfg).Covers n ∧ (Region.extNoCie.block cfg).Covers n) := by
  have hlen := h.cieLength
  unfold Region.block Window.Covers
  cases cfg.cva6ExtCieOnTop
  · simp only [Bool.false_eq_true, ↓reduceIte]
    omega
  · simp only [↓reduceIte]
    omega

theorem extPartition (h : AttrParams cfg) : ExtPartition cfg := by
  intro a
  rw [extCie_matches h, extNoCie_matches h]
  exact ext_blocks h a.toNat

theorem llcOut_covers (ha : (Region.llcOut.block cfg).Covers a.toNat) :
    (llcOut cfg).Matches a := by
  obtain ⟨hlo, hhi⟩ := ha
  unfold Region.block at hlo hhi
  unfold llcOut Range.Matches
  bv_omega

theorem llcOut_above (h : AttrParams cfg) (ha : a.toNat < 0x80000000) :
    ¬(llcOut cfg).Matches a := by
  have hout := h.llcOut
  intro hm
  have hlo : cfg.llcOutRegionStart.toNat ≤ a.toNat := hm.1
  omega

theorem executable_iff (h : AttrParams cfg) : (genCva6Cfg cfg).Executable a ↔
    a.toNat < 0x40000 ∨ (0x02000000 ≤ a.toNat ∧ a.toNat < 0x02040000) ∨
    (0x10000000 ≤ a.toNat ∧ a.toNat < 0x10000000 + 2 * (getLlcSize cfg).toNat) ∨
    (llcOut cfg).Matches a ∨ (Region.extCie.block cfg).Covers a.toNat := by
  have hsize := h.llcSize
  have htwice : (2 * sizeSpm cfg).toNat = 2 * (getLlcSize cfg).toNat := by
    rw [BitVec.toNat_mul, sizeSpm_toNat, Nat.mod_eq_of_lt (by show 2 * _ < _; omega)]
    rfl
  simp only [ArianeCfg.Executable, genCva6Cfg, List.mem_cons, List.not_mem_nil, or_false,
    exists_eq_or_imp, exists_eq_left, extCie_matches h]
  unfold Range.Matches
  simp only [htwice]
  show 0 ≤ _ ∧ _ < 0 + 0x40000 ∨ 0x02000000 ≤ _ ∧ _ < 0x02000000 + 0x40000 ∨
    0x10000000 ≤ _ ∧ _ < 0x10000000 + _ ∨ _ ↔ _
  simp only [Nat.zero_le, true_and, Nat.zero_add]

theorem cacheable_iff (h : AttrParams cfg) : (genCva6Cfg cfg).Cacheable a ↔
    (Region.spmCached.block cfg).Covers a.toNat ∨
    (llcOut cfg).Matches a ∨ (Region.extCie.block cfg).Covers a.toNat := by
  simp only [ArianeCfg.Cacheable, genCva6Cfg, List.mem_cons, List.not_mem_nil, or_false,
    exists_eq_or_imp, exists_eq_left, extCie_matches h]
  unfold Range.Matches
  simp only [sizeSpm_toNat]
  exact Iff.rfl

theorem idempotent_iff (h : AttrParams cfg) : (genCva6Cfg cfg).Idempotent a ↔
    0x10000000 ≤ a.toNat ∧ ¬(Region.extNoCie.block cfg).Covers a.toNat := by
  simp only [ArianeCfg.Idempotent, genCva6Cfg, List.mem_cons, List.not_mem_nil, or_false,
    forall_eq_or_imp, forall_eq, extNoCie_matches h]
  refine and_congr_left fun _ => ?_
  show ¬(0 ≤ _ ∧ _ < 0 + 0x10000000) ↔ _
  omega

/-! ## Region by region -/

/-- Below the external region only the ranges of the internal devices decide whether the attributes
agree with the flags. -/
theorem agrees_internal (h : AttrParams cfg) (ha : a.toNat < 0x20000000) (f : Flags) :
    (genCva6Cfg cfg).Agrees f a ↔
      ((Region.spmCached.block cfg).Covers a.toNat ↔ f.cacheable = true) ∧
      (0x10000000 ≤ a.toNat ↔ f.idempotent = true) ∧
      (a.toNat < 0x40000 ∨ (0x02000000 ≤ a.toNat ∧ a.toNat < 0x02040000) ∨
        (0x10000000 ≤ a.toNat ∧ a.toNat < 0x10000000 + 2 * (getLlcSize cfg).toNat) ↔
        f.executable = true) := by
  have hout : ¬(llcOut cfg).Matches a := llcOut_above h (by omega)
  have hcie : ¬(Region.extCie.block cfg).Covers a.toNat := fun hc => by
    have := (ext_blocks h a.toNat).1.mp (Or.inl hc)
    omega
  have hno : ¬(Region.extNoCie.block cfg).Covers a.toNat := fun hc => by
    have := (ext_blocks h a.toNat).1.mp (Or.inr hc)
    omega
  have hiff : (genCva6Cfg cfg).Agrees f a ↔ ((genCva6Cfg cfg).Cacheable a ↔ f.cacheable = true) ∧
      ((genCva6Cfg cfg).Idempotent a ↔ f.idempotent = true) ∧
      ((genCva6Cfg cfg).Executable a ↔ f.executable = true) :=
    ⟨fun hA => ⟨hA.cacheable, hA.idempotent, hA.executable⟩, fun hA => ⟨hA.1, hA.2.1, hA.2.2⟩⟩
  rw [hiff, executable_iff h, cacheable_iff h, idempotent_iff h]
  simp only [hout, hcie, hno, or_false, not_false_eq_true, and_true]

/-- From the external region on, what the LLC-out and CIE ranges match has all flags. -/
theorem agrees_of_cie (h : AttrParams cfg) (ha : 0x20000000 ≤ a.toNat)
    (hno : ¬(Region.extNoCie.block cfg).Covers a.toNat)
    (hm : (llcOut cfg).Matches a ∨ (Region.extCie.block cfg).Covers a.toNat) :
    (genCva6Cfg cfg).Agrees ⟨true, true, true⟩ a where
  cacheable := iff_of_true ((cacheable_iff h).mpr (Or.inr hm)) rfl
  idempotent := iff_of_true ((idempotent_iff h).mpr ⟨by omega, hno⟩) rfl
  executable := iff_of_true ((executable_iff h).mpr (Or.inr (Or.inr (Or.inr hm)))) rfl

theorem agrees_extNoCie (h : AttrParams cfg) (ha : (Region.extNoCie.block cfg).Covers a.toNat) :
    (genCva6Cfg cfg).Agrees ⟨false, false, false⟩ a := by
  obtain ⟨hrange, hboth⟩ := ext_blocks h a.toNat
  have hin := hrange.mp (Or.inr ha)
  have hsize := h.llcSize
  have hout : ¬(llcOut cfg).Matches a := llcOut_above h hin.2
  have hcie : ¬(Region.extCie.block cfg).Covers a.toNat := fun hc => hboth ⟨hc, ha⟩
  constructor
  · rw [cacheable_iff h]
    simp only [hout, hcie, or_false, Bool.false_eq_true, iff_false]
    show ¬(0x10000000 ≤ _ ∧ _ < 0x10000000 + _)
    omega
  · rw [idempotent_iff h]
    simp only [ha, not_true_eq_false, and_false, Bool.false_eq_true]
  · rw [executable_iff h]
    simp only [hout, hcie, or_false, Bool.false_eq_true, iff_false]
    omega

/-- Outside the uncached SPM window the attributes are the documented ones. -/
theorem attributes_of_region (h : AttrParams cfg) {r : Region} (hr : r ≠ .spmUncached)
    (ha : (r.block cfg).Covers a.toNat) : (genCva6Cfg cfg).Agrees r.flags a := by
  have hsize := h.llcSize
  cases r with
  | spmUncached => exact absurd rfl hr
  | extCie =>
    obtain ⟨hrange, hboth⟩ := ext_blocks h a.toNat
    exact agrees_of_cie h (hrange.mp (Or.inl ha)).1 (fun hno => hboth ⟨ha, hno⟩) (Or.inr ha)
  | extNoCie => exact agrees_extNoCie h ha
  | llcOut =>
    have habove : 0x80000000 ≤ a.toNat := Nat.le_trans h.llcOut ha.1
    refine agrees_of_cie h (by omega) (fun hno => ?_) (Or.inl (llcOut_covers ha))
    have := (ext_blocks h a.toNat).1.mp (Or.inr hno)
    omega
  | reg d =>
    obtain ⟨hlo, hhi⟩ := ha
    cases d <;> simp only [Region.block, RegDev.block] at hlo hhi
      <;> rw [agrees_internal h (by omega)]
      <;> simp only [Region.block, Window.Covers, Region.flags, Bool.false_eq_true, iff_false,
        iff_true]
      <;> omega
  | _ =>
    obtain ⟨hlo, hhi⟩ := ha
    simp only [Region.block] at hlo hhi
    rw [agrees_internal h (by omega)]
    simp only [Region.block, Window.Covers, Region.flags, Bool.false_eq_true, iff_false, iff_true]
    omega

/-- In the uncached window the execute range is what can be wrong. -/
theorem attributes_uncached (h : AttrParams cfg)
    (ha : (Region.spmUncached.block cfg).Covers a.toNat) :
    (genCva6Cfg cfg).Agrees Region.spmUncached.flags a ↔
      a.toNat < 0x10000000 + 2 * (getLlcSize cfg).toNat := by
  have hsize := h.llcSize
  obtain ⟨hlo, hhi⟩ := ha
  simp only [Region.block] at hlo hhi
  rw [agrees_internal h (by omega)]
  simp only [Region.block, Window.Covers, Region.flags, Bool.false_eq_true, iff_false, iff_true]
  omega

/-- The attributes follow the documented map exactly if the LLC has 64 MiB, or is empty. -/
theorem attributes_sound_iff (h : AttrParams cfg) :
    AttributesSound cfg ↔ getLlcSize cfg = 0 ∨ getLlcSize cfg = 0x04000000 := by
  have hsize := h.llcSize
  constructor
  · intro hs
    rcases Nat.eq_zero_or_pos (getLlcSize cfg).toNat with h0 | hpos
    · exact Or.inl (BitVec.eq_of_toNat_eq h0)
    · -- the last byte of the uncached window
      have hlast : (BitVec.ofNat 64 (0x14000000 + (getLlcSize cfg).toNat - 1)).toNat
          = 0x14000000 + (getLlcSize cfg).toNat - 1 := by
        rw [BitVec.toNat_ofNat, Nat.mod_eq_of_lt (by omega)]
      have hcov : (Region.spmUncached.block cfg).Covers
          (BitVec.ofNat 64 (0x14000000 + (getLlcSize cfg).toNat - 1)).toNat := by
        rw [hlast]
        simp only [Region.block, Window.Covers]
        omega
      have hexec := (attributes_uncached h hcov).mp (hs.region _ _ hcov)
      refine Or.inr (BitVec.eq_of_toNat_eq ?_)
      show _ = 0x04000000
      omega
  · intro hs
    refine ⟨fun r a ha => ?_, extPartition h⟩
    by_cases hr : r = .spmUncached
    · subst hr
      rw [attributes_uncached h ha]
      simp only [Region.block, Window.Covers] at ha
      rcases hs with hs | hs <;> rw [hs] at ha ⊢
      · exact absurd ha.2 (by show ¬_ < 0x14000000 + 0; omega)
      · exact ha.2
    · exact attributes_of_region h hr ha

theorem attrParams_default : AttrParams {} := ⟨rfl, by decide, by decide, by decide⟩

/-- A 64 MiB LLC, and the default one of 128 KiB. -/
theorem attributes_sound_max :
    AttributesSound { llcSetAssoc := 8, llcNumLines := 0x8000, llcNumBlocks := 32 } :=
  (attributes_sound_iff ⟨rfl, by decide, by decide, by decide⟩).mpr (Or.inr (by decide))

/-- In the default configuration the uncached SPM window cannot be executed as a whole, so the
attributes are not sound. -/
theorem attributes_default_unsound : AttrParams {} ∧ ¬AttributesSound {} := by
  refine ⟨attrParams_default, fun hs => ?_⟩
  have hcov : (Region.spmUncached.block {}).Covers (0x14000000 : Addr).toNat := by decide
  exact absurd ((attributes_uncached attrParams_default hcov).mp (hs.region _ _ hcov)) (by decide)

end Cheshire.Hw
