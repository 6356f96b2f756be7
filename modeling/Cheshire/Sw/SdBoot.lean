import Cheshire.Sw.BootMedium
import Cheshire.Sw.SdGoodCard

/-!
# Booting from an SD card

`boot_spi_sdcard` wakes the card up and boots through `spi_sdcard_read_checkcrc`, whose
transfers are some of the calls of the SPI host's DIF.

All transfers before the card is active are slow, all behind it are at the frequency of the
device. On a line as in `CardSends` a boot enters the next stage with the selected blocks of
the card in the SPM, or it returns an error (`sdBoot_sound`); only the activation may hang.
-/

namespace Cheshire.Sw

open Firmware Firmware.Prog

/-! ## The boot -/

/-- The device of the boot: chip select 0 at 24 MHz; the last one is the dummy. -/
def sdBootDevice (numCs : Nat) : SdDevice := ⟨⟨0, numCs - 1⟩, 24 * 1000 * 1000⟩

/-- `spi_sdcard_read_checkcrc`, among the calls of a boot. -/
def sdBootRead (h : SdHandle) (rxDepth : Nat) (junk : SdJunk) :
    ReadFn (SpiHostCall SpiCall) SdMem :=
  fun buf addr len => within .transfer (sdReadCheckcrc h rxDepth junk buf addr len)

/-- The byte of the caller's memory at an address. -/
def sdPeek (m : SdMem) (x : Int) : Byte := m.get .caller x

/-- `boot_spi_sdcard`: the initialisation, and the boot behind it. -/
def bootSpiSdcard (hw : SpiHostParams) (f : BootFrame) (ptrs : BootPtrs) (codeBuf : BitVec 64)
    (coreFreq rtcFreq : BitVec 64) (junk : SdJunk) (rounds : Nat) :
    SdBootProg (Except Stop Unit × List BootEvent) := do
  sdInit hw.numCs (some (sdBootDevice hw.numCs)) coreFreq junk rounds
  let _ ← ask (.spinUntil ((1000 * rtcFreq) / (1000 * 1000) + 1))
  bootVia f (sdBootRead (sdBootDevice hw.numCs).toSdHandle hw.rxDepth junk) sdPeek ptrs codeBuf
    bootSpmMaxLbas (some bootZslTypeGuid) none

variable {env : Env (SpiHostCall SpiCall)} {h : SdHandle} {image : List Byte}

/-! ## Reads -/

theorem sdRxTo_ends (dst : SdObj × Int) (n : Nat) : SdEnds h (sdRxTo h dst n) :=
  meets_bind (meets_ask (sdGuarantee_allows (Or.inl rfl))) fun _ =>
    meets_bind (sdModify_ends fun _ => Mem.onlyStores_write _ _ _ _ _) fun _ =>
      meets_retCode isCode_ret _

theorem sdRxBlock_ends (rxDepth : Nat) (dst : SdObj × Int) : SdEnds h (sdRxBlock h rxDepth dst) :=
  meets_upTo fun _ _ => sdRxTo_ends _ _

theorem SdRead.copyOut_onlyStores (p : SdRead) (b : Nat) (m : SdMem) :
    m.OnlyStores (p.copyOut b m) := by
  rw [SdRead.copyOut_eq]
  split
  · exact Mem.onlyStores_write _ _ _ _ _
  · exact Mem.onlyStores_refl m

theorem SdRead.block_ends (p : SdRead) (b : Nat) : SdEnds p.handle (p.block b) :=
  meets_bind (sdPoll_ends _ 9999) fun _ =>
    meets_bind (meets_retCode isCode_ret _) fun _ =>
      meets_bind (meets_retCode isCode_ret _) fun _ =>
        meets_bind (sdRxBlock_ends _ _) fun _ =>
          meets_bind
            (meets_bind (sdRx_ends 2) fun _ =>
              meets_bind meets_getMem fun _ => meets_retCode isCode_ret _)
            fun _ => sdModify_ends (p.copyOut_onlyStores b)

theorem sdFinish_ends (junk : SdJunk) (n : Nat) : SdEnds h (sdFinish h junk n) :=
  meets_ite (sdCmdCheck_ends _ _ junk none) sdCsfree_ends

/-- The loop over the blocks of a read, with the end of the read behind it, ends, with a code if
it stops early. -/
theorem sdBlocks_ends (rxDepth : Nat) (junk : SdJunk) (buf : Int) (n firstOffs lastLen : Nat)
    (checkCrc : Bool) :
    SdEnds h (do
      upTo n (SdRead.block ⟨h, rxDepth, buf - firstOffs, n, firstOffs, lastLen, checkCrc⟩)
      sdFinish h junk n) :=
  meets_bind (meets_upTo fun b _ => SdRead.block_ends _ b) fun _ => sdFinish_ends junk n

theorem sdReadCheckcrc_ends (rxDepth : Nat) (junk : SdJunk) (buf : Int) (addr len : Nat) :
    SdEnds h (sdReadCheckcrc h rxDepth junk buf addr len) :=
  meets_ite (meets_pure _)
    (meets_ite (meets_pure _)
      (meets_bind (sdCmd_ends _ _ true) fun _ => sdBlocks_ends rxDepth junk buf _ _ _ true))

/-- The calls that follow a command frame are, together with the frame, the calls of a read. -/
theorem readCalls_cons {env : Env SpiCall} {frame : List Byte} {s s' : SdSt}
    (h' : MadeCalls env h.Uses { s with
      calls := (⟨h.csid, true, .tx frame⟩, env s.calls ⟨h.csid, true, .tx frame⟩) :: s.calls } s') :
    ReadCalls env h s s' := by
  obtain ⟨new, hnew, hall, hans⟩ := h'
  refine ⟨new, frame, _, ?_, fun c hc => ?_, answered_append.mpr ⟨hans, rfl, trivial⟩⟩
  · rw [hnew, List.append_assoc]
    rfl
  · rcases List.mem_append.mp hc with hc | hc
    · exact hall c hc
    · rw [List.mem_singleton.mp hc]
      exact Or.inl rfl

/-- The first call that a read of a nonzero length makes is the frame of its command. -/
theorem sdReadCheckcrc_calls {env : Env SpiCall} (rxDepth : Nat) (junk : SdJunk) (buf : Int)
    (addr len : Nat) (s : SdSt) :
    wp env (sdReadCheckcrc h rxDepth junk buf addr len)
      (fun _ s' => 0 < len → ReadCalls env h s s') (fun _ _ => True) s := by
  unfold sdReadCheckcrc sdRead
  rw [wp_ite]
  by_cases hlen : len = 0
  · rw [if_pos hlen]
    exact fun hpos => absurd hlen (Nat.pos_iff_ne_zero.mp hpos)
  rw [if_neg hlen]
  dsimp only
  unfold sdReadBlocks
  rw [if_neg (by omega)]
  dsimp only
  generalize sdBuildCmd _ _ = cmd
  have hrest := meets_bind (sdResponse_ends (h := h) cmd .r1 true) fun _ =>
    sdBlocks_ends rxDepth junk buf ((len + addr % 512 + 511) / 512) (addr % 512)
      (if (addr + len) % 512 = 0 then 512 else (addr + len) % 512) true
  unfold sdCmd sdTx
  rw [wp_bind, wp_bind, wp_bind, wp_ask, wp_retCode]
  refine ⟨fun _ => ?_, fun _ => trivial⟩
  rw [← wp_bind]
  exact wp_mono (hrest env _) (fun _ _ h' _ => readCalls_cons h'.1) fun _ _ _ => trivial

/-- The SD driver, on a card whose accepted blocks are those of the image, meets the contract
that a boot has with its driver. -/
theorem sdBootRead_reads (himage : image.length ≤ 2 ^ 41) {d : SdDevice}
    (hcard : CardSends env d.toSdHandle image) {rxDepth : Nat} (hdepth : 0 < rxDepth)
    (junk : SdJunk) (s₁ : SdBootSt) :
    DriverReads env (sdBootRead d.toSdHandle rxDepth junk) sdPeek (fun a => image.getD a 0)
      image.length (RunsAt d.toSdHandle d.spiFreq s₁) IsCode := by
  intro buf addr len s hI hrange
  have hkeeps : ∀ {m m' : SdMem}, m.OnlyStores m' → m.StoresIn (InBuf buf len) m' →
      KeepsRest sdPeek buf len m m' := by
    intro m m' honly hstores x hx
    refine honly.keeps hstores fun hin => ?_
    obtain ⟨hlo, hhi⟩ : buf ≤ x ∧ x < buf + len := hin
    omega
  unfold sdBootRead
  rw [wp_within]
  have hspec := wp_and (sdReadCheckcrc_ends rxDepth junk buf addr len
      (Env.under .transfer env s.calls) ⟨[], s.mem⟩)
    (wp_and (sdReadCheckcrc_spec hdepth junk buf (by omega) _)
      (sdReadCheckcrc_calls (h := d.toSdHandle) rxDepth junk buf addr len _))
  refine wp_mono hspec (fun _ u hu => ?_) fun e u hu => ?_
  · obtain ⟨⟨hmade, honly⟩, ⟨hstores, hexact⟩, hcalls⟩ := hu
    refine ⟨hI.transfers hmade.under, hkeeps honly hstores, fun k hk => ?_⟩
    have hlen : 0 < len := Nat.zero_lt_of_lt hk
    obtain ⟨t, ⟨block, hblock, ht⟩, hdata⟩ := hexact hlen
    have hmod := Nat.mod_lt addr (show 0 < 512 by omega)
    have hdiv := Nat.div_add_mod addr 512
    show u.mem.get .caller (buf + k) = image.getD (addr + k) 0
    rw [hdata k hk, hcard.exact (hcalls hlen) ht (by omega) (by rw [hblock]; omega), hblock]
    congr 1
    omega
  · obtain ⟨⟨⟨hmade, honly⟩, c, hc, rfl⟩, hstores, -⟩ := hu
    exact ⟨hI.transfers hmade.under, hkeeps honly hstores, fun h0 => hc (Stop.ret.inj h0),
      c, hc, rfl⟩

/-! ## The outcome of a boot -/

/-- What is asked of the card and its contents. -/
structure SdBootable (env : Env (SpiHostCall SpiCall)) (h : SdHandle) (image : List Byte) :
    Prop where
  small : image.length ≤ 2 ^ 41
  card : CardSends env h image
  bootable : Bootable (diskOf fun a => image.getD a 0) image.length bootSpmMaxLbas

/-- What stops a read of the card: a code, and only if some read of it does stop. -/
def SdStops (env : Env (SpiHostCall SpiCall)) (hw : SpiHostParams) (junk : SdJunk) (n : Nat)
    (e : Stop) : Prop :=
  IsCode e ∧ ReadStops env (sdBootRead (sdBootDevice hw.numCs).toSdHandle hw.rxDepth junk) n e

/-- How a boot from the card ends. It returns if the initialisation `init` does; an error then
is one of a read. -/
structure SdBootSound (env : Env (SpiHostCall SpiCall)) (hw : SpiHostParams) (f : BootFrame)
    (ptrs : BootPtrs) (codeBuf : BitVec 64) (image : List Byte) (junk : SdJunk)
    (init : SdBootProg Unit) (s s' : SdBootSt)
    (r : Except Stop (Except Stop Unit × List BootEvent)) : Prop where
  frame : ∀ x, f.Outside (Dst.room codeBuf bootSpmMaxLbas) x → sdPeek s'.mem x = sdPeek s.mem x
  /-- The initialisation failed, or hangs. -/
  refused : ∀ e, r = .error e → SlowSince s s'
  returns : (init env s).1 = .ok () → ∃ out, r = .ok out
  /-- `s₁` is the state behind the initialisation. -/
  outcome : ∀ out, r = .ok out → ∃ s₁, SlowSince s s₁ ∧
    RunsAt (sdBootDevice hw.numCs).toSdHandle (sdBootDevice hw.numCs).spiFreq s₁ s' ∧
    BootOutcome (fun a => image.getD a 0) image.length ptrs codeBuf bootSpmMaxLbas
      (some bootZslTypeGuid) none
      (SigFails env (sdBootRead (sdBootDevice hw.numCs).toSdHandle hw.rxDepth junk) f s₁)
      (SdStops env hw junk image.length) (sdPeek s'.mem) out

/-- `spi_sdcard_init` with the device and the frequency of the boot. -/
def sdBootInit (hw : SpiHostParams) (coreFreq : BitVec 64) (junk : SdJunk) (rounds : Nat) :
    SdBootProg Unit :=
  sdInit hw.numCs (some (sdBootDevice hw.numCs)) coreFreq junk rounds

theorem sdBoot_spec {env : Env (SpiHostCall SpiCall)} {image : List Byte} (hw : SpiHostParams)
    (himage : SdBootable env (sdBootDevice hw.numCs).toSdHandle image) (hdepth : 0 < hw.rxDepth)
    (f : BootFrame) (ptrs : BootPtrs) (codeBuf coreFreq rtcFreq : BitVec 64) (junk : SdJunk)
    (rounds : Nat) (s : SdBootSt) :
    wp env (bootSpiSdcard hw f ptrs codeBuf coreFreq rtcFreq junk rounds)
      (fun out s' => SdBootSound env hw f ptrs codeBuf image junk
        (sdBootInit hw coreFreq junk rounds) s s' (.ok out))
      (fun e s' => SdBootSound env hw f ptrs codeBuf image junk
        (sdBootInit hw coreFreq junk rounds) s s' (.error e)) s := by
  have hinit : wp env (sdInit hw.numCs (some (sdBootDevice hw.numCs)) coreFreq junk rounds) _ _ s :=
    wp_run (sdInit_spec hw.numCs (sdBootDevice hw.numCs) coreFreq junk rounds s)
  unfold bootSpiSdcard
  rw [wp_bind]
  refine wp_mono hinit (fun _ s₁ h₁ => ?_) fun e s₁ he => ?_
  · obtain ⟨-, hslow, hclock, hout⟩ := h₁
    rw [wp_bind, wp_ask]
    generalize hs₂ : (⟨(SpiHostCall.spinUntil _, _) :: s₁.calls, s₁.mem⟩ : SdBootSt) = s₂
    have hslow₂ : SlowSince s s₂ := by
      rw [← hs₂]
      exact hslow.call rfl _
    have hat : RunsAt (sdBootDevice hw.numCs).toSdHandle (sdBootDevice hw.numCs).spiFreq
        s₂ s₂ := by
      rw [← hs₂]
      exact ⟨⟨[], rfl, trivial⟩, hclock, hout⟩
    -- the wait counts as slow, so that the reads are all that comes behind `s₂`
    have hreads := (sdBootRead_reads himage.small himage.card hdepth junk s₂).stops
    refine wp_mono (serve_boot hreads hat himage.bootable ptrs (some bootZslTypeGuid) none)
      (fun out s₃ h₃ => ?_) fun e s₃ he => ?_
    · obtain ⟨hkeeps, houtcome⟩ := h₃
      refine ⟨fun x hx => ?_, fun e hr => (nomatch hr), fun _ => ⟨out, rfl⟩, fun out' hr => ?_⟩
      · rw [hkeeps.frame x hx, hslow₂.mem]
      · cases hr
        exact ⟨s₂, hslow₂, hkeeps.inv, houtcome⟩
    · obtain ⟨-, rfl, ⟨c, -, hspin⟩, -⟩ := he
      cases hspin
  · obtain ⟨hrun, hslow⟩ := he
    refine ⟨fun x _ => by rw [hslow.mem], fun _ _ => hslow, fun hok => ?_,
      fun out hr => (nomatch hr)⟩
    exact nomatch (congrArg Prod.fst hrun).symm.trans hok

theorem sdBoot_sound {env : Env (SpiHostCall SpiCall)} {image : List Byte} (hw : SpiHostParams)
    (himage : SdBootable env (sdBootDevice hw.numCs).toSdHandle image) (hdepth : 0 < hw.rxDepth)
    (f : BootFrame) (ptrs : BootPtrs) (codeBuf coreFreq rtcFreq : BitVec 64) (junk : SdJunk)
    (rounds : Nat) {s s' : SdBootSt} {r : Except Stop (Except Stop Unit × List BootEvent)}
    (hrun : bootSpiSdcard hw f ptrs codeBuf coreFreq rtcFreq junk rounds env s = (r, s')) :
    SdBootSound env hw f ptrs codeBuf image junk (sdBootInit hw coreFreq junk rounds) s s' r := by
  have hspec := sdBoot_spec hw himage hdepth f ptrs codeBuf coreFreq rtcFreq junk rounds s
  cases r with
  | ok out => exact wp_ok hspec hrun
  | error e => exact wp_error hspec hrun

/-! ## A card that answers at once -/

/-- No read of it stops. -/
theorem cardEnv_reads (image : List Byte) {hw : SpiHostParams} (hdepth : 0 < hw.rxDepth)
    (junk : SdJunk) (buf : Int) (addr len : Nat) (s : SdBootSt) (e : Stop) :
    (sdBootRead (sdBootDevice hw.numCs).toSdHandle hw.rxDepth junk buf addr len (cardEnv image)
      s).1 ≠ .error e := by
  intro hrun
  have hcard : wp (cardEnv image) (sdBootRead (sdBootDevice hw.numCs).toSdHandle hw.rxDepth junk
      buf addr len) (fun _ _ => True) (fun _ _ => False) s := by
    unfold sdBootRead
    rw [wp_within]
    exact sdReadCheckcrc_card hdepth junk buf addr len _
  exact wp_error hcard (run_eq hrun)

theorem cardEnv_signature (image : List Byte) {hw : SpiHostParams} (hdepth : 0 < hw.rxDepth)
    (junk : SdJunk) (f : BootFrame) (s : SdBootSt) :
    ¬SigFails (cardEnv image) (sdBootRead (sdBootDevice hw.numCs).toSdHandle hw.rxDepth junk)
      f s := by
  rintro ⟨e, he⟩
  exact cardEnv_reads image hdepth junk _ _ _ s e he

theorem cardEnv_stops (image : List Byte) {hw : SpiHostParams} (hdepth : 0 < hw.rxDepth)
    (junk : SdJunk) (n : Nat) (e : Stop) : ¬SdStops (cardEnv image) hw junk n e := by
  rintro ⟨-, buf, addr, len, s, -, he⟩
  exact cardEnv_reads image hdepth junk buf addr len s e he

/-- A boot from it enters the next stage, if the initialisation succeeds. -/
theorem cardEnv_boots {image : List Byte} (hw : SpiHostParams) (hsmall : image.length ≤ 2 ^ 41)
    (hboot : Bootable (diskOf fun a => image.getD a 0) image.length bootSpmMaxLbas)
    (hdepth : 0 < hw.rxDepth) (f : BootFrame) (ptrs : BootPtrs)
    (codeBuf coreFreq rtcFreq : BitVec 64) (junk : SdJunk) (rounds : Nat) (s : SdBootSt)
    (hinit : (sdBootInit hw coreFreq junk rounds (cardEnv image) s).1 = .ok ()) :
    ∃ s', bootSpiSdcard hw f ptrs codeBuf coreFreq rtcFreq junk rounds (cardEnv image) s
      = (.ok (.ok (), bootEvents ptrs codeBuf), s') := by
  have hspec := sdBoot_spec hw ⟨hsmall, cardEnv_sends image _, hboot⟩ hdepth f ptrs codeBuf
    coreFreq rtcFreq junk rounds s
  generalize hrun : bootSpiSdcard hw f ptrs codeBuf coreFreq rtcFreq junk rounds (cardEnv image) s
    = run
  obtain ⟨r, s'⟩ := run
  cases r with
  | error e =>
    obtain ⟨out, hout⟩ := (wp_error hspec hrun).returns hinit
    cases hout
  | ok out =>
    obtain ⟨r, events⟩ := out
    obtain ⟨s₁, -, -, hout⟩ := (wp_ok hspec hrun).outcome _ rfl
    cases r with
    | error e => exact absurd (hout.fails e rfl).2.2 (cardEnv_stops image hdepth junk _ _)
    | ok =>
      obtain ⟨hevents, -⟩ := hout.boots rfl
      obtain rfl : events = _ := hevents
      exact ⟨s', rfl⟩

/-- The loader of a card that has one is entered. -/
theorem sdBoot_sound_zslImage : ∃ s',
    bootSpiSdcard ⟨3, 64⟩ ⟨0, 8, 24, 40⟩ ⟨0, 0, 0⟩ 0x10000000 50000000 32768 ⟨0, 0⟩ 1
      (cardEnv zslImage) ⟨[], sdStart.mem⟩ = (.ok (.ok (), bootEvents ⟨0, 0, 0⟩ 0x10000000), s') ∧
    ∀ k : Nat, k < 0x200 * 7 →
      sdPeek s'.mem (0x10000000 + k) = zslImage.getD (0x200 * 34 + k) 0 := by
  have hsmall : zslImage.length ≤ 2 ^ 41 := by
    rw [length_zslImage]
    decide
  obtain ⟨s', hrun⟩ := cardEnv_boots ⟨3, 64⟩ hsmall zslDisk_bootable (by decide) ⟨0, 8, 24, 40⟩
    ⟨0, 0, 0⟩ 0x10000000 50000000 32768 ⟨0, 0⟩ 1 ⟨[], sdStart.mem⟩ (by decide +kernel)
  obtain ⟨s₁, -, -, hout⟩ := (sdBoot_sound ⟨3, 64⟩ ⟨hsmall, cardEnv_sends zslImage _,
    zslDisk_bootable⟩ (by decide) ⟨0, 8, 24, 40⟩ ⟨0, 0, 0⟩ 0x10000000 50000000 32768 ⟨0, 0⟩ 1
    hrun).outcome _ rfl
  obtain ⟨-, rng, hrange, -, hdata⟩ := hout.boots rfl
  obtain rfl := zslDisk_bootRange hrange (cardEnv_signature _ (by decide) _ _ _)
  exact ⟨s', hrun, hdata⟩

end Cheshire.Sw
