/-!
# Cyclic redundancy checks

A CRC of width `w` is the state of a shift register: each message bit, most
significant first, is compared with the bit shifted out, and where they differ the
generator is added in. `g` is the generator polynomial without its leading term, and
the register starts at 0, so the state after a message is the remainder of the message
times `x ^ w`.

The register is linear over exclusive or (`stepByte_xor`). So what a byte does depends
on the top byte of the state and on the byte only through their sum, and the rest of the
state is shifted: this is the table-driven form (`stepByte_eq_table`).

Two messages of one length have the same remainder exactly if their difference has
remainder 0. A register that is not 0 does not become 0 on zero bits, as long as the
generator has a constant term; so a difference of at most `w` consecutive bits is always
seen (`burst_detected`).
-/

namespace Crc

variable {w : Nat}

/-- The register after one more bit of the message, fed in at its top. -/
def stepBit (g s : BitVec w) (b : Bool) : BitVec w :=
  (s <<< 1) ^^^ (if s.msb ^^ b then g else 0#w)

/-- The first `n` bits of a word, most significant first. -/
def topBits (v : BitVec w) (n : Nat) : List Bool := (List.range n).map v.getMsbD

def stepBits (g s : BitVec w) (bs : List Bool) : BitVec w := bs.foldl (stepBit g) s

/-- The register after one more byte of the message, its top bit first. -/
def stepByte (g s : BitVec w) (v : BitVec 8) : BitVec w := stepBits g s (topBits v 8)

/-- The remainder of a message: the register after all its bytes, from an empty one. -/
def remainder (g : BitVec w) (msg : List (BitVec 8)) : BitVec w := msg.foldl (stepByte g) 0#w

/-! ## Linearity -/

theorem ite_xor (g : BitVec w) (a b : Bool) :
    (if a ^^ b then g else 0#w) = (if a then g else 0#w) ^^^ (if b then g else 0#w) := by
  cases a with
  | false => cases b <;> exact BitVec.zero_xor.symm
  | true =>
    cases b with
    | false => exact BitVec.xor_zero.symm
    | true => exact BitVec.xor_self.symm

theorem stepBit_xor (g s s' : BitVec w) (b b' : Bool) :
    stepBit g (s ^^^ s') (b ^^ b') = stepBit g s b ^^^ stepBit g s' b' := by
  have hfeed : ((s ^^^ s').msb ^^ (b ^^ b')) = ((s.msb ^^ b) ^^ (s'.msb ^^ b')) := by
    rw [BitVec.msb_xor]
    cases s.msb <;> cases s'.msb <;> cases b <;> cases b' <;> rfl
  unfold stepBit
  rw [hfeed, ite_xor g (s.msb ^^ b), BitVec.shiftLeft_xor_distrib]
  ac_rfl

theorem stepBits_xor (g : BitVec w) : ∀ (bs bs' : List Bool) (s s' : BitVec w),
    bs.length = bs'.length →
      stepBits g (s ^^^ s') (List.zipWith Bool.xor bs bs') =
        stepBits g s bs ^^^ stepBits g s' bs' := by
  intro bs
  induction bs with
  | nil =>
    intro bs' s s' hlen
    cases bs' with
    | nil => rfl
    | cons => cases hlen
  | cons b bs ih =>
    intro bs' s s' hlen
    cases bs' with
    | nil => cases hlen
    | cons b' bs' =>
      have hstep := ih bs' (stepBit g s b) (stepBit g s' b') (Nat.succ.inj hlen)
      rw [← stepBit_xor] at hstep
      exact hstep

theorem topBits_xor (v v' : BitVec w) (n : Nat) :
    topBits (v ^^^ v') n = List.zipWith Bool.xor (topBits v n) (topBits v' n) := by
  unfold topBits
  rw [List.zipWith_map, List.zipWith_self]
  refine List.map_congr_left fun i _ => ?_
  exact BitVec.getMsbD_xor

theorem stepByte_xor (g s s' : BitVec w) (v v' : BitVec 8) :
    stepByte g (s ^^^ s') (v ^^^ v') = stepByte g s v ^^^ stepByte g s' v' := by
  unfold stepByte
  rw [topBits_xor]
  exact stepBits_xor g _ _ s s' (by simp [topBits])

/-! ## The table-driven form -/

/-- Fed with its own top bits the register only shifts. -/
theorem stepBits_topBits (g s : BitVec w) (n : Nat) : stepBits g s (topBits s n) = s <<< n := by
  induction n with
  | zero => exact (BitVec.shiftLeft_zero s).symm
  | succ n ih =>
    have hsucc : topBits s (n + 1) = topBits s n ++ [s.getMsbD n] := by
      unfold topBits
      rw [List.range_succ, List.map_append]
      rfl
    have hmsb : (s <<< n).msb = s.getMsbD n := by
      rw [BitVec.msb_shiftLeft]
    show (topBits s (n + 1)).foldl (stepBit g) s = _
    rw [hsucc, List.foldl_append]
    show stepBit g (stepBits g s (topBits s n)) (s.getMsbD n) = _
    unfold stepBit
    rw [ih, hmsb, Bool.xor_self, if_neg Bool.false_ne_true, BitVec.xor_zero, ← BitVec.shiftLeft_add]

/-- The top byte of the register, which a table driven step looks up. -/
def topByte (s : BitVec w) : BitVec 8 := (s >>> (w - 8)).setWidth 8

theorem topBits_topByte {s : BitVec w} (hw : 8 ≤ w) : topBits (topByte s) 8 = topBits s 8 := by
  refine List.map_congr_left fun i hi => ?_
  have hlt : i < 8 := List.mem_range.mp hi
  unfold topByte
  rw [BitVec.getMsbD_setWidth, BitVec.getMsbD_ushiftRight,
    show i + w - 8 - (w - 8) = i by omega, decide_eq_true (show 8 - w ≤ i by omega),
    decide_eq_true (show i + w - 8 < w by omega),
    decide_eq_false (show ¬i + w - 8 < w - 8 by omega)]
  rfl

/-- A byte through a table of 256 states. -/
theorem stepByte_eq_table (g s : BitVec w) (v : BitVec 8) (hw : 8 ≤ w) :
    stepByte g s v = stepByte g 0#w (v ^^^ topByte s) ^^^ (s <<< 8) := by
  -- the state is its top byte's part and the rest, and each is fed its own share of `v`
  have hsplit : stepByte g s v = stepByte g 0#w (v ^^^ topByte s) ^^^ stepByte g s (topByte s) := by
    rw [← stepByte_xor, BitVec.xor_assoc, BitVec.xor_self, BitVec.xor_zero, BitVec.zero_xor]
  have hshift : stepByte g s (topByte s) = s <<< 8 := by
    unfold stepByte
    rw [topBits_topByte hw]
    exact stepBits_topBits g s 8
  rw [hsplit, hshift]

/-! ## Bursts -/

/-- The bits of a message, in the order in which they are fed. -/
def bits (msg : List (BitVec 8)) : List Bool := msg.flatMap fun v => topBits v 8

/-- Bit `p` of a message; past its end there are zeros. -/
def bitAt (msg : List (BitVec 8)) (p : Nat) : Bool := (bits msg).getD p false

theorem stepBits_append (g s : BitVec w) (bs bs' : List Bool) :
    stepBits g s (bs ++ bs') = stepBits g (stepBits g s bs) bs' := List.foldl_append

theorem remainder_eq_stepBits (g : BitVec w) (msg : List (BitVec 8)) :
    remainder g msg = stepBits g 0#w (bits msg) := by
  unfold remainder
  generalize 0#w = s
  induction msg generalizing s with
  | nil => rfl
  | cons v msg ih =>
    show msg.foldl (stepByte g) (stepByte g s v) = stepBits g s (topBits v 8 ++ bits msg)
    rw [ih, stepBits_append]
    rfl

theorem bits_length (msg : List (BitVec 8)) : (bits msg).length = 8 * msg.length := by
  induction msg with
  | nil => rfl
  | cons v msg ih =>
    show (topBits v 8 ++ bits msg).length = 8 * (msg.length + 1)
    rw [List.length_append, ih]
    show 8 + 8 * msg.length = _
    omega

theorem topBits_inj {v v' : BitVec 8} (h : topBits v 8 = topBits v' 8) : v = v' := by
  apply BitVec.eq_of_getMsbD_eq
  intro i hi
  exact List.map_inj_left.mp h i (List.mem_range.mpr hi)

/-- A message is its bits. -/
theorem bits_inj : ∀ {msg msg' : List (BitVec 8)}, bits msg = bits msg' → msg = msg' := by
  intro msg
  induction msg with
  | nil =>
    intro msg' h
    cases msg' with
    | nil => rfl
    | cons v' msg' => cases h
  | cons v msg ih =>
    intro msg' h
    cases msg' with
    | nil => cases h
    | cons v' msg' =>
      have hsplit : topBits v 8 ++ bits msg = topBits v' 8 ++ bits msg' := h
      obtain ⟨hv, hmsg⟩ := List.append_inj hsplit (by simp [topBits])
      rw [topBits_inj hv, ih hmsg]

/-- If the polynomial ends in a one, a zero bit cannot clear a register that is not clear
already. -/
theorem stepBit_zero {g s : BitVec w} (hg : g.getLsbD 0 = true) (h : stepBit g s false = 0#w) :
    s = 0#w := by
  unfold stepBit at h
  rw [Bool.xor_false] at h
  have hmsb : s.msb = false := by
    refine Bool.eq_false_iff.mpr fun hne => ?_
    rw [if_pos hne] at h
    have hlow := congrArg (·.getLsbD 0) h
    simp [hg] at hlow
  rw [hmsb, if_neg Bool.false_ne_true, BitVec.xor_zero] at h
  apply BitVec.eq_of_getLsbD_eq
  intro i hi
  rw [BitVec.getLsbD_zero]
  by_cases hlast : i + 1 < w
  · have hbit : (s <<< 1).getLsbD (i + 1) = (0#w).getLsbD (i + 1) := by rw [h]
    rw [BitVec.getLsbD_shiftLeft, BitVec.getLsbD_zero, decide_eq_true hlast,
      decide_eq_false (show ¬i + 1 < 1 by omega), Nat.add_sub_cancel] at hbit
    exact hbit
  · rw [BitVec.msb_eq_getLsbD_last, show w - 1 = i by omega] at hmsb
    exact hmsb

theorem stepBits_zeros {g : BitVec w} (hg : g.getLsbD 0 = true) :
    ∀ (n : Nat) {s : BitVec w}, stepBits g s (List.replicate n false) = 0#w → s = 0#w := by
  intro n
  induction n with
  | zero =>
    intro s h
    exact h
  | succ n ih =>
    intro s h
    exact stepBit_zero hg (ih h)

/-- An empty register stays empty however many zero bits are shifted in. -/
theorem stepBits_empty (g : BitVec w) (n : Nat) :
    stepBits g 0#w (List.replicate n false) = 0#w := by
  induction n with
  | zero => rfl
  | succ n ih =>
    have hbit : stepBit g 0#w false = 0#w := by
      unfold stepBit
      rw [BitVec.msb_zero, Bool.xor_false, if_neg Bool.false_ne_true, BitVec.xor_zero]
      exact BitVec.zero_shiftLeft 1
    show stepBits g (stepBit g 0#w false) (List.replicate n false) = 0#w
    rw [hbit]
    exact ih

/-- As many bits as the register is wide are all shifted out again, so they leave it empty
only if they are all zero. -/
theorem full_burst {g : BitVec w} (hg : g.getLsbD 0 = true) {bs : List Bool} (hlen : bs.length = w)
    (h : stepBits g 0#w bs = 0#w) : bs = List.replicate w false := by
  subst hlen
  -- the state that these bits are the top bits of
  let s := BitVec.ofBoolListBE bs
  have htop : topBits s bs.length = bs := by
    refine List.ext_getElem (by simp [topBits]) fun i hi hi' => ?_
    simp [topBits, s, hi']
  have hself : stepBits g s bs = BitVec.ofNat bs.length 0 := by
    have hshift := stepBits_topBits g s bs.length
    rw [htop] at hshift
    rw [hshift]
    exact BitVec.shiftLeft_eq_zero (Nat.le_refl _)
  have hzeros : List.zipWith Bool.xor bs (List.replicate bs.length false) = bs := by
    refine List.ext_getElem (by simp) fun i hi hi' => ?_
    simp
  have hlin := stepBits_xor g bs (List.replicate bs.length false) (BitVec.ofNat _ 0) s (by simp)
  rw [hzeros, BitVec.zero_xor, hself, h, BitVec.zero_xor] at hlin
  have hs : s = BitVec.ofNat bs.length 0 := stepBits_zeros hg _ hlin.symm
  rw [← htop, hs]
  refine List.ext_getElem (by simp [topBits]) fun i hi hi' => ?_
  simp [topBits]

/-- At most as many bits as the register is wide. -/
theorem short_burst {g : BitVec w} (hg : g.getLsbD 0 = true) {bs : List Bool} (hlen : bs.length ≤ w)
    (h : stepBits g 0#w bs = 0#w) : ∀ b ∈ bs, b = false := by
  have hpad : stepBits g 0#w (bs ++ List.replicate (w - bs.length) false) = 0#w := by
    rw [stepBits_append, h]
    exact stepBits_empty g _
  have hall := full_burst hg (by simp; omega) hpad
  intro b hb
  have hmem : b ∈ List.replicate w false := hall ▸ List.mem_append_left _ hb
  exact (List.mem_replicate.mp hmem).2

theorem eq_zeros {bs : List Bool} (h : ∀ b ∈ bs, b = false) :
    bs = List.replicate bs.length false := List.eq_replicate_iff.mpr ⟨rfl, h⟩

/-- Bits that are zero outside `w` consecutive places leave an empty register empty only if
they are all zero. -/
theorem burst_zero {g : BitVec w} (hg : g.getLsbD 0 = true) {bs : List Bool} {f : Nat}
    (hout : ∀ p, p < f ∨ f + w ≤ p → bs.getD p false = false) (h : stepBits g 0#w bs = 0#w) :
    ∀ b ∈ bs, b = false := by
  have hfront : ∀ b ∈ bs.take f, b = false := by
    intro b hb
    obtain ⟨p, hp, rfl⟩ := List.mem_iff_getElem.mp hb
    rw [List.getElem_take]
    rw [List.length_take] at hp
    rw [List.getElem_eq_getD false]
    exact hout p (Or.inl (by omega))
  have hback : ∀ b ∈ bs.drop (f + w), b = false := by
    intro b hb
    obtain ⟨p, hp, rfl⟩ := List.mem_iff_getElem.mp hb
    rw [List.getElem_drop, List.getElem_eq_getD false]
    exact hout (f + w + p) (Or.inr (by omega))
  have hsplit : bs = bs.take f ++ ((bs.drop f).take w ++ bs.drop (f + w)) := by
    rw [← List.drop_drop, List.take_append_drop, List.take_append_drop]
  -- neither the zeros in front nor those behind change whether the register is empty
  have hmid : stepBits g 0#w ((bs.drop f).take w) = 0#w := by
    rw [hsplit, stepBits_append, eq_zeros hfront, stepBits_empty, stepBits_append,
      eq_zeros hback] at h
    exact stepBits_zeros hg _ h
  have hburst := short_burst hg (List.length_take_le _ _) hmid
  intro b hb
  rw [hsplit] at hb
  rcases List.mem_append.mp hb with hb | hb
  · exact hfront b hb
  · rcases List.mem_append.mp hb with hb | hb
    · exact hburst b hb
    · exact hback b hb

/-- Two messages of one length that differ, but only within `w` consecutive bits, have
different remainders. -/
theorem burst_detected {g : BitVec w} (hg : g.getLsbD 0 = true) {a b : List (BitVec 8)}
    (hlen : a.length = b.length) {f : Nat}
    (hburst : ∀ p, p < f ∨ f + w ≤ p → bitAt a p = bitAt b p)
    (h : remainder g a = remainder g b) : a = b := by
  have hbits : (bits a).length = (bits b).length := by
    rw [bits_length, bits_length, hlen]
  have hdiff : stepBits g 0#w (List.zipWith Bool.xor (bits a) (bits b)) = 0#w := by
    have hlin := stepBits_xor g (bits a) (bits b) 0#w 0#w hbits
    rw [BitVec.xor_self, ← remainder_eq_stepBits, ← remainder_eq_stepBits, h,
      BitVec.xor_self] at hlin
    exact hlin
  have hzero := burst_zero hg (f := f) (fun p hp => ?_) hdiff
  · refine bits_inj (List.ext_getElem hbits fun p hp hp' => ?_)
    have hb := hzero ((bits a)[p] ^^ (bits b)[p])
      (List.mem_iff_getElem.mpr ⟨p, by simp; omega, List.getElem_zipWith ..⟩)
    revert hb
    cases (bits a)[p] <;> cases (bits b)[p] <;> decide
  · have hsame := hburst p hp
    unfold bitAt at hsame
    rcases Nat.lt_or_ge p (bits a).length with hlt | hge
    · have hlt' : p < (List.zipWith Bool.xor (bits a) (bits b)).length := by
        rw [List.length_zipWith]
        omega
      rw [← List.getElem_eq_getD (h := hlt) false,
        ← List.getElem_eq_getD (h := hbits ▸ hlt) false] at hsame
      rw [← List.getElem_eq_getD (h := hlt') false, List.getElem_zipWith, hsame]
      exact Bool.xor_self _
    · rw [List.getD_eq_getElem?_getD, List.getElem?_eq_none (by simp; omega)]
      rfl

/-! ## Codewords -/

/-- A message with its own remainder behind it, most significant bit first, leaves none. -/
theorem remainder_append {g : BitVec w} {msg tail : List (BitVec 8)}
    (htail : bits tail = topBits (remainder g msg) w) : remainder g (msg ++ tail) = 0#w := by
  have hbits : bits (msg ++ tail) = bits msg ++ bits tail := List.flatMap_append
  rw [remainder_eq_stepBits, hbits, stepBits_append, ← remainder_eq_stepBits, htail,
    stepBits_topBits, BitVec.shiftLeft_eq_zero (Nat.le_refl w)]

end Crc
