import Cheshire.Sw.I2cAddress

/-!
# What a write of the EEPROM leaves on the bus

The device stores what it was sent when a stop condition ends the transaction. The comment
in front of the last byte of a chunk says that it needs one, but it is queued with
`kDifI2cFmtTx` like all others. So no transaction of a write that returns 0 is stopped, and
none of its bytes is stored (`i2cWrite_stores_nothing`): the next chunk's start condition
takes the place of the stop that is missing.
-/

namespace Cheshire.Sw

open Firmware Firmware.Prog

variable {env : Env I2cCall}

/-! ## Transactions -/

/-- Each start condition, with what is queued behind it up to the next one. -/
def transactions : List (Byte × I2cFmt) → List (List (Byte × I2cFmt))
  | [] => []
  | x :: l =>
    if x.2 = .start then (x :: l.takeWhile (·.2 != .start)) :: transactions l else transactions l

/-- The control byte has its R/W bit clear. -/
def IsWrite (t : List (Byte × I2cFmt)) : Prop := ∃ c l, t = c :: l ∧ c.1.getLsbD 0 = false

def EndsWithStop (t : List (Byte × I2cFmt)) : Prop := ∃ l v, t = l ++ [(v, .txStop)]

/-- The address that a transaction sends behind its control byte. -/
def firstCell (t : List (Byte × I2cFmt)) : Nat :=
  ((t.getD 1 (0, .tx)).1 ++ (t.getD 2 (0, .tx)).1).toNat

theorem mem_of_transaction {l t : List (Byte × I2cFmt)} (ht : t ∈ transactions l)
    {x : Byte × I2cFmt} (hx : x ∈ t) : x ∈ l := by
  induction l with
  | nil => exact absurd ht List.not_mem_nil
  | cons y l ih =>
    unfold transactions at ht
    split at ht
    · rcases List.mem_cons.mp ht with rfl | ht
      · rcases List.mem_cons.mp hx with rfl | hx
        · exact List.mem_cons_self
        · exact List.mem_cons_of_mem _ ((List.takeWhile_sublist _).subset hx)
      · exact List.mem_cons_of_mem _ (ih ht)
    · exact List.mem_cons_of_mem _ (ih ht)

theorem exists_transaction {l : List (Byte × I2cFmt)} {v : Byte} (hv : (v, .start) ∈ l) :
    ∃ r, (v, .start) :: r ∈ transactions l := by
  induction l with
  | nil => exact absurd hv List.not_mem_nil
  | cons y l ih =>
    unfold transactions
    rcases List.mem_cons.mp hv with rfl | hv
    · rw [if_pos rfl]
      exact ⟨_, List.mem_cons_self⟩
    · obtain ⟨r, hr⟩ := ih hv
      split
      · exact ⟨r, List.mem_cons_of_mem _ hr⟩
      · exact ⟨r, hr⟩

/-! ## The device, from what was queued -/

theorem Bus.fmt_taken (b : Bus) (v : Byte) (fmt : I2cFmt) (n : Nat) :
    ({ b with taken := n } : Bus).fmt v fmt = { b.fmt v fmt with taken := n } := by
  obtain ⟨phase, ptr, cells, due, taken, reads⟩ := b
  cases fmt with
  | start => rfl
  | tx | txStop | rx =>
    cases phase with
    | idle | addrHi | addrLo | writing | reading => rfl

/-- The device has seen the format bytes that were queued, and nothing else. -/
theorem bus_eq_foldl (image : Nat → Byte) (t : I2cTrace) :
    { bus image t with taken := 0 } =
      (queued t).foldl (fun b x => b.fmt x.1 x.2) ⟨.idle, 0, image, [], 0, []⟩ := by
  induction t with
  | nil => rfl
  | cons c t ih =>
    obtain ⟨q, r⟩ := c
    cases q with
    | getFifoLevels | spinTicks | hostSetEnabled =>
      rw [bus_control rfl, queued_control rfl]
      exact ih
    | readByte =>
      show { (bus image t).next (.readByte, r) with taken := 0 } = _
      unfold Bus.next
      split
      · exact ih
      · exact ih
    | writeByte v fmt nak =>
      show { (bus image t).next (.writeByte v fmt nak, r) with taken := 0 } = _
      unfold Bus.next queued
      split
      · rw [List.foldl_append, ← ih]
        exact (Bus.fmt_taken (bus image t) v fmt 0).symm
      · exact ih

theorem Bus.fmt_cells (b : Bus) (v : Byte) {fmt : I2cFmt} (hfmt : fmt ≠ .txStop) :
    (b.fmt v fmt).cells = b.cells := by
  obtain ⟨phase, ptr, cells, due, taken, reads⟩ := b
  cases fmt with
  | start => rfl
  | txStop => exact absurd rfl hfmt
  | tx | rx =>
    cases phase with
    | idle | addrHi | addrLo | writing | reading => rfl

/-- Transactions that are queued without a stop condition change no cell of the EEPROM. -/
theorem Queued.cells_eq {image : Nat → Byte} {l : List (Byte × I2cFmt)} {s s' : I2cSt}
    (hq : Queued l s s') (hl : ∀ x ∈ l, x.2 ≠ .txStop) :
    (bus image s'.calls).cells = (bus image s.calls).cells := by
  have hfold : ∀ (l : List (Byte × I2cFmt)) (b : Bus), (∀ x ∈ l, x.2 ≠ .txStop) →
      (l.foldl (fun b x => b.fmt x.1 x.2) b).cells = b.cells := by
    intro l
    induction l with
    | nil => exact fun _ _ => rfl
    | cons x l ih =>
      intro b hx
      rw [List.foldl_cons, ih _ fun y hy => hx y (List.mem_cons_of_mem _ hy)]
      exact Bus.fmt_cells b x.1 (hx x List.mem_cons_self)
  have hcells := congrArg Bus.cells (bus_eq_foldl image s'.calls)
  rw [hq, List.foldl_append, ← bus_eq_foldl, hfold l _ hl] at hcells
  exact hcells

/-! ## A write -/

/-- What was queued has no stop condition, and, if `started`, a write transaction. -/
def Unstopped (started : Prop) (s s' : I2cSt) : Prop :=
  ∃ l, Queued l s s' ∧ (∀ x ∈ l, x.2 ≠ .txStop) ∧ (started → (0xA0, .start) ∈ l)

theorem Unstopped.trans {p q : Prop} {s s' s'' : I2cSt} (h : Unstopped p s s')
    (h' : Unstopped q s' s'') : Unstopped (p ∨ q) s s'' := by
  obtain ⟨l, hl, hstop, hstart⟩ := h
  obtain ⟨l', hl', hstop', hstart'⟩ := h'
  refine ⟨l ++ l', hl.trans hl', fun x hx => ?_, ?_⟩
  · rcases List.mem_append.mp hx with hx | hx
    · exact hstop x hx
    · exact hstop' x hx
  · rintro (hp | hq)
    · exact List.mem_append_left _ (hstart hp)
    · exact List.mem_append_right _ (hstart' hq)

theorem i2cAccessChunk_unstopped (polls rounds : Nat) (buf : Int) (addr len : Nat) (s : I2cSt) :
    partially env (i2cAccessChunk polls true rounds buf addr len) (Unstopped True s) s := by
  refine wp_mono (i2cAccessChunk_queued polls true rounds buf addr len s) (fun _ s' h' => ?_)
    fun _ _ he => he
  obtain ⟨rest, hq, hrest⟩ := h'
  refine ⟨_, hq, fun x hx => ?_, fun _ => List.mem_append_left _ ?_⟩
  · rcases List.mem_append.mp hx with hx | hx
    · exact chunkHead_tx addr x hx
    · exact hrest rfl x hx
  · rw [← ctrl_byte_eq addr]
    exact List.mem_cons_self

theorem i2cHead_unstopped (polls : Nat) (buf : Int) (addr : Nat) (s : I2cSt) :
    partially env (i2cHead polls true buf addr) (Unstopped (addr % 64 ≠ 0) s) s := by
  unfold partially i2cHead
  rw [wp_ite]
  split
  next hoffs =>
    exact ⟨[], queued_refl s, fun _ hx => absurd hx List.not_mem_nil, fun hne => absurd hoffs hne⟩
  next =>
    refine wp_mono (i2cAccessChunk_unstopped polls _ buf addr _ s) (fun _ s' h' => ?_)
      fun _ _ he => he
    obtain ⟨l, hl, hstop, hstart⟩ := h'
    exact ⟨l, hl, hstop, fun _ => hstart trivial⟩

/-- A write of at least one byte starts a transaction, and stops none. -/
theorem i2cWrite_unstopped (polls : Nat) (buf : Int) (addr : Nat) {len : Nat} (hlen : 0 < len)
    (s : I2cSt) : partially env (i2cWrite polls buf addr len) (Unstopped True s) s := by
  unfold i2cWrite i2cAccess
  refine partially_bind (· = s) rfl fun s₀ h₀ => ?_
  subst h₀
  refine partially_bind _ (i2cHead_unstopped polls buf addr s₀) fun s₁ h₁ => ?_
  refine wp_mono (wp_upTo (fun i => Unstopped (addr % 64 ≠ 0 ∨ 0 < i) s₀) ?_ ?_)
    (fun _ s' h' => ?_) fun _ _ he => he
  · intro i _ s' h'
    refine wp_mono (i2cAccessChunk_unstopped polls _ _ _ _ s') (fun _ s'' h'' => ?_)
      fun _ _ he => he
    obtain ⟨l, hl, hstop, hstart⟩ := h'.trans h''
    exact ⟨l, hl, hstop, fun _ => hstart (Or.inr trivial)⟩
  · obtain ⟨l, hl, hstop, hstart⟩ := h₁
    exact ⟨l, hl, hstop, fun h => hstart (h.resolve_right (Nat.lt_irrefl 0))⟩
  · obtain ⟨l, hl, hstop, hstart⟩ := h'
    refine ⟨l, hl, hstop, fun _ => hstart ?_⟩
    -- without a head chunk the loop is entered
    rcases headLen_cases addr with ⟨-, hhead⟩ | ⟨hoffs, -⟩
    · unfold i2cFifoDepth
      rw [hhead]
      omega
    · exact Or.inl hoffs

/-- What a caller relies on: the buffer is stored, from inside the buffer and by transactions
that the device carries out, and no other byte of the device changes. -/
structure WriteExact (image : Nat → Byte) (buf : Int) (addr len : Nat) (s s' : I2cSt) : Prop where
  stops : ∀ l, Queued l s s' → ∀ t ∈ transactions l, IsWrite t → EndsWithStop t
  window : ∀ l, Queued l s s' → ∀ t ∈ transactions l, IsWrite t →
    InWindow (firstCell t, t.length - 3)
  source : ∃ new, s'.mem.loads = new ++ s.mem.loads ∧ ∀ p ∈ new, buf ≤ p.2 ∧ p.2 < buf + len
  cells : ∀ b, (bus image s'.calls).cells b =
    if addr ≤ b ∧ b < addr + len then s.mem.get () (buf + (b - addr : Nat))
    else (bus image s.calls).cells b

theorem Unstopped.not_exact {image : Nat → Byte} {buf : Int} {addr len : Nat} {s s' : I2cSt}
    (h : Unstopped True s s') : ¬WriteExact image buf addr len s s' := by
  rintro ⟨hstops, -, -, -⟩
  obtain ⟨l, hl, hstop, hstart⟩ := h
  obtain ⟨r, hr⟩ := exists_transaction (hstart trivial)
  obtain ⟨body, v, hend⟩ := hstops l hl _ hr ⟨_, _, rfl, rfl⟩
  refine hstop (v, .txStop) (mem_of_transaction hr ?_) rfl
  rw [hend]
  exact List.mem_append_right _ (List.mem_singleton_self _)

/-- No write that returns 0 is exact: none of its transactions is stopped, and the device
keeps all its bytes. -/
theorem i2cWrite_stores_nothing (env : Env I2cCall) (image : Nat → Byte) (polls : Nat) (buf : Int)
    (addr : Nat) {len : Nat} (hlen : 0 < len) {s s' : I2cSt}
    (hrun : i2cWrite polls buf addr len env s = (.ok (), s')) :
    ¬WriteExact image buf addr len s s' ∧
      (bus image s'.calls).cells = (bus image s.calls).cells := by
  have hunstopped := wp_ok (i2cWrite_unstopped polls buf addr hlen s) hrun
  refine ⟨hunstopped.not_exact, ?_⟩
  obtain ⟨l, hl, hstop, -⟩ := hunstopped
  exact hl.cells_eq hstop

/-- A write of 100 bytes, as a head chunk and two more, leaves an erased EEPROM erased. -/
theorem i2cWrite_stores_nothing_hundred :
    (bus (fun _ => 0xFF) (i2cWrite 1 0 0x30 100 acceptingDif i2cStart).2.calls).cells =
      fun _ => 0xFF := by
  have hrun : (i2cWrite 1 0 0x30 100 acceptingDif i2cStart).1 = .ok () := by decide +kernel
  exact (i2cWrite_stores_nothing acceptingDif (fun _ => 0xFF) 1 0 0x30 (by omega)
    (run_eq hrun)).2

/-- One byte: 0 is returned, and the device is as it was. -/
theorem i2cWrite_one_byte :
    (i2cWrite 1 0 0 1 acceptingDif i2cStart).1 = .ok () ∧
      ¬WriteExact (fun _ => 0xFF) 0 0 1 i2cStart (i2cWrite 1 0 0 1 acceptingDif i2cStart).2 := by
  have hrun : (i2cWrite 1 0 0 1 acceptingDif i2cStart).1 = .ok () := by decide +kernel
  have hspec : partially acceptingDif (i2cWrite 1 0 0 1) (Unstopped True i2cStart) i2cStart :=
    i2cWrite_unstopped 1 0 0 Nat.one_pos i2cStart
  exact ⟨hrun, (wp_ok hspec (run_eq hrun)).not_exact⟩

end Cheshire.Sw
