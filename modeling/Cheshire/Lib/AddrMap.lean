import Mathlib.Algebra.Group.Nat.Defs
import Mathlib.Data.List.Count
import Mathlib.Data.List.Nodup
import Mathlib.Data.List.Range

/-!
# Address maps: rules, decoding, and maps built with running counters

An interconnect sends an address to the port of a rule that covers it. `hits`
counts the covering rules, so that "at most one" and "exactly one" mean rules of
the list, not addresses. `Selects` is what any decoder does with the list,
whatever its priority among several hits: every covering rule names the port,
and there is one.

`Gen` is the state of a function that writes such a map: the last port number
handed out, the last slot of the map used, the port noted for each device, and
the map, an array of `2 ^ w` slots in which a store beyond the end is lost.
`rules_addAll` and `port_addAll` say what a list of devices leaves there;
`Gen.finish` closes the map with the external ports.
-/

namespace AddrMap

/-- The addresses `start ≤ a < pte` that a rule is for. -/
structure Window (α : Type) where
  start : α
  pte : α
  deriving DecidableEq, Repr

/-- Addresses in the window go to port `idx`. -/
structure Rule (ι α : Type) where
  idx : ι
  window : Window α
  deriving DecidableEq, Repr

section Decode

variable {ι α : Type} [LE α] [LT α] [DecidableLE α] [DecidableLT α]

def Window.Covers (v : Window α) (a : α) : Prop := v.start ≤ a ∧ a < v.pte

instance (v : Window α) (a : α) : Decidable (v.Covers a) := inferInstanceAs (Decidable (_ ∧ _))

/-- How many windows of the list cover `a`. -/
def hits (l : List (Window α)) (a : α) : Nat := l.countP fun v => decide (v.Covers a)

/-- The windows of a map's rules, in the order of the rules. -/
def windows (l : List (Rule ι α)) : List (Window α) := l.map Rule.window

/-- Some rule covers `a`, and every rule that does names port `p`. -/
def Selects (l : List (Rule ι α)) (a : α) (p : ι) : Prop :=
  (∃ r ∈ l, r.window.Covers a) ∧ ∀ r ∈ l, r.window.Covers a → r.idx = p

@[simp] theorem hits_append (l m : List (Window α)) (a : α) :
    hits (l ++ m) a = hits l a + hits m a := List.countP_append

theorem hits_cons (v : Window α) (l : List (Window α)) (a : α) :
    hits (v :: l) a = hits l a + if v.Covers a then 1 else 0 := by
  unfold hits
  rw [List.countP_cons]
  by_cases h : v.Covers a
  · simp [h]
  · simp [h]

theorem hits_eq_zero {l : List (Window α)} {a : α} : hits l a = 0 ↔ ∀ v ∈ l, ¬v.Covers a := by
  unfold hits
  rw [List.countP_eq_zero]
  simp

theorem hits_pos {l : List (Window α)} {a : α} : 0 < hits l a ↔ ∃ v ∈ l, v.Covers a := by
  unfold hits
  rw [List.countP_pos_iff]
  simp

/-- Windows that share no address are hit at most once. -/
theorem hits_le_one {l : List (Window α)} {a : α}
    (h : l.Pairwise fun v v' => ¬(v.Covers a ∧ v'.Covers a)) : hits l a ≤ 1 := by
  induction l with
  | nil => exact Nat.zero_le 1
  | cons v l ih =>
    obtain ⟨hv, hl⟩ := List.pairwise_cons.mp h
    rw [hits_cons]
    by_cases hc : v.Covers a
    · rw [if_pos hc, hits_eq_zero.mpr (fun v' hv' hc' => hv v' hv' ⟨hc, hc'⟩)]
    · rw [if_neg hc]
      exact ih hl

/-- An address that a rule covers and at most one window contains is decoded to that rule's
index. -/
theorem selects_of_hits {l : List (Rule ι α)} {a : α} {r : Rule ι α} (hr : r ∈ l)
    (hc : r.window.Covers a) (h1 : hits (windows l) a ≤ 1) : Selects l a r.idx := by
  refine ⟨⟨r, hr, hc⟩, fun r' hr' hc' => ?_⟩
  obtain ⟨l₁, l₂, rfl⟩ := List.append_of_mem hr
  unfold windows at h1
  rw [List.map_append, List.map_cons, hits_append, hits_cons, if_pos hc] at h1
  rcases List.mem_append.mp hr' with h | h
  · exact absurd hc' (hits_eq_zero.mp (by omega) _ (List.mem_map_of_mem h))
  · rcases List.mem_cons.mp h with rfl | h
    · rfl
    · exact absurd hc' (hits_eq_zero.mp (by omega) _ (List.mem_map_of_mem h))

end Decode

/-! ## Building a map -/

/-- A store to slot `k` of an array of `cap` slots; beyond the end it is lost. -/
def store {β : Type} (cap : Nat) (m : Nat → β) (k : Nat) (v : β) : Nat → β := fun j =>
  if j = k ∧ k < cap then v else m j

/-- A device and the window its rule holds. -/
structure Entry (D α : Type) where
  dev : D
  window : Window α

/-- `Entry`s as rules, with ports numbered upward from `i`. -/
def numbered {D α : Type} (w : Nat) : Nat → List (Entry D α) → List (Rule (BitVec w) α)
  | _, [] => []
  | i, e :: l => ⟨BitVec.ofNat w i, e.window⟩ :: numbered w (i + 1) l

theorem numbered_append {D α : Type} {w : Nat} (l m : List (Entry D α)) (i : Nat) :
    numbered w i (l ++ m) = numbered w i l ++ numbered w (i + l.length) m := by
  induction l generalizing i with
  | nil => rfl
  | cons e l ih =>
    rw [List.cons_append, numbered, ih, numbered, List.cons_append, List.length_cons,
      show i + 1 + l.length = i + (l.length + 1) by omega]

theorem numbered_length {D α : Type} {w : Nat} (l : List (Entry D α)) (i : Nat) :
    (numbered w i l).length = l.length := by
  induction l generalizing i with
  | nil => rfl
  | cons e l ih => rw [numbered, List.length_cons, List.length_cons, ih]

theorem numbered_getElem {D α : Type} {w : Nat} (l : List (Entry D α)) (i k : Nat)
    (hk : k < (numbered w i l).length) (hk' : k < l.length) :
    (numbered w i l)[k] = ⟨BitVec.ofNat w (i + k), l[k].window⟩ := by
  induction l generalizing i k with
  | nil => exact absurd hk' (Nat.not_lt_zero k)
  | cons e l ih =>
    cases k with
    | zero => rfl
    | succ k =>
      simp only [numbered, List.getElem_cons_succ]
      rw [ih, show i + 1 + k = i + (k + 1) by omega]

theorem windows_numbered {D α : Type} {w : Nat} (l : List (Entry D α)) (i : Nat) :
    windows (numbered w i l) = l.map Entry.window := by
  induction l generalizing i with
  | nil => rfl
  | cons e l ih =>
    rw [List.map_cons, ← ih (i + 1)]
    rfl

/-- A map under construction, with the counters of its generator. -/
structure Gen (D : Type) (w : Nat) (α : Type) where
  /-- The last port number handed out. -/
  i : Nat
  /-- The last slot used. -/
  r : Nat
  port : D → BitVec w
  map : Nat → Rule (BitVec w) α

/-- A finished map with its port numbers and the number of its ports and rules. -/
structure Out (D : Type) (w : Nat) (α : Type) where
  port : D → BitVec w
  extBase : BitVec w
  numOut : BitVec w
  numRules : BitVec w
  map : Nat → Rule (BitVec w) α

/-- The rules that a decoder is given: as many slots of the map as there are rules. -/
def Out.rules {D α : Type} {w : Nat} (o : Out D w α) : List (Rule (BitVec w) α) :=
  (List.range o.numRules.toNat).map o.map

namespace Gen

variable {D α : Type} {w : Nat} [DecidableEq D]

/-- `i++;`: the next port number. -/
def bump (g : Gen D w α) : Gen D w α := { g with i := g.i + 1 }

/-- `ret.d = i;`: the port number becomes that of device `d`. -/
def name (g : Gen D w α) (d : D) : Gen D w α :=
  { g with port := fun d' => if d' = d then BitVec.ofNat w g.i else g.port d' }

/-- `r++; ret.map[r] = rule;`: a rule in the next slot. -/
def push (g : Gen D w α) (rule : Rule (BitVec w) α) : Gen D w α :=
  { g with r := g.r + 1, map := store (2 ^ w) g.map (g.r + 1) rule }

/-- `r++; ret.map[r] = '{i, start, pte};`: a rule for the port number reached. -/
def rule (g : Gen D w α) (v : Window α) : Gen D w α := g.push ⟨BitVec.ofNat w g.i, v⟩

/-- `i++; ret.d = i; r++; ret.map[r] = '{i, start, pte};` where the device's field is
in range. -/
def add (stored : D → Bool) (g : Gen D w α) (e : Entry D α) : Gen D w α :=
  let g := g.bump
  let g := if stored e.dev then g.name e.dev else g
  g.rule e.window

/-- One `add` for each entry, in the order of the list. -/
def addAll (stored : D → Bool) (g : Gen D w α) (l : List (Entry D α)) : Gen D w α :=
  l.foldl (add stored) g

/-- `i++; r++;`, the external port numbers, and one rule for each external region. -/
def finish (g : Gen D w α) (numSlv : Nat) (ext : BitVec w → List (Rule (BitVec w) α)) :
    Out D w α :=
  let extBase := BitVec.ofNat w (g.i + 1)
  { port := g.port
    extBase := extBase
    numOut := BitVec.ofNat w (g.i + 1 + numSlv)
    numRules := BitVec.ofNat w (g.r + 1 + (ext extBase).length)
    map := ((ext extBase).foldl push g).map }

/-- The slots used so far, as the list of rules they hold. -/
def rules (g : Gen D w α) : List (Rule (BitVec w) α) := (List.range (g.r + 1)).map g.map

variable {g : Gen D w α} {stored : D → Bool}

omit [DecidableEq D] in
theorem rules_push (rule : Rule (BitVec w) α) (hr : g.r + 1 < 2 ^ w) :
    (g.push rule).rules = g.rules ++ [rule] := by
  unfold rules push store
  dsimp only
  rw [List.range_succ, List.map_append]
  congr 1
  · -- the slots below keep their rules
    refine List.map_congr_left (fun k hk => ?_)
    rw [List.mem_range] at hk
    rw [if_neg (by omega)]
  · simp [hr]

omit [DecidableEq D] in
theorem r_pushAll (l : List (Rule (BitVec w) α)) (g : Gen D w α) :
    (l.foldl push g).r = g.r + l.length := by
  induction l generalizing g with
  | nil => rfl
  | cons rule l ih =>
    rw [List.foldl_cons, ih, List.length_cons]
    show g.r + 1 + l.length = g.r + (l.length + 1)
    omega

omit [DecidableEq D] in
theorem rules_pushAll (l : List (Rule (BitVec w) α)) (g : Gen D w α)
    (hr : g.r + l.length < 2 ^ w) : (l.foldl push g).rules = g.rules ++ l := by
  induction l generalizing g with
  | nil => simp
  | cons rule l ih =>
    rw [List.length_cons] at hr
    have hg : (g.push rule).r = g.r + 1 := rfl
    rw [List.foldl_cons, ih _ (by omega), rules_push rule (by omega), List.append_assoc,
      List.singleton_append]

omit [DecidableEq D] in
theorem rules_finish {numSlv : Nat} {ext : BitVec w → List (Rule (BitVec w) α)}
    (hr : g.r + 1 + (ext (BitVec.ofNat w (g.i + 1))).length < 2 ^ w) :
    (g.finish numSlv ext).rules = g.rules ++ ext (BitVec.ofNat w (g.i + 1)) := by
  rw [← rules_pushAll _ g (by omega)]
  unfold Out.rules finish rules
  dsimp only
  rw [BitVec.toNat_ofNat, Nat.mod_eq_of_lt hr, r_pushAll]
  congr 2
  omega

/-! Adding a list of devices -/

theorem add_i (e : Entry D α) : (g.add stored e).i = g.i + 1 := by
  unfold add
  split <;> rfl

theorem add_r (e : Entry D α) : (g.add stored e).r = g.r + 1 := by
  unfold add
  split <;> rfl

theorem rules_add (e : Entry D α) (hr : g.r + 1 < 2 ^ w) :
    (g.add stored e).rules = g.rules ++ [⟨BitVec.ofNat w (g.i + 1), e.window⟩] := by
  unfold add
  split
  · exact rules_push _ hr
  · exact rules_push _ hr

theorem port_add (e : Entry D α) (d : D) :
    (g.add stored e).port d
      = if d = e.dev ∧ stored d then BitVec.ofNat w (g.i + 1) else g.port d := by
  unfold add
  by_cases hd : d = e.dev
  · subst hd
    by_cases hs : stored e.dev = true
    · simp [hs, name, rule, push, bump]
    · simp [hs, rule, push, bump]
  · rw [if_neg (fun h => hd h.1)]
    split
    · simp [name, rule, push, bump, hd]
    · rfl

@[simp] theorem addAll_nil : g.addAll stored [] = g := rfl

@[simp] theorem addAll_append (l m : List (Entry D α)) :
    g.addAll stored (l ++ m) = (g.addAll stored l).addAll stored m := List.foldl_append

theorem addAll_cons (e : Entry D α) (l : List (Entry D α)) :
    g.addAll stored (e :: l) = (g.add stored e).addAll stored l := rfl

theorem ite_add (c : Bool) (e : Entry D α) :
    (if c then g.add stored e else g) = g.addAll stored (if c then [e] else []) := by
  cases c <;> rfl

theorem foldl_add {β : Type} (e : β → Entry D α) (l : List β) :
    l.foldl (fun g j => g.add stored (e j)) g = g.addAll stored (l.map e) := by
  unfold addAll
  rw [List.foldl_map]

theorem addAll_i (l : List (Entry D α)) (g : Gen D w α) :
    (g.addAll stored l).i = g.i + l.length := by
  induction l generalizing g with
  | nil => rfl
  | cons e l ih => rw [addAll_cons, ih, add_i, List.length_cons]; omega

theorem addAll_r (l : List (Entry D α)) (g : Gen D w α) :
    (g.addAll stored l).r = g.r + l.length := by
  induction l generalizing g with
  | nil => rfl
  | cons e l ih => rw [addAll_cons, ih, add_r, List.length_cons]; omega

theorem rules_addAll (l : List (Entry D α)) (g : Gen D w α) (hr : g.r + l.length < 2 ^ w) :
    (g.addAll stored l).rules = g.rules ++ numbered w (g.i + 1) l := by
  induction l generalizing g with
  | nil => simp [numbered]
  | cons e l ih =>
    rw [List.length_cons] at hr
    rw [addAll_cons, ih _ (by rw [add_r]; omega), rules_add e (by omega), add_i, numbered,
      List.append_assoc, List.singleton_append]

theorem port_addAll_of_not_mem {d : D} (l : List (Entry D α)) (g : Gen D w α)
    (hd : d ∉ l.map Entry.dev ∨ stored d = false) : (g.addAll stored l).port d = g.port d := by
  induction l generalizing g with
  | nil => rfl
  | cons e l ih =>
    have hrest : d ∉ l.map Entry.dev ∨ stored d = false :=
      hd.imp (fun h hm => h (List.mem_cons_of_mem _ hm)) id
    rw [addAll_cons, ih _ hrest, port_add, if_neg]
    intro h
    rcases hd with hd | hd
    · exact hd (by rw [h.1]; exact List.mem_cons_self ..)
    · exact absurd h.2 (by simp [hd])

/-- The port that a stored device gets is its position in the list, counted from the generator's
next index. -/
theorem port_addAll {d : D} (l : List (Entry D α)) (g : Gen D w α)
    (hnd : (l.map Entry.dev).Nodup) (hd : d ∈ l.map Entry.dev) (hs : stored d = true) :
    (g.addAll stored l).port d = BitVec.ofNat w (g.i + 1 + (l.map Entry.dev).idxOf d) := by
  induction l generalizing g with
  | nil => exact absurd hd List.not_mem_nil
  | cons e l ih =>
    rw [List.map_cons] at hnd hd ⊢
    rw [List.nodup_cons] at hnd
    rw [addAll_cons]
    by_cases he : d = e.dev
    · -- no later entry is the same device, so its number stays
      rw [port_addAll_of_not_mem l _ (Or.inl (he ▸ hnd.1)), port_add, if_pos ⟨he, hs⟩, he,
        List.idxOf_cons_self, Nat.add_zero]
    · have hmem : d ∈ l.map Entry.dev := (List.mem_cons.mp hd).resolve_left he
      rw [ih _ hnd.2 hmem, add_i, List.idxOf_cons_ne _ (fun h => he h.symm)]
      congr 1
      omega

end Gen

end AddrMap
