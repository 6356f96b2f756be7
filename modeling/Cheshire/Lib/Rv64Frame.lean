import Cheshire.Lib.Rv64Mem

/-!
# Registers saved in a frame

A routine that has to leave registers as they were stores them to a frame, does what it
has to do, and loads them back. `Slots` says which register is where in the frame. If no
two slots overlap, and the bytes of the frame are the same again when they are loaded,
every saved register is the same again too (`restores_saves`).
-/

namespace Rv64Mem

open Transition Rv64

/-- Registers, and how far into the frame each is. -/
abbrev Slots := List (Reg × Nat)

variable {L S : Type}

def saves (base : Reg) (l : Slots) : Program L S :=
  l.map fun x => .ins (.sd x.1 (BitVec.ofNat 64 x.2) base)

def restores (base : Reg) (l : Slots) : Program L S :=
  l.map fun x => .ins (.ld x.1 (BitVec.ofNat 64 x.2) base)

/-- Memory with the values of the registers in the frame at `a`. -/
def savedAt (a : Word) (v : Reg → Word) : Slots → Span.Memory → Span.Memory
  | [], m => m
  | x :: l, m => savedAt a v l (storeLe m (Span.nth a x.2) (v x.1) 8)

/-- Each in its own eight bytes of a frame of `n`. -/
structure Slots.InFrame (l : Slots) (base : Reg) (n : Nat) : Prop where
  apart : l.Pairwise fun x y => x.2 + 8 ≤ y.2 ∨ y.2 + 8 ≤ x.2
  inside : ∀ x ∈ l, x.2 + 8 ≤ n
  regs : (l.map (·.1)).Nodup
  other : ∀ x ∈ l, x.1 ≠ base ∧ x.1 ≠ 0
  size : n < 2 ^ 64

/-! ## Memory -/

theorem savedAt_outside {a x : Word} {v : Reg → Word} : ∀ (l : Slots) (m : Span.Memory),
    (∀ y ∈ l, ¬Span.Within (Span.nth a y.2) 8 x) → savedAt a v l m x = m x
  | [], _, _ => rfl
  | y :: l, m, h => by
    obtain ⟨hy, hl⟩ := List.forall_mem_cons.mp h
    refine (savedAt_outside l _ hl).trans ?_
    exact storeLe_outside m _ hy

/-- Two slots that lie at least 8 bytes apart in a frame have no byte in common. -/
theorem apart_within {a : Word} {n o o' : Nat} (hn : n < 2 ^ 64) (ho : o + 8 ≤ n) (ho' : o' + 8 ≤ n)
    (h : o + 8 ≤ o' ∨ o' + 8 ≤ o) {k : Nat} (hk : k < 8) :
    ¬Span.Within (Span.nth a o') 8 (Span.nth (Span.nth a o) k) := by
  intro hin
  obtain ⟨j, hj, -, heq⟩ := Span.within_iff.mp hin
  rw [Span.nth_nth, Span.nth_nth] at heq
  have hsame := Span.nth_inj (by omega) (by omega) heq
  omega

theorem loadD_savedAt {a : Word} {v : Reg → Word} {n : Nat} (hn : n < 2 ^ 64) :
    ∀ (l : Slots) (m : Span.Memory), (l.Pairwise fun x y => x.2 + 8 ≤ y.2 ∨ y.2 + 8 ≤ x.2) →
    (∀ x ∈ l, x.2 + 8 ≤ n) → ∀ x ∈ l, loadD (savedAt a v l m) (Span.nth a x.2) = v x.1
  | [], _, _, _, _, hx => absurd hx List.not_mem_nil
  | y :: l, m, hapart, hin, x, hx => by
    obtain ⟨hy, hrest⟩ := List.pairwise_cons.mp hapart
    obtain ⟨hyn, hln⟩ := List.forall_mem_cons.mp hin
    rcases List.mem_cons.mp hx with rfl | hx
    · refine (loadD_congr fun k hk => ?_).trans (loadD_storeLe m (Span.nth a x.2) (v x.1))
      refine savedAt_outside l _ fun z hz => ?_
      exact apart_within hn hyn (hln z hz) (hy z hz) hk
    · exact loadD_savedAt hn l _ hrest hln x hx

/-! ## The lines -/

variable [DecidableEq L] {P : Program L S} {W : World S}

theorem lines_saves {base : Reg} : ∀ (l : Slots) (s : St),
    lines P W (saves base l) s
      = { s with pc := s.pc + l.length, hart.mem := savedAt (s.get base) s.get l s.hart.mem }
  | [], _ => rfl
  | x :: l, s => by
    refine (lines_saves l _).trans ?_
    rw [List.length_cons, Nat.add_comm l.length, ← Nat.add_assoc]
    rfl

/-- The loads touch no memory, no CSR and no other register. -/
theorem lines_restores {base : Reg} : ∀ (l : Slots) (s : St), (l.map (·.1)).Nodup →
    (∀ x ∈ l, x.1 ≠ base ∧ x.1 ≠ 0) →
    ∃ regs, lines P W (restores base l) s
        = { s with pc := s.pc + l.length, hart.regs := regs } ∧
      (∀ x ∈ l, Rv64.get regs x.1 = loadD s.hart.mem (Span.nth (s.get base) x.2)) ∧
      ∀ r, (∀ x ∈ l, x.1 ≠ r) → Rv64.get regs r = s.get r
  | [], s, _, _ => ⟨s.hart.regs, rfl, nofun, fun _ _ => rfl⟩
  | x :: l, s, hnodup, hregs => by
    obtain ⟨hx, hnodup⟩ := List.nodup_cons.mp hnodup
    obtain ⟨⟨hbase, hzero⟩, hregs⟩ := List.forall_mem_cons.mp hregs
    obtain ⟨regs, hlines, hloaded, hother⟩ := lines_restores l
      (exec P W s (.ld x.1 (BitVec.ofNat 64 x.2) base)) hnodup hregs
    have hsp : (exec P W s (.ld x.1 (BitVec.ofNat 64 x.2) base)).get base = s.get base :=
      get_set_ne (Ne.symm hbase)
    rw [hsp] at hloaded
    refine ⟨regs, hlines.trans ?_, fun y hy => ?_, fun r hr => ?_⟩
    · rw [List.length_cons, Nat.add_comm l.length, ← Nat.add_assoc]
      rfl
    · rcases List.mem_cons.mp hy with rfl | hy
      · have hleft : ∀ z ∈ l, z.1 ≠ y.1 := fun z hz heq => hx (List.mem_map.mpr ⟨z, hz, heq⟩)
        exact (hother y.1 hleft).trans (get_set_self hzero)
      · exact hloaded y hy
    · obtain ⟨hxr, hl⟩ := List.forall_mem_cons.mp hr
      exact (hother r hl).trans (get_set_ne (Ne.symm hxr))

/-- Loads from a frame that is still as the stores left it. -/
theorem restores_saves {base : Reg} {l : Slots} {n : Nat} (hl : l.InFrame base n) {s t : St}
    (hbase : t.get base = s.get base)
    (hmem : ∀ k < n, t.hart.mem (Span.nth (s.get base) k)
      = savedAt (s.get base) s.get l s.hart.mem (Span.nth (s.get base) k)) :
    ∃ regs, lines P W (restores base l) t
        = { t with pc := t.pc + l.length, hart.regs := regs } ∧
      (∀ x ∈ l, Rv64.get regs x.1 = s.get x.1) ∧
      ∀ r, (∀ x ∈ l, x.1 ≠ r) → Rv64.get regs r = t.get r := by
  obtain ⟨regs, hlines, hloaded, hother⟩ := lines_restores (P := P) (W := W) l t hl.regs hl.other
  refine ⟨regs, hlines, fun x hx => ?_, hother⟩
  rw [hloaded x hx, hbase, ← loadD_savedAt (a := s.get base) (v := s.get) hl.size l s.hart.mem
    hl.apart hl.inside x hx]
  refine loadD_congr fun k hk => ?_
  have hin := hl.inside x hx
  rw [Span.nth_nth]
  exact hmem (x.2 + k) (by omega)

/-- Saving registers in the slots of a frame changes no byte outside the frame. -/
theorem savedAt_frame {base : Reg} {l : Slots} {n : Nat} (hl : l.InFrame base n) {a x : Word}
    {v : Reg → Word} {m : Span.Memory} (hx : ¬Span.Within a n x) : savedAt a v l m x = m x := by
  refine savedAt_outside l m fun y hy hin => hx ?_
  have hsize := hl.size
  have hslot := hl.inside y hy
  obtain ⟨k, hk, -, rfl⟩ := Span.within_iff.mp hin
  rw [Span.nth_nth, Span.within_nth (by omega)]
  omega

end Rv64Mem
