import Esp32Project.EasyHeap.Heap
import Esp32Project.Lib.Range
import Mathlib.Data.List.Basic

/-!
Blocks laid out one after the other, each behind an eight-byte header. The
list of segments is the abstract heap; `Laid` ties it to the headers.
-/

set_option autoImplicit false

namespace Esp32Project.EasyHeap
open Esp32Project.Lib

section

variable (h : Heap) {a b v : Nat} {w : UInt8}

theorem prev_setPrev_self (hv : v < 65536) : (h.setPrev a v).prev a = v :=
  h.ram.read16_write16_same hv
theorem next_setNext_self (hv : v < 65536) : (h.setNext a v).next a = v :=
  h.ram.read16_write16_same hv
theorem used_setUsed_self : (h.setUsed a w).used a = w := h.ram.write8_same

theorem prev_setPrev (hab : a + 2 ≤ b ∨ b + 2 ≤ a) : (h.setPrev a v).prev b = h.prev b :=
  h.ram.read16_write16_apart hab
theorem next_setPrev (hab : a ≤ b ∨ b + 4 ≤ a) : (h.setPrev a v).next b = h.next b :=
  h.ram.read16_write16_apart (by omega)
theorem used_setPrev (hab : a ≤ b ∨ b + 5 ≤ a) : (h.setPrev a v).used b = h.used b :=
  h.ram.write16_other (by omega) (by omega)

theorem prev_setNext (hab : a + 4 ≤ b ∨ b ≤ a) : (h.setNext a v).prev b = h.prev b :=
  h.ram.read16_write16_apart (by omega)
theorem next_setNext (hab : a + 2 ≤ b ∨ b + 2 ≤ a) : (h.setNext a v).next b = h.next b :=
  h.ram.read16_write16_apart (by omega)
theorem used_setNext (hab : a ≤ b ∨ b + 3 ≤ a) : (h.setNext a v).used b = h.used b :=
  h.ram.write16_other (by omega) (by omega)

theorem prev_setUsed (hab : a + 5 ≤ b ∨ b ≤ a) : (h.setUsed a w).prev b = h.prev b :=
  h.ram.read16_write8_apart (by omega)
theorem next_setUsed (hab : a + 3 ≤ b ∨ b ≤ a) : (h.setUsed a w).next b = h.next b :=
  h.ram.read16_write8_apart (by omega)
theorem used_setUsed (hab : a ≠ b) : (h.setUsed a w).used b = h.used b :=
  h.ram.write8_other (by omega)

theorem next_lt : h.next a < 65536 := h.ram.read16_lt

end

def SameHeader (h h' : Heap) (a : Nat) : Prop :=
  h'.prev a = h.prev a ∧ h'.next a = h.next a ∧ h'.used a = h.used a

section

variable {h h' h'' : Heap} {a b v : Nat} {w : UInt8}

theorem SameHeader.trans (h₁ : SameHeader h h' b) (h₂ : SameHeader h' h'' b) :
    SameHeader h h'' b :=
  ⟨h₂.1.trans h₁.1, h₂.2.1.trans h₁.2.1, h₂.2.2.trans h₁.2.2⟩

theorem sameHeader_setPrev (hab : Apart a sizeofMemHeap b sizeofMemHeap) :
    SameHeader h (h.setPrev a v) b := by
  simp only [Apart, sizeofMemHeap] at hab
  exact ⟨prev_setPrev h (by omega), next_setPrev h (by omega), used_setPrev h (by omega)⟩

theorem sameHeader_setNext (hab : Apart a sizeofMemHeap b sizeofMemHeap) :
    SameHeader h (h.setNext a v) b := by
  simp only [Apart, sizeofMemHeap] at hab
  exact ⟨prev_setNext h (by omega), next_setNext h (by omega), used_setNext h (by omega)⟩

theorem sameHeader_setUsed (hab : Apart a sizeofMemHeap b sizeofMemHeap) :
    SameHeader h (h.setUsed a w) b := by
  simp only [Apart, sizeofMemHeap] at hab
  exact ⟨prev_setUsed h (by omega), next_setUsed h (by omega), used_setUsed h (by omega)⟩

end

/-- A block: its payload bytes, and the size its holder asked for when it is used. -/
structure Seg where
  size : Nat
  owner : Option Nat
  deriving DecidableEq, Repr

def Seg.bytes (g : Seg) : Nat := sizeofMemHeap + g.size

def Seg.isUsed (g : Seg) : Bool := g.owner.isSome

def span : List Seg → Nat
  | [] => 0
  | g :: gs => g.bytes + span gs

def starts : Nat → List Seg → List Nat
  | _, [] => []
  | a, g :: gs => a :: starts (a + g.bytes) gs

/-- The offset of the block before the end, `p` when there is none. -/
def lastStart : Nat → Nat → List Seg → Nat
  | p, _, [] => p
  | _, a, g :: gs => lastStart a (a + g.bytes) gs

/-- The payload offsets of the used blocks, with the sizes asked for. -/
def owned : Nat → List Seg → List (Nat × Nat)
  | _, [] => []
  | a, g :: gs => (g.owner.map (fun n => (a + sizeofMemHeap, n))).toList ++ owned (a + g.bytes) gs

/-- The headers from `a` on are those of the segments; `p` is the block before. -/
def Laid (h : Heap) : Nat → Nat → List Seg → Prop
  | _, _, [] => True
  | p, a, g :: gs => h.prev a = p ∧ h.next a = a + g.bytes ∧ (h.used a = 0 ↔ g.owner = none) ∧
      Laid h a (a + g.bytes) gs

@[simp] theorem span_append (xs ys : List Seg) : span (xs ++ ys) = span xs + span ys := by
  induction xs with
  | nil => simp [span]
  | cons g xs ih => simp [span, ih, Nat.add_assoc]

theorem starts_append (a : Nat) (xs ys : List Seg) :
    starts a (xs ++ ys) = starts a xs ++ starts (a + span xs) ys := by
  induction xs generalizing a with
  | nil => simp [starts, span]
  | cons g xs ih => simp [starts, span, ih, Nat.add_assoc]

theorem owned_append (a : Nat) (xs ys : List Seg) :
    owned a (xs ++ ys) = owned a xs ++ owned (a + span xs) ys := by
  induction xs generalizing a with
  | nil => simp [owned, span]
  | cons g xs ih => simp [owned, span, ih, Nat.add_assoc]

theorem lastStart_append_one (p a : Nat) (xs : List Seg) (g : Seg) :
    lastStart p a (xs ++ [g]) = a + span xs := by
  induction xs generalizing p a with
  | nil => simp [lastStart, span]
  | cons k xs ih => simp [lastStart, span, ih, Nat.add_assoc]

theorem laid_append (h : Heap) (p a : Nat) (xs ys : List Seg) :
    Laid h p a (xs ++ ys) ↔ Laid h p a xs ∧ Laid h (lastStart p a xs) (a + span xs) ys := by
  induction xs generalizing p a with
  | nil => simp [Laid, lastStart, span]
  | cons g xs ih =>
    simp only [List.cons_append, Laid, lastStart, span, ih, ← Nat.add_assoc, and_assoc]

theorem seg_bytes_pos (g : Seg) : sizeofMemHeap ≤ g.bytes := Nat.le_add_right _ _

theorem Laid.congr {h h' : Heap} {p a : Nat} {gs : List Seg} (hl : Laid h p a gs)
    (hs : ∀ b, a ≤ b → b + sizeofMemHeap ≤ a + span gs → SameHeader h h' b) :
    Laid h' p a gs := by
  induction gs generalizing p a with
  | nil => trivial
  | cons g gs ih =>
    have hb := seg_bytes_pos g
    simp only [span] at hs
    obtain ⟨hp, hn, hu⟩ := hs a (Nat.le_refl a) (by omega)
    refine ⟨hp.trans hl.1, hn.trans hl.2.1, hu ▸ hl.2.2.1, ih hl.2.2.2 fun b hlo hhi => ?_⟩
    exact hs b (by omega) (by omega)

theorem Laid.relink {h h' : Heap} {p p' a : Nat} {gs : List Seg} (hl : Laid h p a gs)
    (hfirst : gs ≠ [] → h'.prev a = p' ∧ h'.next a = h.next a ∧ h'.used a = h.used a)
    (hs : ∀ b, a + sizeofMemHeap ≤ b → b + sizeofMemHeap ≤ a + span gs → SameHeader h h' b) :
    Laid h' p' a gs := by
  cases gs with
  | nil => trivial
  | cons g gs =>
    have hb := seg_bytes_pos g
    obtain ⟨hp, hn, hu⟩ := hfirst (by simp)
    simp only [span] at hs
    refine ⟨hp, hn.trans hl.2.1, hu ▸ hl.2.2.1, hl.2.2.2.congr fun b hlo hhi => ?_⟩
    exact hs b (by omega) (by omega)

theorem mem_starts_bounds {a b : Nat} {gs : List Seg} (hb : b ∈ starts a gs) :
    a ≤ b ∧ b + sizeofMemHeap ≤ a + span gs := by
  induction gs generalizing a with
  | nil => simp [starts] at hb
  | cons g gs ih =>
    have hg := seg_bytes_pos g
    simp only [span]
    rcases List.mem_cons.mp hb with rfl | hb
    · omega
    · have := ih hb
      omega

theorem mem_starts_iff {a b : Nat} {gs : List Seg} :
    b ∈ starts a gs ↔ ∃ xs g ys, gs = xs ++ g :: ys ∧ b = a + span xs := by
  constructor
  · intro hb
    induction gs generalizing a with
    | nil => simp [starts] at hb
    | cons g gs ih =>
      rcases List.mem_cons.mp hb with rfl | hb
      · exact ⟨[], g, gs, rfl, rfl⟩
      · obtain ⟨xs, k, ys, rfl, rfl⟩ := ih hb
        exact ⟨g :: xs, k, ys, rfl, by simp [span, Nat.add_assoc]⟩
  · rintro ⟨xs, g, ys, rfl, rfl⟩
    simp [starts_append, starts]

theorem starts_sorted (a : Nat) (gs : List Seg) :
    (starts a gs ++ [a + span gs]).Pairwise (· < ·) := by
  induction gs generalizing a with
  | nil => simp [starts, span]
  | cons g gs ih =>
    have hg := seg_bytes_pos g
    have hi := ih (a + g.bytes)
    simp only [starts, List.cons_append, List.pairwise_cons]
    rw [span, ← Nat.add_assoc]
    refine ⟨fun b hb => ?_, hi⟩
    rcases List.mem_append.mp hb with hb | hb
    · have := mem_starts_bounds hb
      simp only [sizeofMemHeap] at *; omega
    · have hb := List.mem_singleton.mp hb
      simp only [sizeofMemHeap] at *; omega

theorem mem_owned_iff {a p n : Nat} {gs : List Seg} :
    (p, n) ∈ owned a gs ↔
      ∃ xs g ys, gs = xs ++ g :: ys ∧ p = a + span xs + sizeofMemHeap ∧ g.owner = some n := by
  constructor
  · intro hm
    induction gs generalizing a with
    | nil => simp [owned] at hm
    | cons g gs ih =>
      simp only [owned, List.mem_append, Option.mem_toList, Option.map_eq_some_iff,
        Prod.mk.injEq] at hm
      rcases hm with ⟨m, hm, rfl, rfl⟩ | hm
      · exact ⟨[], g, gs, rfl, by simp [span], hm⟩
      · obtain ⟨xs, k, ys, rfl, rfl, hk⟩ := ih hm
        exact ⟨g :: xs, k, ys, rfl, by simp [span, Nat.add_assoc], hk⟩
  · rintro ⟨xs, g, ys, rfl, rfl, ho⟩
    simp [owned_append, owned, ho]

end Esp32Project.EasyHeap
