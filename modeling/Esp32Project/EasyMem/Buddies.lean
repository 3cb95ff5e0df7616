import Esp32Project.Lib.SplitTree
import Esp32Project.EasyMem.Safety

/-!
Which two chunks `merge` joins. Splitting makes a binary tree of chunks, and two
chunks of one order lie side by side only where they come from one chunk. None
of this depends on MAX_ORDER: it is the order `top` of the whole arena here.
-/

set_option autoImplicit false

namespace Esp32Project.EasyMem
open Esp32Project.Lib

theorem sizeofChunk_pos : 0 < sizeofChunk := Nat.zero_lt_succ _

theorem chunkBytes_nonzero (k : Nat) : 0 < chunkBytes k := Nat.zero_lt_of_lt (chunkBytes_pos k)

/-- A chunk of order `k + 1` is a header and two chunks of order `k`. -/
def chunks : Splitting where
  head := sizeofChunk
  bytes := chunkBytes
  head_pos := sizeofChunk_pos
  bytes_pos := chunkBytes_nonzero
  bytes_succ := chunkBytes_succ

/-- The two address tests of `merge`. -/
def sideBySide (k memChunk tmp : Nat) : Prop :=
  memChunk = tmp + (layerSize k + layerHeadsSize (k + 1)) ∨
    memChunk + (layerSize k + layerHeadsSize (k + 1)) = tmp

instance (k memChunk tmp : Nat) : Decidable (sideBySide k memChunk tmp) := by
  unfold sideBySide; infer_instance

section

variable {top mem k a b p c t lists : Nat} {s : Arena}

theorem halves_back (h : chunks.Halves top mem k p a b) : a - sizeofChunk = p := by
  rw [h.lower]
  exact Nat.add_sub_cancel ..

theorem joined_halves (ha : chunks.Block top mem k a) (hb : chunks.Block top mem k b)
    (heq : b = a + (layerSize k + layerHeadsSize (k + 1))) :
    chunks.Halves top mem k (a - sizeofChunk) a b := by
  obtain ⟨p, hp⟩ := ha.halves hb heq
  rwa [halves_back hp]

/-- Two chunks of one order pass the address tests of `merge` if and only if they are the
halves of one chunk, and the header of the lower one moves back to it. -/
theorem side_by_side_iff_buddies (top mem k a b : Nat) (ha : chunks.Block top mem k a)
    (hb : chunks.Block top mem k b) :
    (sideBySide k a b ↔ ∃ p, chunks.Halves top mem k p a b ∨ chunks.Halves top mem k p b a) ∧
      (a = b + (layerSize k + layerHeadsSize (k + 1)) →
        chunks.Halves top mem k (b - sizeofChunk) b a) ∧
      (a + (layerSize k + layerHeadsSize (k + 1)) = b →
        chunks.Halves top mem k (a - sizeofChunk) a b) := by
  have hafter : a = b + (layerSize k + layerHeadsSize (k + 1)) →
      chunks.Halves top mem k (b - sizeofChunk) b a := joined_halves hb ha
  have hbefore : a + (layerSize k + layerHeadsSize (k + 1)) = b →
      chunks.Halves top mem k (a - sizeofChunk) a b := fun h => joined_halves ha hb h.symm
  refine ⟨⟨?_, ?_⟩, hafter, hbefore⟩
  · rintro (hab | hab)
    · exact ⟨_, .inr (hafter hab)⟩
    · exact ⟨_, .inl (hbefore hab)⟩
  · rintro ⟨p, hp | hp⟩
    · exact .inr hp.side_by_side.symm
    · exact .inl hp.side_by_side

/-- The halves of the lower half of an arena of order 2, and two neighbours that are not. -/
theorem side_by_side_at_two :
    chunks.Halves 2 16 0 24 32 48 ∧ ¬ ∃ p, chunks.Halves 2 16 0 p 48 72 ∨
      chunks.Halves 2 16 0 p 72 48 := by
  have hlow : chunks.Block 2 16 1 24 := .lower .whole
  have hup : chunks.Block 2 16 1 64 := .upper .whole
  refine ⟨(side_by_side_iff_buddies 2 16 0 32 48 (.lower hlow) (.upper hlow)).2.2 (by decide), ?_⟩
  rw [← (side_by_side_iff_buddies 2 16 0 48 72 (.upper hlow) (.lower hup)).1]
  decide

theorem merge_found {head : Nat} (hh : s.memHeads k = some head)
    (ht : findOrder s (s.order c) walkLimit (some head) = some (some t)) :
    merge (lists + 1) s c k =
      if c = t + (layerSize k + layerHeadsSize (k + 1)) then
        merge lists (s.adjustHead t (t - sizeofChunk)) (t - sizeofChunk) (k + 1)
      else if c + (layerSize k + layerHeadsSize (k + 1)) = t then
        merge lists (s.adjustHead c (c - sizeofChunk)) (c - sizeofChunk) (k + 1)
      else some ((s.setUsed c 0).addToHead k c) := by
  simp only [merge, hh, ht]

/-- `merge` goes on with the chunk that both halves come from, and it lists `c` where the
chunk found is not its buddy. -/
theorem merge_blocks {head : Nat} (hc : chunks.Block top mem k c) (hb : chunks.Block top mem k t)
    (hh : s.memHeads k = some head)
    (ht : findOrder s (s.order c) walkLimit (some head) = some (some t)) :
    (∃ p, chunks.Halves top mem k p t c ∧
      merge (lists + 1) s c k = merge lists (s.adjustHead t p) p (k + 1)) ∨
    (∃ p, chunks.Halves top mem k p c t ∧
      merge (lists + 1) s c k = merge lists (s.adjustHead c p) p (k + 1)) ∨
    (∀ p, ¬ chunks.Halves top mem k p t c ∧ ¬ chunks.Halves top mem k p c t) ∧
      merge (lists + 1) s c k = some ((s.setUsed c 0).addToHead k c) := by
  rw [merge_found hh ht]
  split
  · exact .inl ⟨_, joined_halves hb hc ‹_›, rfl⟩
  split
  · exact .inr (.inl ⟨_, joined_halves hc hb (Eq.symm ‹_›), rfl⟩)
  rename_i hafter hbefore
  exact .inr (.inr ⟨fun p => ⟨fun hp => hafter hp.side_by_side,
    fun hp => hbefore hp.side_by_side.symm⟩, rfl⟩)

theorem memHeads_splitOnce (cnt : Nat) :
    (splitOnce s cnt c).memHeads = Function.update s.memHeads cnt (some c) := by
  simp [splitOnce, Arena.setCurrOrder, addToHead_eq, Arena.setNext]

/-- What `split` hands out and what it lists are chunks of their orders, from a chunk whose
header has just moved up. -/
theorem split_blocks (order cnt : Nat) (ho : order ≤ cnt)
    (ha : chunks.Block top mem (cnt + 1) a) :
    chunks.Block top mem order (split order cnt s (a + sizeofChunk)).2 ∧
      ∀ j t, (split order cnt s (a + sizeofChunk)).1.memHeads j = some t →
        s.memHeads j = some t ∨ chunks.Block top mem j t := by
  -- the lower half goes to the head of its list
  have hlisted : ∀ {s : Arena} {k a j t : Nat}, chunks.Block top mem (k + 1) a →
      (splitOnce s k (a + sizeofChunk)).memHeads j = some t →
      s.memHeads j = some t ∨ chunks.Block top mem j t := by
    intro s k a j t hk hj
    rw [memHeads_splitOnce] at hj
    by_cases he : j = k
    · subst he
      rw [Function.update_self] at hj
      cases hj
      exact .inr (.lower hk)
    · rw [Function.update_of_ne he] at hj
      exact .inl hj
  induction cnt generalizing s a with
  | zero =>
    obtain rfl : order = 0 := Nat.le_zero.mp ho
    rw [split_zero]
    exact ⟨.upper ha, fun j t => hlisted ha⟩
  | succ cnt ih =>
    rw [split_succ]
    split
    · obtain ⟨hres, hheads⟩ := ih (by omega) (.upper ha)
      refine ⟨hres, fun j t hj => ?_⟩
      rcases hheads j t hj with hj | hblock
      · exact hlisted ha hj
      · exact .inr hblock
    · obtain rfl : order = cnt + 1 := by omega
      exact ⟨.upper ha, fun j t => hlisted ha⟩

end

def lengthWord (order : Nat) : UInt32 :=
  UInt32.ofNat (minChunkSize * 2 ^ order) +
    (UInt32.ofNat (2 ^ (order + 1)) - 1) * UInt32.ofNat sizeofChunk

example : lengthWord 1 = 40 := by decide +kernel

section

variable {top mem k a b : Nat}

theorem lengthWord_eq (order : Nat) : lengthWord order = UInt32.ofNat (chunkBytes order) := by
  have hpow := Nat.one_le_two_pow (n := order + 1)
  have hsub : UInt32.ofNat (2 ^ (order + 1)) - 1 = UInt32.ofNat (2 ^ (order + 1) - 1) :=
    (UInt32.ofNat_sub hpow).symm
  rw [lengthWord, hsub, ← UInt32.ofNat_mul, ← UInt32.ofNat_add]
  rfl

/-- Where the arena ends before address 2^32 does, the tests on pointers are those on
natural numbers. -/
theorem sideBySide_word (ha : chunks.Block top mem k a) (hb : chunks.Block top mem k b)
    (hfit : mem + chunkBytes top < 2 ^ 32) :
    (UInt32.ofNat a = UInt32.ofNat b + lengthWord k ∨
      UInt32.ofNat a + lengthWord k = UInt32.ofNat b) ↔ sideBySide k a b := by
  have hina : a + chunkBytes k ≤ mem + chunkBytes top := ha.inside.2
  have hinb : b + chunkBytes k ≤ mem + chunkBytes top := hb.inside.2
  have hinj : ∀ x y : Nat, x < 2 ^ 32 → y < 2 ^ 32 →
      (UInt32.ofNat x = UInt32.ofNat y ↔ x = y) := by
    intro x y hx hy
    rw [← UInt32.toNat_inj, UInt32.toNat_ofNat_of_lt' hx, UInt32.toNat_ofNat_of_lt' hy]
  rw [lengthWord_eq, ← UInt32.ofNat_add, ← UInt32.ofNat_add, hinj _ _ (by omega) (by omega),
    hinj _ _ (by omega) (by omega)]
  rfl

end

end Esp32Project.EasyMem
