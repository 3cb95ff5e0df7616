import Esp32Project.EasyHeap.Blocks
import Mathlib.Data.List.Chain
import Mathlib.Data.List.TakeWhile

/-! The heap between calls, and what allocation and coalescing do to it. -/

set_option autoImplicit false

namespace Esp32Project.EasyHeap
open Esp32Project.Lib

/-- The headers describe the segments, which fill the heap. Two free
neighbours are allowed here, as they are in the middle of a `free`. -/
structure Core (h : Heap) (segs : List Seg) : Prop where
  ready : h.ready = true
  heapEnd : h.heapEnd = heapSize + sizeofMemHeap
  laid : Laid h 0 0 segs
  total : span segs = heapSize
  pfree : h.pfree = span (segs.takeWhile Seg.isUsed)
  small : Small segs
  enough : ∀ g ∈ segs, ∀ n, g.owner = some n → n ≤ g.size
  aligned : ∀ g ∈ segs, 4 ∣ g.size
  /-- The bytes behind the last block read as an unused header. -/
  endClear : h.used heapSize = 0 ∧ h.next heapSize = 0

def Alternate (segs : List Seg) : Prop := segs.IsChain fun g k => g.isUsed = true ∨ k.isUsed = true

structure Inv (h : Heap) (segs : List Seg) : Prop extends Core h segs where
  alternate : Alternate segs

theorem isUsed_free {g : Seg} (hg : g.owner = none) : g.isUsed = false := by
  simp [Seg.isUsed, hg]

theorem takeWhile_free (xs ys : List Seg) {g : Seg} (hg : g.owner = none) :
    (xs ++ g :: ys).takeWhile Seg.isUsed = xs.takeWhile Seg.isUsed := by
  induction xs with
  | nil => simp [isUsed_free hg]
  | cons k xs ih => simp only [List.cons_append, List.takeWhile_cons, ih]

theorem span_takeWhile_le (xs : List Seg) : span (xs.takeWhile Seg.isUsed) ≤ span xs := by
  induction xs with
  | nil => simp
  | cons k xs ih =>
    simp only [List.takeWhile_cons]
    split
    · simp only [span]
      omega
    · simp [span]

/-- Either all blocks before a point are used, or `pfree` is decided before it. -/
theorem takeWhile_decided (xs : List Seg) :
    (∀ zs, (xs ++ zs).takeWhile Seg.isUsed = xs ++ zs.takeWhile Seg.isUsed) ∨
      (span (xs.takeWhile Seg.isUsed) < span xs ∧
        ∀ zs, (xs ++ zs).takeWhile Seg.isUsed = xs.takeWhile Seg.isUsed) := by
  by_cases hall : ∀ k ∈ xs, k.isUsed = true
  · exact .inl fun zs => List.takeWhile_append_of_pos hall
  · obtain ⟨k, hk, hkf⟩ : ∃ k ∈ xs, k.owner = none := by
      simpa [Seg.isUsed] using hall
    obtain ⟨as, bs, rfl⟩ := List.append_of_mem hk
    have hkb := seg_bytes_pos k
    have hle := span_takeWhile_le as
    refine .inr ⟨?_, fun zs => ?_⟩
    · rw [takeWhile_free _ _ hkf]
      simp only [span_append, span, sizeofMemHeap] at hkb ⊢
      omega
    · rw [List.append_assoc, List.cons_append, takeWhile_free _ _ hkf, takeWhile_free _ _ hkf]

theorem Core.ne_nil {h : Heap} {segs : List Seg} (hc : Core h segs) : segs ≠ [] := by
  rintro rfl
  have := hc.total
  simp [span, heapSize] at this

/-! The header of a block of the heap. -/

section

variable {h : Heap} {xs ys : List Seg} {g : Seg}

theorem Core.next (hc : Core h (xs ++ g :: ys)) : h.next (span xs) = span xs + g.bytes := by
  simpa using hc.laid.header.2.1

theorem Core.prev (hc : Core h (xs ++ g :: ys)) : h.prev (span xs) = lastStart 0 0 xs := by
  simpa using hc.laid.header.1

theorem Core.used_iff (hc : Core h (xs ++ g :: ys)) : h.used (span xs) = 0 ↔ g.owner = none := by
  simpa using hc.laid.header.2.2

theorem Core.room (hc : Core h (xs ++ g :: ys)) : h.room (span xs) = g.size := room_eq hc.next

theorem Core.second {k : Seg} (hc : Core h (xs ++ g :: k :: ys)) :
    h.next (span xs + g.bytes) = span xs + g.bytes + k.bytes ∧
      (h.used (span xs + g.bytes) = 0 ↔ k.owner = none) := by
  have hc' : Core h ((xs ++ [g]) ++ k :: ys) := by simpa using hc
  have hspan : span (xs ++ [g]) = span xs + g.bytes := by simp [span]
  rw [← hspan]
  exact ⟨hc'.next, hc'.used_iff⟩

theorem Core.length_le {segs : List Seg} (hc : Core h segs) : segs.length ≤ 128 := by
  have hlen := length_le_span segs
  rw [hc.total] at hlen
  simp only [sizeofMemHeap, heapSize] at hlen
  omega

end

theorem forall_replaced {P : Seg → Prop} {xs ys : List Seg} (gs ks : List Seg)
    (h : ∀ j ∈ xs ++ (gs ++ ys), P j) (hk : ∀ j ∈ ks, P j) : ∀ j ∈ xs ++ (ks ++ ys), P j := by
  intro j hj
  simp only [List.mem_append] at h hj
  rcases hj with hj | hj | hj
  · exact h j (.inl hj)
  · exact hk j hj
  · exact h j (.inr (.inr hj))

theorem Core.join {h : Heap} {xs ys : List Seg} {g k : Seg} (hc : Core h (xs ++ g :: k :: ys))
    (hg : g.owner = none) :
    Core (h.join (span xs) (span xs + g.bytes)) (xs ++ ⟨g.size + k.bytes, none⟩ :: ys) := by
  have hb : Seg.bytes ⟨g.size + k.bytes, none⟩ = g.bytes + k.bytes := by
    simp only [Seg.bytes, Nat.add_assoc]
  have ht := hc.total
  have hl := hc.laid.join ht rfl rfl
  rw [hg] at hl
  have hkb := seg_bytes_pos k
  have hgb := seg_bytes_pos g
  simp only [span_append, span] at ht
  have hnext := hc.second.1
  constructor
  · exact hc.ready
  · exact hc.heapEnd
  · exact hl
  · simp only [span_append, span, hb]
    omega
  · have hp := hc.pfree
    rw [takeWhile_free _ _ hg] at hp
    rw [takeWhile_free _ _ rfl]
    exact hp
  · intro b hb'
    refine hc.small b ?_
    simp only [starts_append, starts, List.mem_append, List.mem_cons, hb] at hb' ⊢
    rw [← Nat.add_assoc] at hb'
    tauto
  · exact forall_replaced [g, k] [_] hc.enough (by simp)
  · refine forall_replaced [g, k] [_] hc.aligned (List.forall_mem_singleton.mpr ?_)
    have h₁ := hc.aligned g (by simp)
    have h₂ := hc.aligned k (by simp)
    simp only [Seg.bytes, sizeofMemHeap]
    omega
  · simp only [sizeofMemHeap] at hkb hgb
    simp only [Heap.join]
    rw [next_setNext h (by omega), hnext]
    exact ⟨(used_setPrev _ (by omega)).trans ((used_setNext h (by omega)).trans hc.endClear.1),
      (next_setPrev _ (by omega)).trans ((next_setNext h (by omega)).trans hc.endClear.2)⟩

theorem owned_join (a : Nat) (ys : List Seg) {g k : Seg} (hg : g.owner = none)
    (hk : k.owner = none) :
    owned a (⟨g.size + k.bytes, none⟩ :: ys) = owned a (g :: k :: ys) := by
  have hb : Seg.bytes ⟨g.size + k.bytes, none⟩ = g.bytes + k.bytes := by
    simp only [Seg.bytes, Nat.add_assoc]
  simp [owned, hb, hg, hk, Nat.add_assoc]

theorem plugNext_used {h : Heap} {xs ys : List Seg} {g k : Seg}
    (hc : Core h (xs ++ g :: k :: ys)) (hk : k.owner ≠ none) : plugNext h (span xs) = h := by
  simp only [plugNext, hc.next]
  exact if_neg fun hn => hk (hc.second.2.mp hn.2.1)

theorem plugNext_free {h : Heap} {xs ys : List Seg} {g k : Seg}
    (hc : Core h (xs ++ g :: k :: ys)) (hg : g.owner = none) (hk : k.owner = none) :
    plugNext h (span xs) = h.join (span xs) (span xs + g.bytes) := by
  have hgb := seg_bytes_pos g
  have hkb := seg_bytes_pos k
  have ht := hc.total
  simp only [span_append, span] at ht
  have hnext := hc.next
  have hu := hc.second.2.mpr hk
  have hp : h.pfree ≠ span xs + g.bytes := by
    have hle := span_takeWhile_le xs
    rw [hc.pfree, takeWhile_free _ _ hg]
    simp only [sizeofMemHeap] at hgb
    omega
  have hne : span xs ≠ span xs + g.bytes := by simp only [sizeofMemHeap] at hgb; omega
  have hend : span xs + g.bytes ≠ h.heapEnd := by
    rw [hc.heapEnd]
    simp only [sizeofMemHeap] at *
    omega
  simp only [plugNext, hnext, if_neg hp]
  exact if_pos ⟨hne, hu, hend⟩

/-- After the first half of `plug_hole` the block has no free block behind it. -/
theorem plugNext_inv {h : Heap} {xs ys : List Seg} {g : Seg} (hc : Core h (xs ++ g :: ys))
    (hg : g.owner = none) (hy : ys ≠ []) (ha : Alternate ys) :
    ∃ g' ys', Core (plugNext h (span xs)) (xs ++ g' :: ys') ∧ g'.owner = none ∧
      Alternate (g' :: ys') ∧ owned (span xs) (g' :: ys') = owned (span xs) (g :: ys) := by
  obtain ⟨k, ys, rfl⟩ := List.exists_cons_of_ne_nil hy
  by_cases hk : k.owner = none
  · rw [plugNext_free hc hg hk]
    refine ⟨_, _, hc.join hg, rfl, ?_, owned_join _ _ hg hk⟩
    simp only [Alternate, List.isChain_cons, isUsed_free hk, Bool.false_eq_true, false_or] at ha
    simp only [Alternate, List.isChain_cons]
    exact ⟨fun j hj => .inr (ha.1 j hj), ha.2⟩
  · rw [plugNext_used hc hk]
    refine ⟨g, k :: ys, hc, hg, ?_, rfl⟩
    have hku : k.isUsed = true := Option.isSome_iff_ne_none.mpr hk
    exact List.isChain_cons_cons.mpr ⟨.inr hku, ha⟩

theorem plugPrev_used {h : Heap} {xs ys : List Seg} {g : Seg} (hc : Core h (xs ++ g :: ys))
    (hfirst : ∀ k ∈ xs.getLast?, k.owner ≠ none) : plugPrev h (span xs) = h := by
  have hprev := hc.prev
  rcases List.eq_nil_or_concat xs with rfl | ⟨xs, k, rfl⟩
  · simp only [plugPrev, hprev]
    simp [span, lastStart]
  · rw [List.concat_eq_append] at *
    rw [lastStart_append_one, Nat.zero_add] at hprev
    have hc' : Core h (xs ++ k :: g :: ys) := by simpa using hc
    have hu : h.used (span xs) ≠ 0 := mt hc'.used_iff.mp (hfirst k (by simp))
    simp only [plugPrev, hprev]
    exact if_neg fun hn => hu hn.2

/-- The second half of `plug_hole` leaves no two free neighbours. -/
theorem plugPrev_inv {h : Heap} {xs ys : List Seg} {g : Seg} (hc : Core h (xs ++ g :: ys))
    (hg : g.owner = none) (hx : Alternate xs) (ha : Alternate (g :: ys)) :
    ∃ segs, Inv (plugPrev h (span xs)) segs ∧ owned 0 segs = owned 0 (xs ++ g :: ys) := by
  have hprev := hc.prev
  rcases List.eq_nil_or_concat xs with rfl | ⟨xs, k, rfl⟩
  · rw [plugPrev_used hc (by simp)]
    exact ⟨g :: ys, ⟨hc, ha⟩, rfl⟩
  · rw [List.concat_eq_append] at *
    rw [lastStart_append_one, Nat.zero_add] at hprev
    have hc' : Core h (xs ++ k :: g :: ys) := by simpa using hc
    have hspan : span (xs ++ [k]) = span xs + k.bytes := by simp [span]
    have hkb := seg_bytes_pos k
    have hne : span (xs ++ [k]) ≠ span xs := by
      rw [hspan]
      simp only [sizeofMemHeap] at hkb
      omega
    by_cases hk : k.owner = none
    · have hu : h.used (span xs) = 0 := hc'.used_iff.mpr hk
      have hp : h.pfree ≠ span (xs ++ [k]) := by
        have hle := span_takeWhile_le xs
        rw [hc'.pfree, takeWhile_free _ _ hk, hspan]
        simp only [sizeofMemHeap] at hkb
        omega
      have hst : plugPrev h (span (xs ++ [k])) = h.join (span xs) (span xs + k.bytes) := by
        simp only [plugPrev, hprev, if_pos (And.intro hne hu), if_neg hp]
        rw [hspan]
        rfl
      rw [hst]
      refine ⟨_, ⟨hc'.join hk, ?_⟩, ?_⟩
      · simp only [Alternate, List.isChain_cons, isUsed_free hg, Bool.false_eq_true,
          false_or] at ha
        simp only [Alternate, List.isChain_append, List.isChain_singleton, true_and,
          List.head?_cons, Option.mem_def, Option.some.injEq] at hx
        simp only [Alternate, List.isChain_append, List.isChain_cons, List.head?_cons,
          Option.mem_def, Option.some.injEq]
        refine ⟨hx.1, ⟨fun j hj => .inr (ha.1 j hj), ha.2⟩, fun j hj i hi => .inl ?_⟩
        simpa [isUsed_free hk] using hx.2 j hj k rfl
      · simp only [List.append_assoc, List.cons_append, List.nil_append]
        rw [owned_append, owned_append, owned_join _ _ hk hg]
    · rw [plugPrev_used hc (by simpa using hk)]
      have hku : k.isUsed = true := Option.isSome_iff_ne_none.mpr hk
      refine ⟨_, ⟨hc, ?_⟩, rfl⟩
      simp only [Alternate, List.isChain_append] at hx ⊢
      exact ⟨⟨hx.1, hx.2⟩, ha, by simp [hku]⟩

theorem Core.split {h : Heap} {xs ys : List Seg} {g : Seg} {n : Nat}
    (hc : Core h (xs ++ g :: ys)) (hg : g.owner = none) (hn : n + sizeofMemHeap ≤ g.size)
    (hlt : span xs + sizeofMemHeap + n < 256) (h4 : 4 ∣ n) :
    Core (splitBlock h (span xs) n)
      (xs ++ ⟨n, none⟩ :: ⟨g.size - n - sizeofMemHeap, none⟩ :: ys) := by
  have hl := hc.laid.split hc.total rfl rfl hlt hn
  rw [hg] at hl
  have hb₁ : Seg.bytes ⟨n, none⟩ = sizeofMemHeap + n := rfl
  have hb₂ : Seg.bytes ⟨g.size - n - sizeofMemHeap, none⟩ =
    sizeofMemHeap + (g.size - n - sizeofMemHeap) := rfl
  have hb : g.bytes = sizeofMemHeap + g.size := rfl
  have ht := hc.total
  simp only [span_append, span] at ht
  have hnext := hc.next
  obtain ⟨hready, hend, hpfree⟩ : (splitBlock h (span xs) n).ready = h.ready ∧
      (splitBlock h (span xs) n).heapEnd = h.heapEnd ∧
      (splitBlock h (span xs) n).pfree = h.pfree := by
    simp only [splitBlock]
    split <;> exact ⟨rfl, rfl, rfl⟩
  constructor
  · exact hready.trans hc.ready
  · exact hend.trans hc.heapEnd
  · exact hl
  · simp only [span_append, span, hb₁, hb₂]
    omega
  · rw [hpfree, hc.pfree, takeWhile_free _ _ hg, takeWhile_free _ _ rfl]
  · intro b hb'
    simp only [starts_append, starts, List.mem_append, List.mem_cons, Nat.zero_add] at hb'
    rcases hb' with hb' | rfl | rfl | hb'
    · exact hc.small b (by simp [starts_append, hb'])
    · exact hc.small.at
    · omega
    · refine hc.small b ?_
      simp only [starts_append, starts, List.mem_append, List.mem_cons, Nat.zero_add]
      rw [show span xs + g.bytes = span xs + Seg.bytes ⟨n, none⟩ +
        Seg.bytes ⟨g.size - n - sizeofMemHeap, none⟩ by omega]
      exact .inr (.inr hb')
  · exact forall_replaced [g] [_, _] hc.enough (by simp)
  · refine forall_replaced [g] [_, _] hc.aligned
      (List.forall_mem_cons.mpr ⟨h4, List.forall_mem_singleton.mpr ?_⟩)
    have := hc.aligned g (by simp)
    simp only [sizeofMemHeap]
    omega
  · obtain ⟨-, -, -, hsame⟩ := splitBlock_spec (h := h) rfl hlt (by omega)
    suffices hend : SameHeader h (splitBlock h (span xs) n) heapSize from
      ⟨hend.2.2.trans hc.endClear.1, hend.2.1.trans hc.endClear.2⟩
    refine hsame heapSize (.inl ?_) (.inl ?_) fun hne => .inl ?_
    · omega
    · omega
    · cases ys with
      | nil => exact absurd (by simpa [span, hnext] using ht) hne
      | cons k ys =>
        have hk := seg_bytes_pos k
        simp only [span] at ht
        omega

theorem Core.take {h : Heap} {xs ys : List Seg} {g : Seg} {size : Nat}
    (hc : Core h (xs ++ g :: ys)) (hg : g.owner = none) (hn : size ≤ g.size) :
    ∃ h', takeBlock h (span xs) = some (h', some (span xs + sizeofMemHeap)) ∧
      Core h' (xs ++ { g with owner := some size } :: ys) := by
  have ht := hc.total
  simp only [span_append, span] at ht
  have hgb := seg_bytes_pos g
  have hl : Laid (h.setUsed (span xs) 1) 0 0 (xs ++ { g with owner := some size } :: ys) :=
    hc.laid.setUsed (Nat.zero_add _).symm (by simp)
  have hz : (h.setUsed (span xs) 1).used heapSize = 0 ∧
      (h.setUsed (span xs) 1).next heapSize = 0 := by
    simp only [sizeofMemHeap] at hgb
    rw [used_setUsed h (by omega), next_setUsed h (by omega)]
    exact hc.endClear
  have hp := hc.pfree
  rw [takeWhile_free _ _ hg] at hp
  have hpfree : (h.setUsed (span xs) 1).pfree = h.pfree := rfl
  have hcore : ∀ q, q = span ((xs ++ { g with owner := some size } :: ys).takeWhile Seg.isUsed) →
      Core { h.setUsed (span xs) 1 with pfree := q }
        (xs ++ { g with owner := some size } :: ys) := by
    intro q hq
    refine ⟨hc.ready, hc.heapEnd, hl.congr fun _ _ _ => ⟨rfl, rfl, rfl⟩, ?_, hq,
      fun b hb => hc.small b ?_, forall_replaced [g] [_] hc.enough ?_,
      forall_replaced [g] [_] hc.aligned ?_, hz⟩
    · simp only [span_append, span, Seg.bytes] at ht ⊢
      exact ht
    · simpa [starts_append, starts, Seg.bytes] using hb
    · exact List.forall_mem_singleton.mpr fun m ho => Option.some.inj ho ▸ hn
    · exact List.forall_mem_singleton.mpr (hc.aligned g (by simp))
  rcases takeWhile_decided xs with hall | ⟨hlt, hsome⟩
  · have hself : xs.takeWhile Seg.isUsed = xs := by simpa using hall []
    rw [hself] at hp
    have hl₂ := ((laid_append _ _ _ _ _).mp hl).2
    rw [Nat.zero_add] at hl₂
    have hlen := length_le_span (xs ++ { g with owner := some size } :: ys)
    simp only [span_append, span, List.length_append, List.length_cons, sizeofMemHeap, heapSize,
      Seg.bytes] at ht hlen
    have hadv := advance_laid 65537 hl₂
      (by simp only [span, Seg.bytes, sizeofMemHeap, heapSize]; omega) hc.heapEnd hz.1
      (by simp only [List.length_cons]; omega)
    refine ⟨_, ?_, hcore
      (span xs + span (({ g with owner := some size } :: ys).takeWhile Seg.isUsed)) ?_⟩
    · rw [takeBlock, hpfree, if_pos hp.symm, hp, hadv, Option.map_some]
    · rw [hall, span_append]
  · -- a free block before this one keeps `pfree` where it is
    refine ⟨h.setUsed (span xs) 1, ?_, hcore h.pfree ?_⟩
    · rw [takeBlock, hpfree, if_neg (by omega)]
    · rw [hsome, hp]

theorem Core.release {h : Heap} {xs ys : List Seg} {g : Seg} (hc : Core h (xs ++ g :: ys))
    (hg : g.owner ≠ none) :
    Core { h.setUsed (span xs) 0 with pfree := if span xs < h.pfree then span xs else h.pfree }
      (xs ++ { g with owner := none } :: ys) := by
  have ht := hc.total
  have hgb := seg_bytes_pos g
  have hgu : g.isUsed = true := Option.isSome_iff_ne_none.mpr hg
  have hl : Laid (h.setUsed (span xs) 0) 0 0 (xs ++ { g with owner := none } :: ys) :=
    hc.laid.setUsed (Nat.zero_add _).symm (by simp)
  refine ⟨hc.ready, hc.heapEnd, hl.congr fun _ _ _ => ⟨rfl, rfl, rfl⟩, ?_, ?_,
    fun b hb => hc.small b ?_, forall_replaced [g] [_] hc.enough (by simp),
    forall_replaced [g] [_] hc.aligned ?_, ?_⟩
  · simpa only [span_append, span, Seg.bytes] using ht
  · have hp := hc.pfree
    rw [takeWhile_free _ _ rfl]
    rcases takeWhile_decided xs with hall | ⟨hlt, hsome⟩
    · have hself : xs.takeWhile Seg.isUsed = xs := by simpa using hall []
      rw [hall, List.takeWhile_cons, if_pos hgu, span_append, span] at hp
      rw [hself]
      exact if_pos (by simp only [sizeofMemHeap] at hgb; omega)
    · rw [hsome] at hp
      exact (if_neg (by omega)).trans hp
  · simpa [starts_append, starts, Seg.bytes] using hb
  · exact List.forall_mem_singleton.mpr (hc.aligned g (by simp))
  · simp only [span_append, span, sizeofMemHeap] at ht hgb
    exact ⟨(used_setUsed h (by omega)).trans hc.endClear.1,
      (next_setUsed h (by omega)).trans hc.endClear.2⟩

end Esp32Project.EasyHeap
