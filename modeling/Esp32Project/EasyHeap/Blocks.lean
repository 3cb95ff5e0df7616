import Esp32Project.EasyHeap.Layout

/-! What each loop and each rewriting of `easy_heap.c` does to a laid-out heap. -/

set_option autoImplicit false

namespace Esp32Project.EasyHeap
open Esp32Project.Lib

def Seg.holds (g : Seg) (n : Nat) : Prop := g.owner = none ∧ n ≤ g.size

theorem length_le_span (gs : List Seg) : sizeofMemHeap * gs.length ≤ span gs := by
  induction gs with
  | nil => simp [span]
  | cons g gs ih =>
    have hg := seg_bytes_pos g
    simp only [List.length_cons, span, Nat.mul_succ]
    omega

theorem Laid.header {h : Heap} {p a : Nat} {xs ys : List Seg} {g : Seg}
    (hl : Laid h p a (xs ++ g :: ys)) :
    h.prev (a + span xs) = lastStart p a xs ∧ h.next (a + span xs) = a + span xs + g.bytes ∧
      (h.used (a + span xs) = 0 ↔ g.owner = none) :=
  have hg := ((laid_append h p a xs (g :: ys)).mp hl).2
  ⟨hg.1, hg.2.1, hg.2.2.1⟩

theorem room_eq {h : Heap} {a : Nat} {g : Seg} (hn : h.next a = a + g.bytes) :
    h.room a = g.size := by
  have hlt := next_lt h (a := a)
  simp only [Heap.room, hn, Seg.bytes, sizeofMemHeap] at *
  omega

theorem fits_iff {h : Heap} {p a n : Nat} {xs ys : List Seg} {g : Seg}
    (hl : Laid h p a (xs ++ g :: ys)) : h.fits (a + span xs) n = true ↔ g.holds n := by
  obtain ⟨-, hn, hu⟩ := hl.header
  simp only [Heap.fits, room_eq hn, Bool.and_eq_true, beq_iff_eq, decide_eq_true_eq, hu,
    Seg.holds]

/-- Every block lies within reach of an eight-bit offset. -/
def Small (segs : List Seg) : Prop := ∀ b ∈ starts 0 segs, b < 256

theorem Small.at {xs ys : List Seg} {g : Seg} (h : Small (xs ++ g :: ys)) : span xs < 256 :=
  h _ (by simp [starts_append, starts])

theorem search_first {h : Heap} {segs : List Seg} {n c : Nat} (hl : Laid h 0 0 segs)
    (hs : span segs = heapSize) (hsm : Small segs) (fuel : Nat) (xs ys : List Seg)
    (he : segs = xs ++ ys) (hy : ys ≠ []) (hx : ∀ g ∈ xs, ¬ g.holds n)
    (hr : search h n fuel (span xs) = some (some c)) :
    ∃ xs' g ys', segs = xs' ++ g :: ys' ∧ c = span xs' ∧ g.holds n ∧
      ∀ k ∈ xs', ¬ k.holds n := by
  induction fuel generalizing xs ys with
  | zero => simp [search] at hr
  | succ fuel ih =>
    obtain ⟨g, ys, rfl⟩ := List.exists_cons_of_ne_nil hy
    have hlt := (he ▸ hsm).at
    have hl' := he ▸ hl
    have hfit := fits_iff (n := n) hl'
    obtain ⟨-, hnext, -⟩ := hl'.header
    rw [Nat.zero_add] at hfit hnext
    simp only [search, show span xs < heapSize by simp only [heapSize]; omega, if_true] at hr
    split at hr
    · rename_i hf
      cases hr
      exact ⟨xs, g, ys, he, rfl, hfit.mp hf, hx⟩
    · rename_i hf
      rw [hnext] at hr
      cases ys with
      | nil =>
        -- past the last block the offset wraps to the start of the heap
        have hend : (span xs + g.bytes) % 256 = span [] := by
          have : span xs + g.bytes = heapSize := by rw [← hs, he]; simp [span]
          rw [this]
          rfl
        rw [hend] at hr
        exact ih [] _ rfl (by simp [he]) (by simp) hr
      | cons k ys =>
        have hsm' : Small ((xs ++ [g]) ++ k :: ys) := by simpa [he] using hsm
        have hk := hsm'.at
        have hw : (span xs + g.bytes) % 256 = span (xs ++ [g]) := by
          simp only [span_append, span] at hk ⊢
          omega
        rw [hw] at hr
        refine ih (xs ++ [g]) (k :: ys) (by simp [he]) (by simp) ?_ hr
        intro j hj
        rcases List.mem_append.mp hj with hj | hj
        · exact hx j hj
        · rw [List.mem_singleton.mp hj]
          exact fun hh => hf (hfit.mpr hh)

theorem advance_laid {h : Heap} {p a : Nat} {gs : List Seg} (fuel : Nat) (hl : Laid h p a gs)
    (hs : a + span gs = heapSize) (he : h.heapEnd = heapSize + sizeofMemHeap)
    (hz : h.used heapSize = 0) (hf : gs.length < fuel) :
    advance h fuel a = some (a + span (gs.takeWhile Seg.isUsed)) := by
  induction gs generalizing p a fuel with
  | nil =>
    obtain ⟨fuel, rfl⟩ := Nat.exists_eq_succ_of_ne_zero (Nat.ne_of_gt hf)
    have ha : a = heapSize := by simpa [span] using hs
    simp [advance, ha, hz, span]
  | cons g gs ih =>
    obtain ⟨fuel, rfl⟩ := Nat.exists_eq_succ_of_ne_zero (Nat.ne_zero_of_lt hf)
    obtain ⟨-, hn, hu, hrest⟩ := hl
    have hg := seg_bytes_pos g
    simp only [span] at hs
    cases ho : g.owner with
    | none =>
      simp [advance, hu.mpr ho, Seg.isUsed, ho, span]
    | some m =>
      have hne : h.used a ≠ 0 := fun h0 => by simp [hu.mp h0] at ho
      have hend : a ≠ h.heapEnd := by simp only [he, sizeofMemHeap] at *; omega
      have hfuel : gs.length < fuel := by simpa using hf
      simp only [advance, hne, hend, ne_eq, not_false_eq_true, and_self, if_true, hn,
        ih _ hrest (by omega) hfuel, List.takeWhile_cons, Seg.isUsed, ho, Option.isSome_some,
        span, Nat.add_assoc]

/-- The four writes that make a header at `c₂` and link `c` to it. -/
def Heap.cut (h : Heap) (c c₂ v : Nat) : Heap :=
  (((h.setUsed c₂ 0).setNext c₂ v).setPrev c₂ c).setNext c c₂

theorem cut_spec (h : Heap) {c c₂ v : Nat} (hc : c + sizeofMemHeap ≤ c₂) (hc₂ : c₂ < 65536)
    (hv : v < 65536) :
    let h' := h.cut c c₂ v
    (h'.prev c = h.prev c ∧ h'.next c = c₂ ∧ h'.used c = h.used c) ∧
      (h'.prev c₂ = c ∧ h'.next c₂ = v ∧ h'.used c₂ = 0) ∧
      ∀ b, Apart c sizeofMemHeap b sizeofMemHeap → Apart c₂ sizeofMemHeap b sizeofMemHeap →
        SameHeader h h' b := by
  intro h'
  simp only [sizeofMemHeap] at *
  refine ⟨⟨?_, ?_, ?_⟩, ⟨?_, ?_, ?_⟩, fun b h₁ h₂ => ?_⟩
  · simp (disch := omega) only [h', Heap.cut, prev_setNext, prev_setPrev, prev_setUsed]
  · simp (disch := omega) only [h', Heap.cut, next_setNext_self]
  · simp (disch := omega) only [h', Heap.cut, used_setNext, used_setPrev, used_setUsed]
  · simp (disch := omega) only [h', Heap.cut, prev_setNext, prev_setPrev_self]
  · simp (disch := omega) only [h', Heap.cut, next_setNext, next_setPrev, next_setNext_self]
  · simp (disch := omega) only [h', Heap.cut, used_setNext, used_setPrev, used_setUsed_self]
  · exact (((sameHeader_setUsed h₂).trans (sameHeader_setNext h₂)).trans
      (sameHeader_setPrev h₂)).trans (sameHeader_setNext h₁)

theorem splitBlock_eq {h : Heap} {c c₂ n : Nat} (hd : c₂ = c + sizeofMemHeap + n)
    (hc : c₂ < 256) :
    splitBlock h c n =
      if h.next c ≠ heapSize then (h.cut c c₂ (h.next c)).setPrev (h.next c) c₂
      else h.cut c c₂ (h.next c) := by
  have hmod : (c + sizeofMemHeap + n) % 256 = c₂ := by rw [← hd, Nat.mod_eq_of_lt hc]
  have hlt : c + sizeofMemHeap ≤ c₂ := hd ▸ Nat.le_add_right _ _
  have hnext : (h.setUsed c₂ 0).next c = h.next c :=
    next_setUsed h (by simp only [sizeofMemHeap] at *; omega)
  have hnext₂ : (h.cut c c₂ (h.next c)).next c₂ = h.next c :=
    (cut_spec h hlt (by omega) (next_lt h)).2.1.2.1
  simp only [splitBlock, hmod, hnext]
  change (if (h.cut c c₂ (h.next c)).next c₂ ≠ heapSize then
    (h.cut c c₂ (h.next c)).setPrev ((h.cut c c₂ (h.next c)).next c₂) c₂ else _) = _
  rw [hnext₂]
  rfl

theorem splitBlock_spec {h : Heap} {c c₂ n : Nat} (hd : c₂ = c + sizeofMemHeap + n)
    (hc : c₂ < 256) (hfit : c₂ + sizeofMemHeap ≤ h.next c) :
    let h' := splitBlock h c n
    (h'.prev c = h.prev c ∧ h'.next c = c₂ ∧ h'.used c = h.used c) ∧
      (h'.prev c₂ = c ∧ h'.next c₂ = h.next c ∧ h'.used c₂ = 0) ∧
      (h.next c ≠ heapSize → h'.prev (h.next c) = c₂ ∧ h'.next (h.next c) = h.next (h.next c) ∧
        h'.used (h.next c) = h.used (h.next c)) ∧
      ∀ b, Apart c sizeofMemHeap b sizeofMemHeap → Apart c₂ sizeofMemHeap b sizeofMemHeap →
        (h.next c ≠ heapSize → Apart (h.next c) sizeofMemHeap b sizeofMemHeap) →
        SameHeader h h' b := by
  have hlt : c + sizeofMemHeap ≤ c₂ := hd ▸ Nat.le_add_right _ _
  obtain ⟨hb, hb₂, hsame⟩ := cut_spec h hlt (by omega) (next_lt h (a := c))
  have hs := hsame (h.next c) (Or.inl (by omega)) (Or.inl (by omega))
  rw [splitBlock_eq hd hc]
  split
  · rename_i he
    simp only [sizeofMemHeap] at *
    refine ⟨?_, ?_, fun _ => ?_, fun b h₁ h₂ h₃ => ?_⟩
    · simpa (disch := omega) only [prev_setPrev, next_setPrev, used_setPrev] using hb
    · simpa (disch := omega) only [prev_setPrev, next_setPrev, used_setPrev] using hb₂
    · rw [prev_setPrev_self _ (by omega), next_setPrev _ (by omega), used_setPrev _ (by omega)]
      exact ⟨rfl, hs.2⟩
    · exact (hsame b h₁ h₂).trans (sameHeader_setPrev (h₃ he))
  · rename_i he
    exact ⟨hb, hb₂, fun hne => absurd hne he, fun b h₁ h₂ _ => hsame b h₁ h₂⟩

theorem Laid.replace {h h' : Heap} {p a : Nat} {xs ys zs : List Seg}
    (hl : Laid h p a (xs ++ ys))
    (hs : ∀ b, a ≤ b → b + sizeofMemHeap ≤ a + span xs → SameHeader h h' b)
    (hz : Laid h (lastStart p a xs) (a + span xs) ys →
      Laid h' (lastStart p a xs) (a + span xs) zs) : Laid h' p a (xs ++ zs) := by
  rw [laid_append] at hl ⊢
  exact ⟨hl.1.congr hs, hz hl.2⟩

theorem Laid.setUsed {h : Heap} {p a c : Nat} {xs ys : List Seg} {g : Seg} {w : UInt8}
    {o : Option Nat} (hl : Laid h p a (xs ++ g :: ys)) (hc : c = a + span xs)
    (hw : w = 0 ↔ o = none) : Laid (h.setUsed c w) p a (xs ++ { g with owner := o } :: ys) := by
  subst hc
  have hg := seg_bytes_pos g
  refine hl.replace (fun b h₁ h₂ => sameHeader_setUsed (Or.inr h₂)) fun hr => ?_
  obtain ⟨hp, hn, -, hrest⟩ := hr
  refine ⟨?_, ?_, ?_, hrest.congr fun b h₁ h₂ => sameHeader_setUsed (Or.inl (by omega))⟩
  · rw [prev_setUsed h (by omega), hp]
  · rw [next_setUsed h (by omega), hn]
    rfl
  · rw [used_setUsed_self]
    exact hw

theorem Laid.split {h : Heap} {c c₂ n : Nat} {xs ys : List Seg} {g : Seg}
    (hl : Laid h 0 0 (xs ++ g :: ys)) (hs : span (xs ++ g :: ys) = heapSize) (hc : c = span xs)
    (hd : c₂ = c + sizeofMemHeap + n) (hlt : c₂ < 256) (hn : n + sizeofMemHeap ≤ g.size) :
    Laid (splitBlock h c n) 0 0
      (xs ++ { g with size := n } :: ⟨g.size - n - sizeofMemHeap, none⟩ :: ys) := by
  subst hc
  have hnext : h.next (span xs) = span xs + g.bytes := by simpa using hl.header.2.1
  have hspan : span xs + g.bytes + span ys = heapSize := by
    rw [← hs, span_append, span, Nat.add_assoc]
  have hb : g.bytes = sizeofMemHeap + g.size := rfl
  obtain ⟨⟨hp₁, hn₁, hu₁⟩, ⟨hp₂, hn₂, hu₂⟩, hnx, hsame⟩ :=
    splitBlock_spec (h := h) hd hlt (by omega)
  rw [hnext] at hn₂ hnx hsame
  refine hl.replace (fun b h₁ h₂ => ?_) fun hr => ?_
  · simp only [Nat.zero_add] at h₂
    exact hsame b (Or.inr h₂) (Or.inr (by omega)) fun _ => Or.inr (by omega)
  · simp only [Nat.zero_add] at hr ⊢
    obtain ⟨hp, -, hu, hrest⟩ := hr
    have he₁ : span xs + Seg.bytes { g with size := n } = c₂ := by
      simp only [Seg.bytes]; omega
    have he₂ : c₂ + Seg.bytes ⟨g.size - n - sizeofMemHeap, none⟩ = span xs + g.bytes := by
      simp only [Seg.bytes]; omega
    refine ⟨hp₁.trans hp, hn₁.trans he₁.symm, by rw [hu₁]; exact hu, ?_⟩
    rw [he₁]
    refine ⟨hp₂, hn₂.trans he₂.symm, by simp [hu₂], ?_⟩
    rw [he₂]
    refine hrest.relink (fun hne => hnx ?_) fun b h₁ h₂ => ?_
    · obtain ⟨k, ks, rfl⟩ := List.exists_cons_of_ne_nil hne
      have hk := seg_bytes_pos k
      simp only [span, sizeofMemHeap] at hspan hk
      omega
    · exact hsame b (Or.inl (by omega)) (Or.inl (by omega)) fun _ => Or.inl h₁

def Heap.join (h : Heap) (a b : Nat) : Heap :=
  (h.setNext a (h.next b)).setPrev ((h.setNext a (h.next b)).next b) a

theorem Laid.join {h : Heap} {c c₂ : Nat} {xs ys : List Seg} {g k : Seg}
    (hl : Laid h 0 0 (xs ++ g :: k :: ys)) (hs : span (xs ++ g :: k :: ys) = heapSize)
    (hc : c = span xs) (hd : c₂ = c + g.bytes) :
    Laid (h.join c c₂) 0 0 (xs ++ { g with size := g.size + k.bytes } :: ys) := by
  have hg := seg_bytes_pos g
  have hk := seg_bytes_pos k
  have hb : g.bytes = sizeofMemHeap + g.size := rfl
  have hm : Seg.bytes { g with size := g.size + k.bytes } = g.bytes + k.bytes := by
    simp only [Seg.bytes, Nat.add_assoc]
  have hl' : Laid h 0 0 ((xs ++ [g]) ++ k :: ys) := by simpa using hl
  have hnext : h.next c₂ = c₂ + k.bytes := by
    have := hl'.header.2.1
    simpa [span, hd, hc] using this
  have hspan : span xs + g.bytes + k.bytes + span ys = heapSize := by
    rw [← hs, span_append, span, span]; omega
  have hlt : h.next c₂ < 65536 := next_lt h
  have hj : h.join c c₂ = (h.setNext c (h.next c₂)).setPrev (h.next c₂) c := by
    rw [Heap.join, next_setNext h (by simp only [sizeofMemHeap] at *; omega)]
  rw [hj, hnext]
  rw [hnext] at hlt
  subst hd hc
  refine hl.replace (fun b h₁ h₂ => ?_) fun hr => ?_
  · exact (sameHeader_setNext (Or.inr (by omega))).trans (sameHeader_setPrev (Or.inr (by omega)))
  · simp only [Nat.zero_add] at hr ⊢
    obtain ⟨hp, -, hu, -, -, -, hrest⟩ := hr
    simp only [sizeofMemHeap] at hg hk
    have hc := sameHeader_setPrev (h := h.setNext (span xs) (span xs + g.bytes + k.bytes))
      (a := span xs + g.bytes + k.bytes) (v := span xs) (b := span xs)
      (Or.inr (by simp only [sizeofMemHeap]; omega))
    refine ⟨?_, ?_, ?_, ?_⟩
    · rw [hc.1, prev_setNext h (by omega), hp]
    · rw [hc.2.1, next_setNext_self h hlt, hm, Nat.add_assoc]
    · rw [hc.2.2, used_setNext h (by omega)]
      exact hu
    · rw [hm, ← Nat.add_assoc]
      refine hrest.relink (fun _ => ⟨?_, ?_, ?_⟩) fun b h₁ h₂ => ?_
      · exact prev_setPrev_self _ (by omega)
      · rw [next_setPrev _ (by omega), next_setNext h (by omega)]
      · rw [used_setPrev _ (by omega), used_setNext h (by omega)]
      · exact (sameHeader_setNext (Or.inl (by simp only [sizeofMemHeap]; omega))).trans
          (sameHeader_setPrev (Or.inl h₁))

end Esp32Project.EasyHeap
