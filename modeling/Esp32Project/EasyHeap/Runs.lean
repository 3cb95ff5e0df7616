import Esp32Project.EasyHeap.Calls

/-!
Runs of the heap's users: sheltered calls keep the heap in order, and every
other call that returns loses it.
-/

set_option autoImplicit false

namespace Esp32Project.EasyHeap
open Esp32Project.Lib

theorem Visits.congr {next next' : Nat → Nat} {a e : Nat} {cs : List Nat}
    (hv : Visits next a cs e) (hc : ∀ c ∈ cs, next' c = next c) : Visits next' a cs e := by
  induction cs generalizing a with
  | nil => exact hv
  | cons c cs ih =>
    refine ⟨hv.1, ?_⟩
    rw [hc c (by simp)]
    exact ih hv.2 fun d hd => hc d (by simp [hd])

theorem not_visits_of_zero {next : Nat → Nat} {a m e : Nat} {cs bs : List Nat}
    (hv : Visits next a cs m) (hm : next m = 0) (hlt : ∀ c ∈ cs, c < e) (hme : m < e)
    (hb : Visits next a bs e) (hs : (bs ++ [e]).Pairwise (· < ·)) : False := by
  induction cs generalizing a bs with
  | nil =>
    obtain rfl : a = m := hv
    match bs with
    | [] => exact Nat.ne_of_lt hme hb
    | [b] =>
      obtain ⟨rfl, hb⟩ := hb
      simp only [Visits, hm] at hb
      omega
    | b :: c :: bs =>
      obtain ⟨rfl, hc, -⟩ := hb
      rw [hm] at hc
      simp [← hc] at hs
  | cons c cs ih =>
    obtain ⟨rfl, hv⟩ := hv
    cases bs with
    | nil => exact Nat.ne_of_lt (hlt a (by simp)) hb
    | cons b bs =>
      obtain ⟨rfl, hb⟩ := hb
      exact ih hv (fun d hd => hlt d (by simp [hd])) hb (List.pairwise_cons.mp hs).2

theorem plugNext_last {h : Heap} {xs : List Seg} {g : Seg} (hc : Core h (xs ++ [g]))
    (hg : g.owner = none) :
    plugNext h (span xs) = (h.setNext (span xs) 0).setPrev 0 (span xs) := by
  have ht := hc.total
  have hgb := seg_bytes_pos g
  have hle := span_takeWhile_le xs
  have hp := hc.pfree
  have hnext := hc.next
  rw [takeWhile_free _ _ hg] at hp
  simp only [span_append, span, Nat.add_zero, sizeofMemHeap] at ht hgb
  rw [ht] at hnext
  have hend : heapSize ≠ h.heapEnd := by simp [hc.heapEnd, sizeofMemHeap]
  have hclear : (h.setNext (span xs) 0).next heapSize = 0 :=
    (next_setNext h (by omega)).trans hc.endClear.2
  simp only [plugNext, hnext]
  rw [if_pos ⟨by omega, hc.endClear.1, hend⟩, if_neg (by omega), hc.endClear.2, hclear]

theorem plugPrev_last {h : Heap} {c : Nat} (hn : h.next c = 0)
    (hlt : h.prev c + sizeofMemHeap ≤ c) (hp : h.pfree ≠ c) (hu : h.used (h.prev c) = 0) :
    plugPrev h c = (h.setNext (h.prev c) 0).setPrev 0 (h.prev c) := by
  simp only [sizeofMemHeap] at hlt
  have hclear : (h.setNext (h.prev c) 0).next c = 0 :=
    (next_setNext h (by omega)).trans hn
  simp only [plugPrev]
  rw [if_pos ⟨by omega, hu⟩, if_neg hp, hn, hclear]

theorem next_zeroed (h : Heap) (c : Nat) :
    ((h.setNext c 0).setPrev 0 c).next c = 0 ∧
      ∀ b, b + sizeofMemHeap ≤ c → ((h.setNext c 0).setPrev 0 c).next b = h.next b := by
  refine ⟨?_, fun b hb => ?_⟩
  · rw [next_setPrev _ (by omega), next_setNext_self h (by omega)]
  · simp only [sizeofMemHeap] at hb
    rw [next_setPrev _ (by omega), next_setNext h (by omega)]

theorem zeroed_breaks {h : Heap} (xs : List Seg) {ys : List Seg} {live : List (Nat × Nat)}
    (hv : Visits h.next 0 (starts 0 xs) (span xs)) (hc : h.next (span xs) = 0)
    (ht : span (xs ++ ys) = heapSize) (hy : ys ≠ []) : ¬ HeapOk ⟨h, live⟩ := by
  rintro ⟨bs, hb, hs, -⟩
  obtain ⟨k, ys, rfl⟩ := List.exists_cons_of_ne_nil hy
  have hk := seg_bytes_pos k
  simp only [span_append, span, sizeofMemHeap] at ht hk
  refine not_visits_of_zero hv hc (fun d hd => ?_) (by omega) hb hs
  have := (mem_starts_bounds hd).2
  simp only [sizeofMemHeap] at this
  omega

/-- The last block given back: its `next`, or that of the block it joins, is 0. -/
theorem free_last_breaks {s : Client} {p : Nat} (h : Held s) (hl : legal s (.free p))
    (hc : ¬ notLast s.heap p) : ¬ HeapOk ⟨easyHeapFree s.heap (some p),
      s.live.filter (fun e => e.1 ≠ p)⟩ := by
  obtain ⟨segs, hi, hperm⟩ := h
  obtain ⟨e, he, rfl⟩ := List.mem_map.mp hl
  obtain ⟨xs, g, ys, rfl, hp, ho, -⟩ := owned_payload hi.toCore (hperm.mem_iff.mp he)
  have ht := hi.total
  have hgb := seg_bytes_pos g
  have hnext := hi.toCore.next
  simp only [notLast, hp, Nat.add_sub_cancel, hnext, not_not] at hc
  simp only [span_append, span] at ht
  obtain rfl : ys = [] := by
    cases ys with
    | nil => rfl
    | cons k ys =>
      have hk := seg_bytes_pos k
      simp only [span, sizeofMemHeap] at ht hk
      omega
  have hcore := hi.toCore.release (by simp [ho])
  rw [hp, easyHeapFree_eq (by simp only [sizeofMemHeap] at *; omega), plugNext_last hcore rfl]
  generalize { s.heap.setUsed (span xs) 0 with
    pfree := if span xs < s.heap.pfree then span xs else s.heap.pfree } = h₁ at hcore
  have hv : Visits h₁.next 0 (starts 0 xs) (span xs) := by
    have := laid_visits ((laid_append _ _ _ _ _).mp hcore.laid).1
    rwa [Nat.zero_add] at this
  obtain ⟨hz, hsame⟩ := next_zeroed h₁ (span xs)
  have hv₂ : Visits ((h₁.setNext (span xs) 0).setPrev 0 (span xs)).next 0 (starts 0 xs)
      (span xs) := hv.congr fun c hm => hsame c (by simpa using (mem_starts_bounds hm).2)
  generalize hh₂ : (h₁.setNext (span xs) 0).setPrev 0 (span xs) = h₂ at *
  rcases List.eq_nil_or_concat xs with rfl | ⟨xs, k, rfl⟩
  · have hprev : h₂.prev 0 = 0 := hh₂ ▸ prev_setPrev_self _ (by simp [span])
    rw [show span [] = 0 from rfl, plugPrev, hprev, if_neg (fun hn => hn.1 rfl)]
    exact zeroed_breaks _ hv₂ hz hcore.total (by simp)
  · rw [List.concat_eq_append] at *
    have hkb := seg_bytes_pos k
    have hspan : span (xs ++ [k]) = span xs + k.bytes := by simp [span]
    simp only [sizeofMemHeap] at hkb
    have hprev : h₂.prev (span (xs ++ [k])) = span xs := by
      have hp₁ := hcore.prev
      rw [lastStart_append_one, Nat.zero_add] at hp₁
      rw [← hh₂, prev_setPrev _ (by omega), prev_setNext _ (by omega), hp₁]
    have hcore' : Core h₁ (xs ++ k :: [{ g with owner := none }]) := by simpa using hcore
    by_cases hu : h₂.used (span xs) = 0
    · have hk : k.owner = none := by
        rw [← hh₂, used_setPrev _ (by omega), used_setNext _ (by omega)] at hu
        exact hcore'.used_iff.mp hu
      have hpf : h₂.pfree ≠ span (xs ++ [k]) := by
        have hle := span_takeWhile_le xs
        have hpf₁ := hcore'.pfree
        rw [takeWhile_free _ _ hk] at hpf₁
        rw [← hh₂, show ((h₁.setNext (span (xs ++ [k])) 0).setPrev 0 (span (xs ++ [k]))).pfree =
          h₁.pfree from rfl]
        omega
      rw [plugPrev_last hz (by simp only [sizeofMemHeap]; omega) hpf (hprev ▸ hu), hprev]
      obtain ⟨hz', hsame'⟩ := next_zeroed h₂ (span xs)
      refine zeroed_breaks xs ?_ hz' hcore'.total (by simp)
      have hv' := laid_visits ((laid_append _ _ _ _ _).mp hcore'.laid).1
      rw [Nat.zero_add] at hv'
      refine hv'.congr fun c hm => ?_
      have hb : c + sizeofMemHeap ≤ span xs := by simpa using (mem_starts_bounds hm).2
      rw [hsame' c hb, hsame c (by omega)]
    · rw [plugPrev, hprev, if_neg (fun hn => hu hn.2)]
      exact zeroed_breaks _ hv₂ hz hcore.total (by simp)

theorem span_aligned {gs : List Seg} (h : ∀ g ∈ gs, 4 ∣ g.size) : 4 ∣ span gs := by
  induction gs with
  | nil => simp [span]
  | cons g gs ih =>
    have hg := h g (by simp)
    have hr := ih fun k hk => h k (by simp [hk])
    simp only [span, Seg.bytes, sizeofMemHeap]
    omega

theorem splitBlock_next {h : Heap} {c n : Nat} (hc : 4 ∣ c) (hn : 4 ∣ n)
    (hnx : c + sizeofMemHeap ≤ h.next c) :
    (splitBlock h c n).next c = (c + sizeofMemHeap + n) % 256 := by
  have h4 : 4 ∣ (c + sizeofMemHeap + n) % 256 := by
    simp only [sizeofMemHeap]
    omega
  have hlt : (c + sizeofMemHeap + n) % 256 < 65536 := by omega
  simp only [splitBlock]
  generalize (c + sizeofMemHeap + n) % 256 = c₂ at *
  simp only [sizeofMemHeap] at hnx
  rw [next_setUsed h (by omega)]
  split
  · by_cases he : c₂ = c
    · subst he
      rw [next_setNext_self _ hlt, next_setPrev _ (by omega), next_setNext_self _ hlt]
    · have hv := next_lt h (a := c)
      have hw : ((((h.setUsed c₂ 0).setNext c₂ (h.next c)).setPrev c₂ c).setNext c c₂).next c₂ =
          h.next c := by
        rw [next_setNext _ (by omega), next_setPrev _ (by omega), next_setNext_self _ hv]
      rw [hw, next_setPrev _ (by omega), next_setNext_self _ hlt]
  · rw [next_setNext_self _ hlt]

theorem takeBlock_next {h h' : Heap} {c : Nat} {p : Option Nat}
    (ht : takeBlock h c = some (h', p)) :
    h'.next c = h.next c ∧ p = some (c + sizeofMemHeap) := by
  have hu : (h.setUsed c 1).next c = h.next c := next_setUsed h (by omega)
  unfold takeBlock at ht
  dsimp only at ht
  split at ht
  · obtain ⟨q, -, hq⟩ := Option.map_eq_some_iff.mp ht
    cases hq
    exact ⟨hu, rfl⟩
  · cases ht
    exact ⟨hu, rfl⟩

/-- The block for the rest begins inside the block just handed out. -/
theorem alloc_wrapped_breaks {s s' : Client} {size : Nat} (h : Held s)
    (hc : ¬ sheltered s (.alloc size)) (hs : step s (.alloc size) = some s') : ¬ HeapOk s' := by
  obtain ⟨segs, hi, -⟩ := h
  obtain ⟨⟨h', p⟩, hr, rfl⟩ := Option.map_eq_some_iff.mp hs
  simp only [sheltered, not_or, cutInReach, not_forall, not_lt] at hc
  obtain ⟨hsize, c, hfit, hroom, hlong⟩ := hc
  rcases easyHeapAlloc_cases hi.toCore hr with ⟨rfl, rfl, hbad⟩ | ⟨-, xs, g, ys, rfl, hg, hf, ht⟩
  · -- a size that is refused has no block to fit in
    have hle := firstFit_le hi.toCore hfit
    omega
  · obtain rfl : c = span xs := Option.some.inj (hfit.symm.trans hf)
    rw [if_pos hroom] at ht
    obtain ⟨hnext, rfl⟩ := takeBlock_next ht
    have hn := hi.toCore.next
    rw [splitBlock_next (span_aligned fun k hk => hi.aligned k (by simp [hk]))
      (alignedSize_dvd size) (by rw [hn]; exact Nat.add_le_add_left (seg_bytes_pos g) _)] at hnext
    rintro ⟨bs, -, -, -, -, -, hlive, -⟩
    have hbad := (hlive (span xs + sizeofMemHeap, size) (by simp)).2.1
    simp only [Heap.payload, Nat.add_sub_cancel, hnext] at hbad
    simp only [alignedSize, heapAlignment, sizeofMemHeap] at hbad hlong
    omega

theorem Held.of_sheltered {s : Client}
    (h : Reach step (fun s a => legal s a ∧ sheltered s a) Client.init s) : Held s :=
  h.invariant Held held_init fun _ _ _ hI hg hs => held_step hI hg.1 hg.2 hs

/-- Along every run of sheltered calls the linked offsets are in order, and a
legal call that returns keeps them so exactly when it is sheltered. -/
theorem heapOk_of_sheltered (s : Client)
    (h : Reach step (fun s a => legal s a ∧ sheltered s a) Client.init s) :
    HeapOk s ∧ ∀ a s', legal s a → step s a = some s' → (HeapOk s' ↔ sheltered s a) := by
  have hh := Held.of_sheltered h
  refine ⟨hh.heapOk, fun a s' hl hs => ⟨fun hok => ?_, fun hc => (held_step hh hl hc hs).heapOk⟩⟩
  by_contra hc
  cases a with
  | alloc size => exact alloc_wrapped_breaks hh hc hs hok
  | free p =>
    cases hs
    exact free_last_breaks hh hl hc hok

/-- Three blocks are taken, the second and then the first go back, and the
second request fits in the joined block. -/
theorem heapOk_of_sheltered_run :
    ∃ s, runScript step (fun s a => decide (legal s a ∧ sheltered s a)) Client.init
        [.alloc 10, .alloc 20, .alloc 30, .free 28, .free 8, .alloc 33] = some s ∧ HeapOk s := by
  obtain ⟨s, hs⟩ : ∃ s, runScript step (fun s a => decide (legal s a ∧ sheltered s a)) Client.init
      [.alloc 10, .alloc 20, .alloc 30, .free 28, .free 8, .alloc 33] = some s :=
    Option.isSome_iff_exists.mp (by decide +kernel)
  exact ⟨s, hs, (heapOk_of_sheltered s (reach_of_script (fun _ _ => of_decide_eq_true) hs)).1⟩

/-- The block for the rest of a 300-byte allocation begins at offset 52, inside it. -/
theorem alloc_truncates :
    ∃ s, Reach step legal Client.init s ∧ s.live = [(8, 300)] ∧ s.heap.payload 8 = 44 ∧
      ¬ HeapOk s := by
  have hrun : (runScript step (fun s a => decide (legal s a)) Client.init [.alloc 300]).map
      (fun s => (s.live, s.heap.payload 8)) = some ([(8, 300)], 44) := by decide +kernel
  obtain ⟨s, hs, hv⟩ := Option.map_eq_some_iff.mp hrun
  obtain ⟨hlive, hpay⟩ : s.live = [(8, 300)] ∧ s.heap.payload 8 = 44 := by
    simpa only [Prod.mk.injEq] using hv
  refine ⟨s, reach_of_script (fun _ _ => of_decide_eq_true) hs, hlive, hpay, ?_⟩
  rintro ⟨bs, -, -, -, -, -, hok, -⟩
  have := (hok (8, 300) (by simp [hlive])).2.1
  rw [hpay] at this
  omega

end Esp32Project.EasyHeap
