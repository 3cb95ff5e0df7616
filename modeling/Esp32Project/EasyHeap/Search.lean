import Esp32Project.EasyHeap.Runs

/-!
When `easy_heap_alloc` comes to an end. Its offset has eight bits and never
reaches the end of the heap, so a search without a fit goes round for ever; and
a block that is cut where it begins is its own successor.
-/

set_option autoImplicit false

namespace Esp32Project.EasyHeap
open Esp32Project.Lib

instance (g : Seg) (n : Nat) : Decidable (g.holds n) :=
  inferInstanceAs (Decidable (_ ∧ _))

theorem search_finds {h : Heap} {segs xs zs ws : List Seg} {g : Seg} {n fuel : Nat}
    (hl : Laid h 0 0 segs) (hsm : Small segs) (he : segs = xs ++ zs ++ g :: ws)
    (hg : g.holds n) (hz : ∀ k ∈ zs, ¬ k.holds n) (hf : zs.length < fuel) :
    search h n fuel (span xs) = some (some (span (xs ++ zs))) := by
  obtain ⟨fuel, rfl⟩ := Nat.exists_eq_succ_of_ne_zero (Nat.ne_zero_of_lt hf)
  induction zs generalizing xs fuel with
  | nil =>
    rw [List.append_nil] at he ⊢
    have hlt := (he ▸ hsm).at
    have hfit := (fits_iff (n := n) (he ▸ hl)).mpr hg
    rw [Nat.zero_add] at hfit
    rw [search, if_pos (by simp only [heapSize]; omega), if_pos hfit]
  | cons k zs ih =>
    have he' : segs = xs ++ k :: (zs ++ g :: ws) := by simp [he]
    have hlt := (he' ▸ hsm).at
    have hfit := fits_iff (n := n) (he' ▸ hl)
    have hnext := (he' ▸ hl).header.2.1
    rw [Nat.zero_add] at hfit hnext
    have hsm' : span (xs ++ [k]) < 256 := by
      obtain ⟨j, js, hj⟩ : ∃ j js, zs ++ g :: ws = j :: js :=
        List.exists_cons_of_ne_nil (by simp)
      have : Small ((xs ++ [k]) ++ j :: js) := by
        rw [List.append_assoc, List.singleton_append, ← hj, ← he']
        exact hsm
      exact this.at
    have hw : h.next (span xs) % 256 = span (xs ++ [k]) := by
      rw [hnext]
      simp only [span_append, span] at hsm' ⊢
      omega
    rw [search, if_pos (by simp only [heapSize]; omega),
      if_neg (fun hh => hz k List.mem_cons_self (hfit.mp hh)), hw]
    obtain ⟨fuel, rfl⟩ := Nat.exists_eq_succ_of_ne_zero (Nat.ne_zero_of_lt
      (Nat.lt_of_succ_lt_succ hf))
    have he₂ : segs = (xs ++ [k]) ++ zs ++ g :: ws := by simp [he]
    rw [ih he₂ (fun j hj => hz j (List.mem_cons_of_mem _ hj)) fuel (Nat.lt_of_succ_lt_succ hf),
      List.append_assoc, List.singleton_append]

/-- The search ends exactly if some block can hold `n` bytes. -/
theorem search_ends {h : Heap} {segs : List Seg} {n : Nat} (hc : Core h segs)
    (hex : ∃ g ∈ segs, g.holds n) : ∃ c, search h n 257 (h.pfree % 256) = some (some c) := by
  have hsplit : segs = segs.takeWhile Seg.isUsed ++ segs.dropWhile Seg.isUsed :=
    List.takeWhile_append_dropWhile.symm
  have hlen := hc.length_le
  obtain ⟨g, hmem, hg⟩ := hex
  rw [hsplit, List.mem_append] at hmem
  have hdrop : g ∈ segs.dropWhile Seg.isUsed := by
    refine hmem.resolve_left fun hu => ?_
    have := List.mem_takeWhile_imp hu
    rw [isUsed_free hg.1] at this
    cases this
  have hsome : ((segs.dropWhile Seg.isUsed).find? (fun k => k.holds n)).isSome :=
    List.find?_isSome.mpr ⟨g, hdrop, decide_eq_true hg⟩
  obtain ⟨k, hk⟩ := Option.isSome_iff_exists.mp hsome
  obtain ⟨hkn, zs, ws, hzs, hz⟩ := List.find?_eq_some_iff_append.mp hk
  have he : segs = segs.takeWhile Seg.isUsed ++ zs ++ k :: ws := by
    rw [List.append_assoc, ← hzs]
    exact hsplit
  have hlt : h.pfree < 256 := by
    rw [hc.pfree]
    rw [hzs] at hsplit
    obtain ⟨j, js, hj⟩ : ∃ j js, zs ++ k :: ws = j :: js :=
      List.exists_cons_of_ne_nil (by simp)
    rw [hj] at hsplit
    exact Small.at (hsplit ▸ hc.small)
  rw [Nat.mod_eq_of_lt hlt, hc.pfree]
  refine ⟨_, search_finds hc.laid hc.small he (of_decide_eq_true hkn)
    (fun j hj => by simpa using hz j hj) ?_⟩
  have hle : zs.length ≤ segs.length := by
    have := congrArg List.length he
    simp only [List.length_append, List.length_cons] at this
    omega
  omega

theorem firstFit_isSome_iff {h : Heap} {segs : List Seg} {n : Nat} (hc : Core h segs) :
    (firstFit h n).isSome ↔ ∃ g ∈ segs, g.holds n := by
  rw [firstFit, hc.walk_eq, List.find?_isSome]
  constructor
  · rintro ⟨b, hb, hfit⟩
    obtain ⟨xs, g, ys, rfl, rfl⟩ := mem_starts_iff.mp hb
    exact ⟨g, by simp, (fits_iff hc.laid).mp hfit⟩
  · rintro ⟨g, hg, hh⟩
    obtain ⟨xs, ys, rfl⟩ := List.append_of_mem hg
    exact ⟨0 + span xs, mem_starts_iff.mpr ⟨xs, g, ys, rfl, rfl⟩, (fits_iff hc.laid).mpr hh⟩

/-! The end of the `while` that moves `pfree`. -/

theorem advance_stuck {h : Heap} {p : Nat} (hu : h.used p ≠ 0) (he : p ≠ h.heapEnd)
    (hn : h.next p = p) (fuel : Nat) : advance h fuel p = none := by
  induction fuel with
  | zero => rfl
  | succ fuel ih => rw [advance, if_pos ⟨hu, he⟩, hn, ih]

theorem splitBlock_heapEnd (h : Heap) (c n : Nat) :
    (splitBlock h c n).heapEnd = h.heapEnd ∧ (splitBlock h c n).pfree = h.pfree := by
  simp only [splitBlock]
  split <;> exact ⟨rfl, rfl⟩

theorem splitBlock_used {h : Heap} {c n : Nat} (hc : 4 ∣ c) (hn : 4 ∣ n)
    (hnx : c + sizeofMemHeap + n + minSizeAligned ≤ h.next c)
    (hne : (c + sizeofMemHeap + n) % 256 ≠ c) :
    (splitBlock h c n).used ((c + sizeofMemHeap + n) % 256) = 0 := by
  have h4 : 4 ∣ (c + sizeofMemHeap + n) % 256 := by
    simp only [sizeofMemHeap]
    omega
  have hle : (c + sizeofMemHeap + n) % 256 ≤ c + sizeofMemHeap + n := Nat.mod_le _ _
  simp only [splitBlock]
  generalize (c + sizeofMemHeap + n) % 256 = c₂ at *
  simp only [sizeofMemHeap, minSizeAligned] at hnx hle
  have hv := next_lt h (a := c)
  rw [next_setUsed h (by omega)]
  have hused : ((((h.setUsed c₂ 0).setNext c₂ (h.next c)).setPrev c₂ c).setNext c c₂).used c₂ =
      0 := by
    rw [used_setNext _ (by omega), used_setPrev _ (by omega), used_setNext _ (by omega),
      used_setUsed_self]
  split
  · have hw : ((((h.setUsed c₂ 0).setNext c₂ (h.next c)).setPrev c₂ c).setNext c c₂).next c₂ =
        h.next c := by
      rw [next_setNext _ (by omega), next_setPrev _ (by omega), next_setNext_self _ hv]
    rw [hw, used_setPrev _ (by omega), hused]
  · exact hused

/-- The block for the rest would begin where the block that `pfree` names does. -/
def CutOnItself (h : Heap) (n b : Nat) : Prop :=
  b = h.pfree ∧ n + minSizeAligned ≤ h.room b ∧ 256 ∣ n + sizeofMemHeap

theorem takeBlock_none_iff {h : Heap} {xs ys : List Seg} {g : Seg} {n : Nat}
    (hc : Core h (xs ++ g :: ys)) (hg : g.holds n) (h4 : 4 ∣ n) :
    takeBlock (if n + minSizeAligned ≤ h.room (span xs) then splitBlock h (span xs) n else h)
      (span xs) = none ↔ CutOnItself h n (span xs) := by
  have hnext := hc.next
  have hroom := hc.room
  have hsmall := hc.small.at
  have hx4 : 4 ∣ span xs := span_aligned fun k hk => hc.aligned k (by simp [hk])
  rw [CutOnItself, hroom]
  split
  · rename_i hcut
    by_cases hp : span xs = h.pfree
    · obtain ⟨hend, hpf⟩ := splitBlock_heapEnd h (span xs) n
      have hne : span xs ≠ ((splitBlock h (span xs) n).setUsed (span xs) 1).heapEnd := by
        rw [show ((splitBlock h (span xs) n).setUsed (span xs) 1).heapEnd = h.heapEnd from hend,
          hc.heapEnd]
        simp only [heapSize, sizeofMemHeap]
        omega
      have hon : ((splitBlock h (span xs) n).setUsed (span xs) 1).used (span xs) ≠ 0 := by
        rw [used_setUsed_self]
        decide
      have hsucc : ((splitBlock h (span xs) n).setUsed (span xs) 1).next (span xs) =
          (span xs + sizeofMemHeap + n) % 256 := by
        rw [next_setUsed _ (by omega), splitBlock_next hx4 h4 (by rw [hnext, Seg.bytes]; omega)]
      have hpf' : ((splitBlock h (span xs) n).setUsed (span xs) 1).pfree = span xs :=
        hpf.trans hp.symm
      simp only [takeBlock, hpf', if_pos, Option.map_eq_none_iff]
      by_cases hself : (span xs + sizeofMemHeap + n) % 256 = span xs
      · refine iff_of_true (advance_stuck hon hne (hsucc.trans hself) _) ⟨hp, hcut, ?_⟩
        simp only [sizeofMemHeap] at hself ⊢
        omega
      · refine iff_of_false ?_ fun h => hself ?_
        · have hfree : ((splitBlock h (span xs) n).setUsed (span xs) 1).used
              ((span xs + sizeofMemHeap + n) % 256) = 0 := by
            rw [used_setUsed _ (Ne.symm hself)]
            refine splitBlock_used hx4 h4 ?_ hself
            rw [hnext, Seg.bytes]
            omega
          rw [advance, if_pos ⟨hon, hne⟩, hsucc, advance, if_neg (fun h => h.1 hfree)]
          exact Option.some_ne_none _
        · have h256 := h.2.2
          simp only [sizeofMemHeap] at h256 ⊢
          omega
    · refine iff_of_false ?_ fun h => hp h.1
      have hpf := (splitBlock_heapEnd h (span xs) n).2
      rw [takeBlock, if_neg (by rwa [show ((splitBlock h (span xs) n).setUsed (span xs) 1).pfree =
        h.pfree from hpf])]
      exact Option.some_ne_none _
  · rename_i hcut
    obtain ⟨h', ht, -⟩ := hc.take hg.1 (Nat.zero_le _)
    rw [ht]
    exact iff_of_false (Option.some_ne_none _) fun h => hcut h.2.1

theorem easyHeapAlloc_search {h : Heap} {segs : List Seg} {size : Nat} (hc : Core h segs)
    (h0 : size ≠ 0) (hbig : ¬ heapSize < alignedSize size) :
    easyHeapAlloc h size =
      match search h (alignedSize size) 257 (h.pfree % 256) with
      | none => none
      | some none => some (h, none)
      | some (some ptr) =>
        takeBlock (if alignedSize size + minSizeAligned ≤ h.room ptr then
          splitBlock h ptr (alignedSize size) else h) ptr := by
  rw [easyHeapAlloc, if_neg (by simp [hc.ready]), if_neg h0]
  exact if_neg hbig

/-- What `easy_heap_alloc` is to do: the lowest free block that can hold the size. -/
def AllocRight (h : Heap) (size : Nat) : Prop :=
  ∃ h' p, easyHeapAlloc h size = some (h', p) ∧ (0 < size →
    p = (firstFit h (alignedSize size)).map (· + sizeofMemHeap) ∧ (p = none → h' = h))

/-- The size is refused at once, or there is a block for it that is not cut on itself. -/
def Servable (h : Heap) (size : Nat) : Prop :=
  size = 0 ∨ heapSize < alignedSize size ∨
    ∃ b ∈ firstFit h (alignedSize size), ¬ CutOnItself h (alignedSize size) b

instance (h : Heap) (n b : Nat) : Decidable (CutOnItself h n b) :=
  inferInstanceAs (Decidable (_ ∧ _))

instance (h : Heap) (size : Nat) : Decidable (Servable h size) :=
  inferInstanceAs (Decidable (_ ∨ _))

theorem allocRight_iff {h : Heap} {segs : List Seg} (hc : Core h segs) (size : Nat) :
    AllocRight h size ↔ Servable h size := by
  by_cases h0 : size = 0
  · refine iff_of_true ⟨h, none, ?_, fun hpos => absurd h0 (Nat.ne_of_gt hpos)⟩ (.inl h0)
    rw [easyHeapAlloc, if_neg (by simp [hc.ready]), if_pos h0]
  have hfound := firstFit_isSome_iff (n := alignedSize size) hc
  by_cases hbig : heapSize < alignedSize size
  · have hnone : firstFit h (alignedSize size) = none := by
      refine Option.eq_none_iff_forall_ne_some.mpr fun b hb => ?_
      exact absurd hbig (Nat.not_lt.mpr (firstFit_le hc hb))
    refine iff_of_true ⟨h, none, ?_, fun _ => ⟨by rw [hnone]; rfl, fun _ => rfl⟩⟩
      (.inr (.inl hbig))
    rw [easyHeapAlloc, if_neg (by simp [hc.ready]), if_neg h0]
    exact if_pos hbig
  have halloc := easyHeapAlloc_search hc h0 hbig
  cases hff : firstFit h (alignedSize size) with
  | none =>
    -- nothing fits: the offset goes round and round
    have hsr : search h (alignedSize size) 257 (h.pfree % 256) = none := by
      cases hsr : search h (alignedSize size) 257 (h.pfree % 256) with
      | none => rfl
      | some found =>
        cases found with
        | none => exact absurd hsr (search_ne_end h _ _ _ (Nat.mod_lt _ (by decide)))
        | some c =>
          obtain ⟨xs, g, ys, rfl, rfl, hg, -⟩ := search_from_pfree hc hsr
          have hsome := hfound.mpr ⟨g, by simp, hg⟩
          rw [hff] at hsome
          cases hsome
    rw [hsr] at halloc
    refine iff_of_false ?_ ?_
    · rintro ⟨h', p, hr, -⟩
      rw [halloc] at hr
      cases hr
    · rintro (h | h | ⟨b, hb, -⟩)
      · exact h0 h
      · exact hbig h
      · rw [hff] at hb
        cases hb
  | some b =>
    obtain ⟨c, hsr⟩ := search_ends hc (hfound.mp (by rw [hff]; rfl))
    obtain ⟨xs, g, ys, rfl, rfl, hg, hx⟩ := search_from_pfree hc hsr
    obtain rfl : span xs = b := Option.some.inj ((firstFit_laid hc hg hx).symm.trans hff)
    simp only [hsr] at halloc
    have htake := takeBlock_none_iff hc hg (alignedSize_dvd size)
    have hiff : Servable h size ↔ ¬ CutOnItself h (alignedSize size) (span xs) := by
      simp [Servable, h0, hbig, hff]
    rw [hiff, ← htake]
    constructor
    · rintro ⟨h', p, hr, -⟩ hnone
      rw [halloc, hnone] at hr
      cases hr
    · intro hsome
      obtain ⟨⟨h', p⟩, ht⟩ := Option.ne_none_iff_exists'.mp hsome
      obtain ⟨-, rfl⟩ := takeBlock_next ht
      refine ⟨h', _, halloc.trans ht, fun _ => ⟨?_, fun hno => ?_⟩⟩
      · rw [hff]
        rfl
      · cases hno

/-- In every state of a run of sheltered calls, and for every size, the search
ends with the lowest block that fits, or NULL, exactly when the size is servable. -/
theorem allocRight_of_sheltered {s : Client}
    (h : Reach step (fun s a => legal s a ∧ sheltered s a) Client.init s) (size : Nat) :
    AllocRight s.heap size ↔ Servable s.heap size := by
  obtain ⟨segs, hi, -⟩ := Held.of_sheltered h
  exact allocRight_iff hi.toCore size

/-- The block that was given back is found again. -/
theorem allocRight_of_sheltered_run :
    ∃ s, Reach step (fun s a => legal s a ∧ sheltered s a) Client.init s ∧
      s.live = [(28, 20)] ∧ AllocRight s.heap 9 := by
  have hrun : (runScript step (fun s a => decide (legal s a ∧ sheltered s a)) Client.init
      [.alloc 10, .alloc 20, .free 8]).any
      (fun s => s.live = [(28, 20)] ∧ Servable s.heap 9) = true := by decide +kernel
  obtain ⟨s, hs, hp⟩ := (Option.any_eq_true _ _).mp hrun
  obtain ⟨hlive, hserv⟩ := of_decide_eq_true hp
  have hreach := reach_of_script (fun _ _ => of_decide_eq_true) hs
  exact ⟨s, hreach, hlive, (allocRight_of_sheltered hreach 9).mpr hserv⟩

/-- With all the heap in use the search never ends; and on the heap as it was
initialized neither does an allocation of 248 bytes. -/
theorem alloc_never_returns :
    (∃ s, Reach step legal Client.init s ∧ s.live = [(8, 1016)] ∧ ¬ AllocRight s.heap 4) ∧
      ¬ AllocRight Client.init.heap 248 := by
  constructor
  · have hrun : (runScript step (fun s a => decide (legal s a)) Client.init [.alloc 1016]).any
        (fun s => s.live = [(8, 1016)] ∧ (easyHeapAlloc s.heap 4).isNone) = true := by
      decide +kernel
    obtain ⟨s, hs, hp⟩ := (Option.any_eq_true _ _).mp hrun
    obtain ⟨hlive, hnone⟩ := of_decide_eq_true hp
    refine ⟨s, reach_of_script (fun _ _ => of_decide_eq_true) hs, hlive, ?_⟩
    rintro ⟨h', p, hr, -⟩
    rw [hr] at hnone
    cases hnone
  · obtain ⟨segs, hi, -⟩ := held_init
    rw [allocRight_iff hi.toCore]
    decide +kernel

end Esp32Project.EasyHeap
