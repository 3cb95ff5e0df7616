import Esp32Project.EasyHeap.Invariant
import Esp32Project.Lib.Reach

/-!
The calls of the heap's users. `HeapOk` is what the linked offsets are meant to
be; `sheltered` calls stay clear of the two places where an offset is truncated
or the end of the heap is mistaken for a block.
-/

set_option autoImplicit false

namespace Esp32Project.EasyHeap
open Esp32Project.Lib

/-- Following `next` from `a` visits exactly these offsets and then `e`. -/
def Visits (next : Nat → Nat) : Nat → List Nat → Nat → Prop
  | a, [], e => a = e
  | a, b :: bs, e => a = b ∧ Visits next (next b) bs e

def Heap.payload (h : Heap) (p : Nat) : Nat := h.next (p - sizeofMemHeap) - p

def HeapOk (s : Client) : Prop :=
  ∃ bs : List Nat,
    Visits s.heap.next 0 bs heapSize ∧
    (bs ++ [heapSize]).Pairwise (· < ·) ∧
    bs.IsChain (fun b c => s.heap.prev c = b) ∧
    bs.IsChain (fun b c => s.heap.used b ≠ 0 ∨ s.heap.used c ≠ 0) ∧
    s.heap.pfree = (bs.find? (fun b => s.heap.used b == 0)).getD heapSize ∧
    (∀ e ∈ s.live, (∃ b ∈ bs, e.1 = b + sizeofMemHeap ∧ s.heap.used b ≠ 0) ∧
      e.2 ≤ s.heap.payload e.1 ∧ e.1 + s.heap.payload e.1 ≤ heapSize) ∧
    s.live.Pairwise (fun e f => Apart e.1 (s.heap.payload e.1) f.1 (s.heap.payload f.1))

def walk (h : Heap) : Nat → Nat → List Nat
  | 0, _ => []
  | fuel+1, a => if a < heapSize then a :: walk h fuel (h.next a) else []

def firstFit (h : Heap) (n : Nat) : Option Nat := (walk h heapSize 0).find? (h.fits · n)

def cutInReach (h : Heap) (size : Nat) : Prop :=
  ∀ c ∈ firstFit h (alignedSize size), alignedSize size + minSizeAligned ≤ h.room c →
    c + sizeofMemHeap + alignedSize size < 256

/-- The block is not the one that ends the heap. -/
def notLast (h : Heap) (p : Nat) : Prop := h.next (p - sizeofMemHeap) ≠ heapSize

def sheltered (s : Client) : Call → Prop
  | .alloc size => size = 0 ∨ cutInReach s.heap size
  | .free p => notLast s.heap p

instance (s : Client) (a : Call) : Decidable (legal s a) := by
  cases a <;> unfold legal <;> infer_instance

instance (s : Client) (a : Call) : Decidable (sheltered s a) := by
  cases a <;> unfold sheltered <;> unfold cutInReach notLast <;> infer_instance

theorem laid_visits {h : Heap} {p a : Nat} {segs : List Seg} (hl : Laid h p a segs) :
    Visits h.next a (starts a segs) (a + span segs) := by
  induction segs generalizing p a with
  | nil => simp [Visits, starts, span]
  | cons g gs ih =>
    obtain ⟨-, hn, -, hrest⟩ := hl
    refine ⟨rfl, ?_⟩
    rw [hn, span, ← Nat.add_assoc]
    exact ih hrest

theorem laid_prev {h : Heap} {p a : Nat} {segs : List Seg} (hl : Laid h p a segs) :
    (starts a segs).IsChain (fun b c => h.prev c = b) := by
  induction segs generalizing p a with
  | nil => exact .nil
  | cons g gs ih =>
    have hrest := hl.2.2.2
    cases gs with
    | nil => exact .singleton _
    | cons k ks => exact List.isChain_cons_cons.mpr ⟨hrest.1, ih hrest⟩

theorem laid_alternate {h : Heap} {p a : Nat} {segs : List Seg} (hl : Laid h p a segs)
    (ha : Alternate segs) :
    (starts a segs).IsChain (fun b c => h.used b ≠ 0 ∨ h.used c ≠ 0) := by
  have hne {g : Seg} (hg : g.isUsed = true) : g.owner ≠ none := Option.isSome_iff_ne_none.mp hg
  induction segs generalizing p a with
  | nil => exact .nil
  | cons g gs ih =>
    obtain ⟨-, -, hu, hrest⟩ := hl
    cases gs with
    | nil => exact .singleton _
    | cons k ks =>
      obtain ⟨hgk, ha⟩ := List.isChain_cons_cons.mp ha
      refine List.isChain_cons_cons.mpr ⟨?_, ih hrest ha⟩
      rcases hgk with hg | hk
      · exact .inl fun h0 => hne hg (hu.mp h0)
      · exact .inr fun h0 => hne hk (hrest.2.2.1.mp h0)

theorem laid_firstFree {h : Heap} {p a : Nat} {segs : List Seg} (hl : Laid h p a segs) :
    ((starts a segs).find? (fun b => h.used b == 0)).getD (a + span segs) =
      a + span (segs.takeWhile Seg.isUsed) := by
  induction segs generalizing p a with
  | nil => simp [starts, span]
  | cons g gs ih =>
    obtain ⟨-, -, hu, hrest⟩ := hl
    cases ho : g.owner with
    | none => simp [starts, hu.mpr ho, Seg.isUsed, ho, span]
    | some n =>
      have hne : (h.used a == 0) = false := by
        simpa using fun h0 => by simp [hu.mp h0] at ho
      simp only [starts, List.find?_cons, hne, Seg.isUsed, ho, Option.isSome_some, span,
        List.takeWhile_cons, if_true, ← Nat.add_assoc]
      exact ih hrest

theorem owned_payload {h : Heap} {segs : List Seg} (hc : Core h segs) {e : Nat × Nat}
    (he : e ∈ owned 0 segs) :
    ∃ xs g ys, segs = xs ++ g :: ys ∧ e.1 = span xs + sizeofMemHeap ∧ g.owner = some e.2 ∧
      h.payload e.1 = g.size := by
  obtain ⟨xs, g, ys, rfl, hp, ho⟩ := mem_owned_iff.mp he
  rw [Nat.zero_add] at hp
  have hn := hc.next
  refine ⟨xs, g, ys, rfl, hp, ho, ?_⟩
  rw [Heap.payload, hp, Nat.add_sub_cancel, hn, Seg.bytes]
  omega

theorem owned_apart {h : Heap} {p a : Nat} {segs : List Seg} (hl : Laid h p a segs) :
    (owned a segs).Pairwise
      (fun e f => Apart e.1 (h.payload e.1) f.1 (h.payload f.1)) := by
  induction segs generalizing p a with
  | nil => simp [owned]
  | cons g gs ih =>
    obtain ⟨-, hn, -, hrest⟩ := hl
    rw [owned, List.pairwise_append]
    refine ⟨?_, ih hrest, fun e he f hf => .inl ?_⟩
    · cases g.owner <;> simp
    · obtain ⟨n, hn', rfl⟩ : ∃ n, g.owner = some n ∧ (a + sizeofMemHeap, n) = e := by
        simpa using he
      obtain ⟨xs, k, ys, -, hfp, -⟩ := mem_owned_iff.mp (show (f.1, f.2) ∈ _ from hf)
      rw [Heap.payload, Nat.add_sub_cancel, hn, hfp]
      simp only [Seg.bytes, sizeofMemHeap]
      omega

def Held (s : Client) : Prop := ∃ segs, Inv s.heap segs ∧ s.live.Perm (owned 0 segs)

theorem Held.heapOk {s : Client} (h : Held s) : HeapOk s := by
  obtain ⟨segs, hi, hperm⟩ := h
  have hl := hi.laid
  have ht : 0 + span segs = heapSize := by rw [Nat.zero_add, hi.total]
  refine ⟨starts 0 segs, ?_, ?_, laid_prev hl, laid_alternate hl hi.alternate, ?_, ?_, ?_⟩
  · exact ht ▸ laid_visits hl
  · exact ht ▸ starts_sorted 0 segs
  · rw [← ht, laid_firstFree hl, Nat.zero_add, hi.pfree]
  · intro e he
    obtain ⟨xs, g, ys, rfl, hp, ho, hpay⟩ := owned_payload hi.toCore (hperm.mem_iff.mp he)
    have hsum := hi.total
    simp only [span_append, span, Seg.bytes] at hsum
    refine ⟨⟨span xs, by simp [starts_append, starts], hp, ?_⟩, ?_, ?_⟩
    · exact mt hi.toCore.used_iff.mp (by simp [ho])
    · exact hpay ▸ hi.enough g (by simp) e.2 ho
    · rw [hpay, hp]
      omega
  · exact hperm.symm.pairwise (owned_apart hl) (fun h => h.symm)

theorem held_init : Held Client.init := by
  refine ⟨[⟨heapSize - sizeofMemHeap, none⟩], ⟨?_, .singleton _⟩, .refl _⟩
  refine ⟨rfl, rfl, ?_, rfl, rfl, ?_, ?_, ?_, ?_⟩
  · refine ⟨?_, ?_, ?_, trivial⟩ <;> decide
  · simp [Small, starts]
  · simp
  · simp [heapSize, sizeofMemHeap]
  · decide

theorem walk_laid {h : Heap} {p a fuel : Nat} {segs : List Seg} (hl : Laid h p a segs)
    (hs : a + span segs = heapSize) (hf : segs.length < fuel) :
    walk h fuel a = starts a segs := by
  induction segs generalizing p a fuel with
  | nil =>
    obtain ⟨fuel, rfl⟩ := Nat.exists_eq_succ_of_ne_zero (Nat.ne_of_gt hf)
    have ha : a = heapSize := by simpa [span] using hs
    simp [walk, starts, ha]
  | cons g gs ih =>
    obtain ⟨fuel, rfl⟩ := Nat.exists_eq_succ_of_ne_zero (Nat.ne_zero_of_lt hf)
    obtain ⟨-, hn, -, hrest⟩ := hl
    have hg := seg_bytes_pos g
    simp only [span, sizeofMemHeap] at hs hg
    rw [walk, if_pos (by omega), hn, starts, ih hrest (by omega) (by simpa using hf)]

theorem Core.walk_eq {h : Heap} {segs : List Seg} (hc : Core h segs) :
    walk h heapSize 0 = starts 0 segs := by
  have hlen := hc.length_le
  exact walk_laid hc.laid (by rw [hc.total, Nat.zero_add]) (by simp only [heapSize]; omega)

theorem firstFit_laid {h : Heap} {xs ys : List Seg} {g : Seg} {n : Nat}
    (hc : Core h (xs ++ g :: ys)) (hg : g.holds n) (hx : ∀ k ∈ xs, ¬ k.holds n) :
    firstFit h n = some (span xs) := by
  rw [firstFit, hc.walk_eq, List.find?_eq_some_iff_append]
  have hfit := fits_iff (n := n) hc.laid
  rw [Nat.zero_add] at hfit
  refine ⟨hfit.mpr hg, starts 0 xs, starts (span xs + g.bytes) ys, ?_, fun b hb => ?_⟩
  · simp [starts_append, starts]
  · obtain ⟨as, k, bs, rfl, rfl⟩ := mem_starts_iff.mp hb
    have hl : Laid h 0 0 (as ++ k :: (bs ++ g :: ys)) := by simpa using hc.laid
    simpa using fun hf => hx k (by simp) ((fits_iff hl).mp hf)

theorem firstFit_le {h : Heap} {segs : List Seg} {n c : Nat} (hc : Core h segs)
    (hfit : firstFit h n = some c) : n ≤ heapSize := by
  have hlist := List.mem_of_find?_eq_some hfit
  have hfits := List.find?_some hfit
  rw [hc.walk_eq] at hlist
  obtain ⟨as, k, bs, rfl, rfl⟩ := mem_starts_iff.mp hlist
  have hk := ((fits_iff hc.laid).mp hfits).2
  have ht := hc.total
  simp only [span_append, span, Seg.bytes] at ht
  omega

theorem alternate_used {xs ys : List Seg} {g g' : Seg} (ha : Alternate (xs ++ g :: ys))
    (hg : g'.isUsed = true) : Alternate (xs ++ g' :: ys) := by
  simp only [Alternate, List.isChain_append, List.isChain_cons] at ha ⊢
  exact ⟨ha.1, ⟨fun _ _ => .inl hg, ha.2.1.2⟩, fun _ _ k hk => .inr (by simp_all)⟩

theorem alignedSize_dvd (size : Nat) : 4 ∣ alignedSize size := Nat.dvd_mul_left _ _

theorem search_from_pfree {h : Heap} {segs : List Seg} {n c : Nat} (hc : Core h segs)
    (hr : search h n 257 (h.pfree % 256) = some (some c)) :
    ∃ xs g ys, segs = xs ++ g :: ys ∧ c = span xs ∧ g.holds n ∧ ∀ k ∈ xs, ¬ k.holds n := by
  have hsplit : segs = segs.takeWhile Seg.isUsed ++ segs.dropWhile Seg.isUsed :=
    List.takeWhile_append_dropWhile.symm
  cases hd : segs.dropWhile Seg.isUsed with
  | nil =>
    rw [hd, List.append_nil] at hsplit
    rw [hc.pfree, ← hsplit, hc.total] at hr
    exact search_first hc.laid hc.total hc.small 257 [] _ rfl hc.ne_nil (by simp) hr
  | cons g gs =>
    rw [hd] at hsplit
    have hlt : span (segs.takeWhile Seg.isUsed) < 256 := Small.at (hsplit ▸ hc.small)
    rw [hc.pfree, Nat.mod_eq_of_lt hlt] at hr
    refine search_first hc.laid hc.total hc.small 257 _ _ hsplit (by simp) (fun k hk hh => ?_) hr
    have hu := List.mem_takeWhile_imp hk
    rw [isUsed_free hh.1] at hu
    cases hu

theorem cut_inv {h : Heap} {xs ys : List Seg} {g : Seg} {n : Nat} (hi : Inv h (xs ++ g :: ys))
    (hg : g.holds n) (h4 : 4 ∣ n) (hcut : n + minSizeAligned ≤ h.room (span xs) →
      span xs + sizeofMemHeap + n < 256) :
    ∃ k zs, Core (if n + minSizeAligned ≤ h.room (span xs) then splitBlock h (span xs) n else h)
        (xs ++ k :: zs) ∧ k.holds n ∧
      (∀ u : Seg, u.isUsed = true → Alternate (xs ++ u :: zs)) ∧
      owned (span xs + k.bytes) zs = owned (span xs + g.bytes) ys := by
  have hroom := hi.toCore.room
  rw [hroom] at hcut ⊢
  split
  · rename_i hn
    refine ⟨_, _, hi.toCore.split hg.1 hn (hcut hn) h4, ⟨rfl, Nat.le_refl n⟩, fun u hu => ?_, ?_⟩
    · have ha := alternate_used hi.alternate hu
      have hf := hi.alternate
      simp only [Alternate, List.isChain_append, List.isChain_cons, isUsed_free hg.1,
        Bool.false_eq_true, false_or] at ha hf ⊢
      exact ⟨ha.1, ⟨fun _ _ => .inl hu, fun j hj => .inr (hf.2.1.1 j hj), ha.2.1.2⟩, ha.2.2⟩
    · have hb : span xs + Seg.bytes ⟨n, none⟩ + Seg.bytes ⟨g.size - n - sizeofMemHeap, none⟩ =
          span xs + g.bytes := by
        simp only [Seg.bytes, minSizeAligned, sizeofMemHeap] at hn ⊢
        omega
      simp [owned, hb]
  · exact ⟨g, ys, hi.toCore, hg, fun u hu => alternate_used hi.alternate hu, rfl⟩

theorem search_ne_end (h : Heap) (n fuel ptr : Nat) (hp : ptr < 256) :
    search h n fuel ptr ≠ some none := by
  induction fuel generalizing ptr with
  | zero => simp [search]
  | succ fuel ih =>
    rw [search, if_pos (by simp only [heapSize]; omega)]
    split
    · simp
    · exact ih _ (Nat.mod_lt _ (by decide))

/-- A call that returns refused the size, or took the lowest block that can hold it. -/
theorem easyHeapAlloc_cases {h h' : Heap} {segs : List Seg} {size : Nat} {p : Option Nat}
    (hc : Core h segs) (hr : easyHeapAlloc h size = some (h', p)) :
    (h' = h ∧ p = none ∧ (size = 0 ∨ heapSize < alignedSize size)) ∨
      (size ≠ 0 ∧ ∃ xs g ys, segs = xs ++ g :: ys ∧ g.holds (alignedSize size) ∧
        firstFit h (alignedSize size) = some (span xs) ∧
        takeBlock (if alignedSize size + minSizeAligned ≤ h.room (span xs) then
          splitBlock h (span xs) (alignedSize size) else h) (span xs) = some (h', p)) := by
  rw [easyHeapAlloc, if_neg (by simp [hc.ready])] at hr
  split at hr
  · rename_i hsize
    cases hr
    exact .inl ⟨rfl, rfl, .inl hsize⟩
  rename_i hsize
  dsimp only at hr
  split at hr
  · rename_i hbig
    cases hr
    exact .inl ⟨rfl, rfl, .inr hbig⟩
  cases hsr : search h (alignedSize size) 257 (h.pfree % 256) with
  | none => simp [hsr] at hr
  | some found =>
    cases found with
    | none => exact absurd hsr (search_ne_end h _ _ _ (Nat.mod_lt _ (by decide)))
    | some c =>
      obtain ⟨xs, g, ys, rfl, rfl, hg, hx⟩ := search_from_pfree hc hsr
      simp only [hsr] at hr
      exact .inr ⟨hsize, xs, g, ys, rfl, hg, firstFit_laid hc hg hx, hr⟩

theorem easyHeapAlloc_inv {h h' : Heap} {segs : List Seg} {size : Nat} {p : Option Nat}
    (hi : Inv h segs) (hc : size = 0 ∨ cutInReach h size)
    (hr : easyHeapAlloc h size = some (h', p)) :
    ∃ segs', Inv h' segs' ∧
      (p.toList.map (fun p => (p, size)) ++ owned 0 segs).Perm (owned 0 segs') := by
  rcases easyHeapAlloc_cases hi.toCore hr with ⟨rfl, rfl, -⟩ | ⟨hsize, xs, g, ys, rfl, hg, hf, ht⟩
  · exact ⟨segs, hi, .refl _⟩
  have hcut := hc.resolve_left hsize _ hf
  obtain ⟨k, zs, hcore, hk, halt, hrest⟩ := cut_inv hi hg (alignedSize_dvd size) hcut
  have hle : size ≤ k.size := by
    have := hk.2
    simp only [alignedSize, heapAlignment] at this
    omega
  obtain ⟨h₂, ht₂, hcore'⟩ := hcore.take hk.1 hle
  rw [ht₂, Option.some.injEq, Prod.mk.injEq] at ht
  obtain ⟨rfl, rfl⟩ := ht
  refine ⟨_, ⟨hcore', halt _ rfl⟩, ?_⟩
  have hsame : Seg.bytes { k with owner := some size } = k.bytes := rfl
  simp only [Option.toList_some, List.map_cons, List.map_nil, List.singleton_append,
    owned_append, owned, hg.1, Option.map_none, Option.toList_none, List.nil_append,
    Option.map_some, Nat.zero_add, hsame, hrest]
  exact List.perm_middle.symm

theorem easyHeapFree_eq {h : Heap} {c : Nat} (hc : c + sizeofMemHeap ≤ heapSize) :
    easyHeapFree h (some (c + sizeofMemHeap)) =
      plugPrev (plugNext { h.setUsed c 0 with
        pfree := if c < h.pfree then c else h.pfree } c) c := by
  rw [easyHeapFree, if_neg (by omega)]
  simp only [Nat.add_sub_cancel, plugHole]
  split
  · rename_i hp
    rw [if_pos (show c < h.pfree from hp)]
  · rename_i hp
    rw [if_neg (show ¬ c < h.pfree from hp)]
    rfl

theorem easyHeapFree_inv {h : Heap} {xs ys : List Seg} {g : Seg} (hi : Inv h (xs ++ g :: ys))
    (hg : g.owner ≠ none) (hlast : notLast h (span xs + sizeofMemHeap)) :
    ∃ segs, Inv (easyHeapFree h (some (span xs + sizeofMemHeap))) segs ∧
      owned 0 segs = owned 0 xs ++ owned (span xs + g.bytes) ys := by
  have ht := hi.total
  have hgb := seg_bytes_pos g
  have hnext := hi.toCore.next
  simp only [notLast, Nat.add_sub_cancel, hnext] at hlast
  simp only [span_append, span] at ht
  have hy : ys ≠ [] := by
    rintro rfl
    exact hlast (by simpa [span] using ht)
  have ha := hi.alternate
  simp only [Alternate, List.isChain_append, List.isChain_cons] at ha
  have hcore := hi.toCore.release hg
  obtain ⟨k, zs, hcore, hk, halt, howned⟩ := plugNext_inv hcore rfl hy ha.2.1.2
  obtain ⟨segs, hinv, howned'⟩ := plugPrev_inv hcore hk ha.1 halt
  refine ⟨segs, ?_, ?_⟩
  · rw [easyHeapFree_eq (by simp only [sizeofMemHeap] at *; omega)]
    exact hinv
  rw [howned', owned_append, Nat.zero_add, howned]
  simp [owned, Seg.bytes]

theorem held_step {s s' : Client} {a : Call} (h : Held s) (hl : legal s a) (hc : sheltered s a)
    (hs : step s a = some s') : Held s' := by
  obtain ⟨segs, hi, hperm⟩ := h
  cases a with
  | alloc size =>
    obtain ⟨⟨h', p⟩, hr, rfl⟩ := Option.map_eq_some_iff.mp hs
    obtain ⟨segs', hi', hperm'⟩ := easyHeapAlloc_inv hi hc hr
    exact ⟨segs', hi', (hperm.append_left _).trans hperm'⟩
  | free p =>
    cases hs
    obtain ⟨e, he, rfl⟩ := List.mem_map.mp hl
    obtain ⟨xs, g, ys, rfl, hp, ho, -⟩ := owned_payload hi.toCore (hperm.mem_iff.mp he)
    change notLast s.heap e.1 at hc
    rw [hp] at hc ⊢
    obtain ⟨segs', hi', howned⟩ := easyHeapFree_inv hi (by simp [ho]) hc
    refine ⟨segs', hi', (hperm.filter _).trans ?_⟩
    -- the other payloads lie before or behind the one given back
    have hbefore : ∀ f ∈ owned 0 xs, f.1 ≠ span xs + sizeofMemHeap := by
      intro f hf
      obtain ⟨as, k, bs, rfl, hfp, -⟩ := mem_owned_iff.mp (show (f.1, f.2) ∈ _ from hf)
      have hk := seg_bytes_pos k
      simp only [span_append, span, sizeofMemHeap] at hk hfp ⊢
      omega
    have hbehind : ∀ f ∈ owned (span xs + g.bytes) ys, f.1 ≠ span xs + sizeofMemHeap := by
      intro f hf
      obtain ⟨as, k, bs, rfl, hfp, -⟩ := mem_owned_iff.mp (show (f.1, f.2) ∈ _ from hf)
      have hg := seg_bytes_pos g
      simp only [sizeofMemHeap] at hg hfp ⊢
      omega
    have hkeep {l : List (Nat × Nat)} (hn : ∀ f ∈ l, f.1 ≠ span xs + sizeofMemHeap) :
        l.filter (fun f => f.1 ≠ span xs + sizeofMemHeap) = l :=
      List.filter_eq_self.mpr (by simpa using hn)
    rw [howned, owned_append, owned, ho, List.filter_append, List.filter_append, Nat.zero_add,
      hkeep hbefore, hkeep hbehind]
    simp

end Esp32Project.EasyHeap
