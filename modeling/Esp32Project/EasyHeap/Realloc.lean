import Esp32Project.EasyHeap.Search

/-!
`easy_heap_realloc` gives the block back and allocates anew, and copies nothing.
The bytes survive where the new block begins in the same place.
-/

set_option autoImplicit false

namespace Esp32Project.EasyHeap
open Esp32Project.Lib

def easyHeapRealloc (h : Heap) (heap : Option Nat) (size : Nat) : Option (Heap × Option Nat) :=
  easyHeapAlloc (easyHeapFree h heap) size

inductive Use where
  | call (a : Call)
  | store (p i : Nat) (v : UInt8)
  | realloc (p size : Nat)
  deriving DecidableEq

/-- A holder that gets NULL from `easy_heap_realloc` takes its block to be there still. -/
def useStep (s : Client) : Use → Option Client
  | .call a => step s a
  | .store p i v => some { s with heap := { s.heap with ram := s.heap.ram.write8 (p + i) v } }
  | .realloc p size =>
    (easyHeapRealloc s.heap (some p) size).map fun (h, q) =>
      match q with
      | none => { s with heap := h }
      | some q => ⟨h, (q, size) :: s.live.filter (fun e => e.1 ≠ p)⟩

def Live (h : Heap) (p size : Nat) : Prop :=
  ∃ b ∈ walk h heapSize 0, p = b + sizeofMemHeap ∧ h.used b ≠ 0 ∧ size ≤ h.payload p

/-- The new block with the bytes of the old one, or NULL and the old block as it was. -/
def ReallocRight (h : Heap) (p n : Nat) : Prop :=
  ∃ h' q, easyHeapRealloc h (some p) n = some (h', q) ∧
    match q with
    | some q => Live h' q n ∧ ∀ i < min (h.payload p) n, h'.ram (q + i) = h.ram (p + i)
    | none => Live h' p (h.payload p) ∧ ∀ i < h.payload p, h'.ram (p + i) = h.ram (p + i)

/-- Where the block at `b` ends, with the free block behind it. -/
def Heap.reach (h : Heap) (b : Nat) : Nat :=
  if h.used (h.next b) = 0 then h.next (h.next b) else h.next b

/-- The block given back is the lowest that fits, and begins where it did. -/
def Stays (h : Heap) (p n : Nat) : Prop :=
  n ≠ 0 ∧ notLast h p ∧
    (p = sizeofMemHeap ∨ h.used (h.prev (p - sizeofMemHeap)) ≠ 0) ∧
    (∀ b ∈ walk h heapSize 0, b < p → h.fits b (alignedSize n) = false) ∧
    p + alignedSize n ≤ h.reach (p - sizeofMemHeap) ∧
    (p + alignedSize n + minSizeAligned ≤ h.reach (p - sizeofMemHeap) →
      p + alignedSize n < 256)

/-- Holders keep to their blocks; a block is reallocated only where it stays. -/
def useOk (s : Client) : Use → Prop
  | .call a => legal s a ∧ sheltered s a
  | .store p i _ => ∃ e ∈ s.live, e.1 = p ∧ i < e.2
  | .realloc p n => p ∈ s.live.map Prod.fst ∧ Stays s.heap p n

instance (h : Heap) (p n : Nat) : Decidable (Stays h p n) := by
  unfold Stays notLast
  infer_instance

instance (s : Client) (u : Use) : Decidable (useOk s u) := by
  cases u <;> unfold useOk <;> infer_instance

section

variable {h h' : Heap} {a c n v x : Nat} {w : UInt8}

theorem ram_setPrev (hx : x < a ∨ a + 2 ≤ x) : (h.setPrev a v).ram x = h.ram x :=
  h.ram.write16_other (by omega) (by omega)

theorem ram_setNext (hx : x < a + 2 ∨ a + 4 ≤ x) : (h.setNext a v).ram x = h.ram x :=
  h.ram.write16_other (by omega) (by omega)

theorem ram_setUsed (hx : x ≠ a + 4) : (h.setUsed a w).ram x = h.ram x := h.ram.write8_other hx

theorem ram_join {c₂ : Nat} (hc : c + sizeofMemHeap ≤ c₂) (hlo : c + sizeofMemHeap ≤ x)
    (hhi : x < h.next c₂) : (h.join c c₂).ram x = h.ram x := by
  simp only [sizeofMemHeap] at hc hlo
  rw [Heap.join, next_setNext h (by omega), ram_setPrev (by omega), ram_setNext (by omega)]

theorem ram_splitBlock (hc : c + sizeofMemHeap + n < 256)
    (hfit : c + sizeofMemHeap + n + sizeofMemHeap ≤ h.next c) (hlo : c + sizeofMemHeap ≤ x)
    (hhi : x < c + sizeofMemHeap + n) : (splitBlock h c n).ram x = h.ram x := by
  simp only [sizeofMemHeap] at *
  have hcut : (h.cut c (c + 8 + n) (h.next c)).ram x = h.ram x := by
    rw [Heap.cut, ram_setNext (by omega), ram_setPrev (by omega), ram_setNext (by omega),
      ram_setUsed (by omega)]
  rw [splitBlock_eq rfl hc]
  split
  · rw [ram_setPrev (by omega)]
    exact hcut
  · exact hcut

theorem ram_takeBlock {q : Option Nat} (ht : takeBlock h c = some (h', q))
    (hx : c + sizeofMemHeap ≤ x) : h'.ram x = h.ram x := by
  have hu : (h.setUsed c 1).ram x = h.ram x :=
    ram_setUsed (by simp only [sizeofMemHeap] at hx; omega)
  unfold takeBlock at ht
  dsimp only at ht
  split at ht
  · obtain ⟨p, -, hp⟩ := Option.map_eq_some_iff.mp ht
    cases hp
    exact hu
  · cases ht
    exact hu

end

section

variable {h : Heap} {xs ys : List Seg} {g : Seg} {n : Nat}

theorem last_used (hc : Core h (xs ++ g :: ys))
    (hfirst : span xs = 0 ∨ h.used (h.prev (span xs)) ≠ 0) :
    ∀ k ∈ xs.getLast?, k.owner ≠ none := by
  have hprev := hc.prev
  intro k hk
  rcases List.eq_nil_or_concat xs with rfl | ⟨xs, j, rfl⟩
  · cases hk
  · rw [List.concat_eq_append] at *
    obtain rfl : j = k := by simpa using hk
    have hjb := seg_bytes_pos j
    rw [lastStart_append_one, Nat.zero_add] at hprev
    have hc' : Core h (xs ++ j :: g :: ys) := by simpa using hc
    have hu : h.used (span xs) ≠ 0 := by
      refine hprev ▸ hfirst.resolve_left ?_
      simp only [span_append, span, sizeofMemHeap] at hjb ⊢
      omega
    intro hnone
    exact hu (hc'.used_iff.mpr hnone)

theorem plugNext_reach {k : Seg} (hc : Core h (xs ++ g :: k :: ys)) (hg : g.owner = none) :
    (plugNext h (span xs)).next (span xs) = h.reach (span xs) ∧
      ∀ x, span xs + sizeofMemHeap ≤ x → x < span xs + g.bytes →
        (plugNext h (span xs)).ram x = h.ram x := by
  have hgb := seg_bytes_pos g
  have hkb := seg_bytes_pos k
  have hnext := hc.next
  obtain ⟨hnext₂, hu⟩ := hc.second
  simp only [sizeofMemHeap] at hgb hkb
  rw [Heap.reach, hnext]
  by_cases hk : k.owner = none
  · rw [plugNext_free hc hg hk, if_pos (hu.mpr hk)]
    refine ⟨?_, fun x hlo hhi => ram_join (by simp only [sizeofMemHeap]; omega) hlo (by omega)⟩
    have hlt := next_lt h (a := span xs + g.bytes)
    rw [Heap.join, next_setNext h (by omega), hnext₂, next_setPrev _ (by omega),
      next_setNext_self _ (hnext₂ ▸ hlt)]
  · rw [plugNext_used hc hk, if_neg (mt hu.mp hk)]
    exact ⟨hnext, fun _ _ _ => rfl⟩

theorem reach_setUsed {b : Nat} (hn : b + sizeofMemHeap ≤ h.next b) :
    (h.setUsed b 0).reach b = h.reach b := by
  simp only [sizeofMemHeap] at hn
  rw [Heap.reach, Heap.reach, next_setUsed h (by omega), used_setUsed h (by omega),
    next_setUsed h (by omega)]

/-- The block given back stays where it begins, with its bytes. -/
theorem free_stays (hi : Inv h (xs ++ g :: ys)) (hg : g.owner ≠ none)
    (hlast : notLast h (span xs + sizeofMemHeap))
    (hfirst : ∀ k ∈ xs.getLast?, k.owner ≠ none) :
    ∃ g' zs, Inv (easyHeapFree h (some (span xs + sizeofMemHeap))) (xs ++ g' :: zs) ∧
      g'.owner = none ∧ span xs + g'.bytes = h.reach (span xs) ∧
      ∀ x, span xs + sizeofMemHeap ≤ x → x < span xs + g.bytes →
        (easyHeapFree h (some (span xs + sizeofMemHeap))).ram x = h.ram x := by
  have ht := hi.total
  have hgb := seg_bytes_pos g
  have hnext := hi.toCore.next
  simp only [notLast, Nat.add_sub_cancel, hnext] at hlast
  simp only [span_append, span] at ht
  obtain ⟨k, ys, rfl⟩ : ∃ k zs, ys = k :: zs := by
    cases ys with
    | nil => exact absurd (by simpa [span] using ht) hlast
    | cons k zs => exact ⟨k, zs, rfl⟩
  have ha := hi.alternate
  simp only [Alternate, List.isChain_append] at ha
  have hcore := hi.toCore.release hg
  rw [easyHeapFree_eq (by simp only [sizeofMemHeap] at *; omega)]
  have hreach : Heap.reach { h.setUsed (span xs) 0 with
      pfree := if span xs < h.pfree then span xs else h.pfree } (span xs) = h.reach (span xs) :=
    reach_setUsed (by rw [hnext]; exact Nat.add_le_add_left hgb _)
  have hram : ∀ x, span xs + sizeofMemHeap ≤ x → ({ h.setUsed (span xs) 0 with
      pfree := if span xs < h.pfree then span xs else h.pfree } : Heap).ram x = h.ram x :=
    fun x hx => ram_setUsed (by simp only [sizeofMemHeap] at hx; omega)
  generalize { h.setUsed (span xs) 0 with
    pfree := if span xs < h.pfree then span xs else h.pfree } = h₁ at *
  obtain ⟨hnext₁, hram₁⟩ := plugNext_reach hcore rfl
  obtain ⟨g', zs, hcore', hg', halt, -⟩ := plugNext_inv hcore rfl (List.cons_ne_nil k ys)
    (List.isChain_cons.mp ha.2.1).2
  rw [plugPrev_used hcore' hfirst]
  refine ⟨g', zs, ⟨hcore', ?_⟩, hg', ?_, fun x hlo hhi => ?_⟩
  · simp only [Alternate, List.isChain_append]
    refine ⟨ha.1, halt, fun j hj _ _ => .inl (Option.isSome_iff_ne_none.mpr (hfirst j hj))⟩
  · rw [← hreach, ← hnext₁]
    exact hcore'.next.symm
  · rw [hram₁ x hlo hhi, hram x hlo]

/-- The lowest block that fits is handed out with the bytes that it had. -/
theorem alloc_stays (hi : Inv h (xs ++ g :: ys)) (hn : n ≠ 0) (hg : g.holds (alignedSize n))
    (hx : ∀ k ∈ xs, ¬ k.holds (alignedSize n))
    (hcut : alignedSize n + minSizeAligned ≤ g.size →
      span xs + sizeofMemHeap + alignedSize n < 256) :
    ∃ h' k zs, easyHeapAlloc h n = some (h', some (span xs + sizeofMemHeap)) ∧
      Core h' (xs ++ k :: zs) ∧ k.owner = some n ∧ n ≤ k.size ∧
      ∀ x, span xs + sizeofMemHeap ≤ x → x < span xs + sizeofMemHeap + alignedSize n →
        h'.ram x = h.ram x := by
  have hc := hi.toCore
  have ht := hc.total
  have hnext := hc.next
  have hroom := hc.room
  have hle : n ≤ alignedSize n := by
    simp only [alignedSize, heapAlignment]
    omega
  have hfit := hg.2
  simp only [span_append, span, Seg.bytes] at ht
  have hsr : search h (alignedSize n) 257 (h.pfree % 256) = some (some (span xs)) := by
    obtain ⟨c, hsr⟩ := search_ends hc ⟨g, by simp, hg⟩
    obtain ⟨as, k, bs, hsegs, rfl, hk, has⟩ := search_from_pfree hc hsr
    have hfirst := firstFit_laid (hsegs ▸ hc) hk has
    rw [firstFit_laid hc hg hx, Option.some.injEq] at hfirst
    rw [hsr, hfirst]
  obtain ⟨k, zs, hcore, hk, -, -⟩ := cut_inv hi hg (alignedSize_dvd n) (hroom.symm ▸ hcut)
  obtain ⟨h', htake, hcore'⟩ := hcore.take hk.1 (Nat.le_trans hle hk.2)
  refine ⟨h', _, zs, ?_, hcore', rfl, Nat.le_trans hle hk.2, fun x hlo hhi => ?_⟩
  · rw [easyHeapAlloc_search hc hn (by omega)]
    simp only [hsr]
    exact htake
  · rw [ram_takeBlock htake hlo]
    split
    · rename_i hcut'
      rw [hroom] at hcut'
      refine ram_splitBlock (hcut hcut') ?_ hlo hhi
      rw [hnext, Seg.bytes]
      simp only [minSizeAligned, sizeofMemHeap] at hcut' ⊢
      omega
    · rfl

end

theorem Core.live {h : Heap} {xs ys : List Seg} {g : Seg} {n size : Nat}
    (hc : Core h (xs ++ g :: ys)) (ho : g.owner = some n) (hle : size ≤ g.size) :
    Live h (span xs + sizeofMemHeap) size := by
  have hnext := hc.next
  refine ⟨span xs, ?_, rfl, mt hc.used_iff.mp (by simp [ho]), ?_⟩
  · rw [hc.walk_eq]
    simp [starts_append, starts]
  · rw [Heap.payload, Nat.add_sub_cancel, hnext, Seg.bytes]
    omega

theorem Stays.lowest {h : Heap} {xs ys : List Seg} {g : Seg} {n : Nat}
    (hc : Core h (xs ++ g :: ys)) (hs : Stays h (span xs + sizeofMemHeap) n) :
    ∀ k ∈ xs, ¬ k.holds (alignedSize n) := by
  intro k hk hh
  obtain ⟨as, bs, rfl⟩ := List.append_of_mem hk
  have hl : Laid h 0 0 (as ++ k :: (bs ++ g :: ys)) := by simpa using hc.laid
  have hfit := (fits_iff (n := alignedSize n) hl).mpr hh
  rw [Nat.zero_add] at hfit
  have hkb := seg_bytes_pos k
  rw [hs.2.2.2.1 (span as) ?_ (by simp only [span_append, span, sizeofMemHeap] at *; omega)] at hfit
  · cases hfit
  · rw [hc.walk_eq]
    simp [starts_append, starts]

theorem realloc_stays {s : Client} {p n : Nat} (h : Held s) (hl : p ∈ s.live.map Prod.fst)
    (hs : Stays s.heap p n) :
    ReallocRight s.heap p n ∧ ∀ s', useStep s (.realloc p n) = some s' → Held s' := by
  obtain ⟨segs, hi, hperm⟩ := id h
  obtain ⟨e, he, rfl⟩ := List.mem_map.mp hl
  obtain ⟨xs, g, ys, rfl, hp, ho, hpay⟩ := owned_payload hi.toCore (hperm.mem_iff.mp he)
  rw [hp] at hs hpay hl ⊢
  have hfirst := last_used hi.toCore (hs.2.2.1.imp (fun h => by omega) (by simp))
  obtain ⟨g', zs, hi₁, hg', hreach, hram₁⟩ := free_stays hi (by simp [ho]) hs.2.1 hfirst
  obtain ⟨hn, hlast, -, -, hroom, hcut⟩ := id hs
  rw [Nat.add_sub_cancel, ← hreach, Seg.bytes] at hroom hcut
  have hholds : g'.holds (alignedSize n) := ⟨hg', by omega⟩
  have hlow := hs.lowest hi.toCore
  obtain ⟨h', k, ks, halloc, hcore, hk, hle, hram₂⟩ := alloc_stays hi₁ hn hholds hlow
    fun h => hcut (by omega)
  have hle' : n ≤ alignedSize n := by
    simp only [alignedSize, heapAlignment]
    omega
  refine ⟨⟨h', _, halloc, hcore.live hk hle, fun i hi' => ?_⟩, fun s' hs' => ?_⟩
  · rw [hpay] at hi'
    rw [hram₂ _ (by omega) (by omega), hram₁ _ (by omega) (by rw [Seg.bytes]; omega)]
  · -- a free and an allocation, both sheltered
    rw [useStep, easyHeapRealloc, halloc] at hs'
    cases hs'
    have hfree : Held ⟨easyHeapFree s.heap (some (span xs + sizeofMemHeap)),
        s.live.filter (fun e => e.1 ≠ span xs + sizeofMemHeap)⟩ :=
      held_step (a := .free (span xs + sizeofMemHeap)) h hl hlast rfl
    refine held_step (a := .alloc n) hfree ?_ (.inr fun c hc hsplit => ?_)
      (by rw [step, halloc]; rfl)
    · have ht := hi₁.total
      simp only [span_append, span, Seg.bytes, heapSize] at ht
      simp only [legal]
      omega
    · rw [firstFit_laid hi₁.toCore hholds hlow] at hc
      obtain rfl := Option.some.inj hc
      rw [hi₁.toCore.room] at hsplit
      exact hcut (by omega)

theorem held_store {s : Client} {p i m : Nat} (v : UInt8) (h : Held s) (hp : (p, m) ∈ s.live)
    (him : i < m) :
    Held { s with heap := { s.heap with ram := s.heap.ram.write8 (p + i) v } } := by
  obtain ⟨segs, hi, hperm⟩ := h
  obtain ⟨xs, g, ys, rfl, hps, ho, -⟩ := owned_payload hi.toCore (hperm.mem_iff.mp hp)
  have hm := hi.enough g (by simp) m ho
  have ht := hi.total
  have hp' : p = span xs + sizeofMemHeap := hps
  simp only [span_append, span, Seg.bytes] at ht
  have hother : ∀ a, a ≤ span xs ∨ span xs + g.bytes ≤ a →
      SameHeader s.heap { s.heap with ram := s.heap.ram.write8 (p + i) v } a := by
    intro a ha
    simp only [Seg.bytes, sizeofMemHeap] at ha hp'
    exact ⟨s.heap.ram.read16_write8_apart (by omega), s.heap.ram.read16_write8_apart (by omega),
      s.heap.ram.write8_other (by omega)⟩
  refine ⟨_, ⟨⟨hi.ready, hi.heapEnd, ?_, hi.total, hi.pfree, hi.small, hi.enough, hi.aligned, ?_⟩,
    hi.alternate⟩, hperm⟩
  · have hl := (laid_append _ _ _ _ _).mp hi.laid
    rw [Nat.zero_add] at hl
    obtain ⟨hxs, hprev, hnext, hu, hys⟩ := hl
    refine (laid_append _ _ _ _ _).mpr ⟨hxs.congr fun a _ ha => hother a (.inl ?_), ?_⟩
    · rw [Nat.zero_add] at ha
      omega
    · rw [Nat.zero_add]
      obtain ⟨h₁, h₂, h₃⟩ := hother (span xs) (.inl (Nat.le_refl _))
      exact ⟨h₁.trans hprev, h₂.trans hnext, by rw [h₃]; exact hu,
        hys.congr fun a ha _ => hother a (.inr ha)⟩
  · obtain ⟨-, h₂, h₃⟩ := hother heapSize (.inr (by rw [Seg.bytes]; omega))
    exact ⟨h₃.trans hi.endClear.1, h₂.trans hi.endClear.2⟩

theorem held_useStep {s s' : Client} {u : Use} (h : Held s) (hok : useOk s u)
    (hs : useStep s u = some s') : Held s' := by
  cases u with
  | call a => exact held_step h hok.1 hok.2 hs
  | store p i v =>
    cases hs
    obtain ⟨e, he, rfl, hi⟩ := hok
    exact held_store v h he hi
  | realloc p n => exact (realloc_stays h hok.1 hok.2).2 s' hs

/-- In every run in which blocks are reallocated where they stay, and all other
calls are sheltered, a reallocation keeps the block's bytes. -/
theorem reallocRight_of_stays {s : Client} (h : Reach useStep useOk Client.init s) {p n : Nat}
    (hl : p ∈ s.live.map Prod.fst) (hs : Stays s.heap p n) : ReallocRight s.heap p n :=
  (realloc_stays (h.invariant Held held_init fun _ _ _ hi hok hu => held_useStep hi hok hu) hl
    hs).1

/-- A block grows into the free block behind it, twice. -/
theorem reallocRight_of_stays_run :
    ∃ s, Reach useStep useOk Client.init s ∧ s.live = [(8, 30), (56, 5)] ∧
      s.heap.ram 11 = 7 ∧ ReallocRight s.heap 8 40 := by
  have hrun : (runScript useStep (fun s u => useOk s u) Client.init
      [.call (.alloc 10), .call (.alloc 20), .call (.alloc 5), .store 8 3 7, .call (.free 28),
        .realloc 8 30]).any
      (fun s => s.live = [(8, 30), (56, 5)] ∧ s.heap.ram 11 = 7 ∧ 8 ∈ s.live.map Prod.fst ∧
        Stays s.heap 8 40) = true := by decide +kernel
  obtain ⟨s, hs, hp⟩ := (Option.any_eq_true _ _).mp hrun
  obtain ⟨hlive, hram, hl, hstays⟩ := of_decide_eq_true hp
  have hreach := reach_of_script (fun _ _ => of_decide_eq_true) hs
  exact ⟨s, hreach, hlive, hram, reallocRight_of_stays hreach hl hstays⟩

/-- The block moves down to the free block before it without its bytes; and a
size that is refused leaves the old block free. -/
theorem realloc_loses :
    (∃ s, Reach useStep useOk Client.init s ∧ s.live = [(28, 10)] ∧
      ¬ ReallocRight s.heap 28 10) ∧
    ∃ s, Reach useStep useOk Client.init s ∧ s.live = [(8, 10)] ∧ ¬ ReallocRight s.heap 8 2000 := by
  constructor
  · have hrun : (runScript useStep (fun s u => useOk s u) Client.init
        [.call (.alloc 10), .call (.alloc 10), .store 28 0 7, .call (.free 8)]).any
        (fun s => s.live = [(28, 10)] ∧ s.heap.ram 28 = 7 ∧ s.heap.payload 28 = 12 ∧
          (easyHeapRealloc s.heap (some 28) 10).map (fun r => (r.2, r.1.ram 8)) =
            some (some 8, 0)) = true := by decide +kernel
    obtain ⟨s, hs, hp⟩ := (Option.any_eq_true _ _).mp hrun
    obtain ⟨hlive, hram, hpay, hmoved⟩ := of_decide_eq_true hp
    refine ⟨s, reach_of_script (fun _ _ => of_decide_eq_true) hs, hlive, ?_⟩
    rintro ⟨h', q, hr, hq⟩
    rw [hr] at hmoved
    obtain ⟨rfl, hnew⟩ : q = some 8 ∧ h'.ram 8 = 0 := by simpa using hmoved
    have hsame := hq.2 0 (by rw [hpay]; decide)
    rw [show 8 + 0 = 8 from rfl, show 28 + 0 = 28 from rfl, hnew, hram] at hsame
    exact absurd hsame (by decide)
  · have hrun : (runScript useStep (fun s u => useOk s u) Client.init [.call (.alloc 10)]).any
        (fun s => s.live = [(8, 10)] ∧
          (easyHeapRealloc s.heap (some 8) 2000).map (fun r => (r.2, r.1.used 0)) =
            some (none, 0)) = true := by decide +kernel
    obtain ⟨s, hs, hp⟩ := (Option.any_eq_true _ _).mp hrun
    obtain ⟨hlive, hfreed⟩ := of_decide_eq_true hp
    refine ⟨s, reach_of_script (fun _ _ => of_decide_eq_true) hs, hlive, ?_⟩
    rintro ⟨h', q, hr, hq⟩
    rw [hr] at hfreed
    obtain ⟨rfl, hused⟩ : q = none ∧ h'.used 0 = 0 := by simpa using hfreed
    obtain ⟨b, -, hb, hne, -⟩ := hq.1
    obtain rfl : b = 0 := by
      simp only [sizeofMemHeap] at hb
      omega
    exact hne hused

end Esp32Project.EasyHeap
