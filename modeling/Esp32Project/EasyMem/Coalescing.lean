import Esp32Project.EasyMem.Runs
import Esp32Project.EasyMem.Slots

/-!
What comes back when everything is freed. A chunk that `merge` joins stays in
its list, so once the arena has been split the lists below the top one are
never all empty while everything is free.
-/

set_option autoImplicit false

namespace Esp32Project.EasyMem
open Esp32Project.Lib

section

variable {mem k c : Nat} {s s' : Arena} {live : List Nat}

theorem currOrder_setUsed (u : Nat) : (s.setUsed c u).currOrder = s.currOrder := by
  funext d
  by_cases hd : d = c <;> simp [Arena.setUsed, Arena.currOrder, hd]

theorem currOrder_setNext (p : Option Nat) : (s.setNext c p).currOrder = s.currOrder := by
  funext d
  by_cases hd : d = c <;> simp [Arena.setNext, Arena.currOrder, hd]

theorem currOrder_addToHead : (s.addToHead k c).currOrder = s.currOrder := by
  rw [addToHead_eq, currOrder_setHead, currOrder_setNext]

/-- The lists below `order` are as before and that of `order` has a chunk. -/
structure Listed (s s' : Arena) (order : Nat) : Prop where
  below : ∀ k, k < order → s'.memHeads k = s.memHeads k
  some : s'.memHeads order ≠ none
  currOrder : s'.currOrder = s.currOrder

theorem adjustHead_made {a : Nat} (hc : Made mem s k c) (ha : Made mem s (k + 1) a) :
    s.adjustHead c a = s.setUsed a (s.chunk c).used := by
  have hsame : s.order c = (s.chunk a).order := hc.order.trans ha.order.symm
  rw [Arena.adjustHead, hsame]
  rfl

theorem merge_placed (lists : Nat) {order m : Nat} (hn : order + lists = maxOrder + 1)
    (h : Placed mem s live) (hm : Made mem s order m) (hs : merge lists s m order = some s') :
    Placed mem s' live ∧ Listed s s' order := by
  induction lists generalizing s m order with
  | zero => simp [merge] at hs
  | succ lists ih =>
    -- the two halves go up one list, and the upper one stays listed
    have hup : ∀ {t a b c : Nat}, s.memHeads order = some t → Made mem s order a →
        Made mem s order b → b = a + chunkBytes order → Made mem s order c →
        merge lists (s.adjustHead c (a - sizeofChunk)) (a - sizeofChunk) (order + 1) = some s' →
        Placed mem s' live ∧ Listed s s' order := by
      intro t a b c ht ha hb hab hc hr
      obtain ⟨p, rfl, hp⟩ := slot_joined ha.slot (hab ▸ hb.slot)
      have hparent : Made mem s (order + 1) p := ⟨hp, h.above order p _ hp (.inl rfl) ha.order⟩
      rw [Nat.add_sub_cancel, adjustHead_made hc hparent] at hr
      have hjoined : Made mem (s.setUsed p (s.chunk c).used) (order + 1) p :=
        hparent.setChunk hparent.order
      obtain ⟨hplaced, hlisted⟩ := ih (by omega) (h.setUsed hparent _) hjoined hr
      refine ⟨hplaced, fun k hk => hlisted.below k (by omega), ?_, ?_⟩
      · rw [hlisted.below order (by omega)]
        exact fun hnone => by simp [Arena.setUsed, ht] at hnone
      · rw [hlisted.currOrder, currOrder_setUsed]
    have hle : order ≤ maxOrder := hm.slot.1
    simp only [merge] at hs
    split at hs
    · cases hs
      refine ⟨(h.setUsed hm 0).setHead fun t ht => Option.some.inj ht ▸ hm.setChunk hm.order,
        fun k hk => ?_, by simp, ?_⟩
      · simp [Arena.setUsed, Nat.ne_of_lt hk]
      · rw [currOrder_setHead, currOrder_setUsed]
    · rename_i t ht
      have htm := h.head order t hle ht
      rw [walkLimit, hm.order, ← htm.order, findOrder_head] at hs
      simp only at hs
      rw [show layerSize order + layerHeadsSize (order + 1) = chunkBytes order from rfl] at hs
      split at hs
      · exact hup ht htm hm ‹_› htm hs
      split at hs
      · exact hup ht hm htm (Eq.symm ‹_›) hm hs
      · cases hs
        have hused : Made mem (s.setUsed m 0) order m := hm.setChunk hm.order
        refine ⟨((h.setUsed hm 0).push hused).1, fun k hk => ?_, by simp [addToHead_eq], ?_⟩
        · rw [addToHead_eq]
          simp [Arena.setUsed, Arena.setNext, Nat.ne_of_lt hk]
        · rw [currOrder_addToHead, currOrder_setUsed]

theorem easyMemFree_placed (h : Placed mem s live) (hm : Made mem s k c)
    (hs : easyMemFree s (some (c + sizeofChunk)) = some s') :
    Placed mem s' live ∧ Listed s s' k := by
  have hin := slot_inside hm.slot
  have hle := hm.slot.1
  have hr : ¬ (c + sizeofChunk < mem ∨ mem + sizeofMemTotal < c + sizeofChunk) := by omega
  simp only [easyMemFree, h.ready, Option.getD_some, if_neg hr, Nat.add_sub_cancel,
    h.made k c hm] at hs
  exact merge_placed _ (by omega) h hm hs

/-- The size is refused at once or takes the whole arena. -/
def Large (size : Nat) : Prop := 5 * minChunkSize ≤ size

instance (size : Nat) : Decidable (Large size) := by
  unfold Large
  infer_instance

example : Large 40 ∧ ¬ Large 39 := by decide +kernel

theorem large_iff {size : Nat} (h : size ≤ maxChunkNum * maxChunkSize) :
    Large size ↔ orderOf size = maxOrder := by
  have hall : ∀ size, size ≤ maxChunkNum * maxChunkSize →
      (5 * minChunkSize ≤ size ↔ orderOf size = maxOrder) := by decide
  exact hall size h

theorem large_of_lt {size : Nat} (h : maxChunkNum * maxChunkSize < size) : Large size := by
  simp only [maxChunkNum, maxChunkSize, minChunkSize, maxOrder, Large] at *
  omega

/-- What an allocation that returns did: it gave nothing, or handed out a chunk
of the order it computed. -/
theorem easyMemAlloc_placed (h : Placed mem s live) {size : Nat} {p : Option Nat}
    (ha : easyMemAlloc s size = some (s', p)) :
    (Large size ∧ s' = s ∧ p = none) ∨
      ∃ c, p = some (c + sizeofChunk) ∧ Placed mem s' live ∧ Made mem s' (orderOf size) c ∧
        size ≤ maxChunkNum * maxChunkSize ∧
        (Large size → s'.currOrder = s.currOrder ∧
          ∀ j, j < maxOrder → s'.memHeads j = s.memHeads j) := by
  cases easyMemAlloc_cases ha with
  | refused hrefused =>
    rcases hrefused with hbig | hready
    · exact .inl ⟨large_of_lt hbig, rfl, rfl⟩
    · rw [h.ready] at hready
      cases hready
  | taken hsize hmax => exact .inl ⟨(large_iff hsize).mpr hmax, rfl, rfl⟩
  | @head res hsize hh =>
    have hm := h.head _ res (orderOf_le hsize) hh
    have hm' : Made mem (s.setUsed res 1) (orderOf size) res := hm.setChunk hm.order
    obtain ⟨hp, hpm⟩ := (h.setUsed hm 1).pop hm'
    refine .inr ⟨res, rfl, hp, hpm, hsize, fun hl => ⟨?_, fun j hj => ?_⟩⟩
    · rw [currOrder_setNext, currOrder_setHead, currOrder_setUsed]
    · have hne : j ≠ orderOf size := by
        rw [(large_iff hsize).mp hl]
        omega
      simp [Arena.setNext, Arena.setUsed, hne]
  | @split cnt t r hsize hlo hhi ht hr =>
    obtain ⟨hp, hpm⟩ := h.pop (h.head (cnt + 1) t hhi ht)
    obtain ⟨hp', hm'⟩ := split_placed (orderOf size) cnt hlo hp hpm
    subst hr
    refine .inr ⟨_, rfl, hp', hm', hsize, fun hl => ?_⟩
    have hmax := (large_iff hsize).mp hl
    omega

end

/-- A list below the top one has a chunk, or a smaller chunk is handed out. -/
def Fragmented (s : Client) : Prop :=
  (∃ k, k < maxOrder ∧ s.arena.memHeads k ≠ none) ∨
    ∃ p ∈ s.live, s.arena.currOrder (p - sizeofChunk) < maxOrder

section

variable {mem : Nat} {s s' : Client} {a : Call}

theorem Placed.sub {arena : Arena} {live live' : List Nat} (h : Placed mem arena live)
    (hl : ∀ p ∈ live', ∃ k c, p = c + sizeofChunk ∧ Made mem arena k c) :
    Placed mem arena live' :=
  { h with live := hl }

theorem placed_alloc {size : Nat} (h : Placed mem s.arena s.live)
    (hs : step s (.alloc size) = some s') :
    Placed mem s'.arena s'.live ∧ (Fragmented s ∨ ¬ Large size → Fragmented s') := by
  obtain ⟨⟨arena, p⟩, ha, rfl⟩ := Option.map_eq_some_iff.mp hs
  rcases easyMemAlloc_placed h ha with ⟨hl, rfl, rfl⟩ | ⟨c, rfl, hp, hm, hadmitted, hlarge⟩
  · exact ⟨by simpa using h, fun hf => hf.resolve_right (absurd hl)⟩
  refine ⟨hp.sub fun p hpl => ?_, fun hf => ?_⟩
  · rcases List.mem_cons.mp hpl with rfl | hpl
    · exact ⟨orderOf size, c, rfl, hm⟩
    · exact hp.live p hpl
  by_cases hl : Large size
  · obtain ⟨hcurr, hheads⟩ := hlarge hl
    rcases hf.resolve_right (absurd hl) with ⟨j, hj, hne⟩ | ⟨p, hpl, hlt⟩
    · exact .inl ⟨j, hj, by rw [hheads j hj]; exact hne⟩
    · exact .inr ⟨p, List.mem_cons_of_mem _ hpl, by rw [hcurr]; exact hlt⟩
  · have hle := orderOf_le hadmitted
    have hne : orderOf size ≠ maxOrder := fun he => hl ((large_iff hadmitted).mpr he)
    refine .inr ⟨c + sizeofChunk, by simp, ?_⟩
    rw [Nat.add_sub_cancel, hp.made _ c hm]
    omega

theorem placed_free {p : Nat} (h : Placed mem s.arena s.live) (hl : p ∈ s.live)
    (hs : step s (.free p) = some s') :
    Placed mem s'.arena s'.live ∧ (Fragmented s → Fragmented s') := by
  obtain ⟨arena, ha, rfl⟩ := Option.map_eq_some_iff.mp hs
  obtain ⟨k, c, rfl, hm⟩ := h.live p hl
  obtain ⟨hp, hlisted⟩ := easyMemFree_placed h hm ha
  refine ⟨hp.sub fun p hpl => hp.live p (List.mem_of_mem_erase hpl), fun hf => ?_⟩
  by_cases hk : k < maxOrder
  · exact .inl ⟨k, hk, hlisted.some⟩
  have hmax : k = maxOrder := Nat.le_antisymm hm.slot.1 (Nat.le_of_not_lt hk)
  rcases hf with ⟨j, hj, hne⟩ | ⟨p, hpl, hlt⟩
  · exact .inl ⟨j, hj, by rw [hlisted.below j (by omega)]; exact hne⟩
  · -- the chunk that is freed is of the top order, so another one is meant
    have hne : p ≠ c + sizeofChunk := by
      rintro rfl
      rw [Nat.add_sub_cancel, h.made k c hm] at hlt
      omega
    exact .inr ⟨p, (List.mem_erase_of_ne hne).mpr hpl, by rw [hlisted.currOrder]; exact hlt⟩

theorem placed_step (h : Placed mem s.arena s.live) (hl : legal s a) (hs : step s a = some s') :
    Placed mem s'.arena s'.live ∧
      ((Fragmented s ∨ ∃ size, a = .alloc size ∧ ¬ Large size) → Fragmented s') := by
  cases a with
  | alloc size =>
    obtain ⟨hp, hf⟩ := placed_alloc h hs
    refine ⟨hp, fun hor => hf (hor.imp_right ?_)⟩
    rintro ⟨_, he, hsmall⟩
    cases he
    exact hsmall
  | free p =>
    obtain ⟨hp, hf⟩ := placed_free h hl hs
    refine ⟨hp, fun hor => hf (hor.resolve_right ?_)⟩
    rintro ⟨_, he, -⟩
    cases he

end

theorem placed_init (memTotal : Nat) :
    Placed (memAlign memTotal) (Client.init memTotal).arena [] := by
  have horder : ∀ a, (Client.init memTotal).arena.order a = maxOrder → a = memAlign memTotal := by
    intro a ha
    by_contra hne
    simp [Client.init, easyMemInit, Arena.order, Arena.boot, Arena.setHead, hne, maxOrder] at ha
  have hnext : ∀ a, (Client.init memTotal).arena.next a = none := by
    intro a
    by_cases ha : a = memAlign memTotal <;>
      simp [Client.init, easyMemInit, Arena.next, Arena.boot, Arena.setHead, ha]
  have hwhole : Made (memAlign memTotal) (Client.init memTotal).arena maxOrder
      (memAlign memTotal) := ⟨slot_whole, by simp [Client.init, easyMemInit, Arena.order]⟩
  refine ⟨rfl, fun k t _ ht => ?_, fun k a t _ ht => ?_, fun k a hm => ?_, fun k a c hs hc ho => ?_,
    fun p hp => by cases hp⟩
  · by_cases hk : k = maxOrder
    · have he : t = memAlign memTotal := by
        simpa [Client.init, easyMemInit, hk] using ht.symm
      rw [hk, he]
      exact hwhole
    · simp [Client.init, easyMemInit, Arena.boot, Arena.setHead, hk] at ht
  · rw [hnext] at ht
    cases ht
  · obtain rfl := horder a hm.order
    rw [slot_unique slot_whole hm.slot]
    simp [Client.init, easyMemInit, Arena.currOrder]
  · -- only the whole arena is written, which is no half
    obtain rfl := horder c ho
    have htop := slot_unique slot_whole (slot_half hs hc)
    have := hs.1
    omega

structure OneChunk (memTotal : Nat) (s : Arena) (top : Option Nat) (used : Nat) : Prop where
  ready : s.memMemory = some (memAlign memTotal)
  top : s.memHeads maxOrder = top
  below : ∀ k, k < maxOrder → s.memHeads k = none
  chunk : s.chunk (memAlign memTotal) = ⟨none, maxOrder, maxOrder, used⟩

def AsInit (memTotal : Nat) (s : Arena) : Prop :=
  OneChunk memTotal s (some (memAlign memTotal)) 0

def Whole (memTotal : Nat) (s : Client) : Prop :=
  AsInit memTotal s.arena ∧ s.live = [] ∨
    OneChunk memTotal s.arena none 1 ∧ s.live = [memAlign memTotal + sizeofChunk]

section

variable {memTotal : Nat} {s s' : Client} {a : Call}

theorem whole_init (memTotal : Nat) : Whole memTotal (Client.init memTotal) := by
  refine .inl ⟨⟨rfl, by simp [Client.init, easyMemInit], fun k hk => ?_, ?_⟩, rfl⟩
  · simp [Client.init, easyMemInit, Arena.boot, Arena.setHead, Nat.ne_of_lt hk]
  · simp [Client.init, easyMemInit]

theorem AsInit.alloc {arena : Arena} (h : AsInit memTotal arena) (size : Nat)
    (hsize : ¬ maxChunkNum * maxChunkSize < size) (ho : orderOf size = maxOrder) :
    ∃ arena', easyMemAlloc arena size =
        some (arena', some (memAlign memTotal + sizeofChunk)) ∧
      OneChunk memTotal arena' none 1 := by
  have hready : ¬ arena.memMemory = none := by simp [h.ready]
  have hnext : (arena.setUsed (memAlign memTotal) 1).next (memAlign memTotal) = none := by
    simp [Arena.setUsed, Arena.next, h.chunk]
  simp only [easyMemAlloc, if_neg hsize, if_neg hready, ho, h.top, removeFromChain_head,
    Option.map_some]
  refine ⟨_, rfl, h.ready, ?_, fun k hk => ?_, ?_⟩
  · simp [Arena.setNext, hnext]
  · have hne : k ≠ maxOrder := Nat.ne_of_lt hk
    simpa [Arena.setNext, Arena.setUsed, hne] using h.below k hk
  · simp [Arena.setNext, Arena.setUsed, h.chunk]

theorem whole_alloc {size : Nat} (h : Whole memTotal s) (hl : Large size) :
    ∃ s', step s (.alloc size) = some s' ∧ Whole memTotal s' := by
  by_cases hsize : maxChunkNum * maxChunkSize < size
  · exact ⟨s, by simp [step, easyMemAlloc, hsize], h⟩
  have ho := (large_iff (Nat.le_of_not_lt hsize)).mp hl
  rcases h with ⟨hinit, hlive⟩ | ⟨htaken, hlive⟩
  · obtain ⟨arena, ha, hone⟩ := hinit.alloc size hsize ho
    refine ⟨⟨arena, (memAlign memTotal + sizeofChunk) :: s.live⟩, by simp [step, ha],
      .inr ⟨hone, ?_⟩⟩
    rw [hlive]
  · have hready : ¬ s.arena.memMemory = none := by simp [htaken.ready]
    refine ⟨s, ?_, .inr ⟨htaken, hlive⟩⟩
    simp [step, easyMemAlloc, hsize, hready, ho, htaken.top]

theorem whole_free {p : Nat} (h : Whole memTotal s) (hp : p ∈ s.live) :
    ∃ s', step s (.free p) = some s' ∧ Whole memTotal s' := by
  rcases h with ⟨-, hlive⟩ | ⟨htaken, hlive⟩
  · simp [hlive] at hp
  rw [hlive, List.mem_singleton] at hp
  subst hp
  have hin := slot_inside (@slot_whole (memAlign memTotal))
  have hr : ¬ (memAlign memTotal + sizeofChunk < memAlign memTotal ∨
      memAlign memTotal + sizeofMemTotal < memAlign memTotal + sizeofChunk) := by omega
  have hcurr : s.arena.currOrder (memAlign memTotal) = maxOrder := by
    simp [Arena.currOrder, htaken.chunk]
  have hlists : maxOrder + 1 - maxOrder = 1 := by omega
  refine ⟨⟨(s.arena.setUsed (memAlign memTotal) 0).setHead maxOrder (some (memAlign memTotal)),
    []⟩, ?_, .inl ⟨⟨htaken.ready, by simp, fun k hk => ?_, ?_⟩, rfl⟩⟩
  · simp only [step, easyMemFree, htaken.ready, Option.getD_some, if_neg hr, Nat.add_sub_cancel,
      hcurr, hlists, merge, htaken.top, Option.map_some, hlive, List.erase_cons_head]
  · simpa [Arena.setUsed, Nat.ne_of_lt hk] using htaken.below k hk
  · simp [Arena.setUsed, htaken.chunk]

theorem whole_run {as : List Call} (h : Whole memTotal s) (hl : Along step legal s as)
    (hlarge : ∀ size, .alloc size ∈ as → Large size) :
    ∃ s', runScript step (fun _ _ => true) s as = some s' ∧ Whole memTotal s' := by
  induction as generalizing s with
  | nil => exact ⟨s, rfl, h⟩
  | cons a as ih =>
    have hstep : ∃ s', step s a = some s' ∧ Whole memTotal s' := by
      cases a with
      | alloc size => exact whole_alloc h (hlarge size (by simp))
      | free p => exact whole_free h hl.1
    obtain ⟨u, hu, hw⟩ := hstep
    obtain ⟨s', hs', hw'⟩ := ih hw (hl.2 u hu) fun size hm =>
      hlarge size (List.mem_cons_of_mem _ hm)
    exact ⟨s', by simp [runScript, hu, hs'], hw'⟩

theorem fragmented_run {mem : Nat} {as : List Call} (h : Placed mem s.arena s.live)
    (hl : Along step legal s as) (hs : runScript step (fun _ _ => true) s as = some s')
    (hf : Fragmented s ∨ ∃ size, .alloc size ∈ as ∧ ¬ Large size) : Fragmented s' := by
  induction as generalizing s with
  | nil =>
    cases hs
    exact hf.resolve_right (by simp)
  | cons a as ih =>
    simp only [runScript, if_true] at hs
    obtain ⟨u, hu, hrest⟩ := Option.bind_eq_some_iff.mp hs
    obtain ⟨hp, hfu⟩ := placed_step h hl.1 hu
    refine ih hp (hl.2 u hu) hrest ?_
    rcases hf with hf | ⟨size, hm, hsmall⟩
    · exact .inl (hfu (.inl hf))
    · rcases List.mem_cons.mp hm with rfl | hm
      · exact .inl (hfu (.inr ⟨size, rfl, hsmall⟩))
      · exact .inr ⟨size, hm, hsmall⟩

end

/-- A history that frees everything leaves the arena as `easy_mem_init` did,
and ready for the largest allocation, exactly if it never split it. -/
theorem coalesces_iff (memTotal : Nat) (as : List Call)
    (hl : Along step legal (Client.init memTotal) as)
    (hf : ∀ s, runScript step (fun _ _ => true) (Client.init memTotal) as = some s → s.live = []) :
    (∃ s, runScript step (fun _ _ => true) (Client.init memTotal) as = some s ∧
        AsInit memTotal s.arena ∧
        ∃ t p, easyMemAlloc s.arena (maxChunkNum * maxChunkSize) = some (t, some p)) ↔
      ∀ size, .alloc size ∈ as → Large size := by
  constructor
  · rintro ⟨s, hs, hinit, -⟩ size hm
    by_contra hsmall
    rcases fragmented_run (placed_init memTotal) hl hs (.inr ⟨size, hm, hsmall⟩) with
      ⟨k, hk, hne⟩ | ⟨p, hp, -⟩
    · exact hne (hinit.below k hk)
    · rw [hf s hs] at hp
      cases hp
  · intro hlarge
    obtain ⟨s, hs, ⟨hinit, -⟩ | ⟨-, hlive⟩⟩ := whole_run (whole_init memTotal) hl hlarge
    · obtain ⟨t, ht, -⟩ := hinit.alloc (maxChunkNum * maxChunkSize) (by omega) (by decide)
      exact ⟨s, hs, hinit, t, _, ht⟩
    · rw [hf s hs] at hlive
      cases hlive

/-- Two allocations of the whole arena, one of them freed between. -/
theorem coalesces_iff_twice :
    ∃ s, runScript step (fun _ _ => true) (Client.init 0x3ffb0000)
        [.alloc 64, .free 0x3ffb0008, .alloc 40, .alloc 64, .free 0x3ffb0008] = some s ∧
      AsInit 0x3ffb0000 s.arena := by
  have hrun : (runScript step (fun s a => decide (legal s a)) (Client.init 0x3ffb0000)
      [.alloc 64, .free 0x3ffb0008, .alloc 40, .alloc 64, .free 0x3ffb0008]).map Client.live =
      some [] := by decide
  have hfree : (runScript step (fun _ _ => true) (Client.init 0x3ffb0000)
      [.alloc 64, .free 0x3ffb0008, .alloc 40, .alloc 64, .free 0x3ffb0008]).map Client.live =
      some [] := by decide
  obtain ⟨t, ht, -⟩ := Option.map_eq_some_iff.mp hrun
  obtain ⟨s, hs, hinit, -⟩ := (coalesces_iff 0x3ffb0000
    [.alloc 64, .free 0x3ffb0008, .alloc 40, .alloc 64, .free 0x3ffb0008]
    (along_of_script (fun _ _ => of_decide_eq_true) ht)
    (fun s hs => by simpa [hs] using hfree)).mpr (by simp; decide)
  exact ⟨s, hs, hinit⟩

def smallBlocks : List Call :=
  [.alloc 8, .alloc 8, .alloc 8, .free 0x3ffb00a0, .free 0x3ffb0088, .free 0x3ffb00b0]

/-- The last chunk freed stays listed, and the largest allocation finds none. -/
theorem smallBlocks_leave_fragments :
    ∃ s, Along step legal (Client.init 0x3ffb0000) smallBlocks ∧
      runScript step (fun _ _ => true) (Client.init 0x3ffb0000) smallBlocks = some s ∧
      s.live = [] ∧ ¬ AsInit 0x3ffb0000 s.arena ∧
      (easyMemAlloc s.arena (maxChunkNum * maxChunkSize)).map Prod.snd = some none := by
  have hrun : (runScript step (fun s a => decide (legal s a)) (Client.init 0x3ffb0000)
      smallBlocks).isSome = true := by decide +kernel
  have hfree : (runScript step (fun _ _ => true) (Client.init 0x3ffb0000) smallBlocks).map
        (fun s => (s.live, s.arena.memHeads 0,
          (easyMemAlloc s.arena (maxChunkNum * maxChunkSize)).map Prod.snd)) =
      some ([], some 0x3ffb00a8, some none) := by decide +kernel
  obtain ⟨u, hu⟩ := Option.isSome_iff_exists.mp hrun
  obtain ⟨s, hs, hv⟩ := Option.map_eq_some_iff.mp hfree
  simp only [Prod.mk.injEq] at hv
  obtain ⟨hlive, hhead, hlargest⟩ := hv
  refine ⟨s, along_of_script (fun _ _ => of_decide_eq_true) hu, hs, hlive, fun hinit => ?_,
    hlargest⟩
  rw [hinit.below 0 (by decide)] at hhead
  cases hhead

end Esp32Project.EasyMem
