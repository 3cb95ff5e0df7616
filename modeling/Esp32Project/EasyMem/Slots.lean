import Mathlib.Data.List.Basic
import Esp32Project.EasyMem.Buddies

/-!
Where headers can be at all. Splitting gives every address one order, and the
two halves that `merge` joins come from one chunk. This much survives frees
that break the lists.
-/

set_option autoImplicit false

namespace Esp32Project.EasyMem
open Esp32Project.Lib

/-- The offsets of the chunks that lie `depth` splits below the whole arena. -/
def offsets : Nat → List Nat
  | 0 => [0]
  | depth + 1 => (offsets depth).flatMap fun o =>
    [o + sizeofChunk, o + sizeofChunk + chunkBytes (maxOrder - (depth + 1))]

example : offsets 1 = [8, 96] := by decide +kernel

def Slot (mem k a : Nat) : Prop := k ≤ maxOrder ∧ ∃ o ∈ offsets (maxOrder - k), a = mem + o

structure Made (mem : Nat) (s : Arena) (k a : Nat) : Prop where
  slot : Slot mem k a
  order : s.order a = maxOrder

def HalfOf (k a c : Nat) : Prop := c = a + sizeofChunk ∨ c = a + sizeofChunk + chunkBytes k

/-- Whatever is listed or handed out is where chunks of its order are. -/
structure Placed (mem : Nat) (s : Arena) (live : List Nat) : Prop where
  ready : s.memMemory = some mem
  head : ∀ k t, k ≤ maxOrder → s.memHeads k = some t → Made mem s k t
  next : ∀ k a t, Slot mem k a → s.next a = some t → Made mem s k t
  made : ∀ k a, Made mem s k a → s.currOrder a = k
  above : ∀ k a c, Slot mem (k + 1) a → HalfOf k a c → s.order c = maxOrder → s.order a = maxOrder
  live : ∀ p ∈ live, ∃ k c, p = c + sizeofChunk ∧ Made mem s k c

section

variable {mem k j a c : Nat}

theorem slot_whole : Slot mem maxOrder mem := ⟨Nat.le_refl _, 0, by decide, rfl⟩

theorem slot_half (h : Slot mem (k + 1) a) (hc : HalfOf k a c) : Slot mem k c := by
  obtain ⟨hk, o, ho, rfl⟩ := h
  have hdepth : maxOrder - k = maxOrder - (k + 1) + 1 := by omega
  have hback : maxOrder - (maxOrder - (k + 1) + 1) = k := by omega
  refine ⟨by omega, ?_⟩
  rw [hdepth]
  simp only [offsets, List.mem_flatMap, hback]
  rcases hc with rfl | rfl
  · exact ⟨_, ⟨o, ho, List.mem_cons_self ..⟩, by omega⟩
  · exact ⟨_, ⟨o, ho, List.mem_cons_of_mem _ (List.mem_cons_self ..)⟩, by omega⟩

/-- The places are those of the chunks that splitting the whole arena makes. -/
theorem slot_iff_block : Slot mem k a ↔ chunks.Block maxOrder mem k a := by
  constructor
  · have hall : ∀ depth, depth ≤ maxOrder → ∀ o ∈ offsets depth,
        chunks.Block maxOrder mem (maxOrder - depth) (mem + o) := by
      intro depth hdepth
      induction depth with
      | zero =>
        intro o ho
        rw [List.mem_singleton.mp ho]
        exact .whole
      | succ depth ih =>
        intro o ho
        have hk : maxOrder - depth = maxOrder - (depth + 1) + 1 := by omega
        simp only [offsets, List.mem_flatMap] at ho
        obtain ⟨o', ho', ho⟩ := ho
        have hwhole := ih (by omega) o' ho'
        rw [hk] at hwhole
        rcases List.mem_cons.mp ho with rfl | ho
        · exact .lower hwhole
        · rw [List.mem_singleton.mp ho, ← Nat.add_assoc, ← Nat.add_assoc]
          exact .upper hwhole
    rintro ⟨hk, o, ho, rfl⟩
    have hblock := hall (maxOrder - k) (Nat.sub_le ..) o ho
    rwa [Nat.sub_sub_self hk] at hblock
  · intro h
    induction h with
    | whole => exact slot_whole
    | lower _ ih => exact slot_half ih (.inl rfl)
    | upper _ ih => exact slot_half ih (.inr rfl)

theorem slot_unique (h : Slot mem k a) (h' : Slot mem j a) : j = k :=
  (slot_iff_block.mp h).order_unique (slot_iff_block.mp h')

theorem slot_joined (h : Slot mem k a) (h' : Slot mem k (a + chunkBytes k)) :
    ∃ b, a = b + sizeofChunk ∧ Slot mem (k + 1) b := by
  obtain ⟨p, hp⟩ := (slot_iff_block.mp h).halves (slot_iff_block.mp h') rfl
  exact ⟨p, hp.lower, slot_iff_block.mpr hp.block⟩

theorem slot_parent {b : Nat} (h : Slot mem (k + 1) a) (h' : Slot mem (k + 1) b)
    (ha : HalfOf k a c) (hb : HalfOf k b c) : b = a := by
  have hfirst : chunks.Halves maxOrder mem k a _ _ := ⟨slot_iff_block.mp h, rfl, rfl⟩
  have hsecond : chunks.Halves maxOrder mem k b _ _ := ⟨slot_iff_block.mp h', rfl, rfl⟩
  refine hfirst.parent_unique hsecond ?_
  rcases ha with rfl | rfl <;> rcases hb with hb | hb
  · exact .inl hb
  · exact .inr (.inl hb)
  · exact .inr (.inr (.inl hb))
  · exact .inr (.inr (.inr hb))

theorem slot_inside (h : Slot mem k a) : mem ≤ a ∧ a + sizeofChunk ≤ mem + sizeofMemTotal := by
  have hin : mem ≤ a ∧ a + chunkBytes k ≤ mem + chunkBytes maxOrder :=
    (slot_iff_block.mp h).inside
  have hpos := chunkBytes_pos k
  have htotal : chunkBytes maxOrder ≤ sizeofMemTotal := by decide
  omega

end

section

variable {mem k j a c : Nat} {s : Arena} {live : List Nat} {hd : Chunk}

theorem Made.setChunk (h : Made mem s j a) (ho : hd.order = maxOrder) :
    Made mem (s.setChunk c hd) j a := by
  refine ⟨h.slot, ?_⟩
  by_cases hc : a = c
  · subst hc
    simpa [Arena.order] using ho
  · simpa [Arena.order, hc] using h.order

theorem made_setChunk (hc : Slot mem k c) (ho : hd.order = maxOrder) :
    Made mem (s.setChunk c hd) k c := ⟨hc, by simpa [Arena.order] using ho⟩

theorem Placed.setChunk (h : Placed mem s live) (hc : Slot mem k c) (ho : hd.order = maxOrder)
    (hk : hd.currOrder = k) (hn : ∀ t, hd.next = some t → Made mem s k t)
    (ha : ∀ a, Slot mem (k + 1) a → HalfOf k a c → s.order a = maxOrder) :
    Placed mem (s.setChunk c hd) live where
  ready := h.ready
  head k t hk ht := (h.head k t hk ht).setChunk ho
  next j a t hs ht := by
    by_cases he : a = c
    · subst he
      obtain rfl := slot_unique hc hs
      exact (hn t (by simpa [Arena.next] using ht)).setChunk ho
    · exact (h.next j a t hs (by simpa [Arena.next, he] using ht)).setChunk ho
  made j a hm := by
    by_cases he : a = c
    · subst he
      obtain rfl := slot_unique hc hm.slot
      simpa [Arena.currOrder] using hk
    · have hm' : Made mem s j a := ⟨hm.slot, by simpa [Arena.order, he] using hm.order⟩
      simpa [Arena.currOrder, he] using h.made j a hm'
  above j a d hs hd' hod := by
    by_cases he : a = c
    · simpa [Arena.order, he] using ho
    · have hgoal : s.order a = maxOrder := by
        by_cases hdc : d = c
        · subst hdc
          obtain rfl := slot_unique hc (slot_half hs hd')
          exact ha a hs hd'
        · exact h.above j a d hs hd' (by simpa [Arena.order, hdc] using hod)
      simpa [Arena.order, he] using hgoal
  live p hp := by
    obtain ⟨j, d, hpd, hm⟩ := h.live p hp
    exact ⟨j, d, hpd, hm.setChunk ho⟩

theorem Placed.rewrite (h : Placed mem s live) (hc : Made mem s k c)
    (ho : hd.order = s.order c) (hk : hd.currOrder = s.currOrder c)
    (hn : ∀ t, hd.next = some t → Made mem s k t) : Placed mem (s.setChunk c hd) live :=
  h.setChunk hc.slot (ho.trans hc.order) (hk.trans (h.made k c hc)) hn
    fun a hs ha => h.above k a c hs ha hc.order

theorem Placed.setUsed (h : Placed mem s live) (hc : Made mem s k c) (u : Nat) :
    Placed mem (s.setUsed c u) live :=
  h.rewrite hc rfl rfl fun t ht => h.next k c t hc.slot ht

theorem Placed.setHead (h : Placed mem s live) {p : Option Nat}
    (hp : ∀ t, p = some t → Made mem s k t) : Placed mem (s.setHead k p) live where
  ready := h.ready
  head j t hj ht := by
    by_cases he : j = k
    · subst he
      obtain ⟨hs, ho⟩ := hp t (by simpa using ht)
      exact ⟨hs, ho⟩
    · obtain ⟨hs, ho⟩ := h.head j t hj (by simpa [he] using ht)
      exact ⟨hs, ho⟩
  next j a t hs ht := by
    obtain ⟨hs', ho⟩ := h.next j a t hs ht
    exact ⟨hs', ho⟩
  made j a hm := h.made j a ⟨hm.slot, hm.order⟩
  above := h.above
  live p hp := by
    obtain ⟨j, d, hpd, hs, ho⟩ := h.live p hp
    exact ⟨j, d, hpd, hs, ho⟩

theorem Made.setHead (h : Made mem s j a) (k : Nat) (p : Option Nat) :
    Made mem (s.setHead k p) j a := ⟨h.slot, h.order⟩

theorem Made.push (h : Made mem s j a) (hc : Made mem s k c) : Made mem (s.addToHead k c) j a := by
  rw [addToHead_eq]
  have hnext : Made mem (s.setNext c (s.memHeads k)) j a := h.setChunk hc.order
  exact hnext.setHead _ _

theorem Placed.push (h : Placed mem s live) (hc : Made mem s k c) :
    Placed mem (s.addToHead k c) live ∧ Made mem (s.addToHead k c) k c := by
  rw [addToHead_eq]
  have hnext : Placed mem (s.setNext c (s.memHeads k)) live :=
    h.rewrite hc rfl rfl fun t ht => h.head k t hc.slot.1 ht
  have hmade : Made mem (s.setNext c (s.memHeads k)) k c := hc.setChunk hc.order
  exact ⟨hnext.setHead fun t ht => Option.some.inj ht ▸ hmade, hmade.setHead _ _⟩

theorem Placed.pop (h : Placed mem s live) (hc : Made mem s k c) :
    Placed mem ((s.setHead k (s.next c)).setNext c none) live ∧
      Made mem ((s.setHead k (s.next c)).setNext c none) k c := by
  have hhead : Placed mem (s.setHead k (s.next c)) live :=
    h.setHead fun t ht => h.next k c t hc.slot ht
  have hmade : Made mem (s.setHead k (s.next c)) k c := hc.setHead _ _
  exact ⟨hhead.rewrite hmade rfl rfl (fun t ht => by cases ht), hmade.setChunk hmade.order⟩

theorem splitOnce_placed (h : Placed mem s live) (ha : Made mem s (k + 1) a) :
    Placed mem (splitOnce (s.adjustHead a (a + sizeofChunk)) k (a + sizeofChunk)) live ∧
      Made mem (splitOnce (s.adjustHead a (a + sizeofChunk)) k (a + sizeofChunk)) k
        (a + sizeofChunk + chunkBytes k) := by
  generalize hc : a + sizeofChunk = c
  have hlow : Slot mem k c := slot_half ha.slot (.inl hc.symm)
  have hup : Slot mem k (c + chunkBytes k) := slot_half ha.slot (.inr (by rw [hc]))
  -- the moved header gets its order before it is listed
  have hmoved : (s.adjustHead a c).setCurrOrder c k = s.setChunk c
      { s.chunk c with order := s.order a, currOrder := k, used := (s.chunk a).used } := by
    simp [Arena.adjustHead, Arena.setCurrOrder, Arena.setChunk]
  have hfirst : Placed mem ((s.adjustHead a c).setCurrOrder c k) live := by
    rw [hmoved]
    refine h.setChunk hlow ha.order rfl (fun t ht => h.next k c t hlow ht) fun b hs hb => ?_
    rw [slot_parent ha.slot hs (.inl hc.symm) hb]
    exact ha.order
  have hmade : ∀ {j d}, Made mem s j d → Made mem ((s.adjustHead a c).setCurrOrder c k) j d := by
    rw [hmoved]
    exact fun hm => hm.setChunk ha.order
  have hlisted : Made mem ((s.adjustHead a c).setCurrOrder c k) k c := by
    rw [hmoved]
    exact made_setChunk hlow ha.order
  obtain ⟨hpushed, hcm⟩ := hfirst.push hlisted
  have hb : c + layerSize k + layerHeadsSize (k + 1) = c + chunkBytes k := by
    simp only [chunkBytes, Nat.add_assoc]
  simp only [splitOnce, hb, addToHead_setCurrOrder]
  refine ⟨hpushed.setChunk hup hcm.order (hpushed.made k c hcm) (fun t ht => by cases ht)
    fun b hs hb => ?_, made_setChunk hup hcm.order⟩
  rw [slot_parent ha.slot hs (.inr (by rw [hc])) hb]
  exact ((hmade ha).push hlisted).order

theorem split_placed (order cnt : Nat) (ho : order ≤ cnt) (h : Placed mem s live)
    (ha : Made mem s (cnt + 1) a) :
    Placed mem (split order cnt (s.adjustHead a (a + sizeofChunk)) (a + sizeofChunk)).1 live ∧
      Made mem (split order cnt (s.adjustHead a (a + sizeofChunk)) (a + sizeofChunk)).1 order
        (split order cnt (s.adjustHead a (a + sizeofChunk)) (a + sizeofChunk)).2 := by
  induction cnt generalizing s a with
  | zero =>
    obtain ⟨hp, hm⟩ := splitOnce_placed h ha
    obtain rfl : order = 0 := Nat.le_zero.mp ho
    rw [split_zero]
    exact ⟨hp.setUsed hm 1, hm.setChunk hm.order⟩
  | succ cnt ih =>
    obtain ⟨hp, hm⟩ := splitOnce_placed h ha
    rw [split_succ]
    split
    · exact ih (by omega) hp hm
    · obtain rfl : order = cnt + 1 := by omega
      exact ⟨hp.setUsed hm 1, hm.setChunk hm.order⟩

end

end Esp32Project.EasyMem
