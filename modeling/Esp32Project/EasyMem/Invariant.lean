import Esp32Project.EasyMem.Arena

set_option autoImplicit false

namespace Esp32Project.EasyMem
open Esp32Project.Lib

theorem chunkBytes_add (k : Nat) : chunkBytes k + 8 = 24 * 2 ^ k := by
  have h := Nat.one_le_two_pow (n := k)
  simp only [chunkBytes, layerSize, layerHeadsSize, minChunkSize, sizeofChunk, Nat.pow_succ]
  omega

/-- A block is one header and its two children. -/
theorem chunkBytes_succ (k : Nat) : chunkBytes (k + 1) = 2 * chunkBytes k + sizeofChunk := by
  have h₀ := chunkBytes_add k
  have h₁ := chunkBytes_add (k + 1)
  simp only [Nat.pow_succ, sizeofChunk] at *
  omega

theorem chunkBytes_pos (k : Nat) : sizeofChunk < chunkBytes k := by
  have h := chunkBytes_add k
  have hp := Nat.one_le_two_pow (n := k)
  simp only [sizeofChunk]; omega

theorem chunkBytes_mod (k : Nat) : chunkBytes k % 8 = 0 := by
  have h := chunkBytes_add k
  omega

section

variable (s : Arena) (k c a : Nat) (p : Option Nat) (h : Chunk)

@[simp] theorem chunk_setChunk :
    (s.setChunk c h).chunk = Function.update s.chunk c h := rfl
@[simp] theorem memHeads_setChunk : (s.setChunk c h).memHeads = s.memHeads := rfl
@[simp] theorem memMemory_setChunk : (s.setChunk c h).memMemory = s.memMemory := rfl
@[simp] theorem chunk_setHead : (s.setHead k p).chunk = s.chunk := rfl
@[simp] theorem memHeads_setHead :
    (s.setHead k p).memHeads = Function.update s.memHeads k p := rfl
@[simp] theorem next_setHead : (s.setHead k p).next = s.next := rfl
@[simp] theorem currOrder_setHead : (s.setHead k p).currOrder = s.currOrder := rfl
@[simp] theorem memMemory_setHead : (s.setHead k p).memMemory = s.memMemory := rfl

theorem addToHead_eq :
    s.addToHead k c = (s.setNext c (s.memHeads k)).setHead k (some c) := by
  unfold Arena.addToHead
  split
  · rename_i he; rw [he]; rfl
  · rename_i he; rw [he]

theorem addToHead_setCurrOrder :
    (s.addToHead k c).setCurrOrder c k = (s.setCurrOrder c k).addToHead k c := by
  simp [addToHead_eq, Arena.setCurrOrder, Arena.setNext, Arena.setChunk, Arena.setHead]

end

def InUse (free : Nat → List Nat) (live : List Nat) (c : Nat) : Prop :=
  (∃ k, k ≤ maxOrder ∧ c ∈ free k) ∨ c ∈ live

/-- The heads of the lists, the headers and the chunks handed out agree. Only
the headers of chunks in use are constrained. -/
structure Inv (mem : Nat) (s : Arena) (free : Nat → List Nat) (live : List Nat) : Prop where
  ready : s.memMemory = some mem
  chain : ∀ k, k ≤ maxOrder → Chain s.next (s.memHeads k) (free k)
  own : ∀ k, k ≤ maxOrder → ∀ c ∈ free k, s.currOrder c = k
  nodup : ∀ k, k ≤ maxOrder → (free k).Nodup
  liveNodup : live.Nodup
  liveHeader : ∀ c ∈ live, s.next c = none ∧ s.currOrder c ≤ maxOrder
  liveFree : ∀ c ∈ live, ∀ k, k ≤ maxOrder → c ∉ free k
  order : ∀ c, InUse free live c → s.order c = maxOrder
  inside : ∀ c, InUse free live c →
    mem ≤ c ∧ c + chunkBytes (s.currOrder c) ≤ mem + chunkBytes maxOrder
  aligned : ∀ c, InUse free live c → c % 8 = mem % 8
  apart : ∀ c d, InUse free live c → InUse free live d → c ≠ d →
    Apart c (chunkBytes (s.currOrder c)) d (chunkBytes (s.currOrder d))

/-- No chunk in use reaches into `[a, a + n)`. -/
def Clear (s : Arena) (free : Nat → List Nat) (live : List Nat) (a n : Nat) : Prop :=
  ∀ c, InUse free live c → Apart c (chunkBytes (s.currOrder c)) a n

section

variable {mem : Nat} {s s' : Arena} {free : Nat → List Nat} {live : List Nat}

theorem Clear.not_inUse {a n b : Nat}
    (h : Clear s free live a n) (hlo : a ≤ b) (hhi : b < a + n) : ¬ InUse free live b := by
  intro hb
  have hp := chunkBytes_pos (s.currOrder b)
  rcases h b hb with h | h <;> omega

theorem Clear.shrink {a n b m : Nat}
    (h : Clear s free live a n) (hlo : a ≤ b) (hhi : b + m ≤ a + n) :
    Clear s free live b m :=
  fun c hc => ((h c hc).symm.shrink hlo hhi).symm

/-- Only heads and the headers of chunks in use are read. -/
theorem Inv.congr (h : Inv mem s free live) (hm : s'.memMemory = s.memMemory)
    (hh : s'.memHeads = s.memHeads)
    (hc : ∀ c, InUse free live c → s'.next c = s.next c ∧ s'.order c = s.order c ∧
      s'.currOrder c = s.currOrder c) : Inv mem s' free live where
  ready := by rw [hm]; exact h.ready
  chain := fun k hk => by
    rw [hh]
    exact (h.chain k hk).congr (fun c hm => (hc c (.inl ⟨k, hk, hm⟩)).1)
  own := fun k hk c hm => by
    rw [(hc c (.inl ⟨k, hk, hm⟩)).2.2]
    exact h.own k hk c hm
  nodup := h.nodup
  liveNodup := h.liveNodup
  liveHeader := fun c hm => by
    obtain ⟨hn, _, hk⟩ := hc c (.inr hm)
    rw [hn, hk]
    exact h.liveHeader c hm
  liveFree := h.liveFree
  order := fun c hu => by
    rw [(hc c hu).2.1]
    exact h.order c hu
  inside := fun c hu => by
    rw [(hc c hu).2.2]
    exact h.inside c hu
  aligned := h.aligned
  apart := fun c d hu hv hne => by
    rw [(hc c hu).2.2, (hc d hv).2.2]
    exact h.apart c d hu hv hne

theorem Inv.setUnused {a : Nat} (h : Inv mem s free live) (ha : ¬ InUse free live a) (hd : Chunk) :
    Inv mem (s.setChunk a hd) free live := by
  refine h.congr rfl rfl (fun c hc => ?_)
  have hne : c ≠ a := fun he => ha (he ▸ hc)
  simp [Arena.next, Arena.order, Arena.currOrder, hne]

theorem Inv.setUsed (h : Inv mem s free live) (a u : Nat) : Inv mem (s.setUsed a u) free live := by
  refine h.congr rfl rfl (fun c _ => ?_)
  by_cases hc : c = a
  · subst hc; simp [Arena.setUsed, Arena.next, Arena.order, Arena.currOrder]
  · simp [Arena.setUsed, Arena.next, Arena.order, Arena.currOrder, hc]

theorem Clear.congr {a n : Nat} (h : Clear s free live a n)
    (hc : ∀ c, InUse free live c → s'.currOrder c = s.currOrder c) :
    Clear s' free live a n := by
  intro c hu
  rw [hc c hu]
  exact h c hu

theorem Clear.setUnused {a n b : Nat} (h : Clear s free live a n)
    (hb : ¬ InUse free live b) (hd : Chunk) : Clear (s.setChunk b hd) free live a n := by
  refine h.congr fun c hc => ?_
  have hne : c ≠ b := fun he => hb (he ▸ hc)
  simp [Arena.currOrder, hne]

/-- A chunk in nobody's hands: its header is written and its bytes are clear. -/
structure Spare (mem : Nat) (s : Arena) (free : Nat → List Nat) (live : List Nat)
    (c k : Nat) : Prop where
  inv : Inv mem s free live
  le : k ≤ maxOrder
  clear : Clear s free live c (chunkBytes k)
  currOrder : s.currOrder c = k
  order : s.order c = maxOrder
  inside : mem ≤ c ∧ c + chunkBytes k ≤ mem + chunkBytes maxOrder
  aligned : c % 8 = mem % 8

theorem Spare.not_inUse {c k : Nat} (h : Spare mem s free live c k) : ¬ InUse free live c := by
  have hp := chunkBytes_pos k
  exact h.clear.not_inUse (Nat.le_refl c) (by omega)

theorem Spare.rewrite {c k : Nat} (h : Spare mem s free live c k) {hd : Chunk}
    (ho : hd.order = s.order c) (hk : hd.currOrder = s.currOrder c) :
    Spare mem (s.setChunk c hd) free live c k where
  inv := h.inv.setUnused h.not_inUse _
  le := h.le
  clear := h.clear.setUnused h.not_inUse _
  currOrder := by simpa [Arena.currOrder] using hk.trans h.currOrder
  order := by simpa [Arena.order] using ho.trans h.order
  inside := h.inside
  aligned := h.aligned

theorem Spare.setNext {c k : Nat} (h : Spare mem s free live c k) (p : Option Nat) :
    Spare mem (s.setNext c p) free live c k := h.rewrite rfl rfl

theorem Spare.setUsed {c k : Nat} (h : Spare mem s free live c k) (u : Nat) :
    Spare mem (s.setUsed c u) free live c k := h.rewrite rfl rfl

end

end Esp32Project.EasyMem
