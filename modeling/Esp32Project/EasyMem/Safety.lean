import Esp32Project.EasyMem.Lists
import Esp32Project.Lib.Reach

set_option autoImplicit false

namespace Esp32Project.EasyMem
open Esp32Project.Lib

variable {mem : Nat} {s : Arena} {free : Nat → List Nat} {live : List Nat}

/-- The writes of one call of `split`: the lower half is listed and the upper
half is spare. -/
def splitOnce (s : Arena) (cnt c : Nat) : Arena :=
  let s := (s.addToHead cnt c).setCurrOrder c cnt
  s.setChunk (c + layerSize cnt + layerHeadsSize (cnt + 1)) ⟨none, s.order c, s.currOrder c, 0⟩

example : (splitOnce Arena.boot 2 0).currOrder 0 = 2 := by decide +kernel

theorem splitOnce_spare {cnt c : Nat} (h : Inv mem s free live) (hcnt : cnt ≤ maxOrder)
    (ho : s.order c = maxOrder) (hcl : Clear s free live c (2 * chunkBytes cnt))
    (hin : mem ≤ c ∧ c + 2 * chunkBytes cnt ≤ mem + chunkBytes maxOrder)
    (hal : c % 8 = mem % 8) :
    Spare mem (splitOnce s cnt c) (Function.update free cnt (c :: free cnt)) live
        (c + chunkBytes cnt) cnt ∧
      (splitOnce s cnt c).next (c + chunkBytes cnt) = none := by
  have hp := chunkBytes_pos cnt
  have hm := chunkBytes_mod cnt
  have hu : ¬ InUse free live c := hcl.not_inUse (Nat.le_refl c) (by omega)
  have hlow : Spare mem (s.setCurrOrder c cnt) free live c cnt := {
    inv := h.setUnused hu _
    le := hcnt
    clear := (hcl.shrink (Nat.le_refl c) (by omega)).setUnused hu _
    currOrder := by simp [Arena.setCurrOrder, Arena.currOrder]
    order := by simpa [Arena.setCurrOrder, Arena.order] using ho
    inside := ⟨hin.1, by omega⟩
    aligned := hal }
  have hlisted := hlow.push
  rw [← addToHead_setCurrOrder] at hlisted
  -- what the listed half and the chunks in use before leave is the upper half
  have hup : Clear ((s.addToHead cnt c).setCurrOrder c cnt)
      (Function.update free cnt (c :: free cnt)) live (c + chunkBytes cnt) (chunkBytes cnt) := by
    intro d hd
    rcases (inUse_push hcnt).mp hd with rfl | hd
    · left
      exact Nat.le_of_eq (by rw [hlisted.own cnt hcnt d (by simp)])
    · have hne : d ≠ c := fun he => hu (he ▸ hd)
      have ha := (hcl.shrink (b := c + chunkBytes cnt) (m := chunkBytes cnt)
        (by omega) (by omega)) d hd
      simpa [Arena.setCurrOrder, addToHead_eq, Arena.setNext, Arena.currOrder, hne] using ha
  have hub := hup.not_inUse (Nat.le_refl (c + chunkBytes cnt)) (by omega)
  have hb : c + layerSize cnt + layerHeadsSize (cnt + 1) = c + chunkBytes cnt := by
    simp only [chunkBytes, Nat.add_assoc]
  have hoc : ((s.addToHead cnt c).setCurrOrder c cnt).order c = maxOrder := by
    simpa [Arena.setCurrOrder, addToHead_eq, Arena.setNext, Arena.order] using ho
  have hcc : ((s.addToHead cnt c).setCurrOrder c cnt).currOrder c = cnt :=
    hlisted.own cnt hcnt c (by simp)
  simp only [splitOnce, hb]
  refine ⟨⟨hlisted.setUnused hub _, hcnt, hup.setUnused hub _, ?_, ?_,
    ⟨by omega, by omega⟩, by omega⟩, ?_⟩
  · simpa [Arena.currOrder] using hcc
  · simpa [Arena.order] using hoc
  · simp [Arena.next]

theorem split_zero (order c : Nat) :
    split order 0 s c = ((splitOnce s 0 c).setUsed (c + chunkBytes 0) 1, c + chunkBytes 0) := by
  simp only [split, splitOnce, chunkBytes, Nat.add_assoc]

theorem split_succ (order cnt c : Nat) :
    split order (cnt + 1) s c =
      if order < cnt + 1 then
        split order cnt
          ((splitOnce s (cnt + 1) c).adjustHead (c + chunkBytes (cnt + 1))
            (c + chunkBytes (cnt + 1) + sizeofChunk))
          (c + chunkBytes (cnt + 1) + sizeofChunk)
      else ((splitOnce s (cnt + 1) c).setUsed (c + chunkBytes (cnt + 1)) 1,
        c + chunkBytes (cnt + 1)) := by
  simp only [split, splitOnce, chunkBytes, Nat.add_assoc]

theorem split_inv (order cnt : Nat) {c : Nat} (h : Inv mem s free live)
    (hcnt : cnt ≤ maxOrder) (ho : s.order c = maxOrder)
    (hcl : Clear s free live c (2 * chunkBytes cnt))
    (hin : mem ≤ c ∧ c + 2 * chunkBytes cnt ≤ mem + chunkBytes maxOrder)
    (hal : c % 8 = mem % 8) :
    ∃ free', Inv mem (split order cnt s c).1 free' ((split order cnt s c).2 :: live) := by
  induction cnt generalizing s free c with
  | zero =>
    obtain ⟨hs, hn⟩ := splitOnce_spare h hcnt ho hcl hin hal
    rw [split_zero]
    exact ⟨_, (hs.give hn).setUsed _ _⟩
  | succ cnt ih =>
    obtain ⟨hs, hn⟩ := splitOnce_spare h hcnt ho hcl hin hal
    rw [split_succ]
    split
    · have hb := chunkBytes_succ cnt
      have hp := chunkBytes_pos (cnt + 1)
      have hlim := hs.inside
      have hmod := hs.aligned
      have hu := hs.clear.not_inUse (b := c + chunkBytes (cnt + 1) + sizeofChunk)
        (by omega) (by omega)
      simp only [sizeofChunk] at *
      refine ih (hs.inv.setUnused hu _) (by omega) ?_
        ((hs.clear.shrink (by omega) (by omega)).setUnused hu _) ⟨by omega, by omega⟩ (by omega)
      simpa [Arena.adjustHead, Arena.order] using hs.order
    · exact ⟨_, (hs.give hn).setUsed _ _⟩

theorem orderOf_le {size : Nat} (h : size ≤ maxChunkNum * maxChunkSize) :
    orderOf size ≤ maxOrder := by
  have hq : size / minChunkSize ≤ 8 := by
    simp only [maxChunkNum, maxChunkSize, minChunkSize, maxOrder] at *
    omega
  have hall : ∀ q, q ≤ 8 → fitOrder q q 0 ≤ maxOrder := by decide
  exact hall _ hq

/-- The search stops at the first non-empty list above `cnt`, or past the array. -/
theorem searchUp_spec (s : Arena) (fuel cnt : Nat) (hf : maxOrder ≤ cnt + fuel) :
    cnt < searchUp s fuel cnt ∧
      (searchUp s fuel cnt ≤ maxOrder → (s.memHeads (searchUp s fuel cnt)).isSome) ∧
      (maxOrder < searchUp s fuel cnt →
        ∀ k, cnt < k → k ≤ maxOrder → s.memHeads k = none) := by
  induction fuel generalizing cnt with
  | zero =>
    simp only [searchUp]
    exact ⟨by omega, by omega, by omega⟩
  | succ fuel ih =>
    unfold searchUp
    split
    · split
      · rename_i hle hs
        exact ⟨by omega, fun _ => hs, by omega⟩
      · rename_i hle hs
        obtain ⟨h₁, h₂, h₃⟩ := ih (cnt + 1) (by omega)
        refine ⟨by omega, h₂, fun hgt k hlo hhi => ?_⟩
        by_cases hk : k = cnt + 1
        · subst hk; simpa using hs
        · exact h₃ hgt k (by omega) hhi
    · exact ⟨by omega, by omega, by omega⟩

theorem removeFromChain_head (s : Arena) (k c : Nat) :
    removeFromChain k c walkLimit s none (some c) =
      some ((s.setHead k (s.next c)).setNext c none) := by
  simp [walkLimit, removeFromChain]

/-- The allocation needs a chunk and no list of its order or above has one. -/
def exhausted (s : Arena) (size : Nat) : Prop :=
  size ≤ maxChunkNum * maxChunkSize ∧ orderOf size < maxOrder ∧
    ∀ k, k ≤ maxOrder → orderOf size ≤ k → s.memHeads k = none

instance (s : Arena) (size : Nat) : Decidable (exhausted s size) := by
  unfold exhausted; infer_instance

/-- The first free chunk of the order of `c` is next to `c`. -/
def meetsBuddy (s : Arena) (c : Nat) : Prop :=
  ∃ t ∈ s.memHeads (s.currOrder c),
    c = t + chunkBytes (s.currOrder c) ∨ c + chunkBytes (s.currOrder c) = t

instance (s : Arena) (c : Nat) : Decidable (meetsBuddy s c) := by
  unfold meetsBuddy; infer_instance

theorem easyMemAlloc_defined {size : Nat} (he : ¬ exhausted s size) :
    (easyMemAlloc s size).isSome := by
  unfold easyMemAlloc
  split
  · rfl
  split
  · rfl
  rename_i hsize _
  have hle := orderOf_le (Nat.le_of_not_lt hsize)
  obtain ⟨hlt, hsome, hnone⟩ := searchUp_spec s maxOrder (orderOf size) (by omega)
  cases hh : s.memHeads (orderOf size) with
  | some res => simp [hh, removeFromChain_head]
  | none =>
    simp only [hh]
    split
    · rfl
    rename_i hne
    split
    · rename_i hgt
      refine absurd ⟨Nat.le_of_not_lt hsize, by omega, fun k hhi hlo => ?_⟩ he
      by_cases hk : k = orderOf size
      · rw [hk]; exact hh
      · exact hnone hgt k (by omega) hhi
    · rename_i hgt
      obtain ⟨t, ht⟩ := Option.isSome_iff_exists.mp (hsome (by omega))
      simp [ht, removeFromChain_head]

inductive Allocates (s : Arena) (size : Nat) : Arena → Option Nat → Prop where
  | refused (h : maxChunkNum * maxChunkSize < size ∨ s.memMemory = none) : Allocates s size s none
  | taken (hsize : size ≤ maxChunkNum * maxChunkSize) (hmax : orderOf size = maxOrder) :
      Allocates s size s none
  | head {res : Nat} (hsize : size ≤ maxChunkNum * maxChunkSize)
      (hh : s.memHeads (orderOf size) = some res) :
      Allocates s size
        (((s.setUsed res 1).setHead (orderOf size) ((s.setUsed res 1).next res)).setNext res none)
        (some (res + sizeofChunk))
  | split {cnt target : Nat} {r : Arena × Nat} (hsize : size ≤ maxChunkNum * maxChunkSize)
      (hlo : orderOf size ≤ cnt) (hhi : cnt < maxOrder) (ht : s.memHeads (cnt + 1) = some target)
      (hr : r = EasyMem.split (orderOf size) cnt
        (((s.setHead (cnt + 1) (s.next target)).setNext target none).adjustHead target
          (target + sizeofChunk)) (target + sizeofChunk)) :
      Allocates s size r.1 (some (r.2 + sizeofChunk))

theorem easyMemAlloc_cases {size : Nat} {s' : Arena} {p : Option Nat}
    (ha : easyMemAlloc s size = some (s', p)) : Allocates s size s' p := by
  unfold easyMemAlloc at ha
  split at ha
  · rename_i hbig
    cases ha
    exact .refused (.inl hbig)
  rename_i hsize
  have hadmitted := Nat.le_of_not_lt hsize
  split at ha
  · rename_i hready
    cases ha
    exact .refused (.inr hready)
  have hle := orderOf_le hadmitted
  obtain ⟨hlt, hsome, -⟩ := searchUp_spec s maxOrder (orderOf size) (by omega)
  cases hh : s.memHeads (orderOf size) with
  | some res =>
    simp only [hh, removeFromChain_head, Option.map_some, Option.some.injEq,
      Prod.mk.injEq] at ha
    obtain ⟨rfl, rfl⟩ := ha
    exact .head hadmitted hh
  | none =>
    simp only [hh] at ha
    split at ha
    · rename_i hmax
      cases ha
      exact .taken hadmitted hmax
    split at ha
    · cases ha
    obtain ⟨t, ht⟩ := Option.isSome_iff_exists.mp (hsome (by omega))
    simp only [ht, removeFromChain_head, Option.map_some, Option.some.injEq,
      Prod.mk.injEq] at ha
    obtain ⟨rfl, rfl⟩ := ha
    obtain ⟨cnt, hc⟩ : ∃ cnt, searchUp s maxOrder (orderOf size) = cnt + 1 :=
      ⟨_, (Nat.succ_pred_eq_of_pos (by omega)).symm⟩
    rw [hc] at ht ⊢
    exact .split hadmitted (by omega) (by omega) ht rfl

theorem easyMemAlloc_inv (h : Inv mem s free live) {size : Nat} {s' : Arena} {p : Option Nat}
    (ha : easyMemAlloc s size = some (s', p)) :
    (s' = s ∧ p = none) ∨
      ∃ c free', p = some (c + sizeofChunk) ∧ Inv mem s' free' (c :: live) := by
  cases easyMemAlloc_cases ha with
  | refused _ => exact .inl ⟨rfl, rfl⟩
  | taken _ _ => exact .inl ⟨rfl, rfl⟩
  | @head res hsize hh =>
    have hle := orderOf_le hsize
    obtain ⟨rest, hf, -⟩ := (h.chain _ hle).exists_cons hh
    have hsp := (h.setUsed res 1).pop hle hf
    refine .inr ⟨res, _, rfl, hsp.give ?_⟩
    simp [Arena.next, Arena.setNext]
  | @split cnt t r hsize hlo hhi ht hr =>
    have hcnt : cnt + 1 ≤ maxOrder := hhi
    obtain ⟨rest, hf, -⟩ := (h.chain _ hcnt).exists_cons ht
    have hsp := h.pop hcnt hf
    -- the header of the lower half lies inside the chunk that was taken
    have hb := chunkBytes_succ cnt
    have hp := chunkBytes_pos (cnt + 1)
    have hlim := hsp.inside
    have hmod := hsp.aligned
    have hu := hsp.clear.not_inUse (b := t + sizeofChunk) (by omega) (by omega)
    simp only [sizeofChunk] at *
    obtain ⟨free', hi⟩ := split_inv (orderOf size) cnt (c := t + 8)
      (s := ((s.setHead (cnt + 1) (s.next t)).setNext t none).adjustHead t (t + 8))
      (hsp.inv.setUnused hu _) (by omega) (by simpa [Arena.adjustHead, Arena.order] using hsp.order)
      ((hsp.clear.shrink (by omega) (by omega)).setUnused hu _) ⟨by omega, by omega⟩ (by omega)
    subst hr
    exact .inr ⟨_, free', rfl, hi⟩

theorem findOrder_head {fuel c : Nat} : findOrder s (s.order c) (fuel + 1) (some c) =
    some (some c) := by
  simp [findOrder]

theorem easyMemFree_inv (h : Inv mem s free live) {c : Nat} (hc : c ∈ live)
    (hb : ¬ meetsBuddy s c) :
    ∃ s' free', easyMemFree s (some (c + sizeofChunk)) = some s' ∧
      Inv mem s' free' (live.erase c) := by
  obtain ⟨hsp, hn⟩ := h.take hc
  have hin := h.inside c (.inr hc)
  have hp := chunkBytes_pos (s.currOrder c)
  have hle := (h.liveHeader c hc).2
  have hr : ¬ (c + sizeofChunk < mem ∨ mem + sizeofMemTotal < c + sizeofChunk) := by
    have hm : chunkBytes maxOrder ≤ sizeofMemTotal := by decide
    omega
  have hlists : maxOrder + 1 - s.currOrder c = maxOrder - s.currOrder c + 1 := by omega
  simp only [easyMemFree, h.ready, Option.getD_some, if_neg hr, Nat.add_sub_cancel, hlists,
    merge]
  cases hh : s.memHeads (s.currOrder c) with
  | none =>
    refine ⟨_, _, rfl, (hsp.setUsed 0).link ?_⟩
    have hh' : (s.setUsed c 0).memHeads (s.currOrder c) = none := hh
    rw [hh', ← hn]
    simp [Arena.setUsed, Arena.next]
  | some t =>
    obtain ⟨rest, hf, -⟩ := (h.chain _ hle).exists_cons hh
    have hot : s.order t = s.order c := by
      rw [h.order t (.inl ⟨_, hle, by simp [hf]⟩), h.order c (.inr hc)]
    have hl : c ≠ t + chunkBytes (s.currOrder c) := fun he => hb ⟨t, hh, .inl he⟩
    have hr : c + chunkBytes (s.currOrder c) ≠ t := fun he => hb ⟨t, hh, .inr he⟩
    rw [chunkBytes] at hl hr
    simp only [walkLimit, ← hot, findOrder_head, if_neg hl, if_neg hr]
    exact ⟨_, _, rfl, (hsp.setUsed 0).push⟩

end Esp32Project.EasyMem
