import Esp32Project.EasyMem.Invariant

/-! How one chunk enters and leaves the lists and its caller's hands. -/

set_option autoImplicit false

namespace Esp32Project.EasyMem
open Esp32Project.Lib

variable {mem : Nat} {s : Arena} {free : Nat → List Nat} {live : List Nat} {c k : Nat}

theorem inUse_update_iff {l : List Nat} {d : Nat} (hk : k ≤ maxOrder) :
    InUse (Function.update free k l) live d ↔
      d ∈ l ∨ (∃ j, j ≤ maxOrder ∧ j ≠ k ∧ d ∈ free j) ∨ d ∈ live := by
  constructor
  · rintro (⟨j, hj, hd⟩ | hd)
    · by_cases he : j = k
      · subst he
        left; simpa using hd
      · right; left
        exact ⟨j, hj, he, by simpa [he] using hd⟩
    · exact .inr (.inr hd)
  · rintro (hd | ⟨j, hj, hne, hd⟩ | hd)
    · exact .inl ⟨k, hk, by simpa using hd⟩
    · exact .inl ⟨j, hj, by simpa [hne] using hd⟩
    · exact .inr hd

theorem inUse_push {d : Nat} (hk : k ≤ maxOrder) :
    InUse (Function.update free k (c :: free k)) live d ↔ d = c ∨ InUse free live d := by
  rw [inUse_update_iff hk]
  constructor
  · rintro (hd | ⟨j, hj, -, hd⟩ | hd)
    · rcases List.mem_cons.mp hd with rfl | hd
      · exact .inl rfl
      · exact .inr (.inl ⟨k, hk, hd⟩)
    · exact .inr (.inl ⟨j, hj, hd⟩)
    · exact .inr (.inr hd)
  · rintro (rfl | ⟨j, hj, hd⟩ | hd)
    · exact .inl (by simp)
    · by_cases he : j = k
      · subst he; exact .inl (by simp [hd])
      · exact .inr (.inl ⟨j, hj, he, hd⟩)
    · exact .inr (.inr hd)

theorem inUse_give {d : Nat} : InUse free (c :: live) d ↔ d = c ∨ InUse free live d := by
  simp only [InUse, List.mem_cons]
  exact or_left_comm

theorem Spare.apart (h : Spare mem s free live c k) {d e : Nat}
    (hd : d = c ∨ InUse free live d) (he : e = c ∨ InUse free live e) (hne : d ≠ e) :
    Apart d (chunkBytes (s.currOrder d)) e (chunkBytes (s.currOrder e)) := by
  rcases hd with rfl | hd <;> rcases he with rfl | he
  · exact absurd rfl hne
  · rw [h.currOrder]; exact (h.clear e he).symm
  · rw [h.currOrder]; exact h.clear d hd
  · exact h.inv.apart d e hd he hne

theorem Spare.give (h : Spare mem s free live c k) (hn : s.next c = none) :
    Inv mem s free (c :: live) := by
  have hu := h.not_inUse
  exact {
    ready := h.inv.ready
    chain := h.inv.chain
    own := h.inv.own
    nodup := h.inv.nodup
    liveNodup := List.nodup_cons.mpr ⟨fun hc => hu (.inr hc), h.inv.liveNodup⟩
    liveHeader := fun d hd => by
      rcases List.mem_cons.mp hd with rfl | hd
      · exact ⟨hn, h.currOrder ▸ h.le⟩
      · exact h.inv.liveHeader d hd
    liveFree := fun d hd j hj hf => by
      rcases List.mem_cons.mp hd with rfl | hd
      · exact hu (.inl ⟨j, hj, hf⟩)
      · exact h.inv.liveFree d hd j hj hf
    order := fun d hd => by
      rcases inUse_give.mp hd with rfl | hd
      · exact h.order
      · exact h.inv.order d hd
    inside := fun d hd => by
      rcases inUse_give.mp hd with rfl | hd
      · rw [h.currOrder]; exact h.inside
      · exact h.inv.inside d hd
    aligned := fun d hd => by
      rcases inUse_give.mp hd with rfl | hd
      · exact h.aligned
      · exact h.inv.aligned d hd
    apart := fun d e hd he hne => h.apart (inUse_give.mp hd) (inUse_give.mp he) hne }

theorem Spare.link (h : Spare mem s free live c k) (hn : s.next c = s.memHeads k) :
    Inv mem (s.setHead k (some c)) (Function.update free k (c :: free k)) live := by
  have hu := h.not_inUse
  have hin (d : Nat) : InUse (Function.update free k (c :: free k)) live d →
      d = c ∨ InUse free live d := (inUse_push h.le).mp
  exact {
    ready := h.inv.ready
    chain := fun j hj => by
      by_cases he : j = k
      · subst he
        have hc := h.inv.chain j hj
        rw [← hn] at hc
        simpa using hc
      · simpa [he] using h.inv.chain j hj
    own := fun j hj d hd => by
      by_cases he : j = k
      · subst he
        rw [Function.update_self] at hd
        rcases List.mem_cons.mp hd with rfl | hd
        · exact h.currOrder
        · exact h.inv.own j hj d hd
      · rw [Function.update_of_ne he] at hd
        exact h.inv.own j hj d hd
    nodup := fun j hj => by
      by_cases he : j = k
      · subst he
        rw [Function.update_self]
        exact List.nodup_cons.mpr ⟨fun hc => hu (.inl ⟨j, hj, hc⟩), h.inv.nodup j hj⟩
      · rw [Function.update_of_ne he]
        exact h.inv.nodup j hj
    liveNodup := h.inv.liveNodup
    liveHeader := h.inv.liveHeader
    liveFree := fun d hd j hj hf => by
      by_cases he : j = k
      · subst he
        rw [Function.update_self] at hf
        rcases List.mem_cons.mp hf with rfl | hf
        · exact hu (.inr hd)
        · exact h.inv.liveFree d hd j hj hf
      · rw [Function.update_of_ne he] at hf
        exact h.inv.liveFree d hd j hj hf
    order := fun d hd => by
      rcases hin d hd with rfl | hd
      · exact h.order
      · exact h.inv.order d hd
    inside := fun d hd => by
      rcases hin d hd with rfl | hd
      · rw [currOrder_setHead, h.currOrder]
        exact h.inside
      · exact h.inv.inside d hd
    aligned := fun d hd => by
      rcases hin d hd with rfl | hd
      · exact h.aligned
      · exact h.inv.aligned d hd
    apart := fun d e hd he hne => h.apart (hin d hd) (hin e he) hne }

theorem Spare.push (h : Spare mem s free live c k) :
    Inv mem (s.addToHead k c) (Function.update free k (c :: free k)) live := by
  rw [addToHead_eq]
  exact (h.setNext (s.memHeads k)).link (by simp [Arena.setNext, Arena.next])

theorem Inv.pop {rest : List Nat} (h : Inv mem s free live) (hk : k ≤ maxOrder)
    (hf : free k = c :: rest) :
    Spare mem ((s.setHead k (s.next c)).setNext c none) (Function.update free k rest) live c k := by
  have hc : InUse free live c := .inl ⟨k, hk, by simp [hf]⟩
  have hnd := h.nodup k hk
  rw [hf, List.nodup_cons] at hnd
  have hsub (d : Nat) (hd : InUse (Function.update free k rest) live d) :
      InUse free live d ∧ d ≠ c := by
    rcases (inUse_update_iff hk).mp hd with hd | ⟨j, hj, hne, hd⟩ | hd
    · exact ⟨.inl ⟨k, hk, by simp [hf, hd]⟩, fun he => hnd.1 (he ▸ hd)⟩
    · refine ⟨.inl ⟨j, hj, hd⟩, fun he => hne ?_⟩
      rw [← h.own j hj d hd, he]
      exact h.own k hk c (by simp [hf])
    · refine ⟨.inr hd, fun he => h.liveFree d hd k hk ?_⟩
      simp [hf, he]
  have hown : s.currOrder c = k := h.own k hk c (by simp [hf])
  have hinv : Inv mem (s.setHead k (s.next c)) (Function.update free k rest) live := {
    ready := h.ready
    chain := fun j hj => by
      by_cases he : j = k
      · subst he
        have hch := h.chain j hj
        rw [hf] at hch
        simpa using hch.2
      · simpa [he] using h.chain j hj
    own := fun j hj d hd => by
      by_cases he : j = k
      · subst he
        rw [Function.update_self] at hd
        exact h.own j hj d (by simp [hf, hd])
      · rw [Function.update_of_ne he] at hd
        exact h.own j hj d hd
    nodup := fun j hj => by
      by_cases he : j = k
      · subst he
        rw [Function.update_self]
        exact hnd.2
      · rw [Function.update_of_ne he]
        exact h.nodup j hj
    liveNodup := h.liveNodup
    liveHeader := h.liveHeader
    liveFree := fun d hd j hj hm => by
      by_cases he : j = k
      · subst he
        rw [Function.update_self] at hm
        exact h.liveFree d hd j hj (by simp [hf, hm])
      · rw [Function.update_of_ne he] at hm
        exact h.liveFree d hd j hj hm
    order := fun d hd => h.order d (hsub d hd).1
    inside := fun d hd => h.inside d (hsub d hd).1
    aligned := fun d hd => h.aligned d (hsub d hd).1
    apart := fun d e hd he hne => h.apart d e (hsub d hd).1 (hsub e he).1 hne }
  have hspare : Spare mem (s.setHead k (s.next c)) (Function.update free k rest) live c k := {
    inv := hinv
    le := hk
    clear := fun d hd => by
      have ha := h.apart d c (hsub d hd).1 hc (hsub d hd).2
      rw [hown] at ha
      exact ha
    currOrder := hown
    order := h.order c hc
    inside := by
      have hi := h.inside c hc
      rw [hown] at hi
      exact hi
    aligned := h.aligned c hc }
  exact hspare.setNext none

theorem Inv.take (h : Inv mem s free live) (hc : c ∈ live) :
    Spare mem s free (live.erase c) c (s.currOrder c) ∧ s.next c = none := by
  have hsub (d : Nat) (hd : InUse free (live.erase c) d) : InUse free live d ∧ d ≠ c := by
    rcases hd with ⟨j, hj, hd⟩ | hd
    · exact ⟨.inl ⟨j, hj, hd⟩, fun he => h.liveFree c hc j hj (he ▸ hd)⟩
    · rw [h.liveNodup.mem_erase_iff] at hd
      exact ⟨.inr hd.2, hd.1⟩
  have hlive (d : Nat) (hd : d ∈ live.erase c) : d ∈ live := List.mem_of_mem_erase hd
  have hinv : Inv mem s free (live.erase c) := {
    ready := h.ready
    chain := h.chain
    own := h.own
    nodup := h.nodup
    liveNodup := h.liveNodup.erase c
    liveHeader := fun d hd => h.liveHeader d (hlive d hd)
    liveFree := fun d hd => h.liveFree d (hlive d hd)
    order := fun d hd => h.order d (hsub d hd).1
    inside := fun d hd => h.inside d (hsub d hd).1
    aligned := fun d hd => h.aligned d (hsub d hd).1
    apart := fun d e hd he hne => h.apart d e (hsub d hd).1 (hsub e he).1 hne }
  refine ⟨⟨hinv, (h.liveHeader c hc).2, ?_, rfl, h.order c (.inr hc), h.inside c (.inr hc),
    h.aligned c (.inr hc)⟩, (h.liveHeader c hc).1⟩
  exact fun d hd => h.apart d c (hsub d hd).1 (.inr hc) (hsub d hd).2

end Esp32Project.EasyMem
