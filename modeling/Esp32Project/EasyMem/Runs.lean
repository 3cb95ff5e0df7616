import Esp32Project.EasyMem.Safety

/-!
Runs of the allocator. `merge` leaves the buddy that it joins in the list of
its old order, so the first free that meets a buddy breaks the arena, and an
allocation that finds every list empty reads past the end of `mem_heads`.
-/

set_option autoImplicit false

namespace Esp32Project.EasyMem
open Esp32Project.Lib

def Client.handed (s : Client) : List Nat := s.live.map (· - sizeofChunk)

example : (Client.init 4).handed = [] := by decide +kernel

/-- Free and handed-out chunks are disjoint ranges inside `mem_total`, and
each free chunk is once in the list of its own order only. -/
def ArenaOk (memTotal : Nat) (s : Client) : Prop :=
  ∃ free : Nat → List Nat,
    (∀ k, k ≤ maxOrder → Chain s.arena.next (s.arena.memHeads k) (free k) ∧ (free k).Nodup ∧
      ∀ c ∈ free k, s.arena.currOrder c = k) ∧
    s.handed.Nodup ∧
    (∀ c ∈ s.handed, ∀ k, k ≤ maxOrder → c ∉ free k) ∧
    (∀ c, InUse free s.handed c →
      memTotal ≤ c ∧ c + chunkBytes (s.arena.currOrder c) ≤ memTotal + sizeofMemTotal) ∧
    ∀ c d, InUse free s.handed c → InUse free s.handed d → c ≠ d →
      Apart c (chunkBytes (s.arena.currOrder c)) d (chunkBytes (s.arena.currOrder d))

/-- The call is no allocation from exhausted lists and no free that meets a buddy. -/
def undisturbed (s : Client) : Call → Prop
  | .alloc size => ¬ exhausted s.arena size
  | .free p => ¬ meetsBuddy s.arena (p - sizeofChunk)

instance (s : Client) (a : Call) : Decidable (legal s a) := by
  cases a <;> unfold legal <;> infer_instance

instance (s : Client) (a : Call) : Decidable (undisturbed s a) := by
  cases a <;> unfold undisturbed <;> infer_instance

def Held (memTotal : Nat) (s : Client) : Prop :=
  ∃ free chunks, s.live = chunks.map (· + sizeofChunk) ∧
    Inv (memAlign memTotal) s.arena free chunks

theorem memAlign_bounds (memTotal : Nat) :
    memTotal ≤ memAlign memTotal ∧
      memAlign memTotal + chunkBytes maxOrder ≤ memTotal + sizeofMemTotal := by
  have h : chunkBytes maxOrder + 3 = sizeofMemTotal := by decide
  simp only [memAlign, memAlignment]
  omega

theorem Held.arenaOk {memTotal : Nat} {s : Client} (h : Held memTotal s) :
    ArenaOk memTotal s := by
  obtain ⟨free, chunks, hl, hi⟩ := h
  have hh : s.handed = chunks := by
    simp [Client.handed, hl, List.map_map, Function.comp_def]
  obtain ⟨hlo, hhi⟩ := memAlign_bounds memTotal
  refine ⟨free, fun k hk => ⟨hi.chain k hk, hi.nodup k hk, hi.own k hk⟩, ?_⟩
  rw [hh]
  refine ⟨hi.liveNodup, hi.liveFree, fun c hc => ?_, hi.apart⟩
  have := hi.inside c hc
  omega

theorem held_init (memTotal : Nat) : Held memTotal (Client.init memTotal) := by
  refine ⟨fun k => if k = maxOrder then [memAlign memTotal] else [], [], rfl, ?_⟩
  have huse (c : Nat) (h : InUse (fun k => if k = maxOrder then [memAlign memTotal] else []) [] c) :
      c = memAlign memTotal := by
    rcases h with ⟨k, -, hk⟩ | h
    · by_cases he : k = maxOrder
      · simpa [he] using hk
      · simp [he] at hk
    · simp at h
  have hc : (Client.init memTotal).arena.currOrder (memAlign memTotal) = maxOrder := by
    simp [Client.init, easyMemInit, Arena.currOrder]
  exact {
    ready := rfl
    chain := fun k _ => by
      by_cases he : k = maxOrder
      · simp [he, Client.init, easyMemInit, Arena.next]
      · simp [he, Client.init, easyMemInit, Arena.setHead, Arena.boot]
    own := fun k _ c hm => by
      by_cases he : k = maxOrder
      · have hm' : c = memAlign memTotal := by simpa [he] using hm
        rw [hm', hc, he]
      · simp [he] at hm
    nodup := fun k _ => by by_cases he : k = maxOrder <;> simp [he]
    liveNodup := List.nodup_nil
    liveHeader := by simp
    liveFree := by simp
    order := fun c hu => by
      rw [huse c hu]
      simp [Client.init, easyMemInit, Arena.order]
    inside := fun c hu => by rw [huse c hu, hc]; omega
    aligned := fun c hu => by rw [huse c hu]
    apart := fun c d hu hv hne => absurd ((huse c hu).trans (huse d hv).symm) hne }

theorem held_step {memTotal : Nat} {s : Client} {a : Call} (h : Held memTotal s)
    (hl : legal s a) (hu : undisturbed s a) :
    ∃ s', step s a = some s' ∧ Held memTotal s' := by
  obtain ⟨free, chunks, hlive, hi⟩ := h
  cases a with
  | alloc size =>
    obtain ⟨⟨s', p⟩, ha⟩ := Option.isSome_iff_exists.mp (easyMemAlloc_defined hu)
    refine ⟨⟨s', p.toList ++ s.live⟩, by simp [step, ha], ?_⟩
    rcases easyMemAlloc_inv hi ha with ⟨rfl, rfl⟩ | ⟨c, free', rfl, hi'⟩
    · exact ⟨free, chunks, by simpa using hlive, hi⟩
    · exact ⟨free', c :: chunks, by simp [hlive], hi'⟩
  | free p =>
    have hp : p ∈ s.live := hl
    rw [hlive] at hp
    obtain ⟨c, hc, rfl⟩ := List.mem_map.mp hp
    simp only [undisturbed, Nat.add_sub_cancel] at hu
    obtain ⟨s', free', hf, hi'⟩ := easyMemFree_inv hi hc hu
    refine ⟨⟨s', s.live.erase (c + sizeofChunk)⟩, by simp [step, hf],
      free', chunks.erase c, ?_, hi'⟩
    rw [hlive]
    exact (List.map_erase (fun _ _ h => Nat.add_right_cancel h) chunks).symm

/-- `merge` puts its chunk, or a larger one around it, at the head of a list
from `order` on and leaves the heads below alone. -/
theorem merge_covers (lists : Nat) {s s' : Arena} {m order : Nat}
    (hn : order + lists = maxOrder + 1) (hm : s.order m = maxOrder)
    (hh : ∀ k t, k ≤ maxOrder → s.memHeads k = some t → s.order t = maxOrder)
    (h : merge lists s m order = some s') :
    (∀ k, k < order → s'.memHeads k = s.memHeads k) ∧
      ∃ k m', order ≤ k ∧ k ≤ maxOrder ∧ s'.memHeads k = some m' ∧ m' ≤ m ∧
        m + chunkBytes order ≤ m' + chunkBytes k := by
  induction lists generalizing s m order with
  | zero => simp [merge] at h
  | succ lists ih =>
    -- either the chunk is linked in here, or the two halves go up one list
    have hup (c m' : Nat) (hc : s.order c = maxOrder) (hle : m' ≤ m)
        (hcov : m + chunkBytes order ≤ m' + chunkBytes (order + 1))
        (hr : merge lists (s.adjustHead c m') m' (order + 1) = some s') :
        (∀ k, k < order → s'.memHeads k = s.memHeads k) ∧
          ∃ k m', order ≤ k ∧ k ≤ maxOrder ∧ s'.memHeads k = some m' ∧ m' ≤ m ∧
            m + chunkBytes order ≤ m' + chunkBytes k := by
      obtain ⟨hlow, k, m'', hk, hkm, hs, hle', hcov'⟩ := ih (by omega)
        (by simpa [Arena.adjustHead, Arena.order] using hc)
        (fun k t hkt ht => by
          by_cases he : t = m'
          · subst he; simpa [Arena.adjustHead, Arena.order] using hc
          · simpa [Arena.adjustHead, Arena.order, he] using hh k t hkt ht) hr
      exact ⟨fun j hj => hlow j (by omega), k, m'', by omega, hkm, hs, by omega, by omega⟩
    have hb := chunkBytes_succ order
    simp only [merge, sizeofChunk] at h hb
    split at h
    · cases h
      refine ⟨fun k hk => ?_, order, m, Nat.le_refl _, by omega, by simp, Nat.le_refl _,
        Nat.le_refl _⟩
      simp [Arena.setUsed, Nat.ne_of_lt hk]
    · rename_i head hhead
      have hho := hh order head (by omega) hhead
      rw [walkLimit, show s.order m = s.order head by rw [hm, hho], findOrder_head] at h
      simp only at h
      rw [show layerSize order + layerHeadsSize (order + 1) = chunkBytes order from rfl] at h
      split at h
      · exact hup head (head - 8) hho (by omega) (by omega) h
      split at h
      · exact hup m (m - 8) hm (by omega) (by omega) h
      · cases h
        rw [addToHead_eq]
        refine ⟨fun k hk => ?_, order, m, Nat.le_refl _, by omega, by simp, Nat.le_refl _,
          Nat.le_refl _⟩
        simp [Arena.setUsed, Arena.setNext, Nat.ne_of_lt hk]

theorem head_mem {next : Nat → Option Nat} {p : Option Nat} {l : List Nat} {c : Nat}
    (h : Chain next p l) (hp : p = some c) : c ∈ l := by
  obtain ⟨rest, rfl, -⟩ := h.exists_cons hp
  simp

theorem free_meeting_buddy_breaks {memTotal : Nat} {s s' : Client} {p : Nat}
    (h : Held memTotal s) (hp : p ∈ s.live) (hb : meetsBuddy s.arena (p - sizeofChunk))
    (hs : step s (.free p) = some s') : ¬ ArenaOk memTotal s' := by
  obtain ⟨free, chunks, hlive, hi⟩ := h
  rw [hlive] at hp
  obtain ⟨c, hc, rfl⟩ := List.mem_map.mp hp
  obtain ⟨a, ha, rfl⟩ := Option.map_eq_some_iff.mp hs
  rw [Nat.add_sub_cancel] at hb
  obtain ⟨t, ht, hadj⟩ := hb
  have ht : s.arena.memHeads (s.arena.currOrder c) = some t := ht
  have hle := (hi.liveHeader c hc).2
  have hin := hi.inside c (.inr hc)
  have hpos := chunkBytes_pos (s.arena.currOrder c)
  have hbig := chunkBytes_succ (s.arena.currOrder c)
  have hco := hi.order c (.inr hc)
  have hheads (k t : Nat) (hk : k ≤ maxOrder) (ht : s.arena.memHeads k = some t) :
      s.arena.order t = maxOrder := hi.order t (.inl ⟨k, hk, head_mem (hi.chain k hk) ht⟩)
  have hto := hheads _ t hle ht
  have hr : ¬ (c + sizeofChunk < memAlign memTotal ∨
      memAlign memTotal + sizeofMemTotal < c + sizeofChunk) := by
    have hm : chunkBytes maxOrder ≤ sizeofMemTotal := by decide
    omega
  have hlists : maxOrder + 1 - s.arena.currOrder c = maxOrder - s.arena.currOrder c + 1 := by
    omega
  -- one level up, the joined chunk starts a header below the lower of the two
  obtain ⟨m, q, hq, hmt, hcov, hup⟩ : ∃ m q, s.arena.order q = maxOrder ∧ m ≤ t ∧
      t + chunkBytes (s.arena.currOrder c) ≤ m + chunkBytes (s.arena.currOrder c + 1) ∧
      merge (maxOrder - s.arena.currOrder c) (s.arena.adjustHead q m) m
        (s.arena.currOrder c + 1) = some a := by
    simp only [easyMemFree, hi.ready, Option.getD_some, if_neg hr, Nat.add_sub_cancel, hlists,
      merge, ht, walkLimit, show s.arena.order c = s.arena.order t by rw [hco, hto],
      findOrder_head] at ha
    rw [show layerSize (s.arena.currOrder c) + layerHeadsSize (s.arena.currOrder c + 1) =
      chunkBytes (s.arena.currOrder c) from rfl] at ha
    simp only [sizeofChunk] at *
    split at ha
    · exact ⟨t - 8, t, hto, by omega, by omega, ha⟩
    · exact ⟨c - 8, c, hco, by omega, by omega, by simpa [hadj.resolve_left ‹_›] using ha⟩
  obtain ⟨hlow, k, m', hk, hkm, hm', hmm, hcov'⟩ := merge_covers _ (by omega)
    (by simpa [Arena.adjustHead, Arena.order] using hq)
    (fun k t hk ht => by
      by_cases he : t = m
      · subst he; simpa [Arena.adjustHead, Arena.order] using hq
      · simpa [Arena.adjustHead, Arena.order, he] using hheads k t hk ht) hup
  have hta : a.memHeads (s.arena.currOrder c) = some t := by
    rw [hlow _ (by omega)]
    exact ht
  -- the buddy is still in its old list, and the joined chunk covers it
  rintro ⟨free', hlist, -, -, -, hap⟩
  obtain ⟨hch, -, hown⟩ := hlist _ hle
  obtain ⟨hch', -, hown'⟩ := hlist k hkm
  have htf := head_mem hch hta
  have hmf := head_mem hch' hm'
  have hne : t ≠ m' := by
    rintro rfl
    have h₁ := hown t htf
    have h₂ := hown' t hmf
    omega
  have hapart := hap t m' (.inl ⟨_, hle, htf⟩) (.inl ⟨k, hkm, hmf⟩) hne
  simp only at hapart
  rw [hown t htf, hown' m' hmf] at hapart
  rcases hapart with hapart | hapart <;> omega

theorem alloc_exhausted_undefined {memTotal size : Nat} {s : Client} (h : Held memTotal s)
    (he : exhausted s.arena size) : step s (.alloc size) = none := by
  obtain ⟨free, chunks, -, hi⟩ := h
  obtain ⟨hsize, hlt, hnone⟩ := he
  obtain ⟨h₁, h₂, -⟩ := searchUp_spec s.arena maxOrder (orderOf size) (by omega)
  have hgt : maxOrder < searchUp s.arena maxOrder (orderOf size) := by
    by_contra hle
    have hs := h₂ (by omega)
    rw [hnone _ (by omega) (by omega)] at hs
    cases hs
  simp [step, easyMemAlloc, hi.ready, Nat.not_lt.mpr hsize, hnone _ (by omega) (Nat.le_refl _),
    Nat.ne_of_lt hlt, hgt]

/-- Along every run of undisturbed calls the arena is in order, and exactly
the undisturbed calls keep it so. -/
theorem arenaOk_of_undisturbed (memTotal : Nat) (s : Client)
    (h : Reach step (fun s a => legal s a ∧ undisturbed s a) (Client.init memTotal) s) :
    ArenaOk memTotal s ∧ ∀ a, legal s a →
      ((∃ s', step s a = some s' ∧ ArenaOk memTotal s') ↔ undisturbed s a) := by
  have hh : Held memTotal s := by
    refine h.invariant (Held memTotal) (held_init memTotal) fun s a s' hI hg hs => ?_
    obtain ⟨t, ht, hk⟩ := held_step hI hg.1 hg.2
    rw [ht] at hs
    exact Option.some.inj hs ▸ hk
  refine ⟨hh.arenaOk, fun a hl => ⟨?_, fun hu => ?_⟩⟩
  · rintro ⟨s', hs, hok⟩
    cases a with
    | alloc size =>
      intro he
      rw [alloc_exhausted_undefined hh he] at hs
      cases hs
    | free p => exact fun hb => free_meeting_buddy_breaks hh hl hb hs hok
  · obtain ⟨s', hs, hk⟩ := held_step hh hl hu
    exact ⟨s', hs, hk.arenaOk⟩

/-- Allocate the whole arena, free it and allocate the smallest chunk. -/
theorem arenaOk_of_undisturbed_run :
    ∃ s, runScript step (fun s a => decide (legal s a ∧ undisturbed s a)) (Client.init 0x3ffb0000)
        [.alloc 64, .free 0x3ffb0008, .alloc 8] = some s ∧ ArenaOk 0x3ffb0000 s := by
  obtain ⟨s, hs⟩ : ∃ s, runScript step (fun s a => decide (legal s a ∧ undisturbed s a))
      (Client.init 0x3ffb0000) [.alloc 64, .free 0x3ffb0008, .alloc 8] = some s :=
    Option.isSome_iff_exists.mp (by decide)
  exact ⟨s, hs, (arenaOk_of_undisturbed 0x3ffb0000 s
    (reach_of_script (fun _ _ => of_decide_eq_true) hs)).1⟩

/-- After one small block is freed the lists overlap, and the next two
allocations hand out a block and the arena around it. -/
theorem arena_overlaps_after_merge :
    ∃ s, Reach step legal (Client.init 0x3ffb0000) s ∧ s.live = [0x3ffb0008, 0x3ffb00a0] ∧
      ¬ ArenaOk 0x3ffb0000 s := by
  have hrun : (runScript step (fun s a => decide (legal s a)) (Client.init 0x3ffb0000)
      [.alloc 8, .free 0x3ffb00b0, .alloc 8, .alloc 64]).map
        (fun s => (s.live, s.arena.currOrder 0x3ffb0000, s.arena.currOrder 0x3ffb0098)) =
      some ([0x3ffb0008, 0x3ffb00a0], 3, 0) := by decide
  obtain ⟨s, hs, hv⟩ := Option.map_eq_some_iff.mp hrun
  obtain ⟨hlive, hbig, hsmall⟩ : s.live = [0x3ffb0008, 0x3ffb00a0] ∧
      s.arena.currOrder 0x3ffb0000 = 3 ∧ s.arena.currOrder 0x3ffb0098 = 0 := by
    simpa only [Prod.mk.injEq] using hv
  refine ⟨s, reach_of_script (fun _ _ => of_decide_eq_true) hs, hlive, ?_⟩
  rintro ⟨free, -, -, -, -, hap⟩
  have h := hap 0x3ffb0000 0x3ffb0098 (.inr (by simp [Client.handed, hlive, sizeofChunk]))
    (.inr (by simp [Client.handed, hlive, sizeofChunk])) (by decide)
  rw [hbig, hsmall] at h
  revert h
  decide

end Esp32Project.EasyMem
