import Esp32Project.EasyMem.Coalescing

/-!
Single requests in any state that calls of `easy_mem_alloc` and `easy_mem_free`
lead to: how much room a chunk has for the size that was asked for, and what
becomes of a request that no list can meet.
-/

set_option autoImplicit false

namespace Esp32Project.EasyMem
open Esp32Project.Lib

theorem placed_of_reach {memTotal : Nat} {s : Client}
    (h : Reach step legal (Client.init memTotal) s) :
    Placed (memAlign memTotal) s.arena s.live :=
  h.invariant (fun s => Placed (memAlign memTotal) s.arena s.live) (placed_init memTotal)
    fun _ _ _ hp hl hs => (placed_step hp hl hs).1

/-- The bytes behind the header of a chunk of the order computed for a size. The
order is that of the size rounded down. -/
theorem room_iff {size : Nat} (h : size ≤ maxChunkNum * maxChunkSize) :
    sizeofChunk + size ≤ chunkBytes (orderOf size) ↔
      size ≤ minChunkSize ∨ 2 * minChunkSize ≤ size := by
  have hall : ∀ size, size ≤ maxChunkNum * maxChunkSize →
      (sizeofChunk + size ≤ chunkBytes (orderOf size) ↔
        size ≤ minChunkSize ∨ 2 * minChunkSize ≤ size) := by decide
  exact hall size h

example : orderOf 15 = 0 := by decide +kernel

/-- The payload that an allocation returns lies in its chunk unless the size is
between one and two of the smallest chunks. -/
theorem payload_inside_iff (memTotal : Nat) (s : Client)
    (h : Reach step legal (Client.init memTotal) s) (size : Nat)
    (hsize : size ≤ maxChunkNum * maxChunkSize) (s' : Arena) (p : Nat)
    (ha : easyMemAlloc s.arena size = some (s', some p)) :
    p + size ≤ p - sizeofChunk + chunkBytes (s'.currOrder (p - sizeofChunk)) ↔
      size ≤ minChunkSize ∨ 2 * minChunkSize ≤ size := by
  rcases easyMemAlloc_placed (placed_of_reach h) ha with ⟨-, -, hp⟩ | ⟨c, hp, hplaced, hm, -⟩
  · cases hp
  obtain rfl : p = c + sizeofChunk := Option.some.inj hp
  rw [Nat.add_sub_cancel, hplaced.made _ c hm, ← room_iff hsize]
  omega

/-- A third request, with the room that it asks for. -/
theorem payload_inside_iff_third :
    ∃ s s', Reach step legal (Client.init 0x3ffb0000) s ∧
      easyMemAlloc s.arena 24 = some (s', some 0x3ffb0010) ∧
      0x3ffb0010 + 24 ≤ 0x3ffb0010 - sizeofChunk +
        chunkBytes (s'.currOrder (0x3ffb0010 - sizeofChunk)) := by
  have hrun : ((runScript step (fun s a => decide (legal s a)) (Client.init 0x3ffb0000)
      [.alloc 8, .alloc 16]).bind fun s => (easyMemAlloc s.arena 24).map Prod.snd) =
      some (some 0x3ffb0010) := by decide +kernel
  obtain ⟨s, hs, ha⟩ := Option.bind_eq_some_iff.mp hrun
  obtain ⟨⟨s', p⟩, ha, rfl⟩ := Option.map_eq_some_iff.mp ha
  have hreach : Reach step legal (Client.init 0x3ffb0000) s :=
    reach_of_script (fun _ _ => of_decide_eq_true) hs
  exact ⟨s, s', hreach, ha, (payload_inside_iff 0x3ffb0000 s hreach 24 (by decide) s' 0x3ffb0010
    ha).mpr (by decide)⟩

/-- Ten bytes get a payload of eight, the last eight of the arena. -/
theorem ten_bytes_overrun :
    ∃ s', easyMemAlloc (Client.init 0x3ffb0000).arena 10 = some (s', some 0x3ffb00b0) ∧
      s'.currOrder 0x3ffb00a8 = 0 ∧ ¬ 0x3ffb00b0 + 10 ≤ 0x3ffb00a8 + chunkBytes 0 := by
  have hrun : (easyMemAlloc (Client.init 0x3ffb0000).arena 10).map
      (fun r => (r.2, r.1.currOrder 0x3ffb00a8)) = some (some 0x3ffb00b0, 0) := by decide +kernel
  obtain ⟨⟨s', p⟩, ha, hv⟩ := Option.map_eq_some_iff.mp hrun
  simp only [Prod.mk.injEq] at hv
  obtain ⟨rfl, hcurr⟩ := hv
  exact ⟨s', ha, hcurr, by decide⟩

/-- With every list from the order of the size up empty, the request is refused,
and nothing changes, only if that order is the top one: below it the search
runs past the end of `mem_heads`. -/
theorem refused_iff (memTotal : Nat) (s : Client)
    (h : Reach step legal (Client.init memTotal) s) (size : Nat)
    (hsize : size ≤ maxChunkNum * maxChunkSize)
    (he : ∀ k, orderOf size ≤ k → k ≤ maxOrder → s.arena.memHeads k = none) :
    easyMemAlloc s.arena size = some (s.arena, none) ↔ 5 * minChunkSize ≤ size := by
  have hready : ¬ s.arena.memMemory = none := by simp [(placed_of_reach h).ready]
  have hle := orderOf_le hsize
  have hnone := he _ (Nat.le_refl _) hle
  change _ ↔ Large size
  rw [large_iff hsize]
  by_cases hmax : orderOf size = maxOrder
  · rw [hmax] at hnone
    simp [easyMemAlloc, Nat.not_lt.mpr hsize, hready, hnone, hmax]
  · obtain ⟨h₁, h₂, -⟩ := searchUp_spec s.arena maxOrder (orderOf size) (by omega)
    have hgt : maxOrder < searchUp s.arena maxOrder (orderOf size) := by
      by_contra hle'
      have hsome := h₂ (by omega)
      rw [he _ (by omega) (by omega)] at hsome
      cases hsome
    simp [easyMemAlloc, Nat.not_lt.mpr hsize, hready, hnone, hmax, hgt]

/-- The arena is handed out, and a request for most of it refused. -/
theorem refused_iff_taken :
    ∃ s, Reach step legal (Client.init 0x3ffb0000) s ∧
      easyMemAlloc s.arena 40 = some (s.arena, none) := by
  have hrun : (runScript step (fun s a => decide (legal s a)) (Client.init 0x3ffb0000)
      [.alloc 64]).map (fun s => s.arena.memHeads 3) = some none := by decide +kernel
  obtain ⟨s, hs, hhead⟩ := Option.map_eq_some_iff.mp hrun
  have hreach : Reach step legal (Client.init 0x3ffb0000) s :=
    reach_of_script (fun _ _ => of_decide_eq_true) hs
  refine ⟨s, hreach, (refused_iff 0x3ffb0000 s hreach 40 (by decide) fun k hlo hhi => ?_).mpr
    (by decide)⟩
  have ho : orderOf 40 = 3 := by decide
  obtain rfl : k = 3 := by
    simp only [ho, maxOrder] at hlo hhi
    omega
  exact hhead

/-- The arena is handed out. A small request then reads `mem_heads[MAX_ORDER + 1]`. -/
theorem small_request_past_heads :
    ∃ s, Reach step legal (Client.init 0x3ffb0000) s ∧ (∀ k, k ≤ maxOrder →
      s.arena.memHeads k = none) ∧ easyMemAlloc s.arena 8 = none := by
  have hrun : (runScript step (fun s a => decide (legal s a)) (Client.init 0x3ffb0000)
      [.alloc 64]).map (fun s => (decide (∀ k, k ≤ maxOrder → s.arena.memHeads k = none),
        (easyMemAlloc s.arena 8).isNone)) = some (true, true) := by decide +kernel
  obtain ⟨s, hs, hv⟩ := Option.map_eq_some_iff.mp hrun
  simp only [Prod.mk.injEq, decide_eq_true_eq, Option.isNone_iff_eq_none] at hv
  exact ⟨s, reach_of_script (fun _ _ => of_decide_eq_true) hs, hv⟩

end Esp32Project.EasyMem
