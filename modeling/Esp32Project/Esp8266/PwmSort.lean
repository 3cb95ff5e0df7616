import Esp32Project.Esp8266.Pwm
import Esp32Project.Lib.Wp

/-!
The stores of `pwm_start` (pwm.c), and what its two loops over the entries do:
the insertion sort, and the moving down of the entries above one that goes.
-/

set_option autoImplicit false

namespace Esp32Project.Esp8266
open Esp32Project.Lib Build

/-- The buffer and its count once all stores are made. -/
def built (c : PwmConfig) (old : Schedule) : Schedule := ((buildSchedule c).run (old, [])).2.1

/-! What the stores do, whatever is logged. -/

section

variable {s : Schedule} {i j n : Nat} {p : PwmSingleParam}

theorem wp_peek {Q : PwmSingleParam → Schedule → Prop} (h : Q (s.at i) s) : wp (peek i) Q s :=
  fun _ => h

theorem wp_count {Q : Nat → Schedule → Prop} (h : Q s.channel s) : wp count Q s := fun _ => h

theorem wp_store {Q : Unit → Schedule → Prop} (h : Q () (s.put i p)) : wp (store i p) Q s :=
  fun _ => h

theorem wp_storeCount {Q : Unit → Schedule → Prop} (h : Q () { s with channel := n }) :
    wp (storeCount n) Q s := fun _ => h

def Schedule.Full (s : Schedule) : Prop := s.single.length = pwmChannelMax + 1

theorem Schedule.Full.put (h : s.Full) : (s.put i p).Full := by
  simpa [Schedule.Full, Schedule.put] using h

theorem put_at (h : s.Full) (hi : i ≤ pwmChannelMax) :
    (s.put i p).at j = if j = i then p else s.at j := by
  have hlen : i < s.single.length := by
    rw [show s.single.length = _ from h]
    omega
  simp only [Schedule.at, Schedule.put, List.getD_eq_getElem?_getD, List.getElem?_set]
  by_cases hij : i = j
  · rw [if_pos hij, if_pos hlen, if_pos hij.symm, Option.getD_some]
  · rw [if_neg hij, if_neg (Ne.symm hij)]

@[simp] theorem put_channel : (s.put i p).channel = s.channel := rfl

end

def SameEntries (n : Nat) (s s' : Schedule) : Prop :=
  ∀ φ : PwmSingleParam → Prop, (∃ i < n, φ (s'.at i)) ↔ ∃ i < n, φ (s.at i)

def SortedTo (n : Nat) (s : Schedule) : Prop :=
  ∀ i j, i < j → j < n → (s.at i).hTime ≤ (s.at j).hTime

/-- The place that `shiftUp` makes for `tmp`: the greater entries are one higher. -/
structure Shifted (tmp : PwmSingleParam) (s s' : Schedule) (i k : Nat) : Prop where
  full : s'.Full
  channel : s'.channel = s.channel
  le : k ≤ i
  moved : ∀ m, k < m → m ≤ i → s'.at m = s.at (m - 1)
  kept : ∀ m, m ≤ k ∨ i < m → s'.at m = s.at m
  greater : ∀ m, k ≤ m → m < i → tmp.hTime < (s.at m).hTime
  least : k = 0 ∨ (s.at (k - 1)).hTime ≤ tmp.hTime

theorem wp_shiftUp (tmp : PwmSingleParam) {s : Schedule} (hs : s.Full) {i : Nat}
    (hi : i ≤ pwmChannelMax) : wp (shiftUp tmp i) (fun k s' => Shifted tmp s s' i k) s := by
  induction i generalizing s with
  | zero =>
    exact wp_pure ⟨hs, rfl, Nat.le_refl 0, fun m h₁ h₂ => absurd h₁ (Nat.not_lt.mpr h₂),
      fun _ _ => rfl, fun m _ h => absurd h (Nat.not_lt_zero m), .inl rfl⟩
  | succ j ih =>
    refine wp_bind (wp_peek ?_)
    split
    · rename_i hlt
      refine wp_bind (wp_store ?_)
      refine wp_mono (ih hs.put (by omega)) fun k s' h => ?_
      obtain ⟨hfull, hch, hle, hmoved, hkept, hgreater, hleast⟩ := h
      have hat : ∀ m, m ≠ j + 1 → (s.put (j + 1) (s.at j)).at m = s.at m := by
        intro m hm
        rw [put_at hs hi, if_neg hm]
      refine ⟨hfull, hch, by omega, fun m h₁ h₂ => ?_, fun m hm => ?_, fun m h₁ h₂ => ?_, ?_⟩
      · by_cases hm : m = j + 1
        · rw [hm, hkept _ (by omega), put_at hs hi, if_pos rfl, Nat.add_sub_cancel]
        · rw [hmoved m h₁ (by omega), hat _ (by omega)]
      · rw [hkept m (by omega), hat m (by omega)]
      · by_cases hm : m = j
        · rw [hm]
          exact hlt
        · rw [← hat m (by omega)]
          exact hgreater m h₁ (by omega)
      · refine hleast.imp id fun h => ?_
        rwa [hat _ (by omega)] at h
    · rename_i hge
      exact wp_pure ⟨hs, rfl, Nat.le_refl _, fun m h₁ h₂ => absurd h₁ (Nat.not_lt.mpr h₂),
        fun _ _ => rfl, fun m h₁ h₂ => absurd h₁ (Nat.not_le.mpr h₂),
        .inr (UInt32.not_lt.mp hge)⟩

/-- The entry at `i` has gone down to `k`. -/
structure Inserted (s s' : Schedule) (i k : Nat) : Prop where
  le : k ≤ i
  at_eq : ∀ m, s'.at m =
    if m = k then s.at i else if k < m ∧ m ≤ i then s.at (m - 1) else s.at m
  greater : ∀ m, k ≤ m → m < i → (s.at i).hTime < (s.at m).hTime
  least : k = 0 ∨ (s.at (k - 1)).hTime ≤ (s.at i).hTime

/-- The loop body of `pwm_insert_sort`. -/
def insertAt (i : Nat) : Build Unit := do
  let tmp ← peek i
  let below ← peek (i - 1)
  if tmp.hTime < below.hTime then
    store i below
    let j ← shiftUp tmp i
    store j tmp

theorem wp_insertAt {s : Schedule} (hs : s.Full) {i : Nat} (hpos : 0 < i)
    (hi : i ≤ pwmChannelMax) :
    wp (insertAt i)
      (fun _ s' => s'.Full ∧ s'.channel = s.channel ∧ ∃ k, Inserted s s' i k) s := by
  refine wp_bind (wp_peek (wp_bind (wp_peek ?_)))
  split
  · refine wp_bind (wp_store (wp_bind (wp_mono (wp_shiftUp (s.at i) hs.put hi) ?_)))
    rintro k s' ⟨hfull, hch, hle, hmoved, hkept, hgreater, hleast⟩
    have hat : ∀ m, m ≠ i → (s.put i (s.at (i - 1))).at m = s.at m := by
      intro m hm
      rw [put_at hs hi, if_neg hm]
    refine wp_store ⟨hfull.put, hch, k, hle, fun m => ?_, fun m h₁ h₂ => ?_, ?_⟩
    · rw [put_at hfull (by omega)]
      split
      · rfl
      · rename_i hmk
        split
        · rename_i hm
          rw [hmoved m hm.1 hm.2, hat _ (by omega)]
        · rename_i hm
          rw [hkept m (by omega), hat m (by omega)]
    · rw [← hat m (by omega)]
      exact hgreater m h₁ h₂
    · refine (Nat.eq_zero_or_pos k).imp id fun hk => ?_
      rcases hleast with h0 | h
      · omega
      · rwa [hat _ (by omega)] at h
  · rename_i hge
    refine wp_pure ⟨hs, rfl, i, Nat.le_refl i, fun m => ?_, fun m h₁ h₂ => ?_,
      .inr (UInt32.not_lt.mp hge)⟩
    · split
      · rename_i hm
        rw [hm]
      · rw [if_neg (by omega)]
    · exact absurd h₁ (Nat.not_le.mpr h₂)

section

variable {s s' : Schedule} {i k n : Nat}

theorem Inserted.sorted (h : Inserted s s' i k) (hs : SortedTo i s) : SortedTo (i + 1) s' := by
  obtain ⟨hle, hat, hgreater, hleast⟩ := h
  intro a b hab hb
  rw [hat a, hat b]
  by_cases hak : a = k
  · -- the entry itself, below those that are greater
    rw [if_pos hak, if_neg (by omega), if_pos (by omega)]
    exact UInt32.le_of_lt (hgreater (b - 1) (by omega) (by omega))
  · rw [if_neg hak]
    by_cases hbk : b = k
    · rw [if_pos hbk, if_neg (by omega)]
      rcases hleast with h0 | h
      · omega
      · rcases Nat.lt_or_ge a (k - 1) with ha | ha
        · exact UInt32.le_trans (hs a (k - 1) ha (by omega)) h
        · rwa [show a = k - 1 by omega]
    · rw [if_neg hbk]
      by_cases ha : k < a
      · rw [if_pos (by omega), if_pos (by omega)]
        exact hs (a - 1) (b - 1) (by omega) (by omega)
      · rw [if_neg (by omega)]
        split
        · rcases Nat.lt_or_ge a (b - 1) with h | h
          · exact hs a (b - 1) h (by omega)
          · rw [show a = b - 1 by omega]
            exact UInt32.le_refl _
        · exact hs a b hab (by omega)

theorem Inserted.same (h : Inserted s s' i k) (hi : i < n) : SameEntries n s s' := by
  obtain ⟨hle, hat, -, -⟩ := h
  intro φ
  constructor
  · rintro ⟨m, hm, hφ⟩
    rw [hat m] at hφ
    split at hφ
    · exact ⟨i, hi, hφ⟩
    · split at hφ
      · exact ⟨m - 1, by omega, hφ⟩
      · exact ⟨m, hm, hφ⟩
  · rintro ⟨m, hm, hφ⟩
    by_cases hmi : m = i
    · refine ⟨k, by omega, ?_⟩
      rw [hat k, if_pos rfl, ← hmi]
      exact hφ
    · by_cases hmk : k ≤ m ∧ m < i
      · refine ⟨m + 1, by omega, ?_⟩
        rw [hat (m + 1), if_neg (by omega), if_pos (by omega), Nat.add_sub_cancel]
        exact hφ
      · refine ⟨m, hm, ?_⟩
        rw [hat m, if_neg (by omega), if_neg (by omega)]
        exact hφ

theorem wp_pwmInsertSort (hs : s.Full) (hn : n ≤ pwmChannelMax + 1) (hpos : 0 < n) :
    wp (pwmInsertSort n)
      (fun _ s' => s'.Full ∧ s'.channel = s.channel ∧ SortedTo n s' ∧ SameEntries n s s') s := by
  have hloop : wp ((List.range' 1 (n - 1)).forM insertAt)
      (fun _ s' => s'.Full ∧ s'.channel = s.channel ∧ SortedTo (n - 1 + 1) s' ∧
        SameEntries n s s') s := by
    refine wp_range (fun k s' => s'.Full ∧ s'.channel = s.channel ∧ SortedTo (k + 1) s' ∧
      SameEntries n s s') ?_ ⟨hs, rfl, fun i j hij hj => ?_, fun φ => Iff.rfl⟩
    · rintro k hk t ⟨hfull, hch, hsorted, hsame⟩
      refine wp_mono (wp_insertAt hfull (by omega) (by omega)) ?_
      rintro _ t' ⟨hfull', hch', j, hins⟩
      rw [Nat.add_comm 1 k] at hins
      exact ⟨hfull', hch'.trans hch, hins.sorted hsorted,
        fun φ => (hins.same (by omega) φ).trans (hsame φ)⟩
    · omega
  rw [Nat.sub_add_cancel hpos] at hloop
  exact hloop

end

theorem wp_moveDown {s : Schedule} {i : Nat} (hs : s.Full) (hc : s.channel ≤ pwmChannelMax + 1)
    (hpos : 0 < i) (hi : i ≤ s.channel) :
    wp (moveDown i) (fun _ s' => s'.Full ∧ s'.channel = s.channel ∧ ∀ m, s'.at m =
      if i ≤ m + 1 ∧ m + 1 < s.channel then s.at (m + 1) else s.at m) s := by
  refine wp_bind (wp_count ?_)
  have hloop := wp_range (f := fun j => do store (j - 1) (← peek j)) (a := i) (n := s.channel - i)
    (fun k s' => s'.Full ∧ s'.channel = s.channel ∧ ∀ m, s'.at m =
      if i ≤ m + 1 ∧ m + 1 < i + k then s.at (m + 1) else s.at m) (s := s) ?_
    ⟨hs, rfl, fun m => by rw [if_neg (by omega)]⟩
  · rwa [Nat.add_sub_cancel' hi] at hloop
  · rintro k hk t ⟨hfull, hch, hat⟩
    refine wp_bind (wp_peek (wp_store ⟨hfull.put, hch, fun m => ?_⟩))
    rw [put_at hfull (by omega)]
    split
    · rename_i hm
      rw [hat (i + k), if_neg (by omega), if_pos (by omega), show m + 1 = i + k by omega]
    · rename_i hm
      rw [hat m]
      by_cases hin : i ≤ m + 1 ∧ m + 1 < i + k
      · rw [if_pos hin, if_pos (by omega)]
      · rw [if_neg hin, if_neg (by omega)]

end Esp32Project.Esp8266
