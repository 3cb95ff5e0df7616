import Esp32Project.Esp8266.PwmSort
import Mathlib.Data.List.Nodup

/-!
The table that `pwm_start` (pwm.c) makes: what it says once the entries of one
time are combined, and what the last steps make of it.
-/

set_option autoImplicit false

namespace Esp32Project.Esp8266
open Esp32Project.Lib Build

def hasBit (x : UInt16) (b : Nat) : Bool := x.toBitVec.getLsbD b

example : hasBit 5 2 = true ∧ hasBit 5 1 = false := by decide +kernel

@[simp] theorem hasBit_or (x y : UInt16) (b : Nat) :
    hasBit (x ||| y) b = (hasBit x b || hasBit y b) := by
  simp [hasBit]

@[simp] theorem hasBit_zero (b : Nat) : hasBit 0 b = false := by
  simp [hasBit]

theorem hasBit_and_not {x y : UInt16} {b : Nat} (hb : b < 16) :
    hasBit (x &&& ~~~ y) b = (hasBit x b && !hasBit y b) := by
  simp [hasBit, hb]

theorem hasBit_pow (n b : Nat) : hasBit (.ofNat (2 ^ n)) b = true ↔ b < 16 ∧ n = b := by
  rw [hasBit, UInt16.toBitVec_ofNat', BitVec.getLsbD_ofNat, Nat.testBit_two_pow,
    Bool.and_eq_true, decide_eq_true_iff, decide_eq_true_iff]

theorem hasBit_erase {α : Type} [BEq α] [LawfulBEq α] {l : List α} {pin : α → Nat} {g : UInt16}
    {a : α} (hl : l.Nodup) (hg : ∀ b, hasBit g b = true ↔ ∃ c ∈ l, b < 16 ∧ pin c = b)
    (hinj : ∀ c ∈ l, pin c = pin a → c = a) (b : Nat) :
    hasBit (g &&& ~~~ .ofNat (2 ^ pin a)) b = true ↔ ∃ c ∈ l.erase a, b < 16 ∧ pin c = b := by
  by_cases hb : b < 16
  · rw [hasBit_and_not hb, Bool.and_eq_true, Bool.not_eq_true', Bool.eq_false_iff, Ne, hg,
      hasBit_pow]
    constructor
    · rintro ⟨⟨c, hc, -, rfl⟩, hpin⟩
      exact ⟨c, hl.mem_erase_iff.mpr ⟨fun heq => hpin ⟨hb, heq ▸ rfl⟩, hc⟩, hb, rfl⟩
    · rintro ⟨c, hc, -, rfl⟩
      obtain ⟨hne, hc⟩ := hl.mem_erase_iff.mp hc
      exact ⟨⟨c, hc, hb, rfl⟩, fun hpin => hne (hinj c hc hpin.2.symm)⟩
  · rw [hasBit, BitVec.getLsbD_of_ge _ _ (by omega)]
    refine iff_of_false Bool.false_ne_true ?_
    rintro ⟨c, -, hlt, -⟩
    exact hb hlt

/-! What a table with absolute times says. -/

def HasTime (s : Schedule) (h : UInt32) : Prop := ∃ a < s.channel, (s.at a).hTime = h

def Clears (s : Schedule) (h : UInt32) (b : Nat) : Prop :=
  ∃ a < s.channel, (s.at a).hTime = h ∧ hasBit (s.at a).gpioClear b = true

def Sets (s : Schedule) (h : UInt32) (b : Nat) : Prop :=
  ∃ a < s.channel, (s.at a).hTime = h ∧ hasBit (s.at a).gpioSet b = true

structure SameMeaning (s s' : Schedule) : Prop where
  times : ∀ h, HasTime s' h ↔ HasTime s h
  clears : ∀ h b, Clears s' h b ↔ Clears s h b
  sets : ∀ h b, Sets s' h b ↔ Sets s h b

theorem SameMeaning.trans {s s' s'' : Schedule} (h₁ : SameMeaning s s') (h₂ : SameMeaning s' s'') :
    SameMeaning s s'' :=
  ⟨fun h => (h₂.times h).trans (h₁.times h), fun h b => (h₂.clears h b).trans (h₁.clears h b),
    fun h b => (h₂.sets h b).trans (h₁.sets h b)⟩

def StrictFrom (i : Nat) (s : Schedule) : Prop :=
  ∀ a b, i ≤ a → a < b → b < s.channel → (s.at a).hTime < (s.at b).hTime

/-- The entry above `i` has become part of the one at `i`. -/
structure Merged (s s' : Schedule) (i : Nat) : Prop where
  same : (s.at (i + 1)).hTime = (s.at i).hTime
  inside : i + 1 < s.channel
  channel : s'.channel = s.channel - 1
  hTime : (s'.at i).hTime = (s.at i).hTime
  set : (s'.at i).gpioSet = (s.at i).gpioSet ||| (s.at (i + 1)).gpioSet
  clear : (s'.at i).gpioClear = (s.at i).gpioClear ||| (s.at (i + 1)).gpioClear
  below : ∀ m, m < i → s'.at m = s.at m
  above : ∀ m, i < m → m < s'.channel → s'.at m = s.at (m + 1)

section

variable {s s' : Schedule} {i : Nat}

theorem Merged.hTime_le (h : Merged s s' i) {m : Nat} (hm : m ≤ i) :
    (s'.at m).hTime = (s.at m).hTime := by
  rcases Nat.lt_or_eq_of_le hm with hlt | rfl
  · rw [h.below m hlt]
  · exact h.hTime

/-- What holds of an entry with its time holds after the merge, if the merged
entry says what the two said. -/
theorem Merged.exists_iff (h : Merged s s' i) (φ : PwmSingleParam → Prop)
    (hφ : φ (s'.at i) ↔ φ (s.at i) ∨ φ (s.at (i + 1))) :
    (∃ a < s'.channel, φ (s'.at a)) ↔ ∃ a < s.channel, φ (s.at a) := by
  have hin := h.inside
  have hch := h.channel
  constructor
  · rintro ⟨a, ha, hp⟩
    rcases Nat.lt_trichotomy a i with hlt | rfl | hgt
    · exact ⟨a, by omega, h.below a hlt ▸ hp⟩
    · rcases hφ.mp hp with hp | hp
      · exact ⟨a, by omega, hp⟩
      · exact ⟨a + 1, hin, hp⟩
    · exact ⟨a + 1, by omega, h.above a hgt ha ▸ hp⟩
  · rintro ⟨a, ha, hp⟩
    rcases Nat.lt_trichotomy a i with hlt | rfl | hgt
    · exact ⟨a, by omega, (h.below a hlt).symm ▸ hp⟩
    · exact ⟨a, by omega, hφ.mpr (.inl hp)⟩
    · by_cases hnext : a = i + 1
      · exact ⟨i, by omega, hφ.mpr (.inr (hnext ▸ hp))⟩
      · refine ⟨a - 1, by omega, ?_⟩
        rw [h.above (a - 1) (by omega) (by omega), Nat.sub_add_cancel (by omega)]
        exact hp

theorem Merged.sameMeaning (h : Merged s s' i) : SameMeaning s s' := by
  refine ⟨fun t => h.exists_iff (fun p => p.hTime = t) ?_,
    fun t b => h.exists_iff (fun p => p.hTime = t ∧ hasBit p.gpioClear b = true) ?_,
    fun t b => h.exists_iff (fun p => p.hTime = t ∧ hasBit p.gpioSet b = true) ?_⟩
  · rw [h.hTime, h.same, or_self]
  · rw [h.hTime, h.same, h.clear, hasBit_or, Bool.or_eq_true]
    exact and_or_left
  · rw [h.hTime, h.same, h.set, hasBit_or, Bool.or_eq_true]
    exact and_or_left

theorem Merged.sorted (h : Merged s s' i) (hs : SortedTo s.channel s) :
    SortedTo s'.channel s' := by
  have hch := h.channel
  intro a b hab hb
  by_cases hbi : b ≤ i
  · rw [h.hTime_le (by omega), h.hTime_le hbi]
    exact hs a b hab (by omega)
  · rw [h.above b (by omega) hb]
    by_cases hai : a ≤ i
    · rw [h.hTime_le hai]
      exact hs a (b + 1) (by omega) (by omega)
    · rw [h.above a (by omega) (by omega)]
      exact hs (a + 1) (b + 1) (by omega) (by omega)

theorem Merged.strict (h : Merged s s' i) (hs : StrictFrom (i + 1) s) : StrictFrom i s' := by
  have hch := h.channel
  intro a b ha hab hb
  rw [h.above b (by omega) hb]
  by_cases hai : a = i
  · rw [hai, h.hTime, ← h.same]
    exact hs (i + 1) (b + 1) (by omega) (by omega) (by omega)
  · rw [h.above a (by omega) (by omega)]
    exact hs (a + 1) (b + 1) (by omega) (by omega) (by omega)

end

theorem wp_merge {s : Schedule} {i : Nat} (hs : s.Full) (hc : s.channel ≤ pwmChannelMax + 1)
    (hi : i + 1 < s.channel) (heq : (s.at (i + 1)).hTime = (s.at i).hTime)
    {Q : Unit → Schedule → Prop} {rest : Build Unit}
    (hrest : ∀ s', s'.Full → Merged s s' i → wp rest Q s') :
    wp (do
      store i { (← peek i) with gpioSet := (← peek i).gpioSet ||| (s.at (i + 1)).gpioSet }
      store i { (← peek i) with gpioClear := (← peek i).gpioClear ||| (s.at (i + 1)).gpioClear }
      moveDown (i + 2)
      storeCount ((← count) - 1)
      rest) Q s := by
  refine wp_bind (wp_peek (wp_bind (wp_peek (wp_bind (wp_store ?_)))))
  refine wp_bind (wp_peek (wp_bind (wp_peek (wp_bind (wp_store (wp_bind ?_))))))
  have hat : ∀ m, ((s.put i { s.at i with
        gpioSet := (s.at i).gpioSet ||| (s.at (i + 1)).gpioSet }).put i
      { (s.put i { s.at i with
          gpioSet := (s.at i).gpioSet ||| (s.at (i + 1)).gpioSet }).at i with
        gpioClear := ((s.put i { s.at i with
          gpioSet := (s.at i).gpioSet ||| (s.at (i + 1)).gpioSet }).at i).gpioClear |||
            (s.at (i + 1)).gpioClear }).at m =
      if m = i then ⟨(s.at i).gpioSet ||| (s.at (i + 1)).gpioSet,
        (s.at i).gpioClear ||| (s.at (i + 1)).gpioClear, (s.at i).hTime⟩ else s.at m := by
    intro m
    rw [put_at hs.put (by omega), put_at hs (by omega), put_at hs (by omega), if_pos rfl]
    split <;> rfl
  refine wp_mono (wp_moveDown hs.put.put hc (by omega) hi) ?_
  rintro _ t ⟨hfull, hch, hmoved⟩
  refine wp_bind (wp_count (wp_bind (wp_storeCount (hrest _ hfull ?_))))
  have hnew : t.at i = ⟨(s.at i).gpioSet ||| (s.at (i + 1)).gpioSet,
      (s.at i).gpioClear ||| (s.at (i + 1)).gpioClear, (s.at i).hTime⟩ := by
    rw [hmoved i, if_neg (by omega), hat i, if_pos rfl]
  have hcount : ({ t with channel := t.channel - 1 } : Schedule).channel = s.channel - 1 := by
    rw [← show t.channel = s.channel from hch]
  refine ⟨heq, hi, hcount, ?_, ?_, ?_, fun m hm => ?_, fun m hm hlt => ?_⟩
  · change (t.at i).hTime = _
    rw [hnew]
  · change (t.at i).gpioSet = _
    rw [hnew]
  · change (t.at i).gpioClear = _
    rw [hnew]
  · change t.at m = s.at m
    rw [hmoved m, if_neg (by omega), hat m, if_neg (by omega)]
  · change t.at m = s.at (m + 1)
    rw [hcount] at hlt
    rw [hmoved m, if_pos ⟨by omega, by rw [put_channel, put_channel]; omega⟩, hat (m + 1),
      if_neg (by omega)]

theorem wp_combine {s : Schedule} {i : Nat} (hs : s.Full) (hc : s.channel ≤ pwmChannelMax + 1)
    (hi : i < s.channel) (hsorted : SortedTo s.channel s) (hstrict : StrictFrom i s) :
    wp (combine i) (fun _ s' => s'.Full ∧ 0 < s'.channel ∧ s'.channel ≤ pwmChannelMax + 1 ∧
      StrictFrom 0 s' ∧ SameMeaning s s') s := by
  induction i generalizing s with
  | zero =>
    exact wp_pure ⟨hs, hi, hc, hstrict, ⟨fun _ => Iff.rfl, fun _ _ => Iff.rfl, fun _ _ => Iff.rfl⟩⟩
  | succ i ih =>
    refine wp_bind (wp_peek (wp_bind (wp_peek ?_)))
    split
    · rename_i heq
      refine wp_merge hs hc hi heq fun s' hfull hm => ?_
      have hch := hm.channel
      refine wp_mono (ih hfull (by omega) (by omega) (hm.sorted hsorted) (hm.strict hstrict)) ?_
      rintro _ s'' ⟨hfull', hpos, hle, hstrict', hsame⟩
      exact ⟨hfull', hpos, hle, hstrict', hm.sameMeaning.trans hsame⟩
    · rename_i hne
      refine ih hs hc (by omega) hsorted fun a b ha hab hb => ?_
      by_cases hai : a = i
      · -- the entries at i and i + 1 are sorted and differ
        have hlt : (s.at i).hTime < (s.at (i + 1)).hTime :=
          UInt32.lt_of_le_of_ne (hsorted i (i + 1) (by omega) hi) (Ne.symm hne)
        rw [hai]
        by_cases hbi : b = i + 1
        · rw [hbi]
          exact hlt
        · exact UInt32.lt_trans hlt (hstrict (i + 1) b (by omega) (by omega) hb)
      · exact hstrict a b (by omega) hab hb

theorem wp_toDeltas {s : Schedule} {i : Nat} (hs : s.Full) (hi : i ≤ pwmChannelMax) :
    wp (toDeltas i) (fun _ s' => s'.Full ∧ s'.channel = s.channel ∧ ∀ m, s'.at m =
      if 0 < m ∧ m ≤ i then
        { s.at m with hTime := (s.at m).hTime - (s.at (m - 1)).hTime }
      else s.at m) s := by
  induction i generalizing s with
  | zero => exact wp_pure ⟨hs, rfl, fun m => by rw [if_neg (by omega)]⟩
  | succ i ih =>
    refine wp_bind (wp_peek (wp_bind (wp_peek (wp_bind (wp_store ?_)))))
    refine wp_mono (ih hs.put (by omega)) ?_
    rintro _ s' ⟨hfull, hch, hat⟩
    refine ⟨hfull, hch, fun m => ?_⟩
    rw [hat m, put_at hs hi, put_at hs hi]
    by_cases hm : m = i + 1
    · rw [if_neg (by omega), if_pos hm, if_pos (by omega), hm, Nat.add_sub_cancel]
    · rw [if_neg hm]
      by_cases hin : 0 < m ∧ m ≤ i
      · rw [if_pos hin, if_neg (by omega), if_pos (by omega)]
      · rw [if_neg hin, if_neg (by omega)]

/-- The last three steps: `off` entries of time 0 are dropped from the front. -/
structure Final (s s' : Schedule) (off : Nat) : Prop where
  channel : s'.channel + off = s.channel
  pos : 0 < s'.channel
  zero : (off = 0 ∧ (s.at 0).hTime ≠ 0) ∨ (off = 1 ∧ (s.at 0).hTime = 0)
  first : (s'.at 0).hTime = (s.at off).hTime
  next : ∀ k, k + 1 < s'.channel →
    (s'.at (k + 1)).hTime = (s.at (k + 1 + off)).hTime - (s.at (k + off)).hTime
  inner : ∀ k, k + 1 < s'.channel → (s'.at k).gpioSet = (s.at (k + off)).gpioSet ∧
    (s'.at k).gpioClear = (s.at (k + off)).gpioClear
  last : (s'.at (s'.channel - 1)).gpioSet =
      (if off = 0 then (s.at (s.channel - 1)).gpioSet
      else (s.at (s.channel - 1)).gpioSet &&& ~~~ (s.at 0).gpioClear) ∧
    (s'.at (s'.channel - 1)).gpioClear = if off = 0 then 0 else (s.at 0).gpioClear

/-- Steps 4 to 6 of `pwm_start`. -/
def finish : Build Unit := do
  toDeltas ((← count) - 1)
  let last := (← count) - 1
  store last { (← peek last) with gpioClear := 0 }
  dropZero

theorem wp_dropZero {s : Schedule} (hs : s.Full) (hc : s.channel ≤ pwmChannelMax + 1)
    (hmany : (s.at 0).hTime = 0 → 1 < s.channel) :
    wp dropZero (fun _ s' => s'.Full ∧ if (s.at 0).hTime = 0 then
        s'.channel = s.channel - 1 ∧ ∀ m, m + 1 < s.channel → s'.at m =
          if m + 1 = s.channel - 1 then { s.at (m + 1) with
            gpioSet := (s.at (m + 1)).gpioSet &&& ~~~ (s.at 0).gpioClear
            gpioClear := (s.at (m + 1)).gpioClear ||| (s.at 0).gpioClear }
          else s.at (m + 1)
      else s' = s) s := by
  refine wp_bind (wp_peek ?_)
  split
  · rename_i h0
    have hlast := hmany h0
    refine wp_bind (wp_count (wp_bind (wp_peek (wp_bind (wp_peek (wp_bind (wp_store ?_)))))))
    refine wp_bind (wp_peek (wp_bind (wp_peek (wp_bind (wp_store (wp_bind ?_))))))
    refine wp_mono (wp_moveDown hs.put.put hc Nat.one_pos
      (by rw [put_channel, put_channel]; omega)) ?_
    rintro _ t ⟨hfull, hch, hat⟩
    have hch' : t.channel = s.channel := hch
    refine wp_bind (wp_count (wp_storeCount ⟨hfull, by rw [← hch'], fun m hm => ?_⟩))
    change t.at m = _
    rw [hat m, if_pos ⟨by omega, by rw [put_channel, put_channel]; exact hm⟩,
      put_at hs.put (by omega), put_at hs (by omega), put_at hs (by omega), if_pos rfl]
    by_cases hml : m + 1 = s.channel - 1
    · rw [if_pos hml, if_pos hml, hml]
    · rw [if_neg hml, if_neg hml, if_neg hml]
  · rename_i h0
    exact wp_pure ⟨hs, rfl⟩

theorem wp_finish {s : Schedule} (hs : s.Full) (hpos : 0 < s.channel)
    (hc : s.channel ≤ pwmChannelMax + 1) (hperiod : (s.at (s.channel - 1)).hTime ≠ 0) :
    wp finish (fun _ s' => s'.Full ∧ ∃ off, Final s s' off) s := by
  refine wp_bind (wp_count (wp_bind (wp_mono (wp_toDeltas hs (by omega)) ?_)))
  rintro _ t ⟨hfull, hch, hat⟩
  refine wp_bind (wp_count (wp_bind (wp_peek (wp_bind (wp_store ?_)))))
  obtain ⟨u, hu⟩ : ∃ u, u = t.put (t.channel - 1) { t.at (t.channel - 1) with gpioClear := 0 } :=
    ⟨_, rfl⟩
  rw [← hu]
  have hufull : u.Full := hu ▸ hfull.put
  have huch : u.channel = s.channel := hu ▸ hch
  have hu' : ∀ m, u.at m =
      if m = s.channel - 1 then { t.at m with gpioClear := 0 } else t.at m := by
    intro m
    rw [hu, put_at hfull (by omega), hch]
    split
    · rename_i hm
      rw [hm]
    · rfl
  have htime : ∀ m, (u.at m).hTime = if 0 < m ∧ m ≤ s.channel - 1 then
      (s.at m).hTime - (s.at (m - 1)).hTime else (s.at m).hTime := by
    intro m
    rw [hu' m, hat m]
    split <;> split <;> rfl
  have hset : ∀ m, (u.at m).gpioSet = (s.at m).gpioSet := by
    intro m
    rw [hu' m, hat m]
    split <;> split <;> rfl
  have hclear : ∀ m, (u.at m).gpioClear =
      if m = s.channel - 1 then 0 else (s.at m).gpioClear := by
    intro m
    rw [hu' m, hat m]
    split
    · rfl
    · split <;> rfl
  have hfirst : (u.at 0).hTime = (s.at 0).hTime := by rw [htime, if_neg (by omega)]
  have hmany : (u.at 0).hTime = 0 → 1 < u.channel := by
    intro h0
    rw [hfirst] at h0
    by_contra hone
    rw [show s.channel - 1 = 0 by omega] at hperiod
    exact hperiod h0
  refine wp_mono (wp_dropZero hufull (by omega) hmany) ?_
  rintro _ s' ⟨hfull', hs'⟩
  refine ⟨hfull', ?_⟩
  rw [hfirst] at hs'
  split at hs'
  · rename_i h0
    obtain ⟨hch', hat'⟩ := hs'
    rw [huch] at hch' hat'
    have h1 : 1 < s.channel := huch ▸ hmany (hfirst.trans h0)
    have htime' : ∀ m, m + 1 < s.channel →
        (s'.at m).hTime = (s.at (m + 1)).hTime - (s.at m).hTime := by
      intro m hm
      have hm' : (s'.at m).hTime = (u.at (m + 1)).hTime := by
        rw [hat' m hm]
        split <;> rfl
      rw [hm', htime, if_pos (by omega), Nat.add_sub_cancel]
    have hlast : s'.at (s'.channel - 1) = { u.at (s.channel - 1) with
        gpioSet := (u.at (s.channel - 1)).gpioSet &&& ~~~ (u.at 0).gpioClear
        gpioClear := (u.at (s.channel - 1)).gpioClear ||| (u.at 0).gpioClear } := by
      rw [hat' (s'.channel - 1) (by omega), if_pos (by omega),
        show s'.channel - 1 + 1 = s.channel - 1 by omega]
    have hzero : (u.at 0).gpioClear = (s.at 0).gpioClear := by rw [hclear, if_neg (by omega)]
    refine ⟨1, by omega, by omega, .inr ⟨rfl, h0⟩, ?_, fun k hk => htime' (k + 1) (by omega),
      fun k hk => ?_, ?_, ?_⟩
    · rw [htime' 0 (by omega), h0, UInt32.sub_zero]
    · rw [hat' k (by omega), if_neg (by omega), hset, hclear, if_neg (by omega)]
      exact ⟨rfl, rfl⟩
    · rw [hlast, if_neg Nat.one_ne_zero, hzero, hset]
    · rw [hlast, if_neg Nat.one_ne_zero, hzero, hclear, if_pos rfl, UInt16.zero_or]
  · rename_i h0
    subst hs'
    refine ⟨0, huch, by omega, .inl ⟨rfl, h0⟩, hfirst, fun k hk => ?_, fun k hk => ?_, ?_, ?_⟩
    · rw [htime, if_pos (by omega), Nat.add_sub_cancel]
      rfl
    · rw [hset, hclear, if_neg (by omega)]
      exact ⟨rfl, rfl⟩
    · rw [huch, hset, if_pos rfl]
    · rw [huch, hclear, if_pos rfl, if_pos rfl]

/-! The times and pins of the channels. -/

def PwmConfig.ticks (c : PwmConfig) (i : Nat) : UInt32 :=
  usToRtcTimerTicks (c.period * .ofNat (c.duty.getD i 0) / .ofNat pwmDepth)

def PwmConfig.periodTicks (c : PwmConfig) : UInt32 := usToRtcTimerTicks c.period

theorem usToRtcTimerTicks_toNat {t : UInt32} (h : t.toNat ≤ pwm1s) :
    (usToRtcTimerTicks t).toNat = 5 * t.toNat := by
  have hclk : apbClkFreq >>> 4 = 5000000 := by decide
  simp only [pwm1s] at h
  unfold usToRtcTimerTicks
  rw [hclk]
  split
  · rename_i h0
    rw [h0]
    rfl
  · split
    · have hshift : (t >>> 2).toNat = t.toNat / 4 := by
        rw [UInt32.toNat_shiftRight, Nat.shiftRight_eq_div_pow]
        rfl
      have hand : (t &&& 3).toNat = t.toNat % 4 := by
        rw [UInt32.toNat_and]
        exact Nat.and_two_pow_sub_one_eq_mod t.toNat 2
      rw [UInt32.toNat_add, UInt32.toNat_mul, UInt32.toNat_mul, hshift, hand,
        show ((5000000 : UInt32) / 250000).toNat = 20 by decide,
        show ((5000000 : UInt32) / 1000000).toNat = 5 by decide]
      omega
    · rename_i hle
      have hle' : t.toNat ≤ 858 := UInt32.le_iff_toNat_le.mp (UInt32.not_lt.mp hle)
      rw [UInt32.toNat_div, UInt32.toNat_mul, show (5000000 : UInt32).toNat = 5000000 by decide,
        show (1000000 : UInt32).toNat = 1000000 by decide]
      omega

theorem PwmConfig.period_toNat (c : PwmConfig) :
    c.period.toNat = pwm1s / c.freq ∧ 1000 ≤ c.period.toNat ∧ c.period.toNat ≤ pwm1s := by
  have hpos := c.freq_pos
  have hle := c.freq_le
  have hup : pwm1s / c.freq ≤ pwm1s := Nat.div_le_self _ _
  have hlo : 1000 ≤ pwm1s / c.freq := by
    rw [Nat.le_div_iff_mul_le (by omega)]
    simp only [pwm1s, pwmFreqMax] at *
    omega
  have heq : c.period.toNat = pwm1s / c.freq := by
    rw [PwmConfig.period, UInt32.toNat_ofNat']
    exact Nat.mod_eq_of_lt (by simp only [pwm1s] at *; omega)
  rw [heq]
  exact ⟨rfl, hlo, hup⟩

theorem PwmConfig.duty_getD (c : PwmConfig) (i : Nat) : c.duty.getD i 0 ≤ pwmDepth := by
  rw [List.getD_eq_getElem?_getD]
  cases h : c.duty[i]? with
  | none => exact Nat.zero_le _
  | some d => exact c.duty_le d (List.mem_of_getElem? h)

theorem PwmConfig.ticks_toNat (c : PwmConfig) (i : Nat) :
    (c.ticks i).toNat = 5 * (c.period.toNat * c.duty.getD i 0 / pwmDepth) ∧
      (c.periodTicks).toNat = 5 * c.period.toNat := by
  obtain ⟨-, -, hle⟩ := c.period_toNat
  have hduty := c.duty_getD i
  have hd : (UInt32.ofNat (c.duty.getD i 0)).toNat = c.duty.getD i 0 := by
    rw [UInt32.toNat_ofNat']
    exact Nat.mod_eq_of_lt (by simp only [pwmDepth] at hduty; omega)
  have hprod : c.period.toNat * c.duty.getD i 0 ≤ pwm1s * pwmDepth := Nat.mul_le_mul hle hduty
  have hus : (c.period * .ofNat (c.duty.getD i 0) / .ofNat pwmDepth).toNat =
      c.period.toNat * c.duty.getD i 0 / pwmDepth := by
    rw [UInt32.toNat_div, UInt32.toNat_mul, hd, Nat.mod_eq_of_lt]
    · rfl
    · simp only [pwm1s, pwmDepth] at hprod
      omega
  refine ⟨?_, usToRtcTimerTicks_toNat hle⟩
  rw [PwmConfig.ticks, usToRtcTimerTicks_toNat, hus]
  rw [hus]
  exact Nat.div_le_of_le_mul (by rw [Nat.mul_comm pwmDepth]; exact hprod)

theorem PwmConfig.ticks_le (c : PwmConfig) (i : Nat) : c.ticks i ≤ c.periodTicks := by
  obtain ⟨ht, hp⟩ := c.ticks_toNat i
  rw [UInt32.le_iff_toNat_le, ht, hp]
  have hdiv : c.period.toNat * c.duty.getD i 0 / pwmDepth ≤ c.period.toNat :=
    Nat.div_le_of_le_mul (by
      rw [Nat.mul_comm]
      exact Nat.mul_le_mul_right _ (c.duty_getD i))
  omega

theorem PwmConfig.periodTicks_ne (c : PwmConfig) : c.periodTicks ≠ 0 := by
  intro h
  have hp := (c.ticks_toNat 0).2
  have hlo := c.period_toNat.2.1
  rw [h] at hp
  simp only [UInt32.toNat_zero] at hp
  omega

/-! The stores of step 1. -/

theorem PwmConfig.channels_le' (c : PwmConfig) : c.pwmChannelNum ≤ pwmChannelMax := c.channels_le

/-- Step 1 makes the entry of a channel anew. -/
def PwmConfig.entry (c : PwmConfig) (i : Nat) : PwmSingleParam :=
  ⟨0, pinBit (c.pwmOutIoNum.getD i 0), c.ticks i⟩

theorem wp_initParams (c : PwmConfig) {s : Schedule} (hs : s.Full) :
    wp (initParams c) (fun _ s' => s'.Full ∧ s'.channel = s.channel ∧
      (∀ i < c.pwmChannelNum, s'.at i = c.entry i) ∧
      s'.at c.pwmChannelNum = ⟨c.pwmGpio, 0, c.periodTicks⟩) s := by
  have hn := c.channels_le'
  unfold initParams
  rw [List.range_eq_range']
  refine wp_seq (wp_range (fun k s' => s'.Full ∧ s'.channel = s.channel ∧
    ∀ i < k, s'.at i = c.entry i) ?_ ⟨hs, rfl, fun i h => absurd h (Nat.not_lt_zero i)⟩) ?_
  · rintro k hk t ⟨hfull, hch, hat⟩
    refine wp_bind (wp_peek (wp_bind (wp_store (wp_bind (wp_peek (wp_bind (wp_store ?_)))))))
    refine wp_bind (wp_peek (wp_store ⟨hfull.put.put.put, hch, fun i hi => ?_⟩))
    rw [put_at hfull.put.put (by omega)]
    split
    · rename_i hik
      rw [put_at hfull.put (by omega), if_pos rfl, put_at hfull (by omega), if_pos rfl]
      rw [PwmConfig.entry, PwmConfig.ticks, hik, Nat.zero_add]
    · rename_i hik
      rw [put_at hfull.put (by omega), if_neg hik, put_at hfull (by omega), if_neg hik]
      exact hat i (by omega)
  · rintro _ t ⟨hfull, hch, hat⟩
    refine wp_bind (wp_peek (wp_bind (wp_store (wp_bind (wp_peek (wp_bind (wp_store ?_)))))))
    refine wp_bind (wp_peek (wp_store ⟨hfull.put.put.put, hch, fun i hi => ?_, ?_⟩))
    · rw [put_at hfull.put.put hn, if_neg (by omega), put_at hfull.put hn, if_neg (by omega),
        put_at hfull hn, if_neg (by omega)]
      exact hat i hi
    · rw [put_at hfull.put.put hn, if_pos rfl, put_at hfull.put hn, if_pos rfl, put_at hfull hn,
        if_pos rfl]
      rfl

/-- What the entries of step 1 say. -/
structure Means (c : PwmConfig) (s : Schedule) : Prop where
  times : ∀ h, HasTime s h ↔ h = c.periodTicks ∨ ∃ i < c.pwmChannelNum, c.ticks i = h
  clears : ∀ h b, Clears s h b ↔ ∃ i < c.pwmChannelNum, c.ticks i = h ∧
    hasBit (pinBit (c.pwmOutIoNum.getD i 0)) b = true
  sets : ∀ h b, Sets s h b ↔ h = c.periodTicks ∧ hasBit c.pwmGpio b = true

theorem Means.of_same {c : PwmConfig} {s s' : Schedule} (h : Means c s) (hs : SameMeaning s s') :
    Means c s' :=
  ⟨fun t => (hs.times t).trans (h.times t), fun t b => (hs.clears t b).trans (h.clears t b),
    fun t b => (hs.sets t b).trans (h.sets t b)⟩

theorem means_of_entries {c : PwmConfig} {s s' : Schedule} (hch : s'.channel = c.pwmChannelNum + 1)
    (hat : ∀ i < c.pwmChannelNum, s.at i = c.entry i)
    (hlast : s.at c.pwmChannelNum = ⟨c.pwmGpio, 0, c.periodTicks⟩)
    (hsame : SameEntries (c.pwmChannelNum + 1) s s') : Means c s' := by
  have hiff : ∀ φ : PwmSingleParam → Prop, (∃ a < s'.channel, φ (s'.at a)) ↔
      φ ⟨c.pwmGpio, 0, c.periodTicks⟩ ∨ ∃ i < c.pwmChannelNum, φ (c.entry i) := by
    intro φ
    rw [hch, hsame φ]
    constructor
    · rintro ⟨i, hi, hp⟩
      by_cases hin : i < c.pwmChannelNum
      · exact .inr ⟨i, hin, hat i hin ▸ hp⟩
      · rw [show i = c.pwmChannelNum by omega, hlast] at hp
        exact .inl hp
    · rintro (hp | ⟨i, hi, hp⟩)
      · exact ⟨c.pwmChannelNum, by omega, hlast.symm ▸ hp⟩
      · exact ⟨i, by omega, (hat i hi).symm ▸ hp⟩
  refine ⟨fun h => (hiff (fun p => p.hTime = h)).trans (or_congr_left eq_comm), fun h b => ?_,
    fun h b => ?_⟩
  · refine (hiff (fun p => p.hTime = h ∧ hasBit p.gpioClear b = true)).trans ?_
    simp [PwmConfig.entry]
  · refine (hiff (fun p => p.hTime = h ∧ hasBit p.gpioSet b = true)).trans ?_
    rw [eq_comm (a := h)]
    simp [PwmConfig.entry]

theorem Means.le {c : PwmConfig} {s : Schedule} (h : Means c s) {a : Nat} (ha : a < s.channel) :
    (s.at a).hTime ≤ c.periodTicks := by
  rcases (h.times _).mp ⟨a, ha, rfl⟩ with hp | ⟨i, -, hi⟩
  · exact hp ▸ UInt32.le_refl _
  · exact hi ▸ c.ticks_le i

theorem Means.last {c : PwmConfig} {s : Schedule} (h : Means c s) (hs : StrictFrom 0 s) :
    (s.at (s.channel - 1)).hTime = c.periodTicks := by
  obtain ⟨a, ha, hp⟩ := (h.times c.periodTicks).mpr (.inl rfl)
  by_cases hlast : a = s.channel - 1
  · rwa [← hlast]
  · have hlt := hs a (s.channel - 1) (Nat.zero_le a) (by omega) (by omega)
    rw [hp] at hlt
    exact absurd (h.le (by omega)) (UInt32.not_le.mpr hlt)

/-- The table of `pwm_start`: the entries of one time are one, and `Final` makes it of them. -/
theorem wp_buildSchedule (c : PwmConfig) {s : Schedule} (hs : s.Full) :
    wp (buildSchedule c) (fun _ s' => s'.Full ∧ ∃ mid off, StrictFrom 0 mid ∧ Means c mid ∧
      mid.channel ≤ pwmChannelMax + 1 ∧ Final mid s' off) s := by
  have hn := c.channels_le'
  unfold buildSchedule
  refine wp_seq (wp_initParams c hs) ?_
  rintro _ s₁ ⟨hfull₁, -, hat, hlast⟩
  refine wp_seq (wp_pwmInsertSort hfull₁ (by omega) (Nat.succ_pos _)) ?_
  rintro _ s₂ ⟨hfull₂, -, hsorted, hsame⟩
  refine wp_bind (wp_storeCount ?_)
  have hmeans := @means_of_entries c s₁ { s₂ with channel := c.pwmChannelNum + 1 } rfl hat hlast
    hsame
  refine wp_seq (wp_combine hfull₂ (by simpa using hn) (Nat.lt_succ_self _) hsorted ?_) ?_
  · intro a b ha hab hb
    exact absurd hab (by simp only at hb; omega)
  rintro _ mid ⟨hfull, hpos, hle, hstrict, hmid⟩
  have hm := hmeans.of_same hmid
  refine wp_mono (wp_finish hfull hpos hle ?_) ?_
  · rw [hm.last hstrict]
    exact c.periodTicks_ne
  · rintro _ s' ⟨hfull', off, hfinal⟩
    exact ⟨hfull', mid, off, hstrict, hm, hle, hfinal⟩

end Esp32Project.Esp8266
