import Esp32Project.Lib.Range
import Esp32Project.Partition.Table

/-! What the table holds after a partition has been added. -/

set_option autoImplicit false

namespace Esp32Project.Partition
open Esp32Project.Lib

/-- The partitions: the entries in front of the first one without the magic. -/
def Table.entries (t : Table) : List Slot := t.slots.takeWhile Slot.used

def Table.Contiguous (t : Table) : Prop := ∀ s ∈ t.slots.drop t.entries.length, s.used = false

instance (t : Table) : Decidable t.Contiguous :=
  inferInstanceAs (Decidable (∀ s ∈ _, _))

/-- The end of a partition, and what the code has for it. -/
def Slot.stop (s : Slot) : Nat := s.offset.toNat + s.size.toNat

def Slot.stop32 (s : Slot) : BitVec 32 := s.offset + s.size

def Slot.Disjoint (s s' : Slot) : Prop :=
  s.size = 0 ∨ Apart s.offset.toNat s.size.toNat s'.offset.toNat s'.size.toNat

instance (s s' : Slot) : Decidable (s.Disjoint s') :=
  inferInstanceAs (Decidable (_ ∨ Apart _ _ _ _))

/-- The table `t'` has one partition more than `t`, in a free part of the flash. -/
def Grown (flashSize : BitVec 32) (t t' : Table) : Prop :=
  ∃ new, t'.entries = t.entries ++ [new] ∧ new.size ≠ 0 ∧ new.stop ≤ flashSize.toNat ∧
    ∀ s ∈ t.entries, s.Disjoint new

/-- When no SPIFFS partition is found and one is added, the table has grown. -/
def Grows (e : Env) (t : Table) : Prop :=
  ∀ info next, scan e t 128 0 e.stack 0 = .free info next →
    (getSpiffsPartition e t).1 = true → Grown e.flashSize t (getSpiffsPartition e t).2.2

/-- `platform_partition_add` returns true if and only if the entry is there. -/
def AddReported (e : Env) (t : Table) (info : Info) : Prop :=
  (platformPartitionAdd e t info).1 = true ↔
    (platformPartitionAdd e t info).2.entries = t.entries ++ [info.slot]

/-! The conditions, on the table and on what fails. -/

/-- The partitions in front of the first failed read, 127 at most. -/
def seenFrom (e : Env) : Nat → List Slot → List Slot
  | _, [] => []
  | i, s :: rest =>
    if possibleIdx i && !e.readFails i && s.used then s :: seenFrom e (i + 1) rest else []

def seen (e : Env) (t : Table) : List Slot := seenFrom e 0 t.slots

/-- The partitions seen reach the end of the flash, and not past it. -/
def Filled (e : Env) (t : Table) : Prop :=
  (∀ s ∈ seen e t, s.stop32 ≤ e.flashSize) ∧
    (e.flashSize = 0 ∨ ∃ s ∈ seen e t, s.stop32 = e.flashSize)

/-- No partition seen ends past the flash, and none in the flash ends behind all
that are seen. -/
def Fits (e : Env) (t : Table) : Prop :=
  (∀ s ∈ seen e t, s.stop32 ≤ e.flashSize) ∧
    ∀ s ∈ t.entries, s.size ≠ 0 → s.offset < e.flashSize →
      ∃ s' ∈ seen e t, s.stop ≤ s'.stop32.toNat

/-- Whenever the code comes to add a partition there is a free entry, and when
it writes the table the partition fits. -/
def Room (e : Env) (t : Table) : Prop :=
  (∀ s ∈ seen e t, s.info.isSpiffs = false) → e.malloc = true → e.tableReadFails = false →
    ¬ Filled e t → t.entries.length < 127 ∧
      (e.eraseLeaves = none → e.writeLeaves = none → Fits e t)

/-- There is a free entry, and no failure leaves the entry behind all the same. -/
def AddRoom (e : Env) (t : Table) (info : Info) : Prop :=
  e.malloc = true → e.tableReadFails = false →
    t.entries.length < 127 ∧
      (∀ left, e.eraseLeaves = some left → left.entries ≠ t.entries ++ [info.slot]) ∧
      (∀ left, e.eraseLeaves = none → e.writeLeaves = some left →
        left.entries ≠ t.entries ++ [info.slot])

/-! The first free entry. -/

section

variable {e : Env} {t : Table}

theorem takeWhile_getElem_iff {α : Type} {p : α → Bool} {l : List α} {i : Nat} {a : α}
    (hi : i ≤ (l.takeWhile p).length) (ha : l[i]? = some a) :
    p a = true ↔ i < (l.takeWhile p).length := by
  induction l generalizing i with
  | nil => simp at ha
  | cons b l ih =>
    cases i with
    | zero =>
      cases ha
      cases hp : p a <;> simp [hp]
    | succ i =>
      cases hp : p b with
      | false => simp [hp] at hi
      | true =>
        simp only [List.takeWhile_cons, hp, if_true, List.length_cons] at hi ⊢
        rw [ih (Nat.le_of_succ_le_succ hi) ha, Nat.succ_lt_succ_iff]

theorem possibleIdx_iff {i : Nat} : possibleIdx i = true ↔ i < 127 := by
  unfold possibleIdx infoSize secSize
  rw [decide_eq_true_eq]
  omega

theorem magic_iff {i : Nat} {s : Slot} (hi : i ≤ t.entries.length) (hs : t.slots[i]? = some s) :
    s.magic = partitionMagic ↔ i < t.entries.length := by
  rw [Table.entries, ← takeWhile_getElem_iff hi hs, Slot.used, beq_iff_eq]

theorem slot_of_lt {i : Nat} (hi : i < 128) : ∃ s, t.slots[i]? = some s :=
  ⟨_, List.getElem?_eq_getElem (t.full ▸ hi)⟩

theorem freeIdx_eq {n i : Nat} (hn : i + n = 128) (hi : i ≤ t.entries.length) (h127 : i ≤ 127) :
    freeIdx t n i = min 127 t.entries.length := by
  induction n generalizing i with
  | zero => omega
  | succ n ih =>
    unfold freeIdx
    by_cases hp : possibleIdx i = true
    · have hlt := possibleIdx_iff.mp hp
      obtain ⟨s, hs⟩ := slot_of_lt (t := t) (i := i) (by omega)
      have hm := magic_iff hi hs
      simp only [hp, if_true, hs]
      by_cases hmagic : s.magic = partitionMagic
      · rw [if_neg (not_not.mpr hmagic)]
        exact ih (by omega) (hm.mp hmagic) (by omega)
      · rw [if_pos hmagic]
        have := mt hm.mpr hmagic
        omega
    · rw [if_neg hp]
      have := mt possibleIdx_iff.mpr hp
      omega

theorem freeIdx_start (t : Table) : freeIdx t 128 0 = min 127 t.entries.length :=
  freeIdx_eq rfl (Nat.zero_le _) (by decide)

theorem entries_set {s : Slot} (hc : t.Contiguous) (hs : s.used = true)
    (hlen : t.entries.length < 128) : (t.set t.entries.length s).entries = t.entries ++ [s] := by
  obtain ⟨pre, hpre⟩ : ∃ pre, t.entries = pre := ⟨_, rfl⟩
  have hused : ∀ s' ∈ pre, s'.used = true := fun s' h => List.mem_takeWhile_imp (hpre ▸ h)
  have hsplit : t.slots = pre ++ t.slots.drop pre.length := by
    rw [← hpre]
    exact (List.prefix_iff_eq_append.mp (List.takeWhile_prefix _)).symm
  rw [Table.Contiguous, hpre] at hc
  rw [hpre] at hlen ⊢
  cases hrest : t.slots.drop pre.length with
  | nil =>
    have := congrArg List.length hrest
    rw [List.length_drop, t.full, List.length_nil] at this
    omega
  | cons old rest =>
    have hback : ∀ s' ∈ rest, s'.used = false :=
      fun s' h => hc s' (hrest ▸ List.mem_cons_of_mem _ h)
    have hset : (t.set pre.length s).slots = pre ++ s :: rest := by
      show t.slots.set pre.length s = pre ++ s :: rest
      rw [hsplit, hrest, List.set_append_right _ _ (Nat.le_refl _), Nat.sub_self]
      rfl
    have hnil : rest.takeWhile Slot.used = [] := by
      cases rest with
      | nil => rfl
      | cons s' _ => simp [hback s' List.mem_cons_self]
    rw [Table.entries, hset, List.takeWhile_append_of_pos hused, List.takeWhile_cons, hs,
      if_pos rfl, hnil]

/-! The call that adds. -/

theorem platformPartitionAdd_room {info : Info} (hm : e.malloc = true)
    (hr : e.tableReadFails = false) (he : e.eraseLeaves = none) (hw : e.writeLeaves = none)
    (hlen : t.entries.length < 127) :
    platformPartitionAdd e t info = (true, t.set t.entries.length info.slot) := by
  have hidx := freeIdx_start t
  rw [Nat.min_eq_right (Nat.le_of_lt hlen)] at hidx
  simp [platformPartitionAdd, hm, hr, hidx, possibleIdx_iff.mpr hlen, he, hw]

theorem platformPartitionAdd_full {info : Info} (hm : e.malloc = true)
    (hr : e.tableReadFails = false) (hlen : 127 ≤ t.entries.length) :
    platformPartitionAdd e t info = (true, t) := by
  have hidx := freeIdx_start t
  rw [Nat.min_eq_left hlen] at hidx
  have hp : possibleIdx 127 = false := rfl
  simp [platformPartitionAdd, hm, hr, hidx, hp]

theorem platformPartitionAdd_true {info : Info} (h : (platformPartitionAdd e t info).1 = true) :
    e.malloc = true ∧ e.tableReadFails = false ∧
      (t.entries.length < 127 → e.eraseLeaves = none ∧ e.writeLeaves = none) := by
  have hidx := freeIdx_start t
  unfold platformPartitionAdd at h
  split at h
  · cases h
  · split at h
    · cases h
    · rename_i hm hr
      refine ⟨by simpa using hm, by simpa using hr, fun hlen => ?_⟩
      rw [Nat.min_eq_right (Nat.le_of_lt hlen)] at hidx
      simp only [hidx, possibleIdx_iff.mpr hlen, if_true] at h
      split at h
      · cases h
      · split at h
        · cases h
        · exact ⟨‹_›, ‹_›⟩

theorem entries_ne_append (t : Table) (s : Slot) : t.entries ≠ t.entries ++ [s] := fun h => by
  have := congrArg List.length h
  rw [List.length_append, List.length_singleton] at this
  omega

theorem slot_used (info : Info) : info.slot.used = true := by
  simp [Slot.used, Info.slot]

theorem addReported_iff (hc : t.Contiguous) (info : Info) :
    AddReported e t info ↔ AddRoom e t info := by
  unfold AddReported AddRoom
  cases hm : e.malloc with
  | false => simp [platformPartitionAdd, hm]
  | true =>
    cases hr : e.tableReadFails with
    | true => simp [platformPartitionAdd, hm, hr]
    | false =>
      by_cases hlen : t.entries.length < 127
      · have hidx := freeIdx_start t
        rw [Nat.min_eq_right (Nat.le_of_lt hlen)] at hidx
        cases he : e.eraseLeaves with
        | some left => simp [platformPartitionAdd, hm, hr, hidx, possibleIdx_iff.mpr hlen, he, hlen]
        | none =>
          cases hw : e.writeLeaves with
          | some left =>
            simp [platformPartitionAdd, hm, hr, hidx, possibleIdx_iff.mpr hlen, he, hw, hlen]
          | none =>
            have hset := entries_set hc (slot_used info) (Nat.lt_trans hlen (by decide))
            simp [platformPartitionAdd_room hm hr he hw hlen, hset, hlen]
      · rw [platformPartitionAdd_full hm hr (Nat.le_of_not_lt hlen)]
        simp [hlen]

/-! The scan sees the partitions in front of the first failed read. -/

def scanSlots : List Slot → Info → BitVec 32 → Scan
  | [], info, next => .free info next
  | s :: rest, _, next =>
    if s.info.isSpiffs then .found s.info
    else scanSlots rest s.info (if s.stop32 > next then s.stop32 else next)

theorem scan_eq {n i : Nat} {info : Info} {next : BitVec 32} (hn : i + n = 128) :
    scan e t n i info next = scanSlots (seenFrom e i (t.slots.drop i)) info next := by
  induction n generalizing i info next with
  | zero =>
    rw [List.drop_eq_nil_of_le (by rw [t.full]; omega)]
    rfl
  | succ n ih =>
    obtain ⟨s, hs⟩ := slot_of_lt (t := t) (i := i) (by omega)
    have hdrop : t.slots.drop i = s :: t.slots.drop (i + 1) := by
      rw [List.drop_eq_getElem_cons (List.getElem?_eq_some_iff.mp hs).1,
        (List.getElem?_eq_some_iff.mp hs).2]
    rw [scan, hdrop, seenFrom, platformPartitionInfo, hs]
    cases possibleIdx i with
    | false => rfl
    | true =>
      cases e.readFails i with
      | true => rfl
      | false =>
        by_cases hmagic : s.magic = partitionMagic
        · have hused : s.used = true := beq_iff_eq.mpr hmagic
          simp only [hmagic, hused, scanSlots, ih (show i + 1 + n = 128 by omega), Bool.not_true,
            Bool.not_false, Bool.and_self, Bool.false_eq_true, ne_eq, not_true_eq_false, if_true,
            if_false]
          rfl
        · have hused : s.used = false := beq_eq_false_iff_ne.mpr hmagic
          simp [hmagic, hused, scanSlots]

/-- A scan that finds no SPIFFS partition ends with the largest end seen. -/
theorem scanSlots_free {l : List Slot} {info info' : Info} {next next' : BitVec 32}
    (h : scanSlots l info next = .free info' next') :
    next ≤ next' ∧ (∀ s ∈ l, s.info.isSpiffs = false ∧ s.stop32 ≤ next') ∧
      (next' = next ∨ ∃ s ∈ l, next' = s.stop32) := by
  induction l generalizing info next with
  | nil =>
    cases h
    exact ⟨BitVec.le_refl _, by simp, .inl rfl⟩
  | cons s rest ih =>
    rw [scanSlots] at h
    split at h
    · cases h
    · rename_i hs
      obtain ⟨hle, hall, hmax⟩ := ih h
      have hboth : next ≤ next' ∧ s.stop32 ≤ next' := by
        split at hle <;> constructor <;> bv_omega
      refine ⟨hboth.1, ?_, ?_⟩
      · rintro s' (_ | ⟨_, hs'⟩)
        · exact ⟨by simpa using hs, hboth.2⟩
        · exact hall s' hs'
      · rcases hmax with hmax | ⟨s', hs', hmax⟩
        · rw [hmax]
          split
          · exact .inr ⟨s, List.mem_cons_self, rfl⟩
          · exact .inl rfl
        · exact .inr ⟨s', List.mem_cons_of_mem _ hs', hmax⟩

theorem scanSlots_found {l : List Slot} (info : Info) (next : BitVec 32)
    (h : ∀ s ∈ l, s.info.isSpiffs = false) :
    ∃ info' next', scanSlots l info next = .free info' next' := by
  induction l generalizing info next with
  | nil => exact ⟨info, next, rfl⟩
  | cons s rest ih =>
    rw [scanSlots, h s List.mem_cons_self]
    exact ih _ _ fun s' hs' => h s' (List.mem_cons_of_mem _ hs')

/-- The new partition lies in the flash, behind all that were seen. -/
theorem getSpiffs_free {info : Info} {next : BitVec 32}
    (h : scan e t 128 0 e.stack 0 = .free info next) :
    getSpiffsPartition e t =
      if e.flashSize = next then (false, ⟨next, 0⟩, t)
      else ((platformPartitionAdd e t (newInfo e info next)).1, ⟨next, e.flashSize - next⟩,
        (platformPartitionAdd e t (newInfo e info next)).2) := by
  have hzero : (newInfo e info next).size ≤ 0 ↔ e.flashSize = next := by
    simp only [newInfo]
    bv_omega
  rw [getSpiffsPartition, h]
  by_cases hf : e.flashSize = next
  · rw [if_pos hf]
    dsimp only
    rw [if_pos (hzero.mpr hf), newInfo, hf, BitVec.sub_self]
    rfl
  · rw [if_neg hf]
    dsimp only
    rw [if_neg (mt hzero.mp hf)]
    rfl

theorem scan_start (info : Info) (next : BitVec 32) :
    scan e t 128 0 info next = scanSlots (seen e t) info next := scan_eq rfl

theorem filled_iff {info : Info} {next : BitVec 32}
    (h : scan e t 128 0 e.stack 0 = .free info next) : Filled e t ↔ e.flashSize = next := by
  rw [scan_start] at h
  obtain ⟨_, hall, hmax⟩ := scanSlots_free h
  constructor
  · rintro ⟨hle, hend⟩
    have hnext : next ≤ e.flashSize := by
      rcases hmax with rfl | ⟨s, hs, rfl⟩
      · bv_omega
      · exact hle s hs
    rcases hend with hzero | ⟨s, hs, hstop⟩
    · rw [hzero] at hnext ⊢
      bv_omega
    · have hback := (hall s hs).2
      rw [hstop] at hback
      exact BitVec.le_antisymm hback hnext
  · intro hf
    refine ⟨fun s hs => hf ▸ (hall s hs).2, ?_⟩
    rcases hmax with hzero | ⟨s, hs, hstop⟩
    · exact .inl (hf.trans hzero)
    · exact .inr ⟨s, hs, hstop.symm.trans hf.symm⟩

theorem grows_iff (hc : t.Contiguous) : Grows e t ↔ Room e t := by
  constructor
  · intro h hno hm hr hfill
    obtain ⟨info, next, hscan⟩ := scanSlots_found e.stack 0 hno
    rw [← scan_start] at hscan
    have hne : e.flashSize ≠ next := mt (filled_iff hscan).mpr hfill
    have hgrow := h info next hscan
    rw [getSpiffs_free hscan, if_neg hne] at hgrow
    rw [scan_start] at hscan
    obtain ⟨_, hall, hmax⟩ := scanSlots_free hscan
    have hlen : t.entries.length < 127 := by
      by_contra hfull
      rw [platformPartitionAdd_full hm hr (Nat.le_of_not_lt hfull)] at hgrow
      obtain ⟨new, hent, _⟩ := hgrow rfl
      exact entries_ne_append t new hent
    refine ⟨hlen, fun he hw => ?_⟩
    rw [platformPartitionAdd_room hm hr he hw hlen] at hgrow
    obtain ⟨new, hent, _, hstop, hdis⟩ := hgrow rfl
    rw [entries_set hc (slot_used _) (Nat.lt_trans hlen (by decide)),
      List.append_cancel_left_eq, List.singleton_inj] at hent
    subst hent
    simp only [Slot.stop, Info.slot, newInfo] at hstop
    have hfit : next ≤ e.flashSize := by bv_omega
    refine ⟨fun s hs => BitVec.le_trans (hall s hs).2 hfit, fun s hs hsize hin => ?_⟩
    rcases hdis s hs with hz | hlo | hhi
    · exact absurd hz hsize
    · simp only [Info.slot, newInfo] at hlo
      rcases hmax with rfl | ⟨s', hs', rfl⟩
      · bv_omega
      · exact ⟨s', hs', hlo⟩
    · simp only [Info.slot, newInfo] at hhi
      bv_omega
  · intro h info next hscan hok
    rw [getSpiffs_free hscan] at hok ⊢
    have hfill := (filled_iff hscan).not
    rw [scan_start] at hscan
    obtain ⟨_, hall, hmax⟩ := scanSlots_free hscan
    by_cases hne : e.flashSize = next
    · rw [if_pos hne] at hok
      cases hok
    · rw [if_neg hne] at hok ⊢
      obtain ⟨hm, hr, hfail⟩ := platformPartitionAdd_true hok
      obtain ⟨hlen, hfits⟩ := h (fun s hs => (hall s hs).1) hm hr (hfill.mpr hne)
      obtain ⟨he, hw⟩ := hfail hlen
      obtain ⟨hseen, hback⟩ := hfits he hw
      have hfit : next ≤ e.flashSize := by
        rcases hmax with rfl | ⟨s, hs, rfl⟩
        · bv_omega
        · exact hseen s hs
      rw [platformPartitionAdd_room hm hr he hw hlen]
      refine ⟨(newInfo e info next).slot,
        entries_set hc (slot_used _) (Nat.lt_trans hlen (by decide)), ?_, ?_, fun s hs => ?_⟩
      · simp only [Info.slot, newInfo]
        bv_omega
      · simp only [Slot.stop, Info.slot, newInfo]
        bv_omega
      · by_cases hsize : s.size = 0
        · exact .inl hsize
        refine .inr ?_
        simp only [Apart, Info.slot, newInfo]
        by_cases hin : s.offset < e.flashSize
        · obtain ⟨s', hs', hle⟩ := hback s hs hsize hin
          have hlast := (hall s' hs').2
          simp only [Slot.stop] at hle
          exact .inl (by bv_omega)
        · exact .inr (by bv_omega)

end

/-- Exactly when an added partition is as it should be, and the answer true. -/
theorem growth_iff (e : Env) (t : Table) (info : Info) (hc : t.Contiguous) :
    (Grows e t ↔ Room e t) ∧ (AddReported e t info ↔ AddRoom e t info) :=
  ⟨grows_iff hc, addReported_iff hc info⟩

def tableOf (partitions : List Slot) (h : partitions.length ≤ 128) : Table :=
  ⟨partitions ++ List.replicate (128 - partitions.length)
      ⟨0xFFFF, 0xFF, 0xFF, 0xFFFFFFFF, 0xFFFFFFFF, [], 0xFFFFFFFF⟩, by
    rw [List.length_append, List.length_replicate]
    omega⟩

def soundEnv : Env where
  readFails _ := false
  malloc := true
  tableReadFails := false
  eraseLeaves := none
  writeLeaves := none
  flashSize := 0x400000
  stack := ⟨[], 0, 0, 0, 0⟩

def application (offs size : BitVec 32) : Slot := ⟨partitionMagic, 0, 0, offs, size, [], 0⟩

/-- One application of 1 MiB. -/
theorem growth_iff_one :
    (Grows soundEnv (tableOf [application 0x10000 0x100000] (by decide)) ∧
      AddReported soundEnv (tableOf [application 0x10000 0x100000] (by decide))
        (application 0x110000 0x1000).info) := by
  have hc : (tableOf [application 0x10000 0x100000] (by decide)).Contiguous := by decide +kernel
  obtain ⟨hgrow, hadd⟩ := growth_iff soundEnv (tableOf [application 0x10000 0x100000] (by decide))
    (application 0x110000 0x1000).info hc
  constructor
  · refine hgrow.mpr fun _ _ _ _ => ⟨by decide +kernel, fun _ _ => ?_⟩
    unfold Fits
    decide +kernel
  · exact hadd.mpr fun _ _ => ⟨by decide +kernel, by simp [soundEnv], by simp [soundEnv]⟩

def fullTable : Table :=
  tableOf ((List.range 127).map fun i => application (.ofNat 32 (0x1000 * i)) 0x1000) (by simp)

/-- A table whose only application ends a sector behind the flash. -/
def longTable : Table := tableOf [application 0x10000 0x3F1000] (by decide)

/-- The full table is left as it is and the answer is true; behind the long one
a partition of nearly 4 GiB is added outside the flash. -/
theorem growth_wrong :
    fullTable.Contiguous ∧ fullTable.entries.Pairwise Slot.Disjoint ∧
      (getSpiffsPartition soundEnv fullTable).1 = true ∧
      (getSpiffsPartition soundEnv fullTable).2.2.entries = fullTable.entries ∧
      ¬ Grows soundEnv fullTable ∧
      ¬ AddReported soundEnv fullTable (application 0x3FF000 0x1000).info ∧
      longTable.Contiguous ∧ longTable.entries.Pairwise Slot.Disjoint ∧
      (getSpiffsPartition soundEnv longTable).1 = true ∧
      (getSpiffsPartition soundEnv longTable).2.1 = ⟨0x401000, 0xFFFFF000⟩ ∧
      ¬ Grows soundEnv longTable := by
  have hc : fullTable.Contiguous := by decide +kernel
  have hc' : longTable.Contiguous := by decide +kernel
  refine ⟨hc, by decide +kernel, by decide +kernel, by decide +kernel, fun h => ?_, fun h => ?_,
    hc', by decide +kernel, by decide +kernel, by decide +kernel, fun h => ?_⟩
  · have hroom := (grows_iff hc).mp h (by decide +kernel) rfl rfl
      (by unfold Filled; decide +kernel)
    exact absurd hroom.1 (by decide +kernel)
  · have hroom := (addReported_iff hc _).mp h rfl rfl
    exact absurd hroom.1 (by decide +kernel)
  · have hroom := (grows_iff hc').mp h (by decide +kernel) rfl rfl
      (by unfold Filled; decide +kernel)
    exact absurd (hroom.2 rfl rfl).1 (by decide +kernel)

end Esp32Project.Partition
