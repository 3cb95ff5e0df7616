import Esp32Project.Nvs.Map

/-! What `nvs.exist`, `nvs.put` and `nvs.remove` make of a key that is stored or not. -/

set_option autoImplicit false

namespace Esp32Project.Nvs
open Esp32Project.Lib

/-- `nvs.exist` reports 1 for a stored key and for no other. -/
def ExistOk (e : Env) (s : NvsMod) (key : Str) : Prop :=
  lnvsKeyExist e s key = .ok (.number (.fin 1)) ↔ (s.st.entries key).isSome = true

/-- `nvs.put` succeeds for a key that is not stored, or changes nothing. -/
structure PutOk (s : NvsMod) (key : Str) (r : Result × NvsMod) : Prop where
  absent : r.1 = .ok success → s.st.entries key = none
  unchanged : r.1 ≠ .ok success → r.2.st = s.st

/-- `nvs.remove` succeeds for a stored key and for no other, and removes that key
only. -/
structure RemoveOk (s : NvsMod) (key : Str) (r : Result × NvsMod) : Prop where
  succeeds : r.1 = .ok success ↔ (s.st.entries key).isSome = true
  removed : r.1 = .ok success → r.2.st = s.st.write key none
  unchanged : r.1 ≠ .ok success → r.2.st = s.st

/-- A probe of `key_exist` reads the entry. -/
def Entry.visible (e : Env) : Entry → Bool
  | .i32 _ => e.mismatch
  | .str w => w.length + 1 ≤ outStrSize

/-- A stored key is seen; a key with a NUL does not stand for one that is. -/
structure Seen (e : Env) (s : NvsMod) (key : Str) : Prop where
  stored : ∀ entry, s.st.entries key = some entry → s.isOpen = true ∧ entry.visible e = true
  nul : 0 ∈ key → s.isOpen = true → (s.st.entries (cString key)).any (Entry.visible e) = false

def written (e : Env) (s : NvsMod) (key : Str) (value : Lua) : Option Entry :=
  let stored := s.st.entries (cString key)
  if s.isOpen && !stored.any (Entry.visible e) && (cString key).length ≤ maxKeyLength then
    (encode e value).filter fun entry => (stored.map entry.sameType).getD true
  else none

/-- A write goes to a key that is not stored, or fails and leaves what was there. -/
def WriteOk (s : NvsMod) (key : Str) (answer : Write) (commitFails : Bool) (entry : Entry) :
    Prop :=
  match answer with
  | .noSpace => True
  | .late => s.st.entries (cString key) = some entry
  | .done =>
    if commitFails then s.st.entries (cString key) = some entry else s.st.entries key = none

structure KeyInv (s : NvsMod) : Prop where
  handle : s.isOpen = true → s.st.valid = true
  nul : ∀ key, 0 ∈ key → s.st.entries key = none

section

variable {e : Env} {s : NvsMod}

theorem keyExist_eq {st : Storage} (hv : st.valid = true) (key : Str) :
    keyExist e st key = (st.entries key).any (Entry.visible e) := by
  unfold keyExist nvsGetI32 nvsGetStr
  simp only [hv, if_true]
  cases st.entries key with
  | none => rfl
  | some entry =>
    cases entry with
    | i32 n => cases hm : e.mismatch <;> simp [wrongType, Entry.visible, hm]
    | str w =>
      by_cases hw : w.length + 1 ≤ outStrSize <;> cases e.mismatch <;>
        simp [wrongType, Entry.visible, hw]

theorem seen_closed (ho : s.isOpen = false) (key : Str) :
    Seen e s key ↔ s.st.entries key = none := by
  constructor
  · intro hs
    cases he : s.st.entries key with
    | none => rfl
    | some entry => simpa [ho] using (hs.stored entry he).1
  · intro hn
    exact ⟨fun entry he => by simp [hn] at he, fun _ hopen => by simp [ho] at hopen⟩

theorem seen_open (h : KeyInv s) (ho : s.isOpen = true) (key : Str) :
    Seen e s key ↔
      ((s.st.entries (cString key)).any (Entry.visible e) = (s.st.entries key).isSome) := by
  by_cases hnul : 0 ∈ key
  · rw [h.nul key hnul]
    constructor
    · exact fun hs => hs.nul hnul ho
    · exact fun hn => ⟨fun entry he => by simp [h.nul key hnul] at he, fun _ _ => hn⟩
  · rw [cString_eq hnul]
    cases he : s.st.entries key with
    | none => exact iff_of_true ⟨fun entry hen => by simp [he] at hen, fun hn => absurd hn hnul⟩ rfl
    | some entry =>
      constructor
      · exact fun hs => (hs.stored entry he).2
      · intro hv
        refine ⟨fun entry' he' => ?_, fun hn => absurd hn hnul⟩
        cases he.symm.trans he'
        exact ⟨ho, hv⟩

theorem existOk_iff (h : KeyInv s) (key : Str) : ExistOk e s key ↔ Seen e s key := by
  unfold ExistOk lnvsKeyExist
  cases ho : s.isOpen with
  | false => simp [seen_closed ho]
  | true =>
    rw [seen_open h ho, keyExist_eq (h.handle ho)]
    cases (s.st.entries (cString key)).any (Entry.visible e) <;>
      cases (s.st.entries key).isSome <;> simp

theorem lnvsRemove_open (h : KeyInv s) (ho : s.isOpen = true) (key : Str) (fails : Bool) :
    lnvsRemove e s key fails =
      if (s.st.entries (cString key)).any (Entry.visible e) then
        (.ok success, if fails then s else { s with st := s.st.write (cString key) none })
      else (.error "key doesn't exist!", s) := by
  unfold lnvsRemove
  rw [if_neg (by simp [ho]), keyExist_eq (h.handle ho)]
  cases hk : (s.st.entries (cString key)).any (Entry.visible e) with
  | false => rfl
  | true =>
    cases he : s.st.entries (cString key) with
    | none => simp [he] at hk
    | some entry => cases fails <;> simp [nvsEraseKey, h.handle ho, he]

theorem write_none_ne {st : Storage} {key : Str} (h : (st.entries key).isSome = true) :
    st ≠ st.write key none := by
  intro heq
  have hn : st.entries key = none := by
    rw [heq]
    simp [Storage.write]
  simp [hn] at h

theorem removeOk_iff (h : KeyInv s) (key : Str) (fails : Bool) :
    RemoveOk s key (lnvsRemove e s key fails) ↔
      Seen e s key ∧ ((s.st.entries key).isSome = true → fails = false) := by
  cases ho : s.isOpen with
  | false =>
    have hclosed : lnvsRemove e s key fails = (.error "call nvs.open first", s) := by
      simp [lnvsRemove, ho]
    rw [hclosed, seen_closed ho]
    constructor
    · intro hr
      have hn : s.st.entries key = none := by simpa using hr.succeeds
      exact ⟨hn, by simp [hn]⟩
    · rintro ⟨hn, -⟩
      exact ⟨by simp [hn], by simp, fun _ => rfl⟩
  | true =>
    rw [lnvsRemove_open h ho, seen_open h ho]
    cases hk : (s.st.entries (cString key)).any (Entry.visible e) with
    | false =>
      constructor
      · intro hr
        have hn : (s.st.entries key).isSome = false := by simpa using hr.succeeds
        exact ⟨hn.symm, by simp [hn]⟩
      · rintro ⟨hn, -⟩
        exact ⟨by simp [← hn], by simp, fun _ => rfl⟩
    | true =>
      constructor
      · intro hr
        have hsome : (s.st.entries key).isSome = true := by simpa using hr.succeeds
        refine ⟨hsome.symm, fun _ => ?_⟩
        have hremoved := hr.removed rfl
        cases fails with
        | false => rfl
        | true => exact absurd hremoved (write_none_ne hsome)
      · rintro ⟨hsome, hfails⟩
        obtain rfl := hfails hsome.symm
        have hplain : 0 ∉ key := fun hnul => by simp [h.nul key hnul] at hsome
        exact ⟨by simp [← hsome], fun _ => by simp [cString_eq hplain], fun hn => absurd rfl hn⟩

theorem write_eq_self {st : Storage} {key : Str} {entry : Option Entry} :
    st.write key entry = st ↔ st.entries key = entry := by
  cases st with
  | mk valid entries =>
    simp only [Storage.write, Storage.mk.injEq, true_and, Function.update_eq_self_iff]
    exact eq_comm

def writeResult (s : NvsMod) (key : Str) (entry : Entry) (commitFails : Bool) :
    Write → Result × NvsMod
  | .noSpace => (.ok failure, s)
  | .late => (.ok failure, { s with st := s.st.write key (some entry) })
  | .done =>
    (.ok (if commitFails then failure else success),
      { s with st := s.st.write key (some entry) })

theorem putEntry_eq (hv : s.st.valid = true) (key : Str) (entry : Entry) (answer : Write)
    (commitFails : Bool) :
    putEntry s key entry answer commitFails =
      if key.length ≤ maxKeyLength ∧ ((s.st.entries key).map entry.sameType).getD true = true then
        writeResult s key entry commitFails answer
      else (.ok failure, s) := by
  unfold putEntry nvsSet
  rw [if_neg (by simp [hv])]
  by_cases hl : maxKeyLength < key.length
  · rw [if_pos hl, if_neg (fun h => absurd h.1 (Nat.not_le_of_lt hl))]
  by_cases ht : ((s.st.entries key).map entry.sameType).getD true = true
  · rw [if_neg hl, if_pos ht, if_pos ⟨Nat.le_of_not_lt hl, ht⟩]
    cases answer with
    | noSpace => rfl
    | late => rfl
    | done => cases commitFails <;> simp [nvsCommit, Storage.write, hv, writeResult]
  · rw [if_neg hl, if_neg ht, if_neg (fun h => ht h.2)]

theorem written_eq {key : Str} {value : Lua} {entry : Entry} (ho : s.isOpen = true)
    (hk : (s.st.entries (cString key)).any (Entry.visible e) = false)
    (hen : encode e value = some entry) :
    written e s key value =
      if (cString key).length ≤ maxKeyLength ∧
          ((s.st.entries (cString key)).map entry.sameType).getD true = true then
        some entry
      else none := by
  unfold written
  by_cases hl : (cString key).length ≤ maxKeyLength <;>
    cases ht : ((s.st.entries (cString key)).map entry.sameType).getD true <;>
      simp [ho, hk, hl, hen, ht]

theorem written_none {key : Str} {value : Lua}
    (h : s.isOpen = false ∨ (s.st.entries (cString key)).any (Entry.visible e) = true ∨
      encode e value = none) : written e s key value = none := by
  unfold written
  rcases h with ho | hk | hen
  · simp [ho]
  · simp only [hk, Bool.not_true, Bool.and_false, Bool.false_and, Bool.false_eq_true, if_false]
  · simp [hen]

theorem lnvsPut_written (h : KeyInv s) (key : Str) (value : Lua) (answer : Write)
    (commitFails : Bool) :
    (∃ entry, written e s key value = some entry ∧
      lnvsPut e s key value answer commitFails =
        writeResult s (cString key) entry commitFails answer) ∨
    ∃ r, written e s key value = none ∧ r ≠ .ok success ∧
      lnvsPut e s key value answer commitFails = (r, s) := by
  cases ho : s.isOpen with
  | false =>
    refine .inr ⟨.error "call nvs.open first", written_none (.inl ho), by decide, ?_⟩
    unfold lnvsPut
    rw [if_pos (by simp [ho])]
  | true =>
    unfold lnvsPut
    rw [if_neg (by simp [ho]), keyExist_eq (h.handle ho)]
    cases hk : (s.st.entries (cString key)).any (Entry.visible e) with
    | true =>
      exact .inr ⟨.error "key exist! call nvs.remove to remove it first",
        written_none (.inr (.inl hk)), by decide, rfl⟩
    | false =>
      rw [if_neg Bool.false_ne_true]
      have hput (entry : Entry) (hen : encode e value = some entry) :
          (∃ entry', written e s key value = some entry' ∧
            putEntry s (cString key) entry answer commitFails =
              writeResult s (cString key) entry' commitFails answer) ∨
          ∃ r, written e s key value = none ∧ r ≠ .ok success ∧
            putEntry s (cString key) entry answer commitFails = (r, s) := by
        rw [putEntry_eq (h.handle ho), written_eq ho hk hen]
        split
        · exact .inl ⟨entry, rfl, rfl⟩
        · exact .inr ⟨.ok failure, rfl, by decide, rfl⟩
      have hnone (hen : encode e value = none) : written e s key value = none :=
        written_none (.inr (.inr hen))
      cases value with
      | nil => exact .inr ⟨.ok failure, hnone rfl, by decide, rfl⟩
      | table => exact .inr ⟨.ok failure, hnone rfl, by decide, rfl⟩
      | other => exact .inr ⟨.ok failure, hnone rfl, by decide, rfl⟩
      | string val => exact hput _ rfl
      | number x => exact hput _ rfl
      | boolean b => exact hput _ rfl

theorem putOk_iff (h : KeyInv s) (key : Str) (value : Lua) (answer : Write)
    (commitFails : Bool) :
    PutOk s key (lnvsPut e s key value answer commitFails) ↔
      ∀ entry, written e s key value = some entry → WriteOk s key answer commitFails entry := by
  have hfailed : (.ok failure : Result) ≠ .ok success := by decide
  rcases lnvsPut_written (e := e) h key value answer commitFails with
    ⟨entry, hw, hp⟩ | ⟨r, hw, hr, hp⟩
  · rw [hp, hw]
    simp only [Option.some.injEq, forall_eq']
    cases answer with
    | noSpace => exact iff_of_true ⟨fun hs => absurd hs hfailed, fun _ => rfl⟩ trivial
    | late =>
      constructor
      · exact fun hput => write_eq_self.mp (hput.unchanged hfailed)
      · exact fun hsame => ⟨fun hs => absurd hs hfailed, fun _ => write_eq_self.mpr hsame⟩
    | done =>
      cases commitFails with
      | true =>
        constructor
        · exact fun hput => write_eq_self.mp (hput.unchanged hfailed)
        · exact fun hsame => ⟨fun hs => absurd hs hfailed, fun _ => write_eq_self.mpr hsame⟩
      | false =>
        constructor
        · exact fun hput => hput.absent rfl
        · exact fun habsent => ⟨fun _ => habsent, fun hn => absurd rfl hn⟩
  · rw [hp, hw]
    exact iff_of_true ⟨fun hs => absurd hs hr, fun _ => rfl⟩ (by simp)

end

/-! The store over runs. -/

section

variable {e : Env} {s s' : Session}

theorem KeyInv.write {s : NvsMod} (h : KeyInv s) {key : Str} (hkey : 0 ∉ key)
    (entry : Option Entry) : KeyInv { s with st := s.st.write key entry } where
  handle := h.handle
  nul k hk := by
    have hne : k ≠ key := fun heq => hkey (heq ▸ hk)
    simpa [Storage.write, hne] using h.nul k hk

theorem KeyInv.step {c : Call} (h : KeyInv s.mod) (hs : step e s c = some s') :
    KeyInv s'.mod := by
  cases c with
  | opens ok =>
    cases hs
    cases ok with
    | true => exact ⟨fun _ => rfl, h.nul⟩
    | false => exact ⟨nofun, h.nul⟩
  | close =>
    cases hs
    exact ⟨nofun, h.nul⟩
  | put key value answer commitFails =>
    cases hs
    have hwrite (entry : Entry) := h.write (not_mem_cString key) (some entry)
    simp only [Session.after]
    rcases lnvsPut_written (e := e) h key value answer commitFails with
      ⟨entry, -, hp⟩ | ⟨r, -, -, hp⟩
    · rw [hp]
      cases answer with
      | noSpace => exact h
      | late => exact hwrite entry
      | done => exact hwrite entry
    · rw [hp]
      exact h
  | remove key fails =>
    cases hs
    have hwrite := h.write (not_mem_cString key) none
    simp only [Session.after]
    by_cases ho : s.mod.isOpen = true
    · rw [lnvsRemove_open h ho]
      split
      · cases fails with
        | true => exact h
        | false => exact hwrite
      · exact h
    · unfold lnvsRemove
      rw [if_pos (by simp [ho])]
      exact h
  | clearall fails =>
    cases hs
    simp only [Session.after]
    rcases lnvsClearall_cases (s := s.mod) fails with hp | hp
    · rw [hp]
      exact ⟨h.handle, fun _ _ => rfl⟩
    · rw [hp]
      exact h

theorem keyInv_of_reach (h : Reach (Nvs.step e) (fun _ _ => True) .init s) : KeyInv s.mod :=
  h.invariant (fun s => KeyInv s.mod) ⟨fun ho => by simp [Session.init] at ho, fun _ _ => rfl⟩
    fun _ _ _ hi _ hs => hi.step hs

end

/-- For every content that calls lead to and every key, each of the three calls
is right if and only if its condition holds. -/
theorem key_calls_ok_iff (e : Env) (s : Session)
    (h : Reach (step e) (fun _ _ => True) .init s) (key : Str) (value : Lua) (answer : Write)
    (commitFails eraseFails : Bool) :
    (ExistOk e s.mod key ↔ Seen e s.mod key) ∧
      (PutOk s.mod key (lnvsPut e s.mod key value answer commitFails) ↔
        ∀ entry, written e s.mod key value = some entry →
          WriteOk s.mod key answer commitFails entry) ∧
      (RemoveOk s.mod key (lnvsRemove e s.mod key eraseFails) ↔
        Seen e s.mod key ∧ ((s.mod.st.entries key).isSome = true → eraseFails = false)) := by
  have hi := keyInv_of_reach h
  exact ⟨existOk_iff hi key, putOk_iff hi key value answer commitFails,
    removeOk_iff hi key eraseFails⟩

theorem key_calls_ok_iff_sample :
    ∃ s, runScript (step sampleEnv) (fun _ _ => true) .init
        [.opens true, .put [110] (.number (.fin 7)) .done false] = some s ∧
      ExistOk sampleEnv s.mod [110] ∧
      RemoveOk s.mod [110] (lnvsRemove sampleEnv s.mod [110] false) := by
  have hrun : (runScript (step sampleEnv) (fun _ _ => true) .init
      [.opens true, .put [110] (.number (.fin 7)) .done false]).map
        (fun s => (s.mod.isOpen, s.mod.st.entries [110])) = some (true, some (.i32 7)) := by
    decide +kernel
  obtain ⟨s, hs, hv⟩ := Option.map_eq_some_iff.mp hrun
  obtain ⟨ho, he⟩ := Prod.mk.inj hv
  have hseen : Seen sampleEnv s.mod [110] := by
    refine ⟨fun entry hentry => ?_, fun hnul => absurd hnul (by decide)⟩
    cases he.symm.trans hentry
    exact ⟨ho, rfl⟩
  obtain ⟨hexist, -, hremove⟩ := key_calls_ok_iff sampleEnv s
    (reach_of_script (fun _ _ _ => trivial) hs) [110] .nil .done false false
  exact ⟨s, hs, hexist.mpr hseen, hremove.mpr ⟨hseen, fun _ => rfl⟩⟩

/-- A stored string of 128 bytes does not exist, is replaced by another put and
cannot be removed. -/
theorem long_string_unseen :
    ∃ s, Reach (step sampleEnv) (fun _ _ => True) .init s ∧
      ¬ ExistOk sampleEnv s.mod [100] ∧
      ¬ PutOk s.mod [100] (lnvsPut sampleEnv s.mod [100] (.string [104, 105]) .done false) ∧
      ¬ RemoveOk s.mod [100] (lnvsRemove sampleEnv s.mod [100] false) := by
  have hrun : (runScript (step sampleEnv) (fun _ _ => true) .init
      [.opens true, .put [100] (.string (List.replicate 128 120)) .done false]).map
        (fun s => ((s.mod.st.entries [100]).isSome, lnvsKeyExist sampleEnv s.mod [100],
          (lnvsPut sampleEnv s.mod [100] (.string [104, 105]) .done false).1,
          (lnvsRemove sampleEnv s.mod [100] false).1)) =
      some (true, .ok (.number (.fin 0)), .ok success, .error "key doesn't exist!") := by
    decide +kernel
  obtain ⟨s, hs, hv⟩ := Option.map_eq_some_iff.mp hrun
  simp only [Prod.mk.injEq] at hv
  obtain ⟨hstored, hexist, hput, hremove⟩ := hv
  refine ⟨s, reach_of_script (fun _ _ _ => trivial) hs, fun hok => ?_, fun hok => ?_, fun hok => ?_⟩
  · have hone := hok.mpr hstored
    rw [hexist] at hone
    exact absurd hone (by decide)
  · have habsent := hok.absent hput
    simp [habsent] at hstored
  · have hsucceeds := hok.succeeds.mpr hstored
    rw [hremove] at hsucceeds
    cases hsucceeds

end Esp32Project.Nvs
