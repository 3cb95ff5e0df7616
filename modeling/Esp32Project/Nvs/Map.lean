import Esp32Project.Lib.Reach
import Esp32Project.Nvs.Module
import Mathlib.Data.Rat.Lemmas

/-! The module as a map from keys to Lua values, over runs of its calls. -/

set_option autoImplicit false

namespace Esp32Project.Nvs
open Esp32Project.Lib

/-- The module, and for each key the value of the last put that reported
success, as long as no remove of the key and no clearall has reported success since. -/
structure Session where
  mod : NvsMod
  book : Str → Option Lua

def Session.init : Session := ⟨⟨⟨false, fun _ => none⟩, false⟩, fun _ => none⟩

inductive Call where
  | opens (ok : Bool)
  | close
  | put (key : Str) (value : Lua) (answer : Write) (commitFails : Bool)
  | remove (key : Str) (fails : Bool)
  | clearall (fails : Bool)

def Session.after (s : Session) (r : Result × NvsMod) (book : Str → Option Lua) : Session :=
  ⟨r.2, if r.1 = .ok success then book else s.book⟩

def step (e : Env) (s : Session) : Call → Option Session
  | .opens ok => some { s with mod := (lnvsOpen s.mod ok).2 }
  | .close => some { s with mod := lnvsClose s.mod }
  | .put key value answer commitFails =>
    some (s.after (lnvsPut e s.mod key value answer commitFails)
      (Function.update s.book key (some value)))
  | .remove key fails =>
    some (s.after (lnvsRemove e s.mod key fails) (Function.update s.book key none))
  | .clearall fails => some (s.after (lnvsClearall s.mod fails) fun _ => none)

/-- No NUL in a key, no write whose failure is reported too late, and no erase
whose failure is not reported. -/
def sheltered : Call → Bool
  | .put key _ answer commitFails =>
    !key.contains 0 && answer != .late && !(answer == .done && commitFails)
  | .remove key fails => !key.contains 0 && !fails
  | _ => true

def Faithful : Lua → Prop
  | .number (.fin q) => q.den = 1 ∧ -2 ^ 31 ≤ q.num ∧ q.num < 2 ^ 31
  | .string v => v.getLast? = some 0 ∧ 0 ∉ v.dropLast ∧ v.length ≤ outStrSize
  | _ => False

def encode (e : Env) : Lua → Option Entry
  | .string v => some (.str (cString v))
  | .number x => some (.i32 (toInt e x))
  | .boolean b => some (.i32 (if b then 1 else 0))
  | _ => none

def decode (key : Str) : Entry → Lua
  | .i32 n => .number (.fin n.toInt)
  | .str w => if w.length + 1 ≤ outStrSize then .string (w ++ [0]) else .string key

/-! The functions, under the guards of `sheltered`. -/

section

variable {e : Env} {s : NvsMod}

/-- A put stores its entry and says so, or changes nothing. -/
theorem putEntry_cases (key : Str) (entry : Entry) {answer : Write} {commitFails : Bool}
    (hv : s.st.valid = true) (ha : answer ≠ .late) (hc : answer = .done → commitFails = false) :
    (key.length ≤ maxKeyLength ∧ putEntry s key entry answer commitFails =
        (.ok success, { s with st := s.st.write key (some entry) })) ∨
      putEntry s key entry answer commitFails = (.ok failure, s) := by
  unfold putEntry nvsSet
  simp only [hv, Bool.not_true, Bool.false_eq_true, if_false]
  by_cases hl : maxKeyLength < key.length
  · simp [hl]
  by_cases ht : ((s.st.entries key).map entry.sameType).getD true = true
  · cases answer with
    | late => exact absurd rfl ha
    | noSpace => simp [hl, ht]
    | done => simp [hl, ht, nvsCommit, hc rfl, Storage.write, hv, Nat.le_of_not_lt hl]
  · simp [hl, ht]

theorem lnvsPut_cases (key : Str) (value : Lua) {answer : Write} {commitFails : Bool}
    (hv : s.isOpen = true → s.st.valid = true) (ha : answer ≠ .late)
    (hc : answer = .done → commitFails = false) :
    (∃ entry, encode e value = some entry ∧ (cString key).length ≤ maxKeyLength ∧
      lnvsPut e s key value answer commitFails =
        (.ok success, { s with st := s.st.write (cString key) (some entry) })) ∨
      ∃ r, r ≠ .ok success ∧ lnvsPut e s key value answer commitFails = (r, s) := by
  have hput : s.isOpen = true → ∀ stored, encode e value = some stored →
      (∃ entry, encode e value = some entry ∧ (cString key).length ≤ maxKeyLength ∧
        putEntry s (cString key) stored answer commitFails =
          (.ok success, { s with st := s.st.write (cString key) (some entry) })) ∨
      ∃ r, r ≠ .ok success ∧ putEntry s (cString key) stored answer commitFails = (r, s) := by
    intro ho stored hstored
    rcases putEntry_cases (cString key) stored (hv ho) ha hc with ⟨hl, hp⟩ | hp
    · exact .inl ⟨stored, hstored, hl, hp⟩
    · exact .inr ⟨.ok failure, by decide, hp⟩
  unfold lnvsPut
  by_cases ho : s.isOpen = true
  · rw [if_neg (by simp [ho])]
    split
    · exact .inr ⟨.error "key exist! call nvs.remove to remove it first", by decide, rfl⟩
    · cases value with
      | string val => exact hput ho _ rfl
      | number x => exact hput ho _ rfl
      | boolean b => exact hput ho _ rfl
      | nil => exact .inr ⟨.ok failure, by decide, rfl⟩
      | table => exact .inr ⟨.ok failure, by decide, rfl⟩
      | other => exact .inr ⟨.ok failure, by decide, rfl⟩
  · rw [if_pos (by simp [ho])]
    exact .inr ⟨.error "call nvs.open first", by decide, rfl⟩

theorem lnvsRemove_cases (key : Str) (hv : s.isOpen = true → s.st.valid = true) :
    lnvsRemove e s key false =
        (.ok success, { s with st := s.st.write (cString key) none }) ∨
      ∃ r, r ≠ .ok success ∧ lnvsRemove e s key false = (r, s) := by
  unfold lnvsRemove
  cases ho : s.isOpen with
  | false => exact .inr ⟨.error "call nvs.open first", by decide, rfl⟩
  | true =>
    cases hk : keyExist e s.st (cString key) with
    | false => exact .inr ⟨.error "key doesn't exist!", by decide, rfl⟩
    | true =>
      cases hen : s.st.entries (cString key) with
      | none => simp [keyExist, nvsGetStr, hv ho, hen] at hk
      | some entry => exact .inl (by simp [nvsEraseKey, hv ho, hen])

theorem lnvsClearall_cases (fails : Bool) :
    lnvsClearall s fails = (.ok success, { s with st := { s.st with entries := fun _ => none } }) ∨
      lnvsClearall s fails = (.ok failure, s) := by
  unfold lnvsClearall nvsEraseAll
  cases hv : s.st.valid with
  | false => exact .inr rfl
  | true =>
    cases fails with
    | true => exact .inr rfl
    | false => exact .inl (by simp [hv])

theorem lnvsGet_eq {key : Str} (ho : s.isOpen = true) (hv : s.st.valid = true) :
    lnvsGet e s key =
      .ok (((s.st.entries (cString key)).map (decode key)).getD .nil) := by
  unfold lnvsGet nvsGetI32 nvsGetStr
  simp only [ho, hv, Bool.not_true, Bool.false_eq_true, if_false, if_true]
  cases s.st.entries (cString key) with
  | none => rfl
  | some entry =>
    cases entry with
    | i32 n => rfl
    | str w =>
      by_cases hw : w.length + 1 ≤ outStrSize <;> cases e.mismatch <;> simp [wrongType, decode, hw]

end

/-! The store refines the map. -/

structure Refines (e : Env) (s : Session) : Prop where
  entries : ∀ key, 0 ∉ key → s.mod.st.entries key = (s.book key).bind (encode e)
  booked : ∀ key v, s.book key = some v →
    0 ∉ key ∧ key.length ≤ maxKeyLength ∧ (encode e v).isSome = true
  handle : s.mod.isOpen = true → s.mod.st.valid = true

section

variable {e : Env} {s s' : Session}

theorem Refines.put {key : Str} {value : Lua} {entry : Entry} (hi : Refines e s)
    (hkey : 0 ∉ key) (hlen : key.length ≤ maxKeyLength) (hen : encode e value = some entry) :
    Refines e ⟨{ s.mod with st := s.mod.st.write key (some entry) },
      Function.update s.book key (some value)⟩ where
  entries k hk := by
    by_cases hkk : k = key
    · simp [Storage.write, hkk, hen]
    · simpa [Storage.write, hkk] using hi.entries k hk
  booked k v hv := by
    by_cases hkk : k = key
    · subst hkk
      simp only [Function.update_self, Option.some.injEq] at hv
      subst hv
      exact ⟨hkey, hlen, by rw [hen]; rfl⟩
    · exact hi.booked k v (by simpa [hkk] using hv)
  handle := hi.handle

theorem Refines.remove (hi : Refines e s) (key : Str) :
    Refines e ⟨{ s.mod with st := s.mod.st.write key none },
      Function.update s.book key none⟩ where
  entries k hk := by
    by_cases hkk : k = key
    · simp [Storage.write, hkk]
    · simpa [Storage.write, hkk] using hi.entries k hk
  booked k v hv := by
    by_cases hkk : k = key
    · simp [hkk] at hv
    · exact hi.booked k v (by simpa [hkk] using hv)
  handle := hi.handle

theorem after_success {r : Result} {m : NvsMod} {book : Str → Option Lua}
    (h : r = .ok success) : s.after (r, m) book = ⟨m, book⟩ := by
  rw [Session.after, if_pos h]

theorem after_other {r : Result} {m : NvsMod} {book : Str → Option Lua}
    (h : r ≠ .ok success) : s.after (r, m) book = ⟨m, s.book⟩ := by
  rw [Session.after, if_neg h]

theorem Refines.step {c : Call} (hi : Refines e s) (hc : sheltered c = true)
    (h : step e s c = some s') : Refines e s' := by
  cases c with
  | opens ok =>
    cases h
    cases ok with
    | true => exact ⟨hi.entries, hi.booked, fun _ => rfl⟩
    | false => exact ⟨hi.entries, hi.booked, nofun⟩
  | close =>
    cases h
    exact ⟨hi.entries, hi.booked, nofun⟩
  | put key value answer commitFails =>
    cases h
    simp only [sheltered, Bool.and_eq_true, Bool.not_eq_true', bne_iff_ne, List.contains_eq_mem,
      decide_eq_false_iff_not, Bool.and_eq_false_iff, beq_eq_false_iff_ne] at hc
    obtain ⟨⟨hkey, hlate⟩, hcommit⟩ := hc
    rcases lnvsPut_cases (e := e) key value hi.handle hlate
      (fun hd => hcommit.resolve_left (absurd hd)) with ⟨entry, hen, hlen, hp⟩ | ⟨r, hr, hp⟩
    · rw [hp, after_success rfl, cString_eq hkey]
      exact hi.put hkey (cString_eq hkey ▸ hlen) hen
    · rw [hp, after_other hr]
      exact hi
  | remove key fails =>
    cases h
    simp only [sheltered, Bool.and_eq_true, Bool.not_eq_true', List.contains_eq_mem,
      decide_eq_false_iff_not] at hc
    obtain ⟨hkey, rfl⟩ := hc
    rcases lnvsRemove_cases (e := e) key hi.handle with hp | ⟨r, hr, hp⟩
    · rw [hp, after_success rfl, cString_eq hkey]
      exact hi.remove key
    · rw [hp, after_other hr]
      exact hi
  | clearall fails =>
    cases h
    rcases lnvsClearall_cases (s := s.mod) fails with hp | hp
    · rw [hp, after_success rfl]
      exact ⟨fun _ _ => rfl, fun _ _ hv => by simp at hv, hi.handle⟩
    · rw [hp, after_other (by decide)]
      exact hi

theorem refines_of_reach (h : Reach (Nvs.step e) (fun _ c => sheltered c = true) .init s) :
    Refines e s :=
  h.invariant (Refines e) ⟨fun _ _ => rfl, fun _ _ hv => by simp [Session.init] at hv,
    fun ho => by simp [Session.init] at ho⟩ fun _ _ _ hi hc hs => hi.step hc hs

/-! Which values survive the way through the store. -/

theorem toInt_fin {q : Rat} {n : BitVec 32} (hq : q.den = 1 ∧ -2 ^ 31 ≤ q.num ∧ q.num < 2 ^ 31)
    (hn : toInt e (.fin q) = n) : (n.toInt : Rat) = q := by
  obtain ⟨hden, hlo, hhi⟩ := hq
  have hdiv : q.num.tdiv (q.den : Int) = q.num := by simp [hden]
  have hround : (BitVec.ofInt 32 q.num).toInt = q.num := by
    rw [BitVec.toInt_ofInt]
    exact Int.bmod_eq_of_le (by omega) (by omega)
  simp only [toInt, hdiv, if_pos (And.intro hlo hhi)] at hn
  rw [← hn, hround]
  exact Rat.coe_int_num_of_den_eq_one hden

theorem faithful_intCast (n : BitVec 32) : Faithful (.number (.fin (n.toInt : Rat))) := by
  refine ⟨Rat.den_intCast _, ?_, ?_⟩
  · rw [Rat.num_intCast]
    exact BitVec.le_toInt n
  · rw [Rat.num_intCast]
    exact BitVec.toInt_lt

/-- A value comes back from a key of admitted length if and only if it is one
of these. -/
theorem decode_encode_iff {key : Str} {v : Lua} {entry : Entry}
    (hlen : key.length ≤ maxKeyLength) (hen : encode e v = some entry) :
    decode key entry = v ↔ Faithful v := by
  cases v with
  | number x =>
    cases hen
    rw [decode, Lua.number.injEq]
    constructor
    · intro he
      rw [← he]
      exact faithful_intCast _
    · intro hf
      cases x with
      | fin q => rw [toInt_fin hf rfl]
      | inf _ => exact hf.elim
      | nan => exact hf.elim
  | string val =>
    cases hen
    rw [decode]
    constructor
    · split
      · rename_i hfit
        intro he
        have hval : cString val ++ [0] = val := Lua.string.inj he
        rw [← hval]
        refine ⟨List.getLast?_concat, ?_, ?_⟩
        · rw [List.dropLast_concat]
          exact not_mem_cString val
        · rw [List.length_append]
          exact hfit
      · -- the key that is returned is too short to be such a string
        intro he
        have hval : key = val := Lua.string.inj he
        have hle := cString_length_le val
        have hshort : val.length ≤ maxKeyLength := hval ▸ hlen
        unfold outStrSize maxKeyLength at *
        omega
    · rintro ⟨hlast, hnul, hfit⟩
      have hval : val = val.dropLast ++ [0] :=
        (List.dropLast_append_getLast? 0 hlast).symm
      have hc : cString val = val.dropLast :=
        (congrArg cString hval).trans (cString_append_zero hnul [])
      have hsize := congrArg List.length hval
      rw [List.length_append, List.length_singleton] at hsize
      rw [hc, if_pos (hsize ▸ hfit), ← hval]
  | boolean b =>
    cases hen
    simp [decode, Faithful]
  | nil => cases hen
  | table => cases hen
  | other => cases hen

end

def Session.expected (s : Session) (key : Str) : Result := .ok ((s.book key).getD .nil)

/-- The value booked for the key comes back as it is; a key with a NUL stands
for the key in front of it, which must have none. -/
def Kept (s : Session) (key : Str) : Prop :=
  if 0 ∈ key then s.book (cString key) = none else ∀ v, s.book key = some v → Faithful v

/-- After calls that meet the guard, a get is right for these values only. -/
theorem get_expected_iff (e : Env) (s : Session)
    (h : Reach (step e) (fun _ c => sheltered c = true) .init s) (key : Str) :
    lnvsGet e s.mod key = s.expected key ↔ s.mod.isOpen = true ∧ Kept s key := by
  have hi := refines_of_reach h
  by_cases ho : s.mod.isOpen = true
  · rw [lnvsGet_eq ho (hi.handle ho), hi.entries _ (not_mem_cString key), Session.expected,
      Except.ok.injEq]
    simp only [ho, true_and, Kept]
    split
    · rename_i hnul
      have hnone : s.book key = none := by
        cases hb : s.book key with
        | none => rfl
        | some v => exact absurd hnul (hi.booked key v hb).1
      rw [hnone]
      cases hb : s.book (cString key) with
      | none => simp
      | some v =>
        obtain ⟨entry, hen⟩ := Option.isSome_iff_exists.mp (hi.booked _ v hb).2.2
        cases entry with
        | i32 n => simp [hen, decode]
        | str w => simp only [hen, decode, Option.bind_some, Option.map_some]; split <;> simp
    · rename_i hplain
      rw [cString_eq hplain]
      cases hb : s.book key with
      | none => simp
      | some v =>
        obtain ⟨_, hlen, hsome⟩ := hi.booked key v hb
        obtain ⟨entry, hen⟩ := Option.isSome_iff_exists.mp hsome
        simpa [hen] using decode_encode_iff hlen hen
  · simp [lnvsGet, ho, Session.expected]

def sampleEnv : Env := ⟨true, fun _ => 0x7FFFFFFF⟩

/-- Keys and values byte by byte: `n` is a number, `s` a string that ends in NUL. -/
theorem get_expected_iff_sample :
    ∃ s, runScript (step sampleEnv) (fun _ c => sheltered c) .init
        [.opens true, .put [110] (.number (.fin 7)) .done false,
          .put [115] (.string [97, 0]) .done false, .remove [110] false] = some s ∧
      lnvsGet sampleEnv s.mod [115] = .ok (.string [97, 0]) := by
  have hrun : (runScript (step sampleEnv) (fun _ c => sheltered c) .init
      [.opens true, .put [110] (.number (.fin 7)) .done false,
        .put [115] (.string [97, 0]) .done false, .remove [110] false]).map
          (fun s => (s.mod.isOpen, s.book [115])) =
        some (true, some (.string [97, 0])) := by decide +kernel
  obtain ⟨s, hs, hv⟩ := Option.map_eq_some_iff.mp hrun
  obtain ⟨ho, hb⟩ := Prod.mk.inj hv
  have hkept : Kept s [115] := by
    rw [Kept, if_neg (by decide), hb]
    rintro v ⟨⟩
    exact ⟨rfl, by decide, by decide⟩
  have hget := (get_expected_iff sampleEnv s (reach_of_script (fun _ _ h => h) hs) [115]).mpr
    ⟨ho, hkept⟩
  rw [Session.expected, hb] at hget
  exact ⟨s, hs, hget⟩

/-- A string comes back with its terminator, a boolean as a number, a fraction
cut off, and for a string of 128 bytes its key. -/
theorem values_changed :
    ∃ s, Reach (step sampleEnv) (fun _ _ => True) .init s ∧
      s.book [97] = some (.string [104, 105]) ∧
      lnvsGet sampleEnv s.mod [97] = .ok (.string [104, 105, 0]) ∧
      s.book [98] = some (.boolean true) ∧
      lnvsGet sampleEnv s.mod [98] = .ok (.number (.fin 1)) ∧
      s.book [99] = some (.number (.fin (3 / 2))) ∧
      lnvsGet sampleEnv s.mod [99] = .ok (.number (.fin 1)) ∧
      s.book [100] = some (.string (List.replicate 128 120)) ∧
      lnvsGet sampleEnv s.mod [100] = .ok (.string [100]) ∧
      ¬ ∀ key, lnvsGet sampleEnv s.mod key = s.expected key := by
  have hrun : (runScript (step sampleEnv) (fun _ _ => true) .init
      [.opens true, .put [97] (.string [104, 105]) .done false,
        .put [98] (.boolean true) .done false, .put [99] (.number (.fin (3 / 2))) .done false,
        .put [100] (.string (List.replicate 128 120)) .done false]).map
          (fun s => [(s.book [97], lnvsGet sampleEnv s.mod [97]),
            (s.book [98], lnvsGet sampleEnv s.mod [98]),
            (s.book [99], lnvsGet sampleEnv s.mod [99]),
            (s.book [100], lnvsGet sampleEnv s.mod [100])]) =
        some [(some (.string [104, 105]), .ok (.string [104, 105, 0])),
          (some (.boolean true), .ok (.number (.fin 1))),
          (some (.number (.fin (3 / 2))), .ok (.number (.fin 1))),
          (some (.string (List.replicate 128 120)), .ok (.string [100]))] := by decide +kernel
  obtain ⟨s, hs, hv⟩ := Option.map_eq_some_iff.mp hrun
  simp only [List.cons.injEq, Prod.mk.injEq, and_true] at hv
  obtain ⟨⟨ha, ha'⟩, ⟨hb, hb'⟩, ⟨hc, hc'⟩, hd, hd'⟩ := hv
  refine ⟨s, reach_of_script (fun _ _ _ => trivial) hs, ha, ha', hb, hb', hc, hc', hd, hd', ?_⟩
  intro h
  have hget := h [97]
  rw [ha', Session.expected, ha] at hget
  exact absurd hget (by decide)

end Esp32Project.Nvs
