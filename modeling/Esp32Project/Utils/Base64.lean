import Mathlib.Data.List.Basic
import Mathlib.Data.Nat.Bitwise
import Esp32Project.Lib.Buffer
import Esp32Project.Lib.CString

/-!
`utils.base64_encode` and `utils.base64_decode`. The codec stores through
its pointers; a store outside the buffer of the wrapper has no result.
-/

set_option autoImplicit false

namespace Esp32Project.Utils

open Esp32Project.Lib

abbrev Bytes := List UInt8

def base64Chars : Bytes :=
  "ABCDEFGHIJKLMNOPQRSTUVWXYZabcdefghijklmnopqrstuvwxyz0123456789+/".toList.map Char.toUInt8

def equals : UInt8 := 61

/-- The position of a character in the alphabet, or -1. -/
def pos (c : UInt8) : Int :=
  match base64Chars.findIdx? (· == c) with
  | some i => i
  | none => -1

/-- `base64_chars[i]` with the NUL behind the alphabet. -/
def charAt (i : Nat) : UInt8 := base64Chars.getD i 0

def group (a b d : UInt8) : Bytes :=
  let c := (a.toNat * 256 + b.toNat) * 256 + d.toNat
  [charAt ((c &&& 0x00fc0000) >>> 18), charAt ((c &&& 0x0003f000) >>> 12),
    charAt ((c &&& 0x00000fc0) >>> 6), charAt (c &&& 0x0000003f)]

/-- The variables of the loop; `p` and `last` count from `s`. -/
structure Encoder where
  s : Bytes
  p : Nat
  i : Nat
  last : Option Nat

def Encoder.put (e : Encoder) (chars : Bytes) : Option Encoder :=
  (storeAll e.s e.p chars).map fun s => ⟨s, e.p + 4, e.i + 3, some e.p⟩

/-- The bytes that are missing from the last three count as zero. -/
def encodeLoop : Bytes → Encoder → Option Encoder
  | [], e => some e
  | [a], e => e.put (group a 0 0)
  | [a, b], e => e.put (group a b 0)
  | a :: b :: c :: data, e => (e.put (group a b c)).bind (encodeLoop data)

/-- The characters of bytes that are missing become `=`, or are given up. -/
def Encoder.pad (e : Encoder) (size : Nat) (shouldPad : Bool) : Option (Bytes × Nat) :=
  match e.last with
  | none => some (e.s, e.p)
  | some last =>
    let diff := e.i - size
    if diff = 0 then some (e.s, e.p)
    else if shouldPad then
      (storeAll e.s (last + (4 - diff)) (List.replicate diff equals)).map (·, e.p)
    else some (e.s, last + (4 - diff))

def base64Encode (data s : Bytes) (shouldPad : Bool) : Option (Bytes × Nat) := do
  let e ← encodeLoop data ⟨s, 0, 0, none⟩
  let (s, p) ← e.pad data.length shouldPad
  let s ← store s p 0
  return (s, p)

/-- `DECODE_ERROR` as an `unsigned int`. -/
def decodeError : Nat := 2 ^ 32 - 1

/-- `val` and `marker` after the characters; nothing for a character behind an `=`. -/
def tokenLoop : Bytes → Nat → Nat → Option (Nat × Nat)
  | [], val, marker => some (val, marker)
  | c :: token, val, marker =>
    let val := val * 64 % 2 ^ 32
    if c = equals then tokenLoop token val (marker + 1)
    else if marker > 0 then none
    else tokenLoop token ((val + pos c) % 2 ^ 32).toNat marker

def tokenDecode (token : Bytes) : Nat :=
  if token.length < 4 then decodeError
  else
    match tokenLoop (token.take 4) 0 0 with
    | none => decodeError
    | some (val, marker) => if marker > 2 then decodeError else marker <<< 24 ||| val

def tokenBytes (val : Nat) : Bytes :=
  let marker := (val >>> 24) &&& 0xff
  UInt8.ofNat ((val >>> 16) &&& 0xff) ::
    ((if marker < 2 then [UInt8.ofNat ((val >>> 8) &&& 0xff)] else []) ++
      if marker < 1 then [UInt8.ofNat (val &&& 0xff)] else [])

/-- From the place `q` on, with the result of the function: a length or -1. -/
def decodeLoop (str data : Bytes) (q : Nat) : Option (Bytes × Int) :=
  match str with
  | [] => some (data, q)
  | c :: rest =>
    if c = equals ∨ c ∈ base64Chars then
      let val := tokenDecode (c :: rest)
      if val = decodeError then some (data, -1)
      else (storeAll data q (tokenBytes val)).bind fun data =>
        decodeLoop (rest.drop 3) data (q + (tokenBytes val).length)
    else some (data, q)
termination_by str.length
decreasing_by simp only [List.length_drop, List.length_cons]; omega

def base64Decode (str data : Bytes) : Option (Bytes × Int) := decodeLoop str data 0

def malloc (served : Bool) (n : Nat) : Option Bytes :=
  if served then some (List.replicate n 0) else none

/-- `lua_pushstring` reads on to the first NUL. -/
def pushString (buff : Bytes) : Option Bytes := (strlen buff).map buff.take

def base64Encode0 (served : Bool) (s : Bytes) : Option Bytes := do
  let str := cString s
  let buff ← malloc served (str.length * 2)
  let (buff, _) ← base64Encode str buff true
  pushString buff

def base64Decode0 (served : Bool) (s : Bytes) : Option Bytes := do
  let str := cString s
  let buff ← malloc served (str.length * 2)
  let (buff, _) ← base64Decode str buff
  pushString buff

section Alphabet

variable {i : Nat}

theorem alphabet (i : Fin 64) :
    charAt i ∈ base64Chars ∧ charAt i ≠ equals ∧ charAt i ≠ 0 ∧ pos (charAt i) = i := by
  revert i
  decide +kernel

theorem charAt_mem (h : i < 64) : charAt i ∈ base64Chars := (alphabet ⟨i, h⟩).1

theorem charAt_ne_equals (h : i < 64) : charAt i ≠ equals := (alphabet ⟨i, h⟩).2.1

theorem charAt_ne_zero (h : i < 64) : charAt i ≠ 0 := (alphabet ⟨i, h⟩).2.2.1

theorem pos_charAt (h : i < 64) : pos (charAt i) = i := (alphabet ⟨i, h⟩).2.2.2

end Alphabet

theorem mask_shift (c k : Nat) {mask : Nat} (h : mask >>> k = 2 ^ 6 - 1) :
    (c &&& mask) >>> k = c / 2 ^ k % 64 := by
  rw [Nat.shiftRight_and_distrib, h, Nat.and_two_pow_sub_one_eq_mod, Nat.shiftRight_eq_div_pow]

def joined (a b d : UInt8) : Nat := (a.toNat * 256 + b.toNat) * 256 + d.toNat

theorem joined_lt (a b d : UInt8) : joined a b d < 2 ^ 24 := by
  have ha := a.toNat_lt
  have hb := b.toNat_lt
  have hd := d.toNat_lt
  unfold joined
  omega

theorem group_eq (a b d : UInt8) :
    group a b d = [charAt (joined a b d / 2 ^ 18 % 64), charAt (joined a b d / 2 ^ 12 % 64),
      charAt (joined a b d / 2 ^ 6 % 64), charAt (joined a b d % 64)] := by
  unfold group
  simp only
  rw [mask_shift _ 18 rfl, mask_shift _ 12 rfl, mask_shift _ 6 rfl,
    show 0x3f = 2 ^ 6 - 1 from rfl, Nat.and_two_pow_sub_one_eq_mod]
  rfl

theorem group_length (a b d : UInt8) : (group a b d).length = 4 := rfl

/-- What the encoder leaves in the buffer before the terminator. -/
def encoded : Bytes → Bytes
  | [] => []
  | [a] => (group a 0 0).take 2 ++ [equals, equals]
  | [a, b] => (group a b 0).take 3 ++ [equals]
  | a :: b :: c :: data => group a b c ++ encoded data

def groups : Bytes → Bytes
  | [] => []
  | [a] => group a 0 0
  | [a, b] => group a b 0
  | a :: b :: c :: data => group a b c ++ groups data

def rounds (data : Bytes) : Nat := (data.length + 2) / 3

@[simp] theorem rounds_nil : rounds [] = 0 := by simp [rounds]

@[simp] theorem rounds_one (a : UInt8) : rounds [a] = 1 := by simp [rounds]

@[simp] theorem rounds_two (a b : UInt8) : rounds [a, b] = 1 := by simp [rounds]

@[simp] theorem rounds_cons (a b c : UInt8) (data : Bytes) :
    rounds (a :: b :: c :: data) = rounds data + 1 := by
  simp only [rounds, List.length_cons]
  omega

theorem groups_length (data : Bytes) : (groups data).length = 4 * rounds data := by
  induction data using groups.induct with
  | case1 => simp [groups]
  | case2 a => simp [groups, group_length]
  | case3 a b => simp [groups, group_length]
  | case4 a b c data ih =>
    rw [groups, List.length_append, ih, group_length, rounds_cons]
    omega

theorem encoded_split (data : Bytes) : ∃ front tail, groups data = front ++ tail ∧
    encoded data = front ++ List.replicate tail.length equals ∧
    tail.length = 3 * rounds data - data.length := by
  induction data using groups.induct with
  | case1 => exact ⟨[], [], rfl, rfl, rfl⟩
  | case2 a =>
    exact ⟨(group a 0 0).take 2, (group a 0 0).drop 2, rfl, rfl, by simp [group_length]⟩
  | case3 a b =>
    exact ⟨(group a b 0).take 3, (group a b 0).drop 3, rfl, rfl, by simp [group_length]⟩
  | case4 a b c data ih =>
    obtain ⟨front, tail, hgroups, hencoded, hlength⟩ := ih
    refine ⟨group a b c ++ front, tail, ?_, ?_, ?_⟩
    · rw [groups, hgroups, List.append_assoc]
    · rw [encoded, hencoded, List.append_assoc]
    · rw [hlength, rounds_cons]
      simp only [List.length_cons]
      omega

theorem encodeLoop_eq (data : Bytes) (e : Encoder) :
    encodeLoop data e = (storeAll e.s e.p (groups data)).map fun s =>
      ⟨s, e.p + 4 * rounds data, e.i + 3 * rounds data,
        if data = [] then e.last else some (e.p + 4 * rounds data - 4)⟩ := by
  induction data using groups.induct generalizing e with
  | case1 => simp [encodeLoop, groups, storeAll]
  | case2 a => simp [encodeLoop, groups, Encoder.put]
  | case3 a b => simp [encodeLoop, groups, Encoder.put]
  | case4 a b c data ih =>
    rw [encodeLoop, groups, storeAll_append, Encoder.put, group_length, rounds_cons]
    cases storeAll e.s e.p (group a b c) with
    | none => rfl
    | some s =>
      simp only [Option.map_some, Option.bind_some, ih]
      have hlast : (if data = [] then some e.p else some (e.p + 4 + 4 * rounds data - 4)) =
          some (e.p + 4 * (rounds data + 1) - 4) := by
        by_cases hdata : data = []
        · simp [hdata]
        · rw [if_neg hdata]
          congr 1
          omega
      rw [hlast, if_neg (List.cons_ne_nil a _)]
      congr 1
      funext s
      congr 1 <;> omega

theorem pad_eq (data back : Bytes) :
    Encoder.pad ⟨groups data ++ back, 4 * rounds data, 3 * rounds data,
        if data = [] then none else some (4 * rounds data - 4)⟩ data.length true =
      some (encoded data ++ back, 4 * rounds data) := by
  obtain ⟨front, tail, hgroups, hencoded, htail⟩ := encoded_split data
  by_cases hdata : data = []
  · subst hdata
    simp [Encoder.pad, groups, encoded]
  have hpos : 0 < data.length := List.length_pos_iff.mpr hdata
  have hlength := groups_length data
  rw [hgroups, List.length_append] at hlength
  simp only [Encoder.pad, if_neg hdata, if_true]
  rw [← htail]
  split
  · rename_i hnone
    rw [hencoded, hgroups, List.length_eq_zero_iff.mp hnone]
    rfl
  · have hplace : 4 * rounds data - 4 + (4 - tail.length) = front.length := by
      unfold rounds at *
      omega
    rw [hplace, hgroups, storeAll_of_fits front back List.length_replicate, hencoded]
    rfl

theorem encoded_length (data : Bytes) : (encoded data).length = 4 * rounds data := by
  obtain ⟨front, tail, hgroups, hencoded, -⟩ := encoded_split data
  rw [← groups_length, hgroups, hencoded]
  simp

/-- The groups and their padding go in front of what the buffer holds behind them. -/
theorem base64Encode_eq {data s : Bytes} (h : 4 * rounds data ≤ s.length) :
    base64Encode data s true =
      (store (encoded data ++ s.drop (4 * rounds data)) (4 * rounds data) 0).map
        (·, 4 * rounds data) := by
  have hfits : 0 + (groups data).length ≤ s.length := by
    rw [groups_length]
    omega
  have hloop := encodeLoop_eq data ⟨s, 0, 0, none⟩
  simp only [storeAll_eq hfits, List.take_zero, List.nil_append, Nat.zero_add, groups_length,
    Option.map_some] at hloop
  rw [base64Encode, hloop, Option.bind_eq_bind, Option.bind_some, pad_eq]
  simp [Option.map_eq_bind]

theorem base64Encode_fits {data s : Bytes} (h : 4 * rounds data < s.length) :
    base64Encode data s true =
      some (encoded data ++ 0 :: s.drop (4 * rounds data + 1), 4 * rounds data) := by
  have hlength := encoded_length data
  have hset : (encoded data ++ s.drop (4 * rounds data)).set (4 * rounds data) 0 =
      encoded data ++ 0 :: s.drop (4 * rounds data + 1) := by
    rw [List.set_append_right _ _ hlength.le, hlength, Nat.sub_self, List.drop_eq_getElem_cons h,
      List.set_cons_zero]
  rw [base64Encode_eq h.le, store, if_pos (by simp; omega), hset]
  rfl

theorem base64Encode_overflows {data s : Bytes} (h : s.length ≤ 4 * rounds data) :
    base64Encode data s true = none := by
  rcases Nat.lt_or_eq_of_le h with hlt | heq
  · have hnone : storeAll s 0 (groups data) = none := by
      refine storeAll_eq_none ?_ (by rw [groups_length]; omega)
      intro hnil
      have := groups_length data
      rw [hnil, List.length_nil] at this
      omega
    rw [base64Encode, encodeLoop_eq, hnone]
    rfl
  · have hlength := encoded_length data
    rw [base64Encode_eq heq.ge, store, if_neg (by simp; omega)]
    rfl

theorem tokenLoop_char {i val : Nat} (token : Bytes) (hi : i < 64) (h : val * 64 + i < 2 ^ 32) :
    tokenLoop (charAt i :: token) val 0 = tokenLoop token (val * 64 + i) 0 := by
  rw [tokenLoop, if_neg (charAt_ne_equals hi), if_neg (Nat.lt_irrefl 0), pos_charAt hi]
  congr 1
  omega

theorem tokenLoop_equals {val : Nat} (token : Bytes) (marker : Nat) (h : val * 64 < 2 ^ 32) :
    tokenLoop (equals :: token) val marker = tokenLoop token (val * 64) (marker + 1) := by
  rw [tokenLoop, if_pos rfl, Nat.mod_eq_of_lt h]

/-- The characters that stand for all the bits of `c` but some zeros at the end. -/
theorem tokenDecode_eq {token : Bytes} (rest : Bytes) {c m : Nat} (hlength : token.length = 4)
    (hc : c < 2 ^ 24) (hm : m ≤ 2) (h : tokenLoop token 0 0 = some (c, m)) :
    tokenDecode (token ++ rest) = m * 2 ^ 24 + c := by
  have htake : (token ++ rest).take 4 = token := by
    rw [← hlength, List.take_left]
  rw [tokenDecode, if_neg (by simp; omega), htake, h]
  simp only
  rw [if_neg (by omega), ← Nat.shiftLeft_add_eq_or_of_lt hc, Nat.shiftLeft_eq]

theorem tokenLoop_two (i j : Nat) (hi : i < 64) (hj : j < 64) (token : Bytes) :
    tokenLoop (charAt i :: charAt j :: token) 0 0 = tokenLoop token (i * 64 + j) 0 := by
  rw [tokenLoop_char _ hi (by omega), tokenLoop_char _ hj (by omega), Nat.zero_mul, Nat.zero_add]

theorem tokenLoop_group (a b d : UInt8) :
    tokenLoop (group a b d) 0 0 = some (joined a b d, 0) := by
  have hlt := joined_lt a b d
  generalize hc : joined a b d = c at hlt
  rw [group_eq, hc, tokenLoop_two _ _ (by omega) (by omega), tokenLoop_char _ (by omega) (by omega),
    tokenLoop_char _ (by omega) (by omega), tokenLoop]
  congr 2
  omega

theorem tokenLoop_pad_one (a b : UInt8) :
    tokenLoop ((group a b 0).take 3 ++ [equals]) 0 0 = some (joined a b 0, 1) := by
  have hlt := joined_lt a b 0
  have hzero : joined a b 0 % 64 = 0 := by
    simp only [joined, UInt8.toNat_zero]
    omega
  generalize hc : joined a b 0 = c at hlt hzero
  rw [group_eq, hc]
  simp only [List.take_succ_cons, List.take_zero, List.cons_append, List.nil_append]
  rw [tokenLoop_two _ _ (by omega) (by omega), tokenLoop_char _ (by omega) (by omega),
    tokenLoop_equals _ _ (by omega), tokenLoop]
  congr 2
  omega

theorem tokenLoop_pad_two (a : UInt8) :
    tokenLoop ((group a 0 0).take 2 ++ [equals, equals]) 0 0 = some (joined a 0 0, 2) := by
  have hlt := joined_lt a 0 0
  have hzero : joined a 0 0 % 4096 = 0 := by
    simp only [joined, UInt8.toNat_zero]
    omega
  generalize hc : joined a 0 0 = c at hlt hzero
  rw [group_eq, hc]
  simp only [List.take_succ_cons, List.take_zero, List.cons_append, List.nil_append]
  rw [tokenLoop_two _ _ (by omega) (by omega), tokenLoop_equals _ _ (by omega),
    tokenLoop_equals _ _ (by omega), tokenLoop]
  congr 2
  omega

theorem and_ff (x : Nat) : x &&& 0xff = x % 256 := Nat.and_two_pow_sub_one_eq_mod x 8

theorem tokenBytes_eq (a b d : UInt8) {m : Nat} (hm : m ≤ 2) :
    tokenBytes (m * 2 ^ 24 + joined a b d) = [a, b, d].take (3 - m) := by
  have ha := a.toNat_lt
  have hb := b.toNat_lt
  have hd := d.toNat_lt
  have hmark : (m * 2 ^ 24 + joined a b d) / 2 ^ 24 % 256 = m := by unfold joined; omega
  have h16 : (m * 2 ^ 24 + joined a b d) / 2 ^ 16 % 256 = a.toNat := by unfold joined; omega
  have h8 : (m * 2 ^ 24 + joined a b d) / 2 ^ 8 % 256 = b.toNat := by unfold joined; omega
  have h0 : (m * 2 ^ 24 + joined a b d) % 256 = d.toNat := by unfold joined; omega
  simp only [tokenBytes, and_ff, Nat.shiftRight_eq_div_pow, hmark, h16, h8, h0, UInt8.ofNat_toNat]
  obtain rfl | rfl | rfl : m = 0 ∨ m = 1 ∨ m = 2 := by omega
  all_goals rfl

theorem decodeLoop_token {token : Bytes} {a b d : UInt8} {m : Nat} (rest data : Bytes) (q : Nat)
    (hlength : token.length = 4) (hm : m ≤ 2)
    (hfirst : ∃ c token', token = c :: token' ∧ c ∈ base64Chars)
    (h : tokenLoop token 0 0 = some (joined a b d, m)) :
    decodeLoop (token ++ rest) data q =
      (storeAll data q ([a, b, d].take (3 - m))).bind fun data =>
        decodeLoop rest data (q + (3 - m)) := by
  obtain ⟨c, token', rfl, hc⟩ := hfirst
  have hlt := joined_lt a b d
  have hval := tokenDecode_eq rest hlength hlt hm h
  have herror : m * 2 ^ 24 + joined a b d ≠ decodeError := by
    unfold decodeError
    omega
  have hdrop : (token' ++ rest).drop 3 = rest := by
    rw [← Nat.succ.inj hlength, List.drop_left]
  rw [List.cons_append, decodeLoop, if_pos (.inr hc)]
  simp only [List.cons_append] at hval
  rw [hval, if_neg herror, tokenBytes_eq a b d hm, hdrop, List.length_take]
  simp

theorem group_first (a b d : UInt8) : ∃ c token, group a b d = c :: token ∧ c ∈ base64Chars :=
  ⟨_, _, group_eq a b d, charAt_mem (Nat.mod_lt _ (by decide))⟩

/-- Decoding an encoded text stores the bytes that were encoded. -/
theorem decodeLoop_encoded (bytes data : Bytes) (q : Nat) :
    decodeLoop (encoded bytes) data q =
      (storeAll data q bytes).map (·, ((q + bytes.length : Nat) : Int)) := by
  induction bytes using groups.induct generalizing data q with
  | case1 => simp [encoded, decodeLoop, storeAll]
  | case2 a =>
    obtain ⟨c, token, hgroup, hc⟩ := group_first a 0 0
    have htoken := decodeLoop_token [] data q (by simp [group_length]) (Nat.le_refl 2)
      ⟨c, _, by rw [hgroup]; rfl, hc⟩ (tokenLoop_pad_two a)
    rw [List.append_nil] at htoken
    rw [encoded, htoken]
    simp [decodeLoop, Option.map_eq_bind]
  | case3 a b =>
    obtain ⟨c, token, hgroup, hc⟩ := group_first a b 0
    have htoken := decodeLoop_token [] data q (by simp [group_length]) (Nat.le_succ 1)
      ⟨c, _, by rw [hgroup]; rfl, hc⟩ (tokenLoop_pad_one a b)
    rw [List.append_nil] at htoken
    rw [encoded, htoken]
    simp [decodeLoop, Option.map_eq_bind]
  | case4 a b c bytes ih =>
    have htoken := decodeLoop_token (encoded bytes) data q (group_length a b c) (Nat.zero_le 2)
      (group_first a b c) (tokenLoop_group a b c)
    have hsplit : a :: b :: c :: bytes = [a, b, c] ++ bytes := rfl
    have hall : [a, b, c].take (3 - 0) = [a, b, c] := rfl
    have hend : q + (3 - 0) + bytes.length = q + ([a, b, c] ++ bytes).length := by
      simp only [List.length_append, List.length_cons, List.length_nil]
      omega
    rw [encoded, htoken, hsplit, storeAll_append, hall, Option.map_bind, ← hend]
    congr 1
    funext data'
    exact ih data' _

theorem zero_notMem_group (a b d : UInt8) : 0 ∉ group a b d := by
  have hne : ∀ i, i < 64 → charAt i ≠ 0 := fun i hi => charAt_ne_zero hi
  rw [group_eq]
  simp only [List.mem_cons, List.not_mem_nil, or_false, not_or]
  exact ⟨(hne _ (by omega)).symm, (hne _ (by omega)).symm, (hne _ (by omega)).symm,
    (hne _ (by omega)).symm⟩

theorem zero_notMem_encoded (bytes : Bytes) : 0 ∉ encoded bytes := by
  have hpad : ∀ n a b d, 0 ∉ (group a b d).take n := fun n a b d h =>
    zero_notMem_group a b d (List.mem_of_mem_take h)
  induction bytes using groups.induct with
  | case1 => exact List.not_mem_nil
  | case2 a => simp [encoded, hpad, equals]
  | case3 a b => simp [encoded, hpad, equals]
  | case4 a b c bytes ih => simp [encoded, zero_notMem_group, ih]

theorem pushString_append_zero {s : Bytes} (h : 0 ∉ s) (rest : Bytes) :
    pushString (s ++ 0 :: rest) = some s := by
  rw [pushString, strlen_append_zero h]
  simp

theorem base64Encode0_eq (served : Bool) (s : Bytes) :
    base64Encode0 served s =
      if served ∧ ((cString s).length = 3 ∨ 5 ≤ (cString s).length) then some (encoded (cString s))
      else none := by
  set str := cString s
  cases served with
  | false => rfl
  | true =>
    by_cases hfits : str.length = 3 ∨ 5 ≤ str.length
    · have hlt : 4 * rounds str < (List.replicate (str.length * 2) (0 : UInt8)).length := by
        rw [List.length_replicate, rounds]
        omega
      have hencode := base64Encode_fits hlt
      rw [if_pos ⟨rfl, hfits⟩, base64Encode0, malloc, if_pos rfl]
      simp only [Option.bind_eq_bind, Option.bind_some]
      rw [hencode]
      exact pushString_append_zero (zero_notMem_encoded str) _
    · have hle : (List.replicate (str.length * 2) (0 : UInt8)).length ≤ 4 * rounds str := by
        rw [List.length_replicate, rounds]
        omega
      rw [if_neg fun h => hfits h.2, base64Encode0, malloc, if_pos rfl]
      simp only [Option.bind_eq_bind, Option.bind_some]
      rw [base64Encode_overflows hle]
      rfl

theorem base64Decode0_encoded (served : Bool) {bytes : Bytes} (hzero : 0 ∉ bytes)
    (hne : bytes ≠ []) :
    base64Decode0 served (encoded bytes) = if served then some bytes else none := by
  cases served with
  | false => rfl
  | true =>
    have hpos : 0 < bytes.length := List.length_pos_iff.mpr hne
    have hroom : bytes.length < (encoded bytes).length * 2 := by
      rw [encoded_length, rounds]
      omega
    obtain ⟨k, hk⟩ := Nat.exists_eq_add_of_lt hroom
    have hbuff : storeAll (List.replicate ((encoded bytes).length * 2) 0) 0 bytes =
        some (bytes ++ 0 :: List.replicate k 0) := by
      rw [storeAll_eq (by rw [List.length_replicate]; omega), hk, List.drop_replicate,
        show bytes.length + k + 1 - (0 + bytes.length) = k + 1 by omega]
      rfl
    rw [base64Decode0, cString_eq (zero_notMem_encoded bytes), malloc, if_pos rfl]
    simp only [base64Decode, decodeLoop_encoded, hbuff, Option.bind_eq_bind, Option.bind_some,
      Option.map_some, if_true]
    exact pushString_append_zero hzero _

def roundTrip (encodeServed decodeServed : Bool) (s : Bytes) : Option Bytes :=
  (base64Encode0 encodeServed s).bind (base64Decode0 decodeServed)

theorem roundTrip_eq (encodeServed decodeServed : Bool) (s : Bytes) :
    roundTrip encodeServed decodeServed s =
      if encodeServed ∧ decodeServed ∧ ((cString s).length = 3 ∨ 5 ≤ (cString s).length)
      then some (cString s) else none := by
  rw [roundTrip, base64Encode0_eq]
  by_cases h : encodeServed ∧ ((cString s).length = 3 ∨ 5 ≤ (cString s).length)
  · have hne : cString s ≠ [] := by
      intro hnil
      have hlen := h.2
      rw [hnil, List.length_nil] at hlen
      omega
    rw [if_pos h, Option.bind_some, base64Decode0_encoded decodeServed (not_mem_cString s) hne]
    simp only [h, true_and, and_true]
  · rw [if_neg h, if_neg fun h' => h ⟨h'.1, h'.2.2⟩]
    rfl

/-- The string comes back, with every store inside the buffers, in exactly these cases. -/
theorem roundTrip_iff (encodeServed decodeServed : Bool) (s : Bytes) :
    roundTrip encodeServed decodeServed s = some s ↔
      encodeServed ∧ decodeServed ∧ 0 ∉ s ∧ (s.length = 3 ∨ 5 ≤ s.length) := by
  rw [roundTrip_eq]
  constructor
  · intro h
    split at h
    · rename_i hright
      have hsame : cString s = s := Option.some.inj h
      rw [hsame] at hright
      exact ⟨hright.1, hright.2.1, hsame ▸ not_mem_cString s, hright.2.2⟩
    · cases h
  · rintro ⟨hencode, hdecode, hzero, hlength⟩
    rw [cString_eq hzero, if_pos ⟨hencode, hdecode, hlength⟩]

/-- Two bytes take four characters and a terminator, in a buffer of four; a NUL ends the string
that is encoded. -/
theorem roundTrip_fails :
    roundTrip true true [77, 97] = none ∧
      roundTrip true true [77, 97, 110, 0, 33] = some [77, 97, 110] := by
  rw [roundTrip_eq, roundTrip_eq]
  decide

end Esp32Project.Utils
