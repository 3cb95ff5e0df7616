import Mathlib.Data.List.Basic
import Mathlib.Data.UInt

/-!
The sets of bytes of LPeg: 32 bytes with a bit for each character, and
`charsettype`, which finds the empty set, the full set and the sets of one
character by a pass over the bytes.
-/

set_option autoImplicit false

namespace Esp32Project.Lpeg

structure Charset where
  cs : List UInt8
  size : cs.length = 32
deriving DecidableEq

/-- The byte of the set with the bit of a character, and the bit. -/
def testchar (st : Charset) (c : UInt8) : Bool :=
  st.cs.getD (c >>> 3).toNat 0 &&& (1 <<< (c &&& 7)) ≠ 0

theorem ones_size : (List.replicate 32 (0xFF : UInt8)).length = 32 := List.length_replicate

theorem zeros_size : (List.replicate 32 (0 : UInt8)).length = 32 := List.length_replicate

def fullset : Charset := ⟨List.replicate 32 0xFF, ones_size⟩

def emptyset : Charset := ⟨List.replicate 32 0, zeros_size⟩

def setchar (st : Charset) (c : UInt8) : Charset :=
  ⟨st.cs.modify (c >>> 3).toNat (· ||| 1 <<< (c &&& 7)), by rw [List.length_modify, st.size]⟩

def csComplement (st : Charset) : Charset :=
  ⟨st.cs.map (~~~ ·), by rw [List.length_map, st.size]⟩

/-- The sets byte by byte, under `|` or `&`. -/
def csZip (op : UInt8 → UInt8 → UInt8) (st st' : Charset) : Charset :=
  ⟨List.zipWith op st.cs st'.cs, by rw [List.length_zipWith, st.size, st'.size]; rfl⟩

def csUnion : Charset → Charset → Charset := csZip (· ||| ·)

def csInter : Charset → Charset → Charset := csZip (· &&& ·)

def csDisjoint (st st' : Charset) : Bool :=
  (List.zipWith (· &&& ·) st.cs st'.cs).all (· == 0)

/-- What `charsettype` returns: the opcode, with the character of a set of one. -/
inductive CharsetType where
  | fail
  | char (c : UInt8)
  | any
  | set
deriving DecidableEq, Repr

def bitOf (b : UInt8) : UInt8 :=
  let (c, b) := if b &&& 0xF0 ≠ 0 then ((4 : UInt8), b >>> 4) else (0, b)
  let (c, b) := if b &&& 0x0C ≠ 0 then (c + 2, b >>> 2) else (c, b)
  if b &&& 0x02 ≠ 0 then c + 1 else c

/-- The loop over the bytes; `candidate` is the position of the byte with one bit, and that byte. -/
def charsettypeFrom : List UInt8 → Nat → Nat → Nat × UInt8 → CharsetType
  | [], _, count, candidate =>
    match count with
    | 0 => .fail
    | 1 => .char (UInt8.ofNat (candidate.1 * 8) + bitOf candidate.2)
    | _ => .any
  | b :: bs, i, count, candidate =>
    if b = 0 then
      if count > 1 then .set else charsettypeFrom bs (i + 1) count candidate
    else if b = 0xFF then
      if count < i * 8 then .set else charsettypeFrom bs (i + 1) (count + 8) candidate
    else if b &&& (b - 1) = 0 then
      if count > 0 then .set else charsettypeFrom bs (i + 1) (count + 1) (i, b)
    else .set

def charsettype (st : Charset) : CharsetType :=
  charsettypeFrom st.cs 0 0 (0, 0)

example : charsettype (setchar emptyset 97) = .char 97 := by decide +kernel

theorem bits_checked : ∀ (b : Fin 256) (k : Fin 8),
    UInt8.ofNat b &&& (1 <<< UInt8.ofNat k) ≠ 0 ↔ b.val.testBit k := by
  decide +kernel

theorem nots_checked : ∀ (b : Fin 256) (k : Fin 8),
    (~~~UInt8.ofNat b).toNat.testBit k = !b.val.testBit k := by
  decide +kernel

/-- A byte other than 0 without the bit that `b &&& (b - 1)` leaves has one bit, at `bitOf`. -/
theorem single_checked : ∀ (b : Fin 256) (k : Fin 8), UInt8.ofNat b ≠ 0 →
    UInt8.ofNat b &&& (UInt8.ofNat b - 1) = 0 →
      (b.val.testBit k ↔ k.val = (bitOf (UInt8.ofNat b)).toNat) := by
  decide +kernel

theorem bitOf_checked : ∀ b : Fin 256, (bitOf (UInt8.ofNat b)).toNat < 8 := by
  decide +kernel

theorem low_checked : ∀ c : Fin 256, UInt8.ofNat c &&& 7 = UInt8.ofNat (c.val % 8) ∧
    (UInt8.ofNat c >>> 3).toNat = c.val / 8 := by
  decide +kernel

section

variable {st st' : Charset} {c d : UInt8}

theorem byte_index_lt (st : Charset) (c : UInt8) : c.toNat / 8 < st.cs.length := by
  have := c.toNat_lt
  rw [st.size]
  omega

theorem testchar_eq : testchar st c =
    (st.cs.getD (c.toNat / 8) 0).toNat.testBit (c.toNat % 8) := by
  have hlow := low_checked ⟨c.toNat, c.toNat_lt⟩
  have hbits := bits_checked ⟨(st.cs.getD (c.toNat / 8) 0).toNat, UInt8.toNat_lt _⟩
    ⟨c.toNat % 8, Nat.mod_lt _ (by decide)⟩
  simp only [UInt8.ofNat_toNat] at hlow hbits
  rw [testchar, hlow.1, hlow.2]
  rw [Bool.eq_iff_iff, decide_eq_true_iff]
  exact hbits

@[simp] theorem testchar_full : testchar fullset c = true := by
  have hlt := c.toNat_lt
  rw [testchar_eq, fullset, List.getD_eq_getElem?_getD, List.getElem?_replicate_of_lt (by omega)]
  have all : ∀ k : Fin 8, (0xFF : UInt8).toNat.testBit k = true := by decide
  exact all ⟨c.toNat % 8, Nat.mod_lt _ (by decide)⟩

@[simp] theorem testchar_empty : testchar emptyset c = false := by
  have hlt := c.toNat_lt
  rw [testchar_eq, emptyset, List.getD_eq_getElem?_getD, List.getElem?_replicate_of_lt (by omega)]
  exact Nat.zero_testBit _

@[simp] theorem testchar_complement : testchar (csComplement st) c = !testchar st c := by
  have hlt := byte_index_lt st c
  have hnot := nots_checked ⟨(st.cs.getD (c.toNat / 8) 0).toNat, UInt8.toNat_lt _⟩
    ⟨c.toNat % 8, Nat.mod_lt _ (by decide)⟩
  simp only [UInt8.ofNat_toNat] at hnot
  rw [testchar_eq, testchar_eq, ← hnot, csComplement, List.getD_eq_getElem?_getD, List.getElem?_map,
    List.getD_eq_getElem?_getD, List.getElem?_eq_getElem hlt]
  rfl

theorem testchar_zip {op : UInt8 → UInt8 → UInt8} {bop : Bool → Bool → Bool}
    (hop : ∀ a b k, (op a b).toNat.testBit k = bop (a.toNat.testBit k) (b.toNat.testBit k)) :
    testchar (csZip op st st') c = bop (testchar st c) (testchar st' c) := by
  have hlt := byte_index_lt st c
  have hlt' := byte_index_lt st' c
  rw [testchar_eq, testchar_eq, testchar_eq, csZip]
  simp only [List.getD_eq_getElem?_getD, List.getElem?_zipWith, List.getElem?_eq_getElem hlt,
    List.getElem?_eq_getElem hlt', Option.getD_some]
  exact hop _ _ _

@[simp] theorem testchar_union :
    testchar (csUnion st st') c = (testchar st c || testchar st' c) :=
  testchar_zip fun a b k => by rw [UInt8.toNat_or, Nat.testBit_or]

@[simp] theorem testchar_inter :
    testchar (csInter st st') c = (testchar st c && testchar st' c) :=
  testchar_zip fun a b k => by rw [UInt8.toNat_and, Nat.testBit_and]

theorem csDisjoint_not (h : csDisjoint st st' = true) (hc : testchar st c = true) :
    testchar st' c = false := by
  have hlt := byte_index_lt st c
  have hlt' := byte_index_lt st' c
  have hbyte : (List.zipWith (· &&& ·) st.cs st'.cs)[c.toNat / 8]? =
      some (st.cs[c.toNat / 8] &&& st'.cs[c.toNat / 8]) := by
    rw [List.getElem?_zipWith, List.getElem?_eq_getElem hlt, List.getElem?_eq_getElem hlt']
  have hinter : testchar (csInter st st') c = false := by
    rw [csDisjoint, List.all_eq_true] at h
    have hzero := h _ (List.mem_of_getElem? hbyte)
    rw [testchar_eq, csInter, csZip, List.getD_eq_getElem?_getD, hbyte, Option.getD_some,
      eq_of_beq hzero]
    exact Nat.zero_testBit _
  rw [testchar_inter, hc, Bool.true_and] at hinter
  exact hinter

@[simp] theorem testchar_single : testchar (setchar emptyset c) d = decide (d = c) := by
  have hlow := low_checked ⟨c.toNat, c.toNat_lt⟩
  have one : ∀ k l : Fin 8,
      (1 <<< UInt8.ofNat k : UInt8).toNat.testBit l = decide (l.val = k.val) := by decide
  have hone := one ⟨c.toNat % 8, Nat.mod_lt _ (by decide)⟩ ⟨d.toNat % 8, Nat.mod_lt _ (by decide)⟩
  simp only [UInt8.ofNat_toNat] at hlow
  have hlt := d.toNat_lt
  have heq : d = c ↔ d.toNat = c.toNat := UInt8.toNat_inj.symm
  rw [testchar_eq]
  simp only [setchar, emptyset, hlow.1, hlow.2, List.getD_eq_getElem?_getD, List.getElem?_modify]
  rw [List.getElem?_replicate_of_lt (by omega)]
  by_cases hbyte : c.toNat / 8 = d.toNat / 8
  · simp only [hbyte, if_true, Option.map_eq_map, Option.map_some, Option.getD_some,
      UInt8.zero_or, hone, decide_eq_decide, heq]
    omega
  · simp only [if_neg hbyte, Option.map_eq_map, Option.map_some, Option.getD_some]
    rw [UInt8.toNat_zero, Nat.zero_testBit, eq_comm, decide_eq_false_iff_not, heq]
    omega

def Classified (bytes : List UInt8) : CharsetType → Prop
  | .fail => ∀ (j : Nat) (b : UInt8), bytes[j]? = some b → b = 0
  | .char c => ∃ (j : Nat) (b : UInt8), bytes[j]? = some b ∧ b ≠ 0 ∧ b &&& (b - 1) = 0 ∧
      (∀ (k : Nat) (b' : UInt8), bytes[k]? = some b' → k ≠ j → b' = 0) ∧
        c = UInt8.ofNat (j * 8) + bitOf b
  | .any => ∀ (j : Nat) (b : UInt8), bytes[j]? = some b → b = 0xFF
  | .set => True

/-- The bytes that the loop has passed: all empty, one with one bit, or all full. -/
inductive Scanned (bytes : List UInt8) : Nat → Nat × UInt8 → Prop where
  | empty {candidate : Nat × UInt8} (zeros : ∀ (j : Nat) (b : UInt8), bytes[j]? = some b → b = 0) :
      Scanned bytes 0 candidate
  | single {j : Nat} {b : UInt8} (found : bytes[j]? = some b) (nonzero : b ≠ 0)
      (one : b &&& (b - 1) = 0)
      (others : ∀ (k : Nat) (b' : UInt8), bytes[k]? = some b' → k ≠ j → b' = 0) :
      Scanned bytes 1 (j, b)
  | full {count : Nat} {candidate : Nat × UInt8} (nonempty : bytes ≠ [])
      (size : count = bytes.length * 8)
      (ones : ∀ (j : Nat) (b : UInt8), bytes[j]? = some b → b = 0xFF) :
      Scanned bytes count candidate

theorem getElem?_snoc {bytes : List UInt8} {b b' : UInt8} {j : Nat}
    (h : (bytes ++ [b])[j]? = some b') :
    bytes[j]? = some b' ∨ (j = bytes.length ∧ b' = b) := by
  rw [List.getElem?_append] at h
  split at h
  · exact .inl h
  · have hj : j - bytes.length = 0 := by
      by_contra hne
      rw [List.getElem?_eq_none (by simp; omega)] at h
      cases h
    rw [hj] at h
    exact .inr ⟨by omega, (Option.some.inj h).symm⟩

theorem Scanned.zero {bytes : List UInt8} {count : Nat} {candidate : Nat × UInt8}
    (h : Scanned bytes count candidate) (hcount : ¬1 < count) :
    Scanned (bytes ++ [0]) count candidate := by
  cases h with
  | empty zeros =>
    refine .empty fun j b hb => ?_
    obtain hold | ⟨-, rfl⟩ := getElem?_snoc hb
    · exact zeros j b hold
    · rfl
  | @single j b found nonzero one others =>
    refine .single ?_ nonzero one fun k b' hb hk => ?_
    · rw [List.getElem?_append_left (List.getElem?_eq_some_iff.mp found).1, found]
    · obtain hold | ⟨-, rfl⟩ := getElem?_snoc hb
      · exact others k b' hold hk
      · rfl
  | full nonempty size ones =>
    have := List.length_pos_iff.mpr nonempty
    omega

theorem Scanned.ones {bytes : List UInt8} {count : Nat} {candidate : Nat × UInt8}
    (h : Scanned bytes count candidate) (hcount : ¬count < bytes.length * 8) :
    Scanned (bytes ++ [0xFF]) (count + 8) candidate := by
  have hall (hones : ∀ (j : Nat) (b : UInt8), bytes[j]? = some b → b = 0xFF) :
      ∀ (j : Nat) (b : UInt8), (bytes ++ [0xFF])[j]? = some b → b = 0xFF := fun j b hb => by
    obtain hold | ⟨-, rfl⟩ := getElem?_snoc hb
    · exact hones j b hold
    · rfl
  have hsize (hcount : count = bytes.length * 8) : count + 8 = (bytes ++ [0xFF]).length * 8 := by
    rw [List.length_append, List.length_singleton]
    omega
  cases h with
  | empty zeros =>
    obtain rfl : bytes = [] := List.length_eq_zero_iff.mp (by omega)
    exact .full (by simp) rfl (hall fun j b hb => by cases hb)
  | single found =>
    have := (List.getElem?_eq_some_iff.mp found).1
    omega
  | full nonempty size ones => exact .full (by simp) (hsize size) (hall ones)

theorem Scanned.one {bytes : List UInt8} {candidate : Nat × UInt8} {b : UInt8}
    (h : Scanned bytes 0 candidate) (hb : b ≠ 0) (hone : b &&& (b - 1) = 0) :
    Scanned (bytes ++ [b]) 1 (bytes.length, b) := by
  cases h with
  | empty zeros =>
    refine .single List.getElem?_concat_length hb hone fun k b' hb' hk => ?_
    obtain hold | ⟨heq, -⟩ := getElem?_snoc hb'
    · exact zeros k b' hold
    · exact absurd heq hk
  | full nonempty size ones =>
    have := List.length_pos_iff.mpr nonempty
    omega

theorem Scanned.classified {bytes : List UInt8} {count : Nat} {candidate : Nat × UInt8}
    (h : Scanned bytes count candidate) :
    Classified bytes (charsettypeFrom [] bytes.length count candidate) := by
  cases h with
  | empty zeros => exact zeros
  | single found nonzero one others => exact ⟨_, _, found, nonzero, one, others, rfl⟩
  | full nonempty size ones =>
    have hpos := List.length_pos_iff.mpr nonempty
    obtain ⟨n, rfl⟩ : ∃ n, count = n + 2 := ⟨count - 2, by omega⟩
    exact ones

theorem charsettypeFrom_classified {bytes rest : List UInt8} {count : Nat}
    {candidate : Nat × UInt8} (h : Scanned bytes count candidate) :
    Classified (bytes ++ rest) (charsettypeFrom rest bytes.length count candidate) := by
  induction rest generalizing bytes count candidate with
  | nil =>
    rw [List.append_nil]
    exact h.classified
  | cons b rest ih =>
    have next {count : Nat} {candidate : Nat × UInt8} (h : Scanned (bytes ++ [b]) count candidate) :
        Classified (bytes ++ b :: rest)
          (charsettypeFrom rest (bytes.length + 1) count candidate) := by
      have := ih h
      rwa [List.append_assoc, List.singleton_append, List.length_append,
        List.length_singleton] at this
    rw [charsettypeFrom]
    by_cases hzero : b = 0
    · subst hzero
      rw [if_pos rfl]
      by_cases hcount : 1 < count
      · rw [if_pos hcount]
        exact True.intro
      · rw [if_neg hcount]
        exact next (h.zero hcount)
    rw [if_neg hzero]
    by_cases hones : b = 0xFF
    · subst hones
      rw [if_pos rfl]
      by_cases hcount : count < bytes.length * 8
      · rw [if_pos hcount]
        exact True.intro
      · rw [if_neg hcount]
        exact next (h.ones hcount)
    rw [if_neg hones]
    by_cases hone : b &&& (b - 1) = 0
    · rw [if_pos hone]
      by_cases hcount : 0 < count
      · rw [if_pos hcount]
        exact True.intro
      · obtain rfl : count = 0 := by omega
        rw [if_neg hcount]
        exact next (h.one hzero hone)
    · rw [if_neg hone]
      exact True.intro

variable (st) in
theorem charsettype_eq : match charsettype st with
    | .fail => ∀ d, testchar st d = false
    | .char c => ∀ d, testchar st d = decide (d = c)
    | .any => ∀ d, testchar st d = true
    | .set => True := by
  have hclass : Classified st.cs (charsettype st) := by
    have hempty : Scanned [] 0 (0, 0) := .empty fun j b hb => by cases hb
    exact charsettypeFrom_classified hempty
  have hbyte (d : UInt8) : ∃ b, st.cs[d.toNat / 8]? = some b ∧
      testchar st d = b.toNat.testBit (d.toNat % 8) := by
    have hget := List.getElem?_eq_getElem (byte_index_lt st d)
    exact ⟨_, hget, by rw [testchar_eq, List.getD_eq_getElem?_getD, hget, Option.getD_some]⟩
  cases htype : charsettype st with
  | fail =>
    intro d
    obtain ⟨b, hb, htest⟩ := hbyte d
    rw [htype] at hclass
    rw [htest, hclass _ _ hb]
    exact Nat.zero_testBit _
  | any =>
    intro d
    obtain ⟨b, hb, htest⟩ := hbyte d
    have all : ∀ k : Fin 8, (0xFF : UInt8).toNat.testBit k = true := by decide
    rw [htype] at hclass
    rw [htest, hclass _ _ hb]
    exact all ⟨d.toNat % 8, Nat.mod_lt _ (by decide)⟩
  | set => exact True.intro
  | char c =>
    intro d
    obtain ⟨b', hb', htest⟩ := hbyte d
    rw [htype] at hclass
    obtain ⟨j, b, hb, hzero, hone, hothers, rfl⟩ := hclass
    have hj : j < 32 := st.size ▸ (List.getElem?_eq_some_iff.mp hb).1
    have hbit := bitOf_checked ⟨b.toNat, b.toNat_lt⟩
    have hsingle := single_checked ⟨b.toNat, b.toNat_lt⟩ ⟨d.toNat % 8, Nat.mod_lt _ (by decide)⟩
    simp only [UInt8.ofNat_toNat] at hbit hsingle
    have hchar : (UInt8.ofNat (j * 8) + bitOf b).toNat = j * 8 + (bitOf b).toNat := by
      rw [UInt8.toNat_add, UInt8.toNat_ofNat']
      omega
    have heq : d = UInt8.ofNat (j * 8) + bitOf b ↔ d.toNat = j * 8 + (bitOf b).toNat := by
      rw [← UInt8.toNat_inj, hchar]
    by_cases hk : d.toNat / 8 = j
    · obtain rfl : b = b' := Option.some.inj (hb.symm.trans (hk ▸ hb'))
      rw [htest, Bool.eq_iff_iff, hsingle hzero hone, decide_eq_true_iff, heq]
      omega
    · rw [htest, hothers _ _ hb' hk, UInt8.toNat_zero, Nat.zero_testBit, eq_comm,
        decide_eq_false_iff_not, heq]
      omega

end

end Esp32Project.Lpeg
