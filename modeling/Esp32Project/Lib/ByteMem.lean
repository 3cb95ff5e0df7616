import Mathlib.Logic.Function.Basic

/-! Byte-addressed memory: little-endian 16-bit fields and block stores. -/

set_option autoImplicit false

namespace Esp32Project.Lib

abbrev ByteMem := Nat → UInt8

/-- `len` bytes at `dst` become those that `f` counts off. -/
def ByteMem.store (m : ByteMem) (dst len : Nat) (f : Nat → UInt8) : ByteMem :=
  fun a => if dst ≤ a ∧ a < dst + len then f (a - dst) else m a

/-- NOR flash programs a byte to the bits it and the new byte share. -/
def ByteMem.program (f : ByteMem) (a len : Nat) (src : Nat → UInt8) : ByteMem :=
  f.store a len (fun i => f (a + i) &&& src i)

def ByteMem.read16 (m : ByteMem) (a : Nat) : Nat := (m a).toNat + 256 * (m (a + 1)).toNat

def ByteMem.write8 (m : ByteMem) (a : Nat) (v : UInt8) : ByteMem := Function.update m a v

def ByteMem.write16 (m : ByteMem) (a v : Nat) : ByteMem :=
  (m.write8 a (UInt8.ofNat v)).write8 (a + 1) (UInt8.ofNat (v / 256))

namespace ByteMem

variable (m : ByteMem) {a b v : Nat}

theorem store_inside {dst len : Nat} {f : Nat → UInt8} (hlo : dst ≤ a)
    (hhi : a < dst + len) : m.store dst len f a = f (a - dst) := by
  simp [store, hlo, hhi]

theorem store_outside {dst len : Nat} {f : Nat → UInt8} (h : a < dst ∨ dst + len ≤ a) :
    m.store dst len f a = m a := by
  unfold store
  rw [if_neg (by omega)]

@[simp] theorem store_zero {dst : Nat} {f : Nat → UInt8} : m.store dst 0 f = m := by
  funext a
  exact m.store_outside (by omega)

theorem store_congr (dst : Nat) {len : Nat} {f g : Nat → UInt8} (h : ∀ i < len, f i = g i) :
    m.store dst len f = m.store dst len g := by
  funext a
  simp only [store]
  split
  · exact h _ (by omega)
  · rfl

theorem store_eq_of_agree {m' : ByteMem} {dst len : Nat} {f : Nat → UInt8}
    (hin : ∀ i < len, m' (dst + i) = f i)
    (hout : ∀ b, b < dst ∨ dst + len ≤ b → m' b = m b) : m' = m.store dst len f := by
  funext b
  by_cases hb : b < dst ∨ dst + len ≤ b
  · rw [m.store_outside hb, hout b hb]
  · obtain ⟨i, rfl⟩ : ∃ i, b = dst + i := ⟨b - dst, by omega⟩
    rw [m.store_inside (by omega) (by omega), Nat.add_sub_cancel_left, hin i (by omega)]

theorem program_apply {len : Nat} {src : Nat → UInt8} :
    m.program a len src b =
      if a ≤ b ∧ b < a + len then m b &&& src (b - a) else m b := by
  unfold program store
  split
  · change m (a + (b - a)) &&& src (b - a) = _
    rw [Nat.add_sub_cancel' (by omega)]
  · rfl

@[simp] theorem program_zero {src : Nat → UInt8} : m.program a 0 src = m := m.store_zero

theorem program_append {len len' : Nat} {src : Nat → UInt8} :
    (m.program a len src).program (a + len) len' (fun i => src (len + i)) =
      m.program a (len + len') src := by
  funext b
  simp only [program_apply]
  by_cases h₁ : a ≤ b ∧ b < a + len
  · rw [if_neg (by omega), if_pos h₁, if_pos (by omega)]
  · by_cases h₂ : a + len ≤ b ∧ b < a + len + len'
    · rw [if_pos h₂, if_neg h₁, if_pos (by omega), show len + (b - (a + len)) = b - a by omega]
    · rw [if_neg h₂, if_neg h₁, if_neg (by omega)]

/-- A word in which only some bytes differ is programmed in those only. -/
theorem program_patch {i k w : Nat} {src src' : Nat → UInt8} (hw : i + k ≤ w)
    (hin : ∀ j < k, src' (i + j) = src j)
    (hout : ∀ j < w, j < i ∨ i + k ≤ j → src' j = m (a + j)) :
    m.program a w src' = m.program (a + i) k src := by
  funext b
  simp only [program_apply]
  by_cases h₁ : a + i ≤ b ∧ b < a + i + k
  · rw [if_pos (by omega), if_pos h₁, show b - a = i + (b - (a + i)) by omega,
      hin _ (by omega)]
  · rw [if_neg h₁]
    split
    · rw [hout _ (by omega) (by omega), Nat.add_sub_cancel' (by omega), UInt8.and_self]
    · rfl

theorem program_congr {len : Nat} {src src' : Nat → UInt8} (h : ∀ i < len, src i = src' i) :
    m.program a len src = m.program a len src' := by
  funext b
  simp only [program_apply]
  split
  · rw [h _ (by omega)]
  · rfl

theorem write8_same {w : UInt8} : m.write8 a w a = w := by simp [write8]

theorem write8_other {w : UInt8} (h : b ≠ a) : m.write8 a w b = m b := by simp [write8, h]

theorem write16_other (h₀ : b ≠ a) (h₁ : b ≠ a + 1) : m.write16 a v b = m b := by
  simp [write16, write8, h₀, h₁]

theorem read16_write16_same (h : v < 65536) : (m.write16 a v).read16 a = v := by
  have hl : (UInt8.ofNat v).toNat = v % 256 := by simp
  have hh : (UInt8.ofNat (v / 256)).toNat = v / 256 % 256 := by simp
  simp only [read16, write16, write8, Function.update_self, ne_eq, Nat.left_eq_add,
    Nat.one_ne_zero, not_false_eq_true, Function.update_of_ne, hl, hh]
  omega

theorem read16_write16_apart (h : a + 2 ≤ b ∨ b + 2 ≤ a) :
    (m.write16 a v).read16 b = m.read16 b := by
  simp only [read16]
  rw [m.write16_other (by omega) (by omega), m.write16_other (by omega) (by omega)]

theorem read16_write8_apart {w : UInt8} (h : a < b ∨ b + 2 ≤ a) :
    (m.write8 a w).read16 b = m.read16 b := by
  simp only [read16]
  rw [m.write8_other (by omega), m.write8_other (by omega)]

theorem read16_lt : m.read16 a < 65536 := by
  have h₀ := (m a).toNat_lt
  have h₁ := (m (a + 1)).toNat_lt
  simp only [read16]
  omega

end ByteMem

end Esp32Project.Lib
