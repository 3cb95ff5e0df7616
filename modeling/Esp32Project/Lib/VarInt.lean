import Mathlib.Algebra.Group.Nat.Defs

/-! Numbers in bytes of seven bits, lowest first, all but the last marked by their high bit. -/

set_option autoImplicit false

namespace Esp32Project.Lib

/-- `n` in at most `k + 1` bytes. -/
def varInt : Nat → Nat → List UInt8
  | 0, n => [UInt8.ofNat n]
  | k + 1, n =>
    if n < 128 then [UInt8.ofNat n] else UInt8.ofNat (n % 128 + 128) :: varInt k (n / 128)

theorem varInt_length_pos (k n : Nat) : 0 < (varInt k n).length := by
  cases k with
  | zero => simp [varInt]
  | succ k =>
    rw [varInt]
    split <;> simp

theorem varInt_length_le (k n : Nat) : (varInt k n).length ≤ k + 1 := by
  induction k generalizing n with
  | zero => simp [varInt]
  | succ k ih =>
    rw [varInt]
    split
    · simp
    · have := ih (n / 128)
      simp
      omega

theorem varInt_small (k : Nat) {n : Nat} (h : n < 128) : varInt k n = [UInt8.ofNat n] := by
  cases k with
  | zero => rfl
  | succ k => simp [varInt, h]

theorem varInt_large (k : Nat) {n : Nat} (h : 128 ≤ n) :
    varInt (k + 1) n = UInt8.ofNat (n % 128 + 128) :: varInt k (n / 128) := by
  rw [varInt, if_neg (by omega)]

/-! The seven bits of a byte, and its mark. -/

theorem last_byte {d : Nat} (h : d < 128) :
    (UInt8.ofNat d &&& 0x7f).toNat = d ∧ UInt8.ofNat d &&& 0x80 = 0 := by
  have all : ∀ d : Fin 128, (UInt8.ofNat d &&& 0x7f).toNat = d ∧ UInt8.ofNat d &&& 0x80 = 0 := by
    decide +kernel
  exact all ⟨d, h⟩

theorem marked_byte {d : Nat} (h : d < 128) :
    (UInt8.ofNat (d + 128) &&& 0x7f).toNat = d ∧ UInt8.ofNat (d + 128) &&& 0x80 ≠ 0 := by
  have all : ∀ d : Fin 128, (UInt8.ofNat (d + 128) &&& 0x7f).toNat = d ∧
      UInt8.ofNat (d + 128) &&& 0x80 ≠ 0 := by decide +kernel
  exact all ⟨d, h⟩

def readVarInt : Nat → List UInt8 → Option (Nat × List UInt8)
  | _, [] => none
  | 0, b :: bs => if b.toNat < 128 then some (b.toNat, bs) else none
  | k + 1, b :: bs =>
    if b.toNat < 128 then some (b.toNat, bs)
    else (readVarInt k bs).map fun (n, rest) => (b.toNat % 128 + 128 * n, rest)

theorem readVarInt_varInt (k : Nat) {n : Nat} (h : n < 128 ^ (k + 1)) (rest : List UInt8) :
    readVarInt k (varInt k n ++ rest) = some (n, rest) := by
  have small {k m : Nat} (hm : m < 128) :
      readVarInt k (UInt8.ofNat m :: rest) = some (m, rest) := by
    have hbyte : (UInt8.ofNat m).toNat = m := by
      rw [UInt8.toNat_ofNat']
      omega
    cases k <;> simp only [readVarInt, hbyte, hm, if_true]
  induction k generalizing n with
  | zero =>
    have hn : n < 128 := by simpa using h
    rw [varInt_small 0 hn, List.singleton_append, small hn]
  | succ k ih =>
    rcases Nat.lt_or_ge n 128 with hn | hn
    · rw [varInt_small _ hn, List.singleton_append, small hn]
    · have hdiv : n / 128 < 128 ^ (k + 1) := by
        rw [Nat.div_lt_iff_lt_mul (by decide)]
        simpa [Nat.pow_succ] using h
      have hbyte : (UInt8.ofNat (n % 128 + 128)).toNat = n % 128 + 128 := by
        rw [UInt8.toNat_ofNat']
        omega
      rw [varInt_large _ hn, List.cons_append, readVarInt, hbyte, if_neg (by omega), ih hdiv]
      simp only [Option.map_some, Nat.add_mod_right, Nat.mod_mod, Nat.mod_add_div]

end Esp32Project.Lib
