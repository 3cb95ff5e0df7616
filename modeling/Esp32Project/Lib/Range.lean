import Mathlib.Logic.Basic

/-! Half-open address ranges, given by their first address and their length. -/

set_option autoImplicit false

namespace Esp32Project.Lib

/-- `[a, a + m)` and `[b, b + n)` have no address in common. -/
def Apart (a m b n : Nat) : Prop := a + m ≤ b ∨ b + n ≤ a

instance (a m b n : Nat) : Decidable (Apart a m b n) := by
  unfold Apart; infer_instance

theorem Apart.symm {a m b n : Nat} (h : Apart a m b n) : Apart b n a m := Or.symm h

theorem Apart.shrink {a m b n a' m' : Nat} (h : Apart a m b n) (hlo : a ≤ a')
    (hhi : a' + m' ≤ a + m) : Apart a' m' b n := by
  unfold Apart at *; omega

end Esp32Project.Lib
