import Mathlib.Data.Option.Basic

/-! A stream of frames, each of which says where it ends. -/

set_option autoImplicit false

namespace Esp32Project.Lib

variable {α β : Type}

/-- At most `fuel` frames, up to the end of the stream. -/
def readFrames (read : List α → Option (β × List α)) : Nat → List α → Option (List β)
  | _, [] => some []
  | 0, _ :: _ => none
  | fuel + 1, a :: as => do
    let (b, rest) ← read (a :: as)
    return b :: (← readFrames read fuel rest)

/-- A frame takes at least one element of the stream. -/
def readStream (read : List α → Option (β × List α)) (stream : List α) : Option (List β) :=
  readFrames read stream.length stream

theorem readFrames_flatMap {read : List α → Option (β × List α)} {write : β → List α}
    {frames : List β} (hread : ∀ b ∈ frames, ∀ rest, read (write b ++ rest) = some (b, rest))
    (hne : ∀ b ∈ frames, write b ≠ []) {fuel : Nat} (hfuel : (frames.flatMap write).length ≤ fuel) :
    readFrames read fuel (frames.flatMap write) = some frames := by
  induction frames generalizing fuel with
  | nil => cases fuel <;> rfl
  | cons b frames ih =>
    have hb := hread b List.mem_cons_self (frames.flatMap write)
    obtain ⟨a, as, hwrite⟩ := List.exists_cons_of_ne_nil (hne b List.mem_cons_self)
    rw [List.flatMap_cons, hwrite, List.cons_append] at hfuel ⊢
    rw [hwrite, List.cons_append] at hb
    obtain ⟨n, rfl⟩ : ∃ n, fuel = n + 1 := ⟨fuel - 1, by rw [List.length_cons] at hfuel; omega⟩
    have hrest : readFrames read n (frames.flatMap write) = some frames := by
      refine ih (fun b' h => hread b' (List.mem_cons_of_mem b h))
        (fun b' h => hne b' (List.mem_cons_of_mem b h)) ?_
      rw [List.length_cons, List.length_append] at hfuel
      omega
    simp only [readFrames, hb, hrest, Option.bind_eq_bind, Option.bind_some]
    rfl

theorem readStream_flatMap {read : List α → Option (β × List α)} {write : β → List α}
    {frames : List β} (hread : ∀ b ∈ frames, ∀ rest, read (write b ++ rest) = some (b, rest))
    (hne : ∀ b ∈ frames, write b ≠ []) : readStream read (frames.flatMap write) = some frames :=
  readFrames_flatMap hread hne (Nat.le_refl _)

end Esp32Project.Lib
