import Esp32Project.Flash.Transfer

/-! A write of any range programs exactly that range. -/

set_option autoImplicit false

namespace Esp32Project.Flash
open Esp32Project.Lib

section

variable {e : Env} {flashSize : Nat} {m : Machine}

/-- Patching a word programs the patched bytes only. -/
theorem patchWord_spec (m : Machine) (k size : Nat) {src len i stop temp : Nat}
    (hh : Healthy e flashSize)
    (hm : Mallocs e src len) (hl : Locals e src len) (ht : temp % blksize = 0)
    (hin : temp + blksize ≤ flashSize) (his : i ≤ stop) (hstop : stop ≤ blksize)
    (hk : k + min size (stop - i) ≤ len) :
    ∃ m', patchWord e m (src + k) temp i stop size = (size - (stop - i), m') ∧
      m'.flash = m.flash.program (temp + i) (min size (stop - i))
        (fun j => m.mem (src + k + j)) ∧
      (∀ j < len, m'.mem (src + j) = m.mem (src + j)) ∧ Made e flashSize m m' := by
  obtain ⟨m₁, hr, hflash, hword, hkeep, hmade⟩ := read_tmpdata (m := m) hh hl ht hin
  have hsrc : ∀ j < len, m₁.mem (src + j) = m.mem (src + j) := by
    have h₁ := hl.tmpdata_buf
    have h₂ := hl.back_buf
    unfold Apart at h₁ h₂
    exact fun j hj => hkeep _ (by omega) (by omega)
  have hap := hl.tmpdata_buf
  unfold Apart at hap
  have hcopy := copyLoop_spec m₁.mem (e.tmpdata + i) (src + k) i stop size
    (by unfold Apart; omega)
  generalize hK : min size (stop - i) = K at *
  obtain ⟨m', hw, hflash', hsrc', hmade'⟩ := platformSFlashWrite_spec
    { m₁ with mem := m₁.mem.store (e.tmpdata + i) K (fun j => m₁.mem (src + k + j)) }
    e.tmpdata hh hm ht (Nat.mod_self _) hin
  dsimp only at hflash' hsrc'
  refine ⟨m', ?_, ?_, fun j hj => ?_, ?_⟩
  · simp only [patchWord, hr, hcopy, hw]
  · rw [hflash', hflash]
    refine ByteMem.program_patch _ (by omega) (fun j hj => ?_) fun j hj hout => ?_
    · rw [Nat.add_assoc, ← hsrc _ (by omega), ← Nat.add_assoc, ← Nat.add_assoc,
        ByteMem.store_inside _ (by omega) (by omega), Nat.add_sub_cancel_left]
    · rw [ByteMem.store_outside _ (by omega), hword j hj]
  · rw [hsrc' j hj, ← hsrc j hj]
    exact ByteMem.store_outside _ (by omega)
  · exact hmade.trans hmade'

theorem writeWords_spec {src len k toaddr temp : Nat} (hh : Healthy e flashSize)
    (hm : Mallocs e src len) (ht : toaddr % blksize = 0) (htemp : temp % blksize = 0)
    (hin : toaddr + temp ≤ flashSize) (hk : k + temp ≤ len) :
    ∃ m', (if temp ≠ 0 then (platformSFlashWrite e m (src + k) toaddr temp).2 else m) = m' ∧
      m'.flash = m.flash.program toaddr temp (fun j => m.mem (src + k + j)) ∧
      (∀ j < len, m'.mem (src + j) = m.mem (src + j)) ∧ Made e flashSize m m' := by
  by_cases hz : temp = 0
  · subst hz
    exact ⟨m, by simp, by simp, fun _ _ => rfl, .refl rfl⟩
  · obtain ⟨m', hw, h⟩ := platformSFlashWrite_spec m (src + k) hh hm ht htemp hin
    exact ⟨m', by rw [if_pos hz, hw], h⟩

theorem writeBlocks_spec (m : Machine) (k toaddr size : Nat) {src len : Nat}
    (hh : Healthy e flashSize)
    (hm : Mallocs e src len) (hl : Locals e src len) (ht : toaddr % blksize = 0)
    (h4 : flashSize % blksize = 0) (hin : toaddr + size ≤ flashSize) (hk : k + size ≤ len) :
    ∃ m', writeBlocks e m (src + k) toaddr size = m' ∧
      m'.flash = m.flash.program toaddr size (fun j => m.mem (src + k + j)) ∧
      Made e flashSize m m' := by
  have hsum := alignDown_add size
  have hmod := alignDown_mod size
  have hrest : size % blksize < blksize := Nat.mod_lt _ (by decide)
  obtain ⟨m₁, hw, hflash, hsrc, hmade⟩ := writeWords_spec (m := m) (k := k) hh hm ht hmod
    (by omega) (by omega)
  have hb : writeBlocks e m (src + k) toaddr size =
      if size % blksize ≠ 0 then (patchWord e m₁ (src + (k + alignDown size))
        (toaddr + alignDown size) 0 (size % blksize) size).2 else m₁ := by
    rw [← hw, writeBlocks]
    by_cases hz : alignDown size = 0
    · simp [hz]
    · simp [hz, Nat.add_assoc]
  rw [hb]
  split
  · have hword : (toaddr + alignDown size) % blksize = 0 := by simp [Nat.add_mod, ht, hmod]
    have hfit : toaddr + alignDown size + blksize ≤ flashSize := by
      simp only [blksize] at *
      omega
    obtain ⟨m₂, hp, hflash₂, -, hmade₂⟩ := patchWord_spec m₁ (k + alignDown size) size
      hh hm hl hword hfit (Nat.zero_le _) (Nat.le_of_lt hrest) (by omega)
    refine ⟨m₂, by rw [hp], ?_, hmade.trans hmade₂⟩
    rw [hflash₂, hflash, Nat.add_zero, Nat.sub_zero, Nat.min_eq_right (Nat.mod_le _ _)]
    calc (m.flash.program toaddr (alignDown size) (fun j => m.mem (src + k + j))).program
          (toaddr + alignDown size) (size % blksize)
          (fun j => m₁.mem (src + (k + alignDown size) + j))
        = (m.flash.program toaddr (alignDown size) (fun j => m.mem (src + k + j))).program
            (toaddr + alignDown size) (size % blksize)
            (fun j => m.mem (src + k + (alignDown size + j))) := by
          refine ByteMem.program_congr _ fun j hj => ?_
          rw [Nat.add_assoc src, hsrc _ (by omega)]
          congr 1
          omega
      _ = m.flash.program toaddr size (fun j => m.mem (src + k + j)) := by
          rw [m.flash.program_append, hsum]
  · refine ⟨m₁, rfl, ?_, hmade⟩
    rw [hflash, show alignDown size = size by omega]

theorem platformFlashWrite_spec {src toaddr size : Nat} (hh : Healthy e flashSize)
    (hm : Mallocs e src size) (hl : Locals e src size)
    (h4 : flashSize % blksize = 0) (hin : toaddr + size ≤ flashSize) :
    ∃ m', platformFlashWrite e m src toaddr size = (size, m') ∧
      m'.flash = m.flash.program toaddr size (fun j => m.mem (src + j)) ∧
      Made e flashSize m m' := by
  by_cases ht : toaddr % blksize = 0
  · obtain ⟨m', hw, h⟩ := writeBlocks_spec m 0 _ _ hh hm hl ht h4 hin (by omega)
    exact ⟨m', by rw [platformFlashWrite, if_neg (not_not.mpr ht), ← hw]; rfl, h⟩
  · have hsum := alignDown_add toaddr
    have hmod := alignDown_mod toaddr
    have hrest : toaddr % blksize < blksize := Nat.mod_lt _ (by decide)
    have hfit : alignDown toaddr + blksize ≤ flashSize := by
      simp only [blksize] at *
      omega
    obtain ⟨m₁, hp, hflash, hsrc, hmade⟩ := patchWord_spec m 0 size hh hm hl
      hmod hfit (Nat.le_of_lt hrest) (Nat.le_refl _) (by omega)
    rw [hsum] at hflash
    simp only [Nat.add_zero] at hp hflash
    rw [platformFlashWrite, if_pos ht]
    simp only [hp]
    split
    · rename_i hz
      refine ⟨m₁, rfl, ?_, hmade⟩
      rw [hflash, Nat.min_eq_left (by omega)]
    · rename_i hz
      have hmin : min size (blksize - toaddr % blksize) = blksize - toaddr % blksize :=
        Nat.min_eq_right (by omega)
      generalize hK : blksize - toaddr % blksize = K at *
      obtain ⟨m₂, hw, hflash₂, hmade₂⟩ := writeBlocks_spec m₁ (size - (size - K))
        (alignDown toaddr + blksize) (size - K) hh hm hl
        (by rw [Nat.add_mod_right, hmod]) h4 (by omega) (by omega)
      refine ⟨m₂, by rw [hw], ?_, hmade.trans hmade₂⟩
      have hk : size - (size - K) = K := by omega
      rw [hflash₂, hflash, hmin, hk, show alignDown toaddr + blksize = toaddr + K by omega]
      calc (m.flash.program toaddr K (fun j => m.mem (src + j))).program (toaddr + K) (size - K)
            (fun j => m₁.mem (src + K + j))
          = (m.flash.program toaddr K (fun j => m.mem (src + j))).program (toaddr + K) (size - K)
            (fun j => m.mem (src + (K + j))) := by
            refine ByteMem.program_congr _ fun j hj => ?_
            rw [Nat.add_assoc src, hsrc _ (by omega)]
        _ = m.flash.program toaddr size (fun j => m.mem (src + j)) := by
            rw [m.flash.program_append, show K + (size - K) = size by omega]

/-- `platform_flash_write` programs each byte of its range to what it shares
with the source, changes no other, and asks nothing improper of the chip. -/
theorem platformFlashWrite_programs (e : Env) (flashSize : Nat) (m : Machine)
    (src toaddr size : Nat) (hh : Healthy e flashSize) (hm : Mallocs e src size)
    (hl : Locals e src size) (h4 : flashSize % blksize = 0) (hin : toaddr + size ≤ flashSize) :
    let m' := (platformFlashWrite e m src toaddr size).2
    (∀ i < size, m'.flash (toaddr + i) = m.flash (toaddr + i) &&& m.mem (src + i)) ∧
      (∀ a, a < toaddr ∨ toaddr + size ≤ a → m'.flash a = m.flash a) ∧
      Made e flashSize m m' := by
  obtain ⟨m', hw, hflash, hmade⟩ := platformFlashWrite_spec (m := m) hh hm hl h4 hin
  simp only [hw, hflash, ByteMem.program_apply]
  refine ⟨fun i hi => ?_, fun a ha => ?_, hmade⟩
  · rw [if_pos (by omega), Nat.add_sub_cancel_left]
  · rw [if_neg (by omega)]

/-- Ten bytes from a misaligned constant in the flash cache. -/
theorem platformFlashWrite_programs_sample :
    let m' := (platformFlashWrite sampleEnv sampleMachine 0x3F400101 0x1003 10).2
    (∀ i < 10, m'.flash (0x1003 + i) =
        sampleMachine.flash (0x1003 + i) &&& sampleMachine.mem (0x3F400101 + i)) ∧
      (∀ a, a < 0x1003 ∨ 0x1003 + 10 ≤ a → m'.flash a = sampleMachine.flash a) ∧
      Made sampleEnv 0x100000 sampleMachine m' :=
  platformFlashWrite_programs sampleEnv 0x100000 sampleMachine 0x3F400101 0x1003 10
    sampleEnv_healthy (fun n size => ⟨0x3FFC0000, rfl, by decide, by decide, .inr (by decide)⟩)
    (sampleEnv_locals (by decide)) (by decide) (by decide)

end

end Esp32Project.Flash
