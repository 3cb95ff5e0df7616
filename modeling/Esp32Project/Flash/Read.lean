import Esp32Project.Flash.Transfer

/-! A read of any range delivers exactly that range. -/

set_option autoImplicit false

namespace Esp32Project.Flash
open Esp32Project.Lib

section

variable {e : Env} {flashSize : Nat} {m : Machine}

def Loads (e : Env) (flashSize : Nat) (m m' : Machine) (dst src n : Nat) : Prop :=
  m'.flash = m.flash ∧ (∀ i < n, m'.mem (dst + i) = m.flash (src + i)) ∧
    (∀ a, a < dst ∨ dst + n ≤ a → a < e.tmpdata ∨ e.tmpdata + blksize ≤ a →
      a < e.back ∨ e.back + blksize ≤ a → m'.mem a = m.mem a) ∧ Made e flashSize m m'

theorem Loads.append {m' m'' : Machine} {buf len dst src n n' : Nat} (hl : Locals e buf len)
    (hlo : buf ≤ dst) (hhi : dst + n ≤ buf + len) (h₁ : Loads e flashSize m m' dst src n)
    (h₂ : Loads e flashSize m' m'' (dst + n) (src + n) n') :
    Loads e flashSize m m'' dst src (n + n') := by
  obtain ⟨hf₁, hld₁, hk₁, hm₁⟩ := h₁
  obtain ⟨hf₂, hld₂, hk₂, hm₂⟩ := h₂
  have ht := hl.tmpdata_buf
  have hb := hl.back_buf
  unfold Apart at ht hb
  refine ⟨hf₂.trans hf₁, fun i hi => ?_, fun a ha hta hba => ?_, hm₁.trans hm₂⟩
  · by_cases hin : i < n
    · rw [hk₂ _ (by omega) (by omega) (by omega), hld₁ i hin]
    · have hi' := hld₂ (i - n) (by omega)
      rwa [hf₁, show dst + n + (i - n) = dst + i by omega,
        show src + n + (i - n) = src + i by omega] at hi'
  · rw [hk₂ a (by omega) hta hba, hk₁ a (by omega) hta hba]

theorem fetchWord_spec (m : Machine) (k size : Nat) {dest len i stop temp : Nat}
    (hh : Healthy e flashSize)
    (hl : Locals e dest len) (ht : temp % blksize = 0) (hin : temp + blksize ≤ flashSize)
    (his : i ≤ stop) (hstop : stop ≤ blksize) (hk : k + min size (stop - i) ≤ len) :
    ∃ m', fetchWord e m (dest + k) temp i stop size = (size - (stop - i), m') ∧
      Loads e flashSize m m' (dest + k) (temp + i) (min size (stop - i)) := by
  obtain ⟨m₁, hr, hflash, hword, hkeep, hmade⟩ := read_tmpdata (m := m) hh hl ht hin
  have hap := hl.tmpdata_buf
  unfold Apart at hap
  have hcopy := copyLoop_spec m₁.mem (dest + k) (e.tmpdata + i) i stop size
    (by unfold Apart; omega)
  have hle : min size (stop - i) ≤ stop - i := Nat.min_le_right _ _
  generalize min size (stop - i) = K at *
  refine ⟨{ m₁ with mem := m₁.mem.store (dest + k) K (fun j => m₁.mem (e.tmpdata + i + j)) },
    by simp only [fetchWord, hr, hcopy], hflash, fun j hj => ?_, fun a h₁ h₂ h₃ => ?_, hmade⟩
  · dsimp only
    rw [ByteMem.store_inside _ (by omega) (by omega), Nat.add_sub_cancel_left, Nat.add_assoc,
      Nat.add_assoc, hword _ (by omega)]
  · dsimp only
    rw [ByteMem.store_outside _ h₁, hkeep a h₂ h₃]

theorem readWords_spec {dest len k fromaddr temp : Nat} (hh : Healthy e flashSize)
    (hl : Locals e dest len) (hf : fromaddr % blksize = 0) (htemp : temp % blksize = 0)
    (hin : fromaddr + temp ≤ flashSize) (hk : k + temp ≤ len) :
    ∃ m', (if temp ≠ 0 then (platformSFlashRead e m (dest + k) fromaddr temp).2 else m) = m' ∧
      Loads e flashSize m m' (dest + k) fromaddr temp := by
  by_cases hz : temp = 0
  · subst hz
    exact ⟨m, by simp, rfl, by simp, fun _ _ _ _ => rfl, .refl rfl⟩
  · have hap := hl.back_buf
    unfold Apart at hap
    obtain ⟨m', hw, hflash, hload, hkeep, hmade⟩ := platformSFlashRead_spec m (dest + k)
      hh hl.back_aligned hf htemp (by omega) hin (by unfold Apart; omega)
    exact ⟨m', by rw [if_pos hz, hw], hflash, hload, fun a h₁ _ h₃ => hkeep a h₁ h₃, hmade⟩

theorem readBlocks_spec (m : Machine) (k fromaddr size : Nat) {dest len : Nat}
    (hh : Healthy e flashSize)
    (hl : Locals e dest len) (hf : fromaddr % blksize = 0) (h4 : flashSize % blksize = 0)
    (hin : fromaddr + size ≤ flashSize) (hk : k + size ≤ len) :
    ∃ m', readBlocks e m (dest + k) fromaddr size = m' ∧
      Loads e flashSize m m' (dest + k) fromaddr size := by
  have hsum := alignDown_add size
  have hmod := alignDown_mod size
  have hrest : size % blksize < blksize := Nat.mod_lt _ (by decide)
  obtain ⟨m₁, hw, hload⟩ := readWords_spec (m := m) (k := k) hh hl hf hmod (by omega) (by omega)
  have hb : readBlocks e m (dest + k) fromaddr size =
      if size % blksize ≠ 0 then (fetchWord e m₁ (dest + (k + alignDown size))
        (fromaddr + alignDown size) 0 (size % blksize) size).2 else m₁ := by
    rw [← hw, readBlocks]
    by_cases hz : alignDown size = 0
    · simp [hz]
    · simp [hz, Nat.add_assoc]
  rw [hb]
  split
  · have hword : (fromaddr + alignDown size) % blksize = 0 := by simp [Nat.add_mod, hf, hmod]
    have hfit : fromaddr + alignDown size + blksize ≤ flashSize := by
      simp only [blksize] at *
      omega
    obtain ⟨m₂, hp, hload₂⟩ := fetchWord_spec m₁ (k + alignDown size) size
      hh hl hword hfit (Nat.zero_le _) (Nat.le_of_lt hrest) (by omega)
    rw [Nat.add_zero, Nat.sub_zero, Nat.min_eq_right (Nat.mod_le _ _), ← Nat.add_assoc] at hload₂
    refine ⟨m₂, by rw [hp], ?_⟩
    have hall := hload.append hl (by omega) (by omega) hload₂
    rwa [hsum] at hall
  · refine ⟨m₁, rfl, ?_⟩
    rwa [show alignDown size = size by omega] at hload

theorem platformFlashRead_spec {dest fromaddr size : Nat} (hh : Healthy e flashSize)
    (hl : Locals e dest size) (h4 : flashSize % blksize = 0) (hin : fromaddr + size ≤ flashSize) :
    ∃ m', platformFlashRead e m dest fromaddr size = (size, m') ∧
      Loads e flashSize m m' dest fromaddr size := by
  by_cases hf : fromaddr % blksize = 0
  · obtain ⟨m', hw, h⟩ := readBlocks_spec m 0 _ _ hh hl hf h4 hin (by omega)
    exact ⟨m', by rw [platformFlashRead, if_neg (not_not.mpr hf), ← hw]; rfl, h⟩
  · have hsum := alignDown_add fromaddr
    have hmod := alignDown_mod fromaddr
    have hrest : fromaddr % blksize < blksize := Nat.mod_lt _ (by decide)
    have hfit : alignDown fromaddr + blksize ≤ flashSize := by
      simp only [blksize] at *
      omega
    obtain ⟨m₁, hp, hload⟩ := fetchWord_spec m 0 size hh hl hmod hfit
      (Nat.le_of_lt hrest) (Nat.le_refl _) (by omega)
    rw [hsum] at hload
    simp only [Nat.add_zero] at hp hload
    rw [platformFlashRead, if_pos hf]
    simp only [hp]
    split
    · refine ⟨m₁, rfl, ?_⟩
      rwa [Nat.min_eq_left (by omega)] at hload
    · rw [Nat.min_eq_right (by omega)] at hload
      generalize hK : blksize - fromaddr % blksize = K at *
      have hk : size - (size - K) = K := by omega
      obtain ⟨m₂, hw, hload₂⟩ := readBlocks_spec m₁ K (alignDown fromaddr + blksize)
        (size - K) hh hl
        (by rw [Nat.add_mod_right, hmod]) h4 (by omega) (by omega)
      rw [hk, hw]
      rw [show alignDown fromaddr + blksize = fromaddr + K by omega] at hload₂
      have hall := hload.append hl (Nat.le_refl _) (by omega) hload₂
      rw [show K + (size - K) = size by omega] at hall
      exact ⟨m₂, rfl, hall⟩

/-- `platform_flash_read` delivers the bytes of its range, changes no other
byte of memory but its locals, and asks nothing improper of the chip. -/
theorem platformFlashRead_loads (e : Env) (flashSize : Nat) (m : Machine)
    (dest fromaddr size : Nat) (hh : Healthy e flashSize) (hl : Locals e dest size)
    (h4 : flashSize % blksize = 0) (hin : fromaddr + size ≤ flashSize) :
    let m' := (platformFlashRead e m dest fromaddr size).2
    (∀ i < size, m'.mem (dest + i) = m.flash (fromaddr + i)) ∧
      (∀ a, a < dest ∨ dest + size ≤ a → a < e.tmpdata ∨ e.tmpdata + blksize ≤ a →
        a < e.back ∨ e.back + blksize ≤ a → m'.mem a = m.mem a) ∧
      m'.flash = m.flash ∧ Made e flashSize m m' := by
  obtain ⟨m', hr, hflash, hload, hkeep, hmade⟩ := platformFlashRead_spec (m := m) hh hl h4 hin
  rw [hr]
  exact ⟨hload, hkeep, hflash, hmade⟩

/-- Eleven bytes to a misaligned buffer. -/
theorem platformFlashRead_loads_sample :
    let m' := (platformFlashRead sampleEnv sampleMachine 0x3FFB0003 0x1003 11).2
    (∀ i < 11, m'.mem (0x3FFB0003 + i) = sampleMachine.flash (0x1003 + i)) ∧
      (∀ a, a < 0x3FFB0003 ∨ 0x3FFB0003 + 11 ≤ a → a < 0x3FFB1001 ∨ 0x3FFB1001 + blksize ≤ a →
        a < 0x3FFB1010 ∨ 0x3FFB1010 + blksize ≤ a → m'.mem a = sampleMachine.mem a) ∧
      m'.flash = sampleMachine.flash ∧ Made sampleEnv 0x100000 sampleMachine m' :=
  platformFlashRead_loads sampleEnv 0x100000 sampleMachine 0x3FFB0003 0x1003 11
    sampleEnv_healthy (sampleEnv_locals (by decide)) (by decide) (by decide)

end

end Esp32Project.Flash
