import Esp32Project.Flash.Driver
import Esp32Project.Lib.Range

/-! What one transfer of `platform_flash.c` reads, writes and asks of the chip. -/

set_option autoImplicit false

namespace Esp32Project.Flash
open Esp32Project.Lib

/-- A call with aligned operands inside the flash, writing from memory proper. -/
def Prim.proper (e : Env) (flashSize : Nat) (p : Prim) : Prop :=
  p.addr % blksize = 0 ∧ p.len % blksize = 0 ∧ p.buf % blksize = 0 ∧
    p.addr + p.len ≤ flashSize ∧ (p.op = .write → e.cached p.buf = false)

def Healthy (e : Env) (flashSize : Nat) : Prop :=
  ∀ n p, p.proper e flashSize → e.fault n p = none

def Made (e : Env) (flashSize : Nat) (m m' : Machine) : Prop :=
  ∃ ps, m'.calls = ps ++ m.calls ∧ ∀ p ∈ ps, p.proper e flashSize

section

variable {e : Env} {flashSize : Nat} {m m' m'' : Machine}

theorem Made.refl (h : m'.calls = m.calls) : Made e flashSize m m' := ⟨[], h, by simp⟩

theorem Made.trans (h₁ : Made e flashSize m m') (h₂ : Made e flashSize m' m'') :
    Made e flashSize m m'' := by
  obtain ⟨ps, hp, hps⟩ := h₁
  obtain ⟨qs, hq, hqs⟩ := h₂
  refine ⟨qs ++ ps, by rw [hq, hp, List.append_assoc], fun p hm => ?_⟩
  rcases List.mem_append.mp hm with hm | hm
  · exact hqs p hm
  · exact hps p hm

theorem flashRead_proper {addr buf len : Nat} (hh : Healthy e flashSize)
    (hp : Prim.proper e flashSize ⟨.read, addr, buf, len⟩) :
    flashRead e m addr buf len = (true, { m with
      mem := m.mem.store buf len (fun i => m.flash (addr + i)),
      calls := ⟨.read, addr, buf, len⟩ :: m.calls }) := by
  simp only [flashRead, hh _ _ hp]

theorem flashWrite_proper {addr buf len : Nat} (hh : Healthy e flashSize)
    (hp : Prim.proper e flashSize ⟨.write, addr, buf, len⟩) :
    flashWrite e m addr buf len = (true, { m with
      flash := m.flash.program addr len (fun i => m.mem (buf + i)),
      calls := ⟨.write, addr, buf, len⟩ :: m.calls }) := by
  simp only [flashWrite, hh _ _ hp]

theorem alignDown_le (x : Nat) : alignDown x ≤ x := Nat.div_mul_le_self _ _

theorem alignDown_mod (x : Nat) : alignDown x % blksize = 0 := Nat.mul_mod_left _ _

theorem alignDown_add (x : Nat) : alignDown x + x % blksize = x := by
  rw [alignDown, Nat.mul_comm]
  exact Nat.div_add_mod x blksize

/-- All but the last word arrive at `to2`, inside the destination, and are moved
down; the last word comes through `back`. -/
def shiftedLoad (mem : ByteMem) (dest to2 size2 back : Nat) (f : Nat → UInt8) : ByteMem :=
  let mem := mem.store to2 size2 f
  let mem := mem.store dest size2 (fun i => mem (to2 + i))
  let mem := mem.store back blksize (fun i => f (size2 + i))
  mem.store (dest + size2) blksize (fun i => mem (back + i))

theorem shiftedLoad_spec (mem : ByteMem) {dest to2 size2 back : Nat} (f : Nat → UInt8)
    (hlo : dest ≤ to2) (hhi : to2 ≤ dest + blksize)
    (hap : Apart dest (size2 + blksize) back blksize) :
    (∀ i < size2 + blksize, shiftedLoad mem dest to2 size2 back f (dest + i) = f i) ∧
      ∀ a, a < dest ∨ dest + (size2 + blksize) ≤ a → a < back ∨ back + blksize ≤ a →
        shiftedLoad mem dest to2 size2 back f a = mem a := by
  simp only [Apart, blksize] at *
  refine ⟨fun i hi => ?_, fun a ha hb => ?_⟩
  · simp only [shiftedLoad, blksize]
    by_cases hi₂ : i < size2
    · rw [ByteMem.store_outside _ (by omega), ByteMem.store_outside _ (by omega),
        ByteMem.store_inside _ (by omega) (by omega), ByteMem.store_inside _ (by omega) (by omega)]
      congr 1
      omega
    · rw [ByteMem.store_inside _ (by omega) (by omega),
        ByteMem.store_inside _ (by omega) (by omega)]
      congr 1
      omega
  · simp only [shiftedLoad, blksize]
    rw [ByteMem.store_outside _ (by omega), ByteMem.store_outside _ (by omega),
      ByteMem.store_outside _ (by omega), ByteMem.store_outside _ (by omega)]

/-- A read stores the flash bytes at its destination and touches nothing else
but `back`. -/
theorem platformSFlashRead_spec (m : Machine) (dest : Nat) {fromaddr size : Nat}
    (hh : Healthy e flashSize)
    (hback : e.back % blksize = 0) (hf : fromaddr % blksize = 0) (hs : size % blksize = 0)
    (hpos : 0 < size) (hin : fromaddr + size ≤ flashSize)
    (hap : Apart dest size e.back blksize) :
    ∃ m', platformSFlashRead e m dest fromaddr size = (size, m') ∧ m'.flash = m.flash ∧
      (∀ i < size, m'.mem (dest + i) = m.flash (fromaddr + i)) ∧
      (∀ a, a < dest ∨ dest + size ≤ a → a < e.back ∨ e.back + blksize ≤ a →
        m'.mem a = m.mem a) ∧ Made e flashSize m m' := by
  by_cases hto : dest % blksize = 0
  · have hp : Prim.proper e flashSize ⟨.read, fromaddr, dest, size⟩ :=
      ⟨hf, hs, hto, hin, by simp⟩
    have hr : platformSFlashRead e m dest fromaddr size = (size, { m with
        mem := m.mem.store dest size (fun i => m.flash (fromaddr + i)),
        calls := ⟨.read, fromaddr, dest, size⟩ :: m.calls }) := by
      rw [platformSFlashRead, if_neg (Nat.ne_of_gt hpos), if_neg (not_not.mpr hto),
        flashRead_proper hh hp]
      rfl
    refine ⟨_, hr, rfl, fun i hi => ?_, fun a ha _ => ?_, ?_⟩
    · dsimp only
      rw [m.mem.store_inside (by omega) (by omega), Nat.add_sub_cancel_left]
    · dsimp only
      exact m.mem.store_outside ha
    · exact ⟨[_], rfl, by simpa using hp⟩
  · have hle := alignDown_le dest
    have hsum := alignDown_add dest
    have hmod := alignDown_mod dest
    have hlt : dest % blksize < blksize := Nat.mod_lt _ (by decide)
    have hge : blksize ≤ size := Nat.le_of_dvd hpos (Nat.dvd_of_mod_eq_zero hs)
    obtain ⟨size2, rfl⟩ : ∃ size2, size = size2 + blksize := ⟨size - blksize, by omega⟩
    have hp₁ : Prim.proper e flashSize ⟨.read, fromaddr, alignDown dest + blksize, size2⟩ := by
      refine ⟨hf, by simpa using hs, by simpa using hmod, ?_, by simp⟩
      simp only
      omega
    have hp₂ : Prim.proper e flashSize ⟨.read, fromaddr + size2, e.back, blksize⟩ := by
      refine ⟨?_, Nat.mod_self _, hback, ?_, by simp⟩
      · rw [Nat.add_mod_right] at hs
        simp [Nat.add_mod, hf, hs]
      · simp only
        omega
    obtain ⟨hload, hframe⟩ := shiftedLoad_spec m.mem (fun i => m.flash (fromaddr + i))
      (show dest ≤ alignDown dest + blksize by omega) (by omega) hap
    have hr : platformSFlashRead e m dest fromaddr (size2 + blksize) = (size2 + blksize, { m with
        mem := shiftedLoad m.mem dest (alignDown dest + blksize) size2 e.back
          (fun i => m.flash (fromaddr + i)),
        calls := ⟨.read, fromaddr + size2, e.back, blksize⟩ ::
          ⟨.read, fromaddr, alignDown dest + blksize, size2⟩ :: m.calls }) := by
      rw [platformSFlashRead, if_neg (Nat.ne_of_gt hpos), if_pos hto]
      simp only [Nat.add_sub_cancel, flashRead_proper hh hp₁, flashRead_proper hh hp₂, if_true,
        shiftedLoad, Nat.add_assoc]
    refine ⟨_, hr, rfl, hload, hframe, ⟨[_, _], rfl, ?_⟩⟩
    intro p hp
    rcases List.mem_cons.mp hp with rfl | hp
    · exact hp₂
    · exact List.mem_singleton.mp hp ▸ hp₁

/-- What the heap promises about the copies of the source: aligned blocks of
ordinary memory that do not overlap it. -/
def Mallocs (e : Env) (src len : Nat) : Prop :=
  ∀ n size, ∃ b, e.malloc n size = some b ∧ b % blksize = 0 ∧
    e.cached b = false ∧ Apart b size src len

theorem platformSFlashWrite_spec (m : Machine) (buf : Nat) {src len toaddr size : Nat}
    (hh : Healthy e flashSize)
    (hm : Mallocs e src len) (hf : toaddr % blksize = 0) (hs : size % blksize = 0)
    (hin : toaddr + size ≤ flashSize) :
    ∃ m', platformSFlashWrite e m buf toaddr size = (size, m') ∧
      m'.flash = m.flash.program toaddr size (fun i => m.mem (buf + i)) ∧
      (∀ i < len, m'.mem (src + i) = m.mem (src + i)) ∧ Made e flashSize m m' := by
  by_cases hb : buf % blksize ≠ 0 ∨ e.cached buf = true
  · obtain ⟨b, hb₁, hb₂, hb₃, hap⟩ := hm m.calls.length size
    have hp : Prim.proper e flashSize ⟨.write, toaddr, b, size⟩ :=
      ⟨hf, hs, hb₂, hin, fun _ => hb₃⟩
    have hr : platformSFlashWrite e m buf toaddr size = (size,
        { mem := m.mem.store b size (fun i => m.mem (buf + i))
          flash := m.flash.program toaddr size
            (fun i => m.mem.store b size (fun i => m.mem (buf + i)) (b + i))
          calls := ⟨.write, toaddr, b, size⟩ :: m.calls }) := by
      rw [platformSFlashWrite, if_pos hb]
      simp only [hb₁, flashWrite_proper hh hp, if_true]
    refine ⟨_, hr, ?_, fun i hi => ?_, ⟨[_], rfl, by simpa using hp⟩⟩
    · dsimp only
      refine m.flash.program_congr fun i hi => ?_
      rw [m.mem.store_inside (by omega) (by omega), Nat.add_sub_cancel_left]
    · dsimp only
      exact m.mem.store_outside (by unfold Apart at hap; omega)
  · simp only [ne_eq, not_or, not_not, Bool.not_eq_true] at hb
    have hp : Prim.proper e flashSize ⟨.write, toaddr, buf, size⟩ :=
      ⟨hf, hs, hb.1, hin, fun _ => hb.2⟩
    have hr : platformSFlashWrite e m buf toaddr size = (size, { m with
        flash := m.flash.program toaddr size (fun i => m.mem (buf + i)),
        calls := ⟨.write, toaddr, buf, size⟩ :: m.calls }) := by
      rw [platformSFlashWrite, if_neg (by simp [hb.1, hb.2]), flashWrite_proper hh hp]
      rfl
    exact ⟨_, hr, rfl, fun i hi => rfl, ⟨[_], rfl, by simpa using hp⟩⟩

theorem copyLoop_spec (mem : ByteMem) (dst src i stop size : Nat)
    (hap : Apart dst (min size (stop - i)) src (min size (stop - i))) :
    copyLoop mem dst src i stop size = (size - (stop - i),
      mem.store dst (min size (stop - i)) (fun j => mem (src + j))) := by
  induction size generalizing mem dst src i with
  | zero => simp [copyLoop]
  | succ size ih =>
    unfold copyLoop
    split
    · rename_i hi
      obtain ⟨k, hk⟩ : ∃ k, min size (stop - (i + 1)) = k := ⟨_, rfl⟩
      have hk₁ : min (size + 1) (stop - i) = k + 1 := by omega
      rw [hk₁] at hap ⊢
      unfold Apart at hap
      rw [ih _ _ _ _ (.imp (by omega) (by omega) hap), hk]
      rw [show size - (stop - (i + 1)) = size + 1 - (stop - i) by omega, Prod.mk.injEq]
      refine ⟨rfl, ByteMem.store_eq_of_agree _ (fun j hj => ?_) ?_⟩
      · rcases j with _ | j
        · rw [ByteMem.store_outside _ (by omega)]
          exact mem.write8_same
        · rw [ByteMem.store_inside _ (by omega) (by omega), ByteMem.write8_other _ (by omega)]
          congr 1
          omega
      · intro b hb
        rw [ByteMem.store_outside _ (by omega), ByteMem.write8_other _ (by omega)]
    · have hz : stop - i = 0 := by omega
      simp [hz]

end

/-- The locals of the two functions: `back` is aligned, and neither overlaps
the caller's buffer or the other. -/
structure Locals (e : Env) (buf len : Nat) : Prop where
  back_aligned : e.back % blksize = 0
  apart : Apart e.tmpdata blksize e.back blksize
  tmpdata_buf : Apart e.tmpdata blksize buf len
  back_buf : Apart e.back blksize buf len

theorem read_tmpdata {e : Env} {flashSize : Nat} {m : Machine} {buf len temp : Nat}
    (hh : Healthy e flashSize) (hl : Locals e buf len) (ht : temp % blksize = 0)
    (hin : temp + blksize ≤ flashSize) :
    ∃ m', (platformSFlashRead e m e.tmpdata temp blksize).2 = m' ∧ m'.flash = m.flash ∧
      (∀ j < blksize, m'.mem (e.tmpdata + j) = m.flash (temp + j)) ∧
      (∀ a, a < e.tmpdata ∨ e.tmpdata + blksize ≤ a → a < e.back ∨ e.back + blksize ≤ a →
        m'.mem a = m.mem a) ∧ Made e flashSize m m' := by
  obtain ⟨m', hr, h⟩ := platformSFlashRead_spec m _ hh hl.back_aligned ht
    (Nat.mod_self _) (by decide) hin hl.apart
  exact ⟨m', by rw [hr], h⟩

def sampleEnv : Env where
  cached := isCacheFlashAddr
  tmpdata := 0x3FFB1001
  back := 0x3FFB1010
  malloc _ _ := some 0x3FFC0000
  fault _ p :=
    if p.addr % 4 = 0 ∧ p.len % 4 = 0 ∧ p.buf % 4 = 0 ∧ p.addr + p.len ≤ 0x100000 then none
    else some (fun _ => 0)

def sampleMachine : Machine := ⟨fun a => UInt8.ofNat a, fun a => UInt8.ofNat (3 * a), []⟩

theorem sampleEnv_healthy : Healthy sampleEnv 0x100000 := by
  intro n p hp
  exact if_pos ⟨hp.1, hp.2.1, hp.2.2.1, hp.2.2.2.1⟩

theorem sampleEnv_locals {buf len : Nat} (h : buf + len ≤ 0x3FFB1001) :
    Locals sampleEnv buf len := by
  refine ⟨by decide, by decide, ?_, ?_⟩ <;> simp only [Apart, sampleEnv] <;> omega

end Esp32Project.Flash
