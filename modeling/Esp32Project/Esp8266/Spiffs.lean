import Esp32Project.Lib.Ledger
import Esp32Project.Lib.Reach

/-!
The buffers of the ESP8266 file system (esp_spiffs.c), with what SPIFFS does to
them. A pointer is the number of its block, and a block that is allocated anew
has a new number. A result `none` is a block freed twice or used after it was
freed.
-/

set_option autoImplicit false

namespace Esp32Project.Esp8266
open Esp32Project.Lib

structure EspSpiffsConfig where
  physSize : Nat
  physAddr : Nat
  physEraseBlock : Nat
  logBlockSize : Nat
  logPageSize : Nat
  fdBufSize : Nat
  cacheBufSize : Nat
  deriving DecidableEq, Repr

/-- What `fs` keeps of the last `SPIFFS_mount`. -/
structure Spiffs where
  mounted : Bool
  blockCount : Nat
  work : Option Nat
  fdSpace : Option Nat
  cache : Option Nat
  deriving DecidableEq, Repr

structure FsState where
  fs : Spiffs
  spiffsWorkBuf : Option Nat
  spiffsFdBuf : Option Nat
  spiffsCacheBuf : Option Nat
  heap : Ledger
  deriving DecidableEq, Repr

def FsState.start : FsState := ⟨⟨false, 0, none, none, none⟩, none, none, none, .empty⟩

/-- What an init meets: whether all sectors are erased, which calls of malloc
succeed, and what `SPIFFS_mount` returns. -/
structure Outcome where
  erased : Bool
  work : Bool
  fd : Bool
  cache : Bool
  mountRes : Int
  deriving DecidableEq, Repr

def malloc (ok : Bool) (heap : Ledger) : Option Nat × Ledger :=
  if ok then (some heap.next, heap.take) else (none, heap)

def free (heap : Ledger) : Option Nat → Option Ledger
  | none => some heap
  | some p => heap.give p

def touch (heap : Ledger) : Option Nat → Option Unit
  | none => none
  | some p => if heap.Holds p then some () else none

/-- `SPIFFS_mount`: it clears `fs`, sets up the three buffers and reads the
lookup pages through them; `mounted` is set last. -/
def spiffsMount (heap : Ledger) (config : EspSpiffsConfig) (work fd cache : Option Nat)
    (res : Int) : Option Spiffs := do
  touch heap fd
  touch heap cache
  touch heap work
  return ⟨decide (0 ≤ res), config.physSize / config.logBlockSize, work, fd, cache⟩

/-- `SPIFFS_unmount`: descriptors of open files are written back from the cache. -/
def spiffsUnmount (heap : Ledger) (fs : Spiffs) : Option Spiffs := do
  if fs.mounted then
    touch heap fs.fdSpace
    touch heap fs.cache
    touch heap fs.work
    return { fs with mounted := false }
  else return fs

/-- `SPIFFS_format`: each block erased has its erase count written, and
`spiffs_phys_wr` looks for the page in the cache first. -/
def spiffsFormat (heap : Ledger) (fs : Spiffs) : Option Unit :=
  if fs.mounted ∨ fs.blockCount = 0 then some () else touch heap fs.cache

def espSpiffsInit (config : EspSpiffsConfig) (o : Outcome) (s : FsState) :
    Option (FsState × Int) := do
  if s.fs.mounted then return (s, -1)
  if !o.erased then return (s, -1)
  let heap ← free s.heap s.spiffsWorkBuf
  let (work, heap) := malloc o.work heap
  let s := { s with spiffsWorkBuf := work, heap := heap }
  if work = none then return (s, -1)
  let heap ← free s.heap s.spiffsFdBuf
  let (fd, heap) := malloc o.fd heap
  let s := { s with spiffsFdBuf := fd, heap := heap }
  if fd = none then
    let heap ← free s.heap work
    return ({ s with heap := heap }, -1)
  let heap ← free s.heap s.spiffsCacheBuf
  let (cache, heap) := malloc o.cache heap
  let s := { s with spiffsCacheBuf := cache, heap := heap }
  if cache = none then
    let heap ← free s.heap work
    let heap ← free heap fd
    return ({ s with heap := heap }, -1)
  let fs ← spiffsMount s.heap config work fd cache o.mountRes
  let s := { s with fs := fs }
  if o.mountRes = -1 then
    let heap ← free s.heap work
    let heap ← free heap fd
    let heap ← free heap cache
    return ({ s with heap := heap }, o.mountRes)
  return (s, o.mountRes)

def espSpiffsDeinit (format : Nat) (s : FsState) : Option FsState := do
  if s.fs.mounted then
    let fs ← spiffsUnmount s.heap s.fs
    let heap ← free s.heap s.spiffsWorkBuf
    let heap ← free heap s.spiffsFdBuf
    let heap ← free heap s.spiffsCacheBuf
    if format ≠ 0 then spiffsFormat heap fs
    return { s with fs := fs, heap := heap }
  else return s

inductive FsCall where
  | init (config : EspSpiffsConfig) (o : Outcome)
  | deinit (format : Nat)
  deriving DecidableEq, Repr

def fsStep (s : FsState) : FsCall → Option FsState
  | .init config o => (espSpiffsInit config o s).map Prod.fst
  | .deinit format => espSpiffsDeinit format s

/-- The three buffers are allocated while the file system is mounted, and none
is otherwise. -/
def BuffersOk (s : FsState) : Prop :=
  if s.fs.mounted then
    ∃ w f c, s.spiffsWorkBuf = some w ∧ s.spiffsFdBuf = some f ∧ s.spiffsCacheBuf = some c ∧
      [w, f, c].Nodup ∧ s.heap.Holds w ∧ s.heap.Holds f ∧ s.heap.Holds c
  else s.heap.live = []

/-- The call neither frees a block twice nor uses a freed one, and leaves the
buffers as they should be. -/
def FsCallOk (s : FsState) (c : FsCall) : Prop := ∃ s', fsStep s c = some s' ∧ BuffersOk s'

/-- Mounting neither succeeds nor is refused with the one code that is tested. -/
def mountLeaks (o : Outcome) : Prop :=
  o.work = true ∧ o.fd = true ∧ o.cache = true ∧ o.mountRes < 0 ∧ o.mountRes ≠ -1

/-- The calls that keep the buffers in order: an init that is refused or finds
no pointer of an earlier one and has its mount succeed or fail with -1, and a
deinit that does not format. -/
def Orderly (s : FsState) : FsCall → Prop
  | .init _ o =>
    s.fs.mounted = true ∨ o.erased = false ∨ (s.spiffsWorkBuf = none ∧ ¬ mountLeaks o)
  | .deinit format => s.fs.mounted = false ∨ format = 0 ∨ s.fs.blockCount = 0

/-- What orderly calls keep: a mounted file system has the blocks of the init
that mounted it, and otherwise nothing is allocated and the work pointer is the
last of the three to be NULL. -/
structure FsInv (s : FsState) : Prop where
  up : s.fs.mounted = true → ∃ n, s.spiffsWorkBuf = some n ∧ s.spiffsFdBuf = some (n + 1) ∧
    s.spiffsCacheBuf = some (n + 2) ∧ s.heap = ⟨n + 3, [n + 2, n + 1, n]⟩ ∧
    s.fs.work = some n ∧ s.fs.fdSpace = some (n + 1) ∧ s.fs.cache = some (n + 2)
  down : s.fs.mounted = false → s.heap.live = [] ∧
    (s.spiffsWorkBuf = none → s.spiffsFdBuf = none ∧ s.spiffsCacheBuf = none)

theorem fsInv_start : FsInv .start := ⟨fun h => (nomatch h), fun _ => ⟨rfl, fun _ => ⟨rfl, rfl⟩⟩⟩

theorem FsInv.buffersOk {s : FsState} (h : FsInv s) : BuffersOk s := by
  unfold BuffersOk
  split
  · rename_i hm
    obtain ⟨n, hw, hf, hc, hheap, -⟩ := h.up hm
    exact ⟨n, n + 1, n + 2, hw, hf, hc, by simp, by simp [hheap, Ledger.Holds],
      by simp [hheap, Ledger.Holds], by simp [hheap, Ledger.Holds]⟩
  · rename_i hm
    exact (h.down (by simpa using hm)).1

theorem free_three (n : Nat) :
    free ⟨n + 3, [n + 2, n + 1, n]⟩ (some n) = some ⟨n + 3, [n + 2, n + 1]⟩ ∧
      free ⟨n + 3, [n + 2, n + 1]⟩ (some (n + 1)) = some ⟨n + 3, [n + 2]⟩ ∧
      free ⟨n + 3, [n + 2]⟩ (some (n + 2)) = some ⟨n + 3, []⟩ := by
  simp [free, Ledger.give]

section

variable (config : EspSpiffsConfig) {fs : Spiffs} {n : Nat}

theorem init_noWork (o : Outcome) (hm : fs.mounted = false) (he : o.erased = true)
    (hw : o.work = false) :
    espSpiffsInit config o ⟨fs, none, none, none, ⟨n, []⟩⟩ =
      some (⟨fs, none, none, none, ⟨n, []⟩⟩, -1) := by
  simp [espSpiffsInit, malloc, free, hm, he, hw]

theorem init_noFd (o : Outcome) (hm : fs.mounted = false) (he : o.erased = true)
    (hw : o.work = true) (hf : o.fd = false) :
    espSpiffsInit config o ⟨fs, none, none, none, ⟨n, []⟩⟩ =
      some (⟨fs, some n, none, none, ⟨n + 1, []⟩⟩, -1) := by
  simp [espSpiffsInit, malloc, free, hm, he, hw, hf, Ledger.give_take]

theorem init_noCache (o : Outcome) (hm : fs.mounted = false) (he : o.erased = true)
    (hw : o.work = true) (hf : o.fd = true) (hc : o.cache = false) :
    espSpiffsInit config o ⟨fs, none, none, none, ⟨n, []⟩⟩ =
      some (⟨fs, some n, some (n + 1), none, ⟨n + 2, []⟩⟩, -1) := by
  simp [espSpiffsInit, malloc, free, hm, he, hw, hf, hc, Ledger.take, Ledger.give]

theorem init_mounts (o : Outcome) (hm : fs.mounted = false) (he : o.erased = true)
    (hw : o.work = true) (hf : o.fd = true) (hc : o.cache = true) :
    espSpiffsInit config o ⟨fs, none, none, none, ⟨n, []⟩⟩ =
      some (⟨⟨decide (0 ≤ o.mountRes), config.physSize / config.logBlockSize, some n,
        some (n + 1), some (n + 2)⟩, some n, some (n + 1), some (n + 2),
        if o.mountRes = -1 then ⟨n + 3, []⟩ else ⟨n + 3, [n + 2, n + 1, n]⟩⟩, o.mountRes) := by
  by_cases hr : o.mountRes = -1
  · obtain ⟨h₁, h₂, h₃⟩ := free_three n
    simp only [free] at h₁ h₂ h₃
    simp [espSpiffsInit, malloc, free, hm, he, hw, hf, hc, hr, Ledger.take, spiffsMount, touch,
      Ledger.Holds, h₁, h₂, h₃]
  · simp [espSpiffsInit, malloc, free, hm, he, hw, hf, hc, hr, Ledger.take, spiffsMount, touch,
      Ledger.Holds]

end

theorem init_fresh (config : EspSpiffsConfig) (o : Outcome) {fs : Spiffs} {n : Nat}
    (hm : fs.mounted = false) (he : o.erased = true) :
    ∃ s' r, espSpiffsInit config o ⟨fs, none, none, none, ⟨n, []⟩⟩ = some (s', r) ∧
      (¬ mountLeaks o → FsInv s') ∧ (mountLeaks o → ¬ BuffersOk s') := by
  cases hw : o.work with
  | false =>
    refine ⟨_, _, init_noWork config o hm he hw, fun _ => ?_, fun hl => ?_⟩
    · exact ⟨fun h => by simp [hm] at h, fun _ => ⟨rfl, fun _ => ⟨rfl, rfl⟩⟩⟩
    · simp [mountLeaks, hw] at hl
  | true =>
    cases hf : o.fd with
    | false =>
      refine ⟨_, _, init_noFd config o hm he hw hf, fun _ => ?_, fun hl => ?_⟩
      · exact ⟨fun h => by simp [hm] at h, fun _ => ⟨rfl, fun h => nomatch h⟩⟩
      · simp [mountLeaks, hf] at hl
    | true =>
      cases hc : o.cache with
      | false =>
        refine ⟨_, _, init_noCache config o hm he hw hf hc, fun _ => ?_, fun hl => ?_⟩
        · exact ⟨fun h => by simp [hm] at h, fun _ => ⟨rfl, fun h => nomatch h⟩⟩
        · simp [mountLeaks, hc] at hl
      | true =>
        refine ⟨_, _, init_mounts config o hm he hw hf hc, fun hl => ⟨fun h => ?_, fun h => ?_⟩,
          fun hl => ?_⟩
        · -- mounted: the result was not negative
          have hr : o.mountRes ≠ -1 := by
            intro hr
            simp [hr] at h
          exact ⟨n, rfl, rfl, rfl, if_neg hr, rfl, rfl, rfl⟩
        · have hr : o.mountRes = -1 := by
            by_contra hr
            exact hl ⟨hw, hf, hc, by simpa using h, hr⟩
          exact ⟨by simp [hr], fun h => nomatch h⟩
        · obtain ⟨-, -, -, hneg, hr⟩ := hl
          simp [BuffersOk, hr, Int.not_le.mpr hneg]

theorem init_again (config : EspSpiffsConfig) {o : Outcome} {s : FsState} {w : Nat}
    (hm : s.fs.mounted = false) (he : o.erased = true) (hw : s.spiffsWorkBuf = some w)
    (hlive : s.heap.live = []) : espSpiffsInit config o s = none := by
  simp [espSpiffsInit, hm, he, hw, free, Ledger.give, hlive]

theorem fsCallOk_init {s : FsState} (h : FsInv s) (config : EspSpiffsConfig) (o : Outcome) :
    (FsCallOk s (.init config o) ↔ Orderly s (.init config o)) ∧
      ∀ s', Orderly s (.init config o) → fsStep s (.init config o) = some s' → FsInv s' := by
  by_cases hup : s.fs.mounted = true ∨ o.erased = false
  · -- refused, and nothing changes
    have hsame : fsStep s (.init config o) = some s := by
      rcases hup with hm | he
      · simp [fsStep, espSpiffsInit, hm]
      · simp [fsStep, espSpiffsInit, he]
    refine ⟨⟨fun _ => ?_, fun _ => ⟨s, hsame, h.buffersOk⟩⟩, fun s' _ hs => ?_⟩
    · rcases hup with hm | he
      · exact .inl hm
      · exact .inr (.inl he)
    · rw [hsame] at hs
      exact Option.some.inj hs ▸ h
  · have hm : s.fs.mounted = false := by simpa using fun h => hup (.inl h)
    have he : o.erased = true := by simpa using fun h => hup (.inr h)
    obtain ⟨hlive, hleft⟩ := h.down hm
    cases hw : s.spiffsWorkBuf with
    | some w =>
      have hnone : fsStep s (.init config o) = none := by
        simp [fsStep, init_again config hm he hw hlive]
      refine ⟨⟨?_, ?_⟩, fun s' _ hs => ?_⟩
      · rintro ⟨s', hs, -⟩
        rw [hnone] at hs
        cases hs
      · rintro (h' | h' | ⟨h', -⟩)
        · exact absurd (.inl h') hup
        · exact absurd (.inr h') hup
        · rw [hw] at h'
          cases h'
      · rw [hnone] at hs
        cases hs
    | none =>
      obtain ⟨hf, hc⟩ := hleft hw
      obtain ⟨fs, work, fd, cache, ⟨n, live⟩⟩ := s
      obtain rfl : work = none := hw
      obtain rfl : fd = none := hf
      obtain rfl : cache = none := hc
      obtain rfl : live = [] := hlive
      replace hm : fs.mounted = false := hm
      obtain ⟨t, r, hinit, hgood, hbad⟩ := init_fresh config o (n := n) hm he
      have hs : fsStep ⟨fs, none, none, none, ⟨n, []⟩⟩ (.init config o) = some t := by
        simp [fsStep, hinit]
      have hiff : Orderly ⟨fs, none, none, none, ⟨n, []⟩⟩ (.init config o) ↔ ¬ mountLeaks o := by
        simp [Orderly, hm, he]
      refine ⟨⟨?_, fun ho => ⟨t, hs, (hgood (hiff.mp ho)).buffersOk⟩⟩, fun s' ho hs' => ?_⟩
      · rintro ⟨s', hs', hok⟩
        rw [hs] at hs'
        exact hiff.mpr fun hl => hbad hl (Option.some.inj hs' ▸ hok)
      · rw [hs] at hs'
        exact Option.some.inj hs' ▸ hgood (hiff.mp ho)

theorem deinit_mounted {s : FsState} (h : FsInv s) (hm : s.fs.mounted = true) (format : Nat) :
    ∃ t, FsInv t ∧ espSpiffsDeinit format s =
      if format = 0 ∨ s.fs.blockCount = 0 then some t else none := by
  obtain ⟨n, hw, hf, hc, hheap, hfw, hff, hfc⟩ := h.up hm
  obtain ⟨h₁, h₂, h₃⟩ := free_three n
  obtain ⟨⟨mounted, blockCount, fw, ff, fc⟩, work, fd, cache, heap⟩ := s
  obtain rfl : mounted = true := hm
  obtain rfl : work = some n := hw
  obtain rfl : fd = some (n + 1) := hf
  obtain rfl : cache = some (n + 2) := hc
  obtain rfl : heap = ⟨n + 3, [n + 2, n + 1, n]⟩ := hheap
  obtain rfl : fw = some n := hfw
  obtain rfl : ff = some (n + 1) := hff
  obtain rfl : fc = some (n + 2) := hfc
  refine ⟨⟨⟨false, blockCount, some n, some (n + 1), some (n + 2)⟩, some n, some (n + 1),
    some (n + 2), ⟨n + 3, []⟩⟩, ⟨fun h => (nomatch h), fun _ => ⟨rfl, fun h => (nomatch h)⟩⟩, ?_⟩
  by_cases hz : format = 0
  · simp [espSpiffsDeinit, spiffsUnmount, touch, Ledger.Holds, h₁, h₂, h₃, hz]
  · by_cases hb : blockCount = 0 <;>
      simp [espSpiffsDeinit, spiffsUnmount, spiffsFormat, touch, Ledger.Holds, h₁, h₂, h₃, hz, hb]

theorem fsCallOk_deinit {s : FsState} (h : FsInv s) (format : Nat) :
    (FsCallOk s (.deinit format) ↔ Orderly s (.deinit format)) ∧
      ∀ s', Orderly s (.deinit format) → fsStep s (.deinit format) = some s' → FsInv s' := by
  cases hm : s.fs.mounted with
  | false =>
    have hsame : fsStep s (.deinit format) = some s := by simp [fsStep, espSpiffsDeinit, hm]
    refine ⟨⟨fun _ => .inl hm, fun _ => ⟨s, hsame, h.buffersOk⟩⟩, fun s' _ hs => ?_⟩
    rw [hsame] at hs
    exact Option.some.inj hs ▸ h
  | true =>
    obtain ⟨t, ht, hs⟩ := deinit_mounted h hm format
    have hiff : Orderly s (.deinit format) ↔ format = 0 ∨ s.fs.blockCount = 0 := by
      simp [Orderly, hm]
    rw [hiff]
    by_cases hc : format = 0 ∨ s.fs.blockCount = 0
    · rw [if_pos hc] at hs
      refine ⟨⟨fun _ => hc, fun _ => ⟨t, hs, ht.buffersOk⟩⟩, fun s' _ hs' => ?_⟩
      rw [fsStep, hs] at hs'
      exact Option.some.inj hs' ▸ ht
    · rw [if_neg hc] at hs
      refine ⟨⟨?_, fun h' => absurd h' hc⟩, fun s' h' => absurd h' hc⟩
      rintro ⟨s', hs', -⟩
      rw [fsStep, hs] at hs'
      cases hs'

theorem fsCallOk_iff {s : FsState} (h : FsInv s) (c : FsCall) :
    (FsCallOk s c ↔ Orderly s c) ∧ ∀ s', Orderly s c → fsStep s c = some s' → FsInv s' := by
  cases c with
  | init config o => exact fsCallOk_init h config o
  | deinit format => exact fsCallOk_deinit h format

/-- The buffers are in order throughout a run exactly if its calls are orderly throughout. -/
theorem fsBuffersOk_along_iff (calls : List FsCall) :
    Along fsStep FsCallOk .start calls ↔ Along fsStep Orderly .start calls :=
  along_iff FsInv (fun _ c h => (fsCallOk_iff h c).1)
    (fun _ c s' h ho hs => (fsCallOk_iff h c).2 s' ho hs) fsInv_start calls

def sampleConfig : EspSpiffsConfig := ⟨0x100000, 0x300000, 4096, 8192, 256, 64, 2048⟩

/-- A file system that was mounted and taken down is set up again: the first
work buffer is freed a second time. -/
theorem work_buffer_freed_twice :
    ¬ Along fsStep FsCallOk .start [.init sampleConfig ⟨true, true, true, true, 0⟩, .deinit 0,
      .init sampleConfig ⟨true, true, true, true, 0⟩] := by
  rw [fsBuffersOk_along_iff]
  rintro ⟨-, h₁⟩
  obtain ⟨-, h₂⟩ := h₁ _ rfl
  obtain ⟨h₃, -⟩ := h₂ _ rfl
  simp [Orderly, mountLeaks] at h₃

end Esp32Project.Esp8266
