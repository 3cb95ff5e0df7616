import Esp32Project.Flash.Driver

/-! What the SPIFFS callbacks of spiffs.c report of the operations below them. -/

set_option autoImplicit false

namespace Esp32Project.Flash
open Esp32Project.Lib

def spiffsOk : Int := 0

def mySpiffsRead (e : Env) (m : Machine) (addr size dst : Nat) : Int × Machine :=
  (spiffsOk, (platformFlashRead e m dst addr size).2)

def mySpiffsWrite (e : Env) (m : Machine) (addr size src : Nat) : Int × Machine :=
  (spiffsOk, (platformFlashWrite e m src addr size).2)

/-- An operation below a call: a primitive, or the `malloc` of the bounce
buffer, with the number of primitive calls made before. -/
inductive Ask where
  | flash (n : Nat) (p : Prim)
  | malloc (n size : Nat)
  deriving DecidableEq, Repr

def Ask.fails (e : Env) : Ask → Bool
  | .flash n p => (e.fault n p).isSome
  | .malloc n size => (e.malloc n size).isNone

def Ask.prim : Ask → Option Prim
  | .flash _ p => some p
  | .malloc _ _ => none

def Fine (e : Env) (asks : List Ask) : Prop := ∀ a ∈ asks, a.fails e = false

instance (e : Env) (asks : List Ask) : Decidable (Fine e asks) :=
  inferInstanceAs (Decidable (∀ a ∈ asks, a.fails e = false))

def after (n : Nat) (asks : List Ask) : Nat := n + (asks.filterMap Ask.prim).length

/-! The operations a call makes, function by function: the driver without its data. -/

def sReadAsks (e : Env) (n dest fromaddr size : Nat) : List Ask :=
  if size = 0 then []
  else if dest % blksize ≠ 0 then
    let size2 := size - blksize
    let first := Ask.flash n ⟨.read, fromaddr, alignDown dest + blksize, size2⟩
    if first.fails e = true then [first]
    else [first, .flash (n + 1) ⟨.read, fromaddr + size2, e.back, blksize⟩]
  else [.flash n ⟨.read, fromaddr, dest, size⟩]

def sWriteAsks (e : Env) (n src toaddr size : Nat) : List Ask :=
  if src % blksize ≠ 0 ∨ e.cached src = true then
    match e.malloc n size with
    | none => [.malloc n size]
    | some apbuf => [.malloc n size, .flash n ⟨.write, toaddr, apbuf, size⟩]
  else [.flash n ⟨.write, toaddr, src, size⟩]

def patchAsks (e : Env) (n temp : Nat) : List Ask :=
  let asks := sReadAsks e n e.tmpdata temp blksize
  asks ++ sWriteAsks e (after n asks) e.tmpdata temp blksize

def writeBlocksAsks (e : Env) (n pfrom toaddr size : Nat) : List Ask :=
  let temp := alignDown size
  let asks := if temp ≠ 0 then sWriteAsks e n pfrom toaddr temp else []
  asks ++ if size % blksize ≠ 0 then patchAsks e (after n asks) (toaddr + temp) else []

def writeAsks (e : Env) (n src toaddr size : Nat) : List Ask :=
  let rest := toaddr % blksize
  if rest ≠ 0 then
    let temp := alignDown toaddr
    let left := size - (blksize - rest)
    let asks := patchAsks e n temp
    asks ++ if left = 0 then []
      else writeBlocksAsks e (after n asks) (src + (size - left)) (temp + blksize) left
  else writeBlocksAsks e n src toaddr size

def readBlocksAsks (e : Env) (n pto fromaddr size : Nat) : List Ask :=
  let temp := alignDown size
  let asks := if temp ≠ 0 then sReadAsks e n pto fromaddr temp else []
  asks ++ if size % blksize ≠ 0 then
    sReadAsks e (after n asks) e.tmpdata (fromaddr + temp) blksize else []

def readAsks (e : Env) (n dest fromaddr size : Nat) : List Ask :=
  let rest := fromaddr % blksize
  if rest ≠ 0 then
    let temp := alignDown fromaddr
    let left := size - (blksize - rest)
    let asks := sReadAsks e n e.tmpdata temp blksize
    asks ++ if left = 0 then []
      else readBlocksAsks e (after n asks) (dest + (size - left)) (temp + blksize) left
  else readBlocksAsks e n dest fromaddr size

section

variable {e : Env} {m m' m'' : Machine}

/-! The machine records the primitives among these operations, in this order. -/

def Records (m m' : Machine) (asks : List Ask) : Prop :=
  m'.calls = (asks.filterMap Ask.prim).reverse ++ m.calls

theorem Records.refl (h : m'.calls = m.calls) : Records m m' [] := h

theorem Records.count {asks : List Ask} (h : Records m m' asks) :
    after m.calls.length asks = m'.calls.length := by
  rw [h, after, List.length_append, List.length_reverse, Nat.add_comm]

theorem Records.append {first second : List Ask} (h₁ : Records m m' first)
    (h₂ : Records m' m'' second) : Records m m'' (first ++ second) := by
  rw [Records, h₂, h₁, List.filterMap_append, List.reverse_append, List.append_assoc]

theorem flashRead_calls (addr buf len : Nat) :
    (flashRead e m addr buf len).2.calls = ⟨.read, addr, buf, len⟩ :: m.calls := by
  simp only [flashRead]
  cases e.fault m.calls.length ⟨.read, addr, buf, len⟩ <;> rfl

theorem flashRead_answer (addr buf len : Nat) :
    (flashRead e m addr buf len).1 =
      !Ask.fails e (.flash m.calls.length ⟨.read, addr, buf, len⟩) := by
  simp only [flashRead, Ask.fails]
  cases e.fault m.calls.length ⟨.read, addr, buf, len⟩ <;> rfl

theorem flashWrite_calls (addr buf len : Nat) :
    (flashWrite e m addr buf len).2.calls = ⟨.write, addr, buf, len⟩ :: m.calls := by
  simp only [flashWrite]
  cases e.fault m.calls.length ⟨.write, addr, buf, len⟩ <;> rfl

theorem flashWrite_answer (addr buf len : Nat) :
    (flashWrite e m addr buf len).1 =
      !Ask.fails e (.flash m.calls.length ⟨.write, addr, buf, len⟩) := by
  simp only [flashWrite, Ask.fails]
  cases e.fault m.calls.length ⟨.write, addr, buf, len⟩ <;> rfl

theorem platformSFlashRead_records (dest fromaddr size : Nat) :
    Records m (platformSFlashRead e m dest fromaddr size).2
      (sReadAsks e m.calls.length dest fromaddr size) := by
  unfold platformSFlashRead sReadAsks
  by_cases hz : size = 0
  · simp [hz, Records]
  by_cases hd : dest % blksize = 0
  · simp [Records, flashRead_calls, Ask.prim, hz, hd]
  · cases hf : Ask.fails e (.flash m.calls.length
        ⟨.read, fromaddr, alignDown dest + blksize, size - blksize⟩) <;>
      simp [Records, flashRead_calls, flashRead_answer, Ask.prim, hz, hd, hf]

theorem platformSFlashRead_reports (dest fromaddr size : Nat) :
    (platformSFlashRead e m dest fromaddr size).1 = size ↔
      Fine e (sReadAsks e m.calls.length dest fromaddr size) := by
  unfold platformSFlashRead sReadAsks
  by_cases hz : size = 0
  · simp [hz, Fine]
  by_cases hd : dest % blksize = 0
  · simp [Fine, hz, hd, flashRead_answer, Ne.symm hz]
  · cases hf : Ask.fails e (.flash m.calls.length
        ⟨.read, fromaddr, alignDown dest + blksize, size - blksize⟩) <;>
      simp [Fine, hz, hd, hf, flashRead_calls, flashRead_answer, Ne.symm hz]

theorem platformSFlashWrite_records (src toaddr size : Nat) :
    Records m (platformSFlashWrite e m src toaddr size).2
      (sWriteAsks e m.calls.length src toaddr size) := by
  unfold platformSFlashWrite sWriteAsks
  by_cases hb : src % blksize ≠ 0 ∨ e.cached src = true
  · rw [if_pos hb, if_pos hb]
    cases e.malloc m.calls.length size <;>
      simp [Records, flashWrite_calls, Ask.prim, List.filterMap_cons]
  · rw [if_neg hb, if_neg hb]
    simp [Records, flashWrite_calls, Ask.prim]

theorem platformSFlashWrite_reports (src toaddr : Nat) {size : Nat} (hz : 0 < size) :
    (platformSFlashWrite e m src toaddr size).1 = size ↔
      Fine e (sWriteAsks e m.calls.length src toaddr size) := by
  unfold platformSFlashWrite sWriteAsks
  by_cases hb : src % blksize ≠ 0 ∨ e.cached src = true
  · rw [if_pos hb, if_pos hb]
    cases hm : e.malloc m.calls.length size with
    | none => simp [Fine, Ask.fails, hm, Nat.ne_of_lt hz]
    | some apbuf => simp [Fine, flashWrite_answer, Ask.fails, hm, Nat.ne_of_lt hz]
  · rw [if_neg hb, if_neg hb]
    simp [Fine, flashWrite_answer, Ask.fails, Nat.ne_of_lt hz]

theorem patchWord_records (pfrom temp i stop size : Nat) :
    Records m (patchWord e m pfrom temp i stop size).2 (patchAsks e m.calls.length temp) := by
  have hr := platformSFlashRead_records (e := e) (m := m) e.tmpdata temp blksize
  refine hr.append ?_
  rw [hr.count]
  exact platformSFlashWrite_records _ _ _

theorem copyLoop_left (mem : ByteMem) (dst src i stop size : Nat) :
    (copyLoop mem dst src i stop size).1 = size - (stop - i) := by
  induction size generalizing mem dst src i with
  | zero => rw [copyLoop, Nat.zero_sub]
  | succ size ih =>
    rw [copyLoop]
    split
    · rw [ih]
      omega
    · dsimp only
      omega

theorem writeBlocks_records (pfrom toaddr size : Nat) :
    Records m (writeBlocks e m pfrom toaddr size)
      (writeBlocksAsks e m.calls.length pfrom toaddr size) := by
  have hw := platformSFlashWrite_records (e := e) (m := m) pfrom toaddr (alignDown size)
  simp only [writeBlocks, writeBlocksAsks]
  by_cases ht : alignDown size = 0
  · by_cases hs : size % blksize = 0
    · simpa [ht, hs] using Records.refl rfl
    · simpa [ht, hs, after] using patchWord_records pfrom toaddr 0 (size % blksize) size
  · by_cases hs : size % blksize = 0
    · simpa [ht, hs] using hw
    · simp only [ht, hs, ne_eq, not_false_eq_true, if_true]
      refine hw.append ?_
      rw [hw.count]
      exact patchWord_records _ _ _ _ _

theorem platformFlashWrite_records (src toaddr size : Nat) :
    Records m (platformFlashWrite e m src toaddr size).2
      (writeAsks e m.calls.length src toaddr size) := by
  unfold platformFlashWrite writeAsks
  by_cases ht : toaddr % blksize = 0
  · simpa [ht] using writeBlocks_records src toaddr size
  · have hp := patchWord_records (e := e) (m := m) src (alignDown toaddr)
      (toaddr % blksize) blksize size
    have hleft : (patchWord e m src (alignDown toaddr) (toaddr % blksize) blksize size).1 =
        size - (blksize - toaddr % blksize) := copyLoop_left _ _ _ _ _ _
    simp only [ht, ne_eq, not_false_eq_true, if_true, hleft]
    split
    · simpa using hp
    · refine hp.append ?_
      rw [hp.count]
      exact writeBlocks_records _ _ _

theorem fetchWord_records (pto temp i stop size : Nat) :
    Records m (fetchWord e m pto temp i stop size).2
      (sReadAsks e m.calls.length e.tmpdata temp blksize) :=
  platformSFlashRead_records e.tmpdata temp blksize

theorem readBlocks_records (pto fromaddr size : Nat) :
    Records m (readBlocks e m pto fromaddr size)
      (readBlocksAsks e m.calls.length pto fromaddr size) := by
  have hw := platformSFlashRead_records (e := e) (m := m) pto fromaddr (alignDown size)
  simp only [readBlocks, readBlocksAsks]
  by_cases ht : alignDown size = 0
  · by_cases hs : size % blksize = 0
    · simpa [ht, hs] using Records.refl rfl
    · simpa [ht, hs, after] using fetchWord_records pto fromaddr 0 (size % blksize) size
  · by_cases hs : size % blksize = 0
    · simpa [ht, hs] using hw
    · simp only [ht, hs, ne_eq, not_false_eq_true, if_true]
      refine hw.append ?_
      rw [hw.count]
      exact fetchWord_records _ _ _ _ _

theorem platformFlashRead_records (dest fromaddr size : Nat) :
    Records m (platformFlashRead e m dest fromaddr size).2
      (readAsks e m.calls.length dest fromaddr size) := by
  unfold platformFlashRead readAsks
  by_cases hf : fromaddr % blksize = 0
  · simpa [hf] using readBlocks_records dest fromaddr size
  · have hp := fetchWord_records (e := e) (m := m) dest (alignDown fromaddr)
      (fromaddr % blksize) blksize size
    have hleft : (fetchWord e m dest (alignDown fromaddr) (fromaddr % blksize) blksize size).1 =
        size - (blksize - fromaddr % blksize) := copyLoop_left _ _ _ _ _ _
    simp only [hf, ne_eq, not_false_eq_true, if_true, hleft]
    split
    · simpa using hp
    · refine hp.append ?_
      rw [hp.count]
      exact readBlocks_records _ _ _

end

section

variable {e : Env} {n : Nat}

/-- The same port, with a chip and a heap that never fail. -/
def Env.healed (e : Env) : Env where
  cached := e.cached
  tmpdata := e.tmpdata
  back := e.back
  malloc n size := some ((e.malloc n size).getD 0)
  fault _ _ := none

/-- What a call asks for, and what it would ask for if nothing failed. -/
def Agree (e : Env) (made planned : List Ask) : Prop :=
  Fine e made ∨ Fine e planned → made = planned

theorem Fine.append_iff {first second : List Ask} :
    Fine e (first ++ second) ↔ Fine e first ∧ Fine e second := List.forall_mem_append

theorem Agree.refl (asks : List Ask) : Agree e asks asks := fun _ => rfl

theorem Agree.append {first first' second second' : List Ask} (h₁ : Agree e first first')
    (h₂ : first = first' → Agree e second second') :
    Agree e (first ++ second) (first' ++ second') := by
  simp only [Agree, Fine.append_iff] at *
  intro h
  have hfirst : first = first' := h₁ (h.imp And.left And.left)
  have hsecond : second = second' := h₂ hfirst (h.imp And.right And.right)
  rw [hfirst, hsecond]

theorem Agree.fine_iff {made planned : List Ask} (h : Agree e made planned) :
    Fine e made ↔ Fine e planned :=
  ⟨fun hm => h (.inl hm) ▸ hm, fun hp => h (.inr hp) ▸ hp⟩

@[simp] theorem healed_back : e.healed.back = e.back := rfl

@[simp] theorem healed_fails (a : Ask) : a.fails e.healed = false := by cases a <;> rfl

theorem sReadAsks_agree (n dest fromaddr size : Nat) :
    Agree e (sReadAsks e n dest fromaddr size) (sReadAsks e.healed n dest fromaddr size) := by
  unfold sReadAsks
  by_cases hz : size = 0
  · simpa [hz] using Agree.refl []
  by_cases hd : dest % blksize = 0
  · simpa [hz, hd] using Agree.refl _
  · -- the second read is made unless the first one fails
    cases hf : Ask.fails e (.flash n ⟨.read, fromaddr, alignDown dest + blksize, size - blksize⟩)
    · simpa [hz, hd, hf] using Agree.refl _
    · simp [hz, hd, hf, Agree, Fine]

theorem sWriteAsks_agree (n src toaddr size : Nat) :
    Agree e (sWriteAsks e n src toaddr size) (sWriteAsks e.healed n src toaddr size) := by
  unfold sWriteAsks
  by_cases hb : src % blksize ≠ 0 ∨ e.cached src = true
  · rw [if_pos hb, if_pos (show src % blksize ≠ 0 ∨ e.healed.cached src = true from hb)]
    cases hm : e.malloc n size with
    | none => simp [Env.healed, Agree, Fine, Ask.fails, hm]
    | some apbuf => simpa [Env.healed, hm] using Agree.refl _
  · rw [if_neg hb, if_neg (show ¬(src % blksize ≠ 0 ∨ e.healed.cached src = true) from hb)]
    exact Agree.refl _

theorem patchAsks_agree (n temp : Nat) :
    Agree e (patchAsks e n temp) (patchAsks e.healed n temp) := by
  refine (sReadAsks_agree n e.tmpdata temp blksize).append fun h => ?_
  rw [h]
  exact sWriteAsks_agree _ _ _ _

theorem writeBlocksAsks_agree (n pfrom toaddr size : Nat) :
    Agree e (writeBlocksAsks e n pfrom toaddr size)
      (writeBlocksAsks e.healed n pfrom toaddr size) := by
  refine Agree.append ?_ fun h => ?_
  · split
    · exact sWriteAsks_agree _ _ _ _
    · exact Agree.refl _
  · rw [h]
    split
    · exact patchAsks_agree _ _
    · exact Agree.refl _

theorem writeAsks_agree (n src toaddr size : Nat) :
    Agree e (writeAsks e n src toaddr size) (writeAsks e.healed n src toaddr size) := by
  simp only [writeAsks]
  split
  · refine (patchAsks_agree _ _).append fun h => ?_
    rw [h]
    split
    · exact Agree.refl _
    · exact writeBlocksAsks_agree _ _ _ _
  · exact writeBlocksAsks_agree _ _ _ _

theorem readBlocksAsks_agree (n pto fromaddr size : Nat) :
    Agree e (readBlocksAsks e n pto fromaddr size)
      (readBlocksAsks e.healed n pto fromaddr size) := by
  refine Agree.append ?_ fun h => ?_
  · split
    · exact sReadAsks_agree _ _ _ _
    · exact Agree.refl _
  · rw [h]
    split
    · exact sReadAsks_agree _ _ _ _
    · exact Agree.refl _

theorem readAsks_agree (n dest fromaddr size : Nat) :
    Agree e (readAsks e n dest fromaddr size) (readAsks e.healed n dest fromaddr size) := by
  simp only [readAsks]
  split
  · refine (sReadAsks_agree _ _ _ _).append fun h => ?_
    rw [h]
    split
    · exact Agree.refl _
    · exact readBlocksAsks_agree _ _ _ _
  · exact readBlocksAsks_agree _ _ _ _

end

/-- `my_spiffs_read` returns SPIFFS_OK only if every operation below it succeeded. -/
def ReadReported (e : Env) (m : Machine) (addr size dst : Nat) : Prop :=
  (mySpiffsRead e m addr size dst).1 = spiffsOk →
    Fine e (readAsks e m.calls.length dst addr size)

def WriteReported (e : Env) (m : Machine) (addr size src : Nat) : Prop :=
  (mySpiffsWrite e m addr size src).1 = spiffsOk →
    Fine e (writeAsks e m.calls.length src addr size)

/-- The callbacks drop every failure: nothing that such a call has to do may fail. -/
theorem failures_reported_iff (e : Env) (m : Machine) (addr size buf : Nat) :
    (ReadReported e m addr size buf ↔
        Fine e (readAsks e.healed m.calls.length buf addr size)) ∧
      (WriteReported e m addr size buf ↔
        Fine e (writeAsks e.healed m.calls.length buf addr size)) := by
  constructor
  · rw [← (readAsks_agree m.calls.length buf addr size).fine_iff]
    exact ⟨fun h => h rfl, fun h _ => h⟩
  · rw [← (writeAsks_agree m.calls.length buf addr size).fine_iff]
    exact ⟨fun h => h rfl, fun h _ => h⟩

def deadEnv : Env where
  cached := isCacheFlashAddr
  tmpdata := 0x3FFB1001
  back := 0x3FFB1010
  malloc _ _ := none
  fault _ _ := some (fun _ => 0)

def deadMachine : Machine := ⟨fun a => UInt8.ofNat a, fun _ => 0xA5, []⟩

/-- SPIFFS is told that it has the four bytes, and that it has stored them. -/
theorem failures_unreported :
    ¬ (∀ e m addr size buf, ReadReported e m addr size buf ∧ WriteReported e m addr size buf) ∧
      (mySpiffsRead deadEnv deadMachine 0x1000 4 0x3FFB0000).1 = spiffsOk ∧
      (mySpiffsRead deadEnv deadMachine 0x1000 4 0x3FFB0000).2.mem 0x3FFB0000 ≠
        deadMachine.flash 0x1000 := by
  refine ⟨fun h => ?_, rfl, by decide⟩
  have hfine := (h deadEnv deadMachine 0x1000 4 0x3FFB0000).1 rfl
  exact absurd hfine (by decide)

end Esp32Project.Flash
