import Mathlib.Algebra.Group.Nat.Defs
import Mathlib.Data.Int.Basic
import Esp32Project.Lib.Delimited

/-!
Reads of an open file. Every call reads a buffer full, looks for the
delimiter in it and moves the position back by what it leaves.
-/

set_option autoImplicit false

namespace Esp32Project.File

open Esp32Project.Lib

abbrev Bytes := List UInt8

structure VfsFile where
  content : Bytes
  pos : Nat

def VfsFile.remaining (f : VfsFile) : Bytes := f.content.drop f.pos

def vfsRead (f : VfsFile) (len : Nat) : Bytes × VfsFile :=
  let p := f.remaining.take len
  (p, { f with pos := f.pos + p.length })

def vfsLseek (f : VfsFile) (off : Int) : VfsFile := { f with pos := (f.pos + off).toNat }

def eof : Int := -1

/-- A `char` of the target is unsigned. -/
def charVal (c : UInt8) : Int := c.toNat

/-- Where the search of the buffer stops, one past the delimiter. -/
def searchEnd (endChar : Int) : Bytes → Nat
  | [] => 0
  | c :: p => if charVal c = endChar then 1 else searchEnd endChar p + 1

/-- `LUAL_BUFFERSIZE`, the `BUFSIZ` of the library: a positive `int`. -/
structure BufferSize where
  val : Nat
  pos : 0 < val
  fits : val < 2 ^ 31

/-- The value in newlib. -/
def BufferSize.bufsiz : BufferSize := ⟨1024, by decide, by decide⟩

section

variable (bufferSize : BufferSize)

/-- `file_fd` is `none` while no file is open. A call returns a string or nothing. -/
def fileGRead (n endChar : Int) (fileFd : Option VfsFile) :
    Except String (Option Bytes × Option VfsFile) :=
  let n := if n ≤ 0 ∨ n > bufferSize.val then bufferSize.val else n.toNat
  let endChar := if endChar < 0 ∨ endChar > 255 then eof else endChar
  match fileFd with
  | none => .error "open a file first"
  | some f =>
    let (p, f) := vfsRead f n
    let n := p.length
    let i := searchEnd endChar p
    if i = 0 then .ok (none, some f)
    else .ok (some (p.take i), some (vfsLseek f (-(n - i))))

/-- What stands first on the stack: a number as `luaL_checkinteger` gives it. -/
inductive LuaArg where
  | number (n : Int32)
  | string (s : Bytes)
  | other

def fileRead (arg : LuaArg) (fileFd : Option VfsFile) :
    Except String (Option Bytes × Option VfsFile) :=
  match arg with
  | .number n =>
    let needLen := n.toUInt32.toNat
    let needLen := if needLen > bufferSize.val then bufferSize.val else needLen
    fileGRead bufferSize needLen eof fileFd
  | .string s =>
    match s with
    | [c] => fileGRead bufferSize bufferSize.val (charVal c) fileFd
    | _ => .error "wrong arg range"
  | .other => fileGRead bufferSize bufferSize.val eof fileFd

def fileReadline (fileFd : Option VfsFile) : Except String (Option Bytes × Option VfsFile) :=
  fileGRead bufferSize bufferSize.val 10 fileFd

inductive Call where
  | read
  | readN (n : Int32)
  | readUntil (c : UInt8)
  | readline

def call (fileFd : Option VfsFile) : Call → Except String (Option Bytes × Option VfsFile)
  | .read => fileRead bufferSize .other fileFd
  | .readN n => fileRead bufferSize (.number n) fileFd
  | .readUntil c => fileRead bufferSize (.string [c]) fileFd
  | .readline => fileReadline bufferSize fileFd

def runCalls (fileFd : Option VfsFile) :
    List Call → Except String (List (Option Bytes) × Option VfsFile)
  | [] => .ok ([], fileFd)
  | c :: cs => do
    let (r, fileFd) ← call bufferSize fileFd c
    let (out, fileFd) ← runCalls fileFd cs
    return (r :: out, fileFd)

/-- The byte at which a call stops, if it stops at one. -/
def Call.delimiter : Call → Option UInt8
  | .read | .readN _ => none
  | .readUntil c => some c
  | .readline => some 10

/-- The number of bytes asked for, where the buffer holds as many. -/
def Call.limit : Call → Nat
  | .readN n => if 0 < n.toInt ∧ n.toInt ≤ bufferSize.val then n.toInt.toNat else bufferSize.val
  | _ => bufferSize.val

theorem Call.limit_pos (c : Call) : 0 < c.limit bufferSize := by
  have hsize := bufferSize.pos
  cases c with
  | readN n =>
    simp only [Call.limit]
    split
    · omega
    · exact hsize
  | read | readUntil c | readline => exact hsize

def Call.stops (c : Call) (b : UInt8) : Bool := c.delimiter == some b

def UpToDelimiter (c : Call) (rest u : Bytes) : Prop :=
  ShortestEnding c.stops rest u ∨ u = rest ∧ ∀ b ∈ rest, c.stops b = false

/-- The call returns the piece cut at its limit; nothing, at the end of the file only. -/
def Returns (c : Call) (rest : Bytes) : Option Bytes → Prop
  | some r => r ≠ [] ∧ ∃ u, UpToDelimiter c rest u ∧ r = u.take (c.limit bufferSize)
  | none => rest = []

theorem upToDelimiter_throughFirst (c : Call) (rest : Bytes) :
    UpToDelimiter c rest (throughFirst c.stops rest) := by
  by_cases h : ∃ b ∈ rest, c.stops b = true
  · exact .inl (throughFirst_shortest h)
  · have hnone : ∀ b ∈ rest, c.stops b = false := fun b hb =>
      Bool.eq_false_iff.mpr fun hs => h ⟨b, hb, hs⟩
    exact .inr ⟨throughFirst_none hnone, hnone⟩

theorem searchEnd_eq {stops : UInt8 → Bool} {e : Int} (h : ∀ b, stops b ↔ charVal b = e)
    (p : Bytes) : searchEnd e p = (throughFirst stops p).length := by
  induction p with
  | nil => rfl
  | cons b p ih =>
    unfold searchEnd throughFirst
    by_cases hb : charVal b = e
    · rw [if_pos hb, if_pos ((h b).mpr hb)]
      rfl
    · rw [if_neg hb, if_neg (fun hs => hb ((h b).mp hs)), ih]
      rfl

def took (r : Bytes) (f : VfsFile) : Option Bytes × Option VfsFile :=
  (if r = [] then none else some r, some { f with pos := f.pos + r.length })

theorem fileGRead_eq {stops : UInt8 → Bool} {n e : Int}
    (h : ∀ b, stops b ↔ charVal b = if e < 0 ∨ e > 255 then eof else e) (f : VfsFile) :
    fileGRead bufferSize n e (some f) =
      .ok (took ((throughFirst stops f.remaining).take
        (if n ≤ 0 ∨ n > bufferSize.val then bufferSize.val else n.toNat)) f) := by
  unfold fileGRead vfsRead
  simp only
  generalize (if n ≤ 0 ∨ n > bufferSize.val then bufferSize.val else n.toNat) = limit
  rw [searchEnd_eq h, ← throughFirst_take]
  set p := f.remaining.take limit
  have hprefix := throughFirst_isPrefix stops p
  have hle := hprefix.length_le
  by_cases hempty : throughFirst stops p = []
  · have hp : p = [] := throughFirst_eq_nil hempty
    simp [hp, took, throughFirst]
  · have hlen : (throughFirst stops p).length ≠ 0 := fun h0 =>
      hempty (List.length_eq_zero_iff.mp h0)
    rw [if_neg hlen, took, if_neg hempty, ← List.prefix_iff_eq_take.mp hprefix, vfsLseek]
    congr 4
    simp only
    omega

def Call.endChar (c : Call) : Int := c.delimiter.elim eof charVal

theorem stops_iff (c : Call) (b : UInt8) :
    c.stops b ↔ charVal b = if c.endChar < 0 ∨ c.endChar > 255 then eof else c.endChar := by
  have hb : 0 ≤ charVal b := Int.natCast_nonneg _
  cases hd : c.delimiter with
  | none =>
    have hne : charVal b ≠ eof := fun h => absurd (h ▸ hb) (by decide)
    simpa [Call.stops, Call.endChar, hd, eof] using hne
  | some d =>
    have hrange : ¬ (charVal d < 0 ∨ charVal d > 255) := by
      have := d.toNat_lt
      simp only [charVal]
      omega
    have hinj : charVal b = charVal d ↔ d = b := by
      simp only [charVal, Int.natCast_inj, UInt8.toNat_inj, eq_comm]
    simp [Call.stops, Call.endChar, hd, hrange, hinj]

/-- The number that is converted to `unsigned` and cut asks for the same limit. -/
theorem limit_readN (n : Int32) {needLen : Nat}
    (h : needLen = if n.toUInt32.toNat > bufferSize.val then bufferSize.val
      else n.toUInt32.toNat) :
    (if (needLen : Int) ≤ 0 ∨ (needLen : Int) > bufferSize.val then bufferSize.val
      else (needLen : Int).toNat) = (Call.readN n).limit bufferSize := by
  have hsize := bufferSize.pos
  have hfits := bufferSize.fits
  have hbits : n.toInt = if 2 * n.toUInt32.toNat < 2 ^ 32 then (n.toUInt32.toNat : Int)
      else n.toUInt32.toNat - (2 ^ 32 : Nat) := BitVec.toInt_eq_toNat_cond n.toBitVec
  have hlt := n.toUInt32.toNat_lt
  generalize n.toUInt32.toNat = u at h hbits hlt
  simp only [Call.limit]
  by_cases hnonneg : 2 * u < 2 ^ 32
  · rw [if_pos hnonneg] at hbits
    rw [hbits, h]
    split <;> split <;> split <;> omega
  · -- a negative number is far more than the buffer holds
    rw [if_neg hnonneg] at hbits
    rw [if_pos (by omega)] at h
    rw [if_neg (by omega), if_neg (by omega), h, Int.toNat_natCast]

theorem fileGRead_call {c : Call} {n : Int}
    (hn : (if n ≤ 0 ∨ n > bufferSize.val then bufferSize.val else n.toNat) = c.limit bufferSize)
    (f : VfsFile) :
    fileGRead bufferSize n c.endChar (some f) =
      .ok (took ((throughFirst c.stops f.remaining).take (c.limit bufferSize)) f) := by
  rw [fileGRead_eq bufferSize (stops_iff c), hn]

theorem call_eq (c : Call) (f : VfsFile) :
    call bufferSize (some f) c =
      .ok (took ((throughFirst c.stops f.remaining).take (c.limit bufferSize)) f) := by
  have hsize := bufferSize.pos
  have hwhole : (if (bufferSize.val : Int) ≤ 0 ∨ (bufferSize.val : Int) > bufferSize.val
      then bufferSize.val else (bufferSize.val : Int).toNat) = bufferSize.val := by
    rw [if_neg (by omega), Int.toNat_natCast]
  cases c with
  | read => exact fileGRead_call bufferSize (c := .read) hwhole f
  | readN n => exact fileGRead_call bufferSize (c := .readN n) (limit_readN bufferSize n rfl) f
  | readUntil c => exact fileGRead_call bufferSize (c := .readUntil c) hwhole f
  | readline => exact fileGRead_call bufferSize (c := .readline) hwhole f

def joined (out : List (Option Bytes)) : Bytes := (out.map (·.getD [])).flatten

theorem took_text (r : Bytes) (f : VfsFile) : (took r f).1.getD [] = r := by
  unfold took
  by_cases hr : r = [] <;> simp [hr]

theorem took_returns (c : Call) (f : VfsFile) :
    Returns bufferSize c f.remaining
      (took ((throughFirst c.stops f.remaining).take (c.limit bufferSize)) f).1 := by
  have hlimit := c.limit_pos bufferSize
  set r := (throughFirst c.stops f.remaining).take (c.limit bufferSize) with hr
  by_cases hnil : r = []
  · have hrest : throughFirst c.stops f.remaining = [] := by
      rcases List.take_eq_nil_iff.mp (hr ▸ hnil) with h0 | h
      · omega
      · exact h
    rw [took, if_pos hnil]
    exact throughFirst_eq_nil hrest
  · rw [took, if_neg hnil]
    exact ⟨hnil, _, upToDelimiter_throughFirst c f.remaining, hr⟩

theorem runCalls_from (cs : List Call) (f : VfsFile) :
    ∃ out f', runCalls bufferSize (some f) cs = .ok (out, some f') ∧
      f'.content = f.content ∧ joined out <+: f.remaining ∧
      f'.pos = f.pos + (joined out).length ∧
      ∀ k c, cs[k]? = some c → ∃ r, out[k]? = some r ∧
        Returns bufferSize c (f.remaining.drop (joined (out.take k)).length) r := by
  induction cs generalizing f with
  | nil => exact ⟨[], f, rfl, rfl, List.nil_prefix, rfl, by simp⟩
  | cons c cs ih =>
    set r := (throughFirst c.stops f.remaining).take (c.limit bufferSize) with hr
    have hprefix : r <+: f.remaining :=
      (List.take_prefix _ _).trans (throughFirst_isPrefix _ _)
    set g : VfsFile := { f with pos := f.pos + r.length } with hg
    have hrest : g.remaining = f.remaining.drop r.length := by
      simp only [hg, VfsFile.remaining, List.drop_drop]
    obtain ⟨out, f', hrun, hcontent, hjoined, hpos, heach⟩ := ih g
    have hcons : ∀ rest, joined ((took r f).1 :: rest) = r ++ joined rest := fun rest => by
      simp [joined, took_text]
    refine ⟨(took r f).1 :: out, f', ?_, hcontent, ?_, ?_, ?_⟩
    · have hnext : (took r f).2 = some g := rfl
      simp only [runCalls, call_eq, ← hr]
      simp only [bind, Except.bind, hnext, hrun, pure, Except.pure]
    · obtain ⟨tail, htail⟩ := hprefix
      rw [hrest, ← htail, List.drop_left] at hjoined
      rw [hcons, ← htail]
      exact (List.prefix_append_right_inj r).mpr hjoined
    · rw [hpos, hcons, List.length_append, Nat.add_assoc]
    · intro k d hd
      cases k with
      | zero =>
        obtain rfl : c = d := by simpa using hd
        exact ⟨_, rfl, took_returns bufferSize c f⟩
      | succ k =>
        obtain ⟨a, ha, hreturns⟩ := heach k d (by simpa using hd)
        refine ⟨a, by simpa using ha, ?_⟩
        rw [List.take_succ_cons, hcons, List.length_append, ← List.drop_drop, ← hrest]
        exact hreturns

def opened (content : Bytes) : VfsFile := ⟨content, 0⟩

/-- The calls return the content from its start, each the piece it asks for. -/
theorem reads_pieces (content : Bytes) (cs : List Call) :
    ∃ out f, runCalls bufferSize (some (opened content)) cs = .ok (out, some f) ∧
      f.content = content ∧ joined out <+: content ∧ f.pos = (joined out).length ∧
      ∀ k c, cs[k]? = some c → ∃ r, out[k]? = some r ∧
        Returns bufferSize c (content.drop (joined (out.take k)).length) r := by
  obtain ⟨out, f, hrun, hcontent, hjoined, hpos, heach⟩ :=
    runCalls_from bufferSize cs (opened content)
  exact ⟨out, f, hrun, hcontent, hjoined, hpos.trans (Nat.zero_add _), heach⟩

end

/-- A line and what is left, of the file "a\nbc". -/
theorem reads_pieces_kilobyte :
    ∃ f, runCalls .bufsiz (some (opened [97, 10, 98, 99])) [.readline, .read, .read] =
        .ok ([some [97, 10], some [98, 99], none], some f) ∧
      f.content = [97, 10, 98, 99] ∧ f.pos = 4 ∧
      Returns .bufsiz .read [98, 99] (some [98, 99]) := by
  obtain ⟨out, f, hrun, hcontent, -, hpos, heach⟩ :=
    reads_pieces .bufsiz [97, 10, 98, 99] [.readline, .read, .read]
  obtain rfl : [some [97, 10], some [98, 99], none] = out :=
    congrArg Prod.fst (Except.ok.inj hrun)
  obtain ⟨r, hr, hreturns⟩ := heach 1 .read rfl
  cases hr
  exact ⟨f, hrun, hcontent, hpos, hreturns⟩

end Esp32Project.File
