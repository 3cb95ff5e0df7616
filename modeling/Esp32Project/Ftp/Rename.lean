import Esp32Project.Ftp.Login

/-!
RNFR and RNTO over whole runs. The source of a pending rename lies in buf, where
a RNFR that fails, a slice of a transfer and the commands of another client
reach it while rnfrCmd stays set.
-/

set_option autoImplicit false

namespace Esp32Project.Ftp
open Esp32Project.Lib

/-- The path of the latest RNFR of a session that was answered with 350. -/
def lastFrom (c : Option Conn) (log : List Event) : Option (List UInt8) :=
  (log.filterMap fun
    | .renameFrom c' path => if c' = c then some path else none
    | _ => none).getLast?

example : lastFrom none [.renameFrom none [1], .renameFrom none [2]] = some [2] := by decide +kernel

/-- Every rename starts from the path of the latest RNFR of its session. -/
def RenamesOk (log : List Event) : Prop :=
  ∀ pre c source target, pre ++ [.rename c source target] <+: log → lastFrom c pre = some source

/-- A RNFR that does not succeed leaves the string in buf as it was. -/
def rnfrKeeps (i : Input) (s : Server) : Except Fault (Lexer × Int × List (List UInt8)) → Bool
  | .ok r =>
    r.2.1 ≤ 0 || verbOf r.1.command.text != some .rnfr ||
      match makePath ftpBufSize s.cwdName.text (text r.1.params) with
      | .ok (written, ok) => text r.1.params == [] || (ok && i.found (cString written)) ||
          cString written == cString s.buf
      | .error _ => true
  | .error _ => true

/-- A slice leaves the string in buf as it was, or empty. -/
def sliceKeeps (i : Input) (s : Server) : Bool :=
  cString (overwrite s.buf (sliceRead i s)) == cString s.buf ||
    cString (overwrite s.buf (sliceRead i s)) == []

def renamePending (s : Server) : Bool := s.rnfrCmd && s.cmdStatus == 5

/-- While a rename is pending no other client comes in and nothing else is
written into buf. -/
def renameGuard (s : Server) (i : Input) : Bool :=
  ahead s.millisDelay (millis i.now) ||
    ((!renamePending s || (!i.pending &&
        rnfrKeeps i s (readChar s.lexer ((incoming i s).map Prod.snd)))) &&
      match session i (arrived i s) with
      | .ok t => !renamePending t || sliceKeeps i t
      | .error _ => true)

def Event.noRename : Event → Bool
  | .renameFrom _ _ | .rename _ _ _ => false
  | _ => true

theorem noRename_of_quiet {e : Event} (h : e.quiet = true) : e.noRename = true := by
  cases e <;> first | rfl | cases h

theorem lastFrom_append (c : Option Conn) (log : List Event) {new : List Event}
    (h : ∀ e ∈ new, e.noRename = true) : lastFrom c (log ++ new) = lastFrom c log := by
  have hnil : new.filterMap (fun
      | .renameFrom c' path => if c' = c then some path else none
      | _ => none) = [] := by
    refine List.filterMap_eq_nil_iff.mpr fun e he => ?_
    have := h e he
    cases e <;> first | rfl | cases this
  unfold lastFrom
  rw [List.filterMap_append, hnil, List.append_nil]

theorem lastFrom_renameFrom (c : Option Conn) (log : List Event) (path : List UInt8) :
    lastFrom c (log ++ [.renameFrom c path]) = some path := by
  simp [lastFrom, List.filterMap_append]

theorem RenamesOk.append {log new : List Event} (h : RenamesOk log)
    (hn : ∀ e ∈ new, ∀ c source target, e ≠ .rename c source target) :
    RenamesOk (log ++ new) := by
  intro pre c source target hp
  exact h pre c source target (prefix_of_append (fun hm => hn _ hm _ _ _ rfl) hp)

theorem RenamesOk.rename {log : List Event} {c : Option Conn} {source : List UInt8}
    (h : RenamesOk log) (hs : lastFrom c log = some source) (target : List UInt8) :
    RenamesOk (log ++ [.rename c source target]) := by
  intro pre c' source' target' hp
  rcases List.prefix_concat_iff.mp hp with heq | hp
  · obtain ⟨hlog, hlast⟩ := List.append_inj' heq rfl
    simp only [List.cons.injEq, Event.rename.injEq, and_true] at hlast
    rw [hlog, hlast.1, hlast.2.1, hs]
  · exact h pre c' source' target' hp

def SourceOk (s : Server) : Prop :=
  cString s.buf = [] ∨ lastFrom s.client s.log = some (cString s.buf)

structure RenameInv (s : Server) : Prop where
  good : RenamesOk s.log
  source : s.rnfrCmd = true → s.cmdStatus = 5 → SourceOk s
  reset : 2 ≤ s.cmdStatus → s.cmdStatus ≤ 4 → s.rnfrCmd = false

section

variable {s s' t : Server} {i : Input}

/-- What a step may do that leaves a pending rename alone. -/
theorem RenameInv.keep (h : RenameInv s) (hbuf : s'.buf = s.buf)
    (hlog : ∃ new, s'.log = s.log ++ new ∧ ∀ e ∈ new, e.noRename = true)
    (h₅ : s'.rnfrCmd = true → s'.cmdStatus = 5 →
      s.rnfrCmd = true ∧ s.cmdStatus = 5 ∧ s'.client = s.client)
    (hreset : 2 ≤ s'.cmdStatus → s'.cmdStatus ≤ 4 → s'.rnfrCmd = false) : RenameInv s' := by
  obtain ⟨new, hlog, hnew⟩ := hlog
  refine ⟨?_, fun hr hs => ?_, hreset⟩
  · rw [hlog]
    refine h.good.append fun e he c source target heq => ?_
    have := hnew e he
    rw [heq] at this
    cases this
  · obtain ⟨hr, hs, hclient⟩ := h₅ hr hs
    unfold SourceOk
    rw [hbuf, hclient, hlog, lastFrom_append s.client s.log hnew]
    exact h.source hr hs

theorem RenameInv.quiet (h : RenameInv s) (hq : Quiet s s') : RenameInv s' := by
  have hr : s'.rnfrCmd = s.rnfrCmd := congrArg View.rnfrCmd hq.view
  have hs : s'.cmdStatus = s.cmdStatus := congrArg View.cmdStatus hq.view
  obtain ⟨new, hlog, hnew⟩ := hq.log
  refine h.keep (congrArg View.buf hq.view) ⟨new, hlog, fun e he => noRename_of_quiet (hnew e he)⟩
    (fun h₁ h₂ => ⟨hr ▸ h₁, hs ▸ h₂, congrArg View.client hq.view⟩) ?_
  rw [hr, hs]
  exact h.reset

theorem RenameInv.readOn (h : RenameInv s) (lexer : Lexer) :
    RenameInv (taking s (incoming i s) lexer) := by
  have hlog := taking_log s (incoming i s) lexer
  cases hin : incoming i s with
  | none =>
    rw [hin] at hlog
    exact h.keep rfl ⟨_, hlog, by simp⟩ (fun h₁ h₂ => ⟨h₁, h₂, rfl⟩) h.reset
  | some p =>
    rw [hin] at hlog
    exact h.keep rfl ⟨_, hlog, by simp [Event.noRename]⟩ (fun h₁ h₂ => ⟨h₁, h₂, rfl⟩) h.reset

theorem RenameInv.setStatus (h : RenameInv s) {n : Nat} (c : Option Conn)
    (hn : n < 2 ∨ s.rnfrCmd = false) : RenameInv { s with client := c, cmdStatus := n } := by
  refine h.keep rfl ⟨[], by simp, by simp⟩ (fun hr hs => ?_) fun hle _ => ?_
  · rcases hn with hn | hn
    · exact absurd hs (by simp only; omega)
    · exact absurd hr (by simp [hn])
  · rcases hn with hn | hn
    · exact absurd hle (by simp only; omega)
    · exact hn

theorem rnfrCmd_taking {byte : Option (Conn × UInt8)} {lexer : Lexer} :
    (taking s byte lexer).rnfrCmd = s.rnfrCmd := by
  cases byte <;> rfl

theorem RenameInv.setBuf (h : RenameInv s) {buf : List UInt8}
    (hb : s.rnfrCmd = true → s.cmdStatus = 5 →
      cString buf = cString s.buf ∨ cString buf = []) : RenameInv { s with buf } where
  good := h.good
  source hr hs := by
    rcases hb hr hs with hb | hb
    · have := h.source hr hs
      rwa [SourceOk, ← hb] at this
    · exact .inl hb
  reset := h.reset

theorem RenameInv.renameFrom {path : List UInt8} (h : RenamesOk s.log) (hs : s.cmdStatus = 5)
    (hb : cString s.buf = path) :
    RenameInv ({ s with rnfrCmd := true }.emit (.renameFrom s.client path)) where
  good := h.append (by simp)
  source _ _ := .inr (by
    rw [show (Server.emit { s with rnfrCmd := true } _).buf = s.buf from rfl, hb]
    exact lastFrom_renameFrom s.client s.log path)
  reset _ hle := by
    have : s.cmdStatus ≤ 4 := hle
    omega

theorem RenameInv.setRnfrCmd (h : RenameInv s) : RenameInv { s with rnfrCmd := false } where
  good := h.good
  source := by simp
  reset _ _ := rfl

theorem RenameInv.rename (h : RenameInv s) (hs : s.cmdStatus = 5) (hr : s.rnfrCmd = true)
    (hne : cString s.buf ≠ []) (path : List UInt8) :
    RenameInv ({ s with rnfrCmd := false }.emit (.rename s.client (cString s.buf) path)) where
  good := h.good.rename ((h.source hr hs).resolve_left hne) path
  source := by simp [Server.emit]
  reset _ _ := rfl

theorem RenameInv.command {parameters : Option (List UInt8)} {v : Option Verb}
    (h : RenameInv s) (hs : s.cmdStatus = 5) (hstep : CommandStep i s parameters v t)
    (hv : v ≠ some .quit)
    (hg : s.rnfrCmd = true → v = some .rnfr → ∀ p written ok, parameters = some p → p ≠ [] →
      makePath ftpBufSize s.cwdName.text p = .ok (written, ok) →
      (ok && i.found (cString written)) = false → cString written = cString s.buf) :
    RenameInv t := by
  cases hstep with
  | quiet hq => exact h.quiet hq
  | quit hq => exact absurd rfl hv
  | noName hq => exact (h.setBuf fun _ _ => .inr (cString_overwrite _ (by simp))).quiet hq
  | notFound hp hne hm hn hq =>
    refine (h.setBuf fun hr _ => .inl ?_).quiet hq
    rw [cString_overwrite _ (makePath_terminated hm)]
    exact hg hr rfl _ _ _ hp hne hm hn
  | renameFrom hp hm hq =>
    obtain ⟨new, hlog, hnew⟩ := hq.log
    refine RenameInv.renameFrom ?_ ((congrArg View.cmdStatus hq.view).trans hs) ?_
    · rw [hlog]
      refine h.good.append fun e he c source target heq => ?_
      have := hnew e he
      rw [heq] at this
      cases this
    · rw [← cString_overwrite s.buf (makePath_terminated hm)]
      exact congrArg (fun v : View => cString v.buf) hq.view
  | notRenamed hq => exact h.setRnfrCmd.quiet hq
  | rename hr hne hq => exact (h.rename hs hr hne _).quiet hq

theorem rnfrKeeps_ok {r : Lexer × Int × List (List UInt8)} {p written : List UInt8} {ok : Bool}
    (h : rnfrKeeps i s (.ok r) = true) (hrc : r.2.1 > 0)
    (hv : verbOf r.1.command.text = some .rnfr) (hp : r.1.params = some p) (hne : p ≠ [])
    (hm : makePath ftpBufSize s.cwdName.text p = .ok (written, ok))
    (hn : (ok && i.found (cString written)) = false) : cString written = cString s.buf := by
  have hnot : ¬ r.2.1 ≤ 0 := by omega
  simpa [rnfrKeeps, hnot, hv, hp, text, hne, hm, hn] using h

theorem RenameInv.session (h : RenameInv s) (hstep : SessionStep i s s')
    (hg : renamePending s = true →
      rnfrKeeps i s (readChar s.lexer ((incoming i s).map Prod.snd)) = true) :
    RenameInv s' := by
  cases hstep with
  | leave hs hq => exact (h.setStatus none (.inl (by omega))).quiet hq
  | reset hs hq =>
    refine RenameInv.quiet ?_ hq
    exact h.keep rfl ⟨[], by simp, by simp⟩ (by simp) (fun _ _ => rfl)
  | idle hs hq => exact (h.setStatus none (.inr (h.reset (by omega) (by omega)))).quiet hq
  | greet hs hc hq =>
    have hr := h.reset (by omega) (by omega)
    refine RenameInv.quiet ?_ hq
    exact h.keep rfl ⟨[], by simp, by simp⟩ (by simp [hr]) (fun _ _ => hr)
  | byte hs hr hq => exact (h.readOn _).quiet hq
  | gone hs hr hq => exact ((h.readOn _).setStatus none (.inl (by omega))).quiet hq
  | refused hs hr hq => exact ((h.readOn _).setStatus _ (.inl (by omega))).quiet hq
  | identified hs hr hrc hp hq =>
    have hreset := h.reset (by omega) (by omega)
    exact ((h.readOn _).setStatus _ (.inr (rnfrCmd_taking.trans hreset))).quiet hq
  | admitted hs hr hrc hc hp hq =>
    have hreset := h.reset (by omega) (by omega)
    exact ((h.readOn _).setStatus _ (.inr (rnfrCmd_taking.trans hreset))).quiet hq
  | command hs hr hrc ht hq =>
    rename_i t r
    have hu : RenameInv ((taking s (incoming i s) r.1).emit
        (.command s.client r.1.command.text r.1.params)) :=
      (h.readOn r.1).keep rfl ⟨_, rfl, by simp [Event.noRename]⟩ (fun h₁ h₂ => ⟨h₁, h₂, rfl⟩)
        (h.readOn r.1).reset
    by_cases hv : verbOf r.1.command.text = some .quit
    · rcases hq with ⟨-, hne⟩ | hq
      · exact absurd hv hne
      rw [hv] at ht
      cases ht with
      | quiet ht => exact ((hu.quiet ht).setStatus _ (.inl (by omega))).quiet hq
      | quit ht => exact (hu.setStatus none (.inl (by omega))).quiet ((ht.setStatus 0).trans hq)
    · have hkeep : ∀ byte, (taking s byte r.1).cwdName = s.cwdName ∧
          (taking s byte r.1).buf = s.buf := by
        intro byte
        cases byte <;> exact ⟨rfl, rfl⟩
      have hstatus : (taking s (incoming i s) r.1).cmdStatus = 5 := taking_status hs
      have ht' : RenameInv t := by
        refine hu.command hstatus ht hv fun hr' hv' p written ok hp hne hm hn => ?_
        have hpending : renamePending s = true := by
          have : (taking s (incoming i s) r.1).rnfrCmd = true := hr'
          rw [rnfrCmd_taking] at this
          simp [renamePending, this, hs]
        have hcwd : makePath ftpBufSize s.cwdName.text p = .ok (written, ok) :=
          (hkeep (incoming i s)).1 ▸ hm
        have hsame := rnfrKeeps_ok (hr ▸ hg hpending) hrc hv' hp hne hcwd hn
        exact hsame.trans (congrArg cString (hkeep (incoming i s)).2.symm)
      rcases hq with ⟨hq, -⟩ | hq
      · exact ht'.quiet hq
      · exact (ht'.setStatus _ (.inl (by omega))).quiet hq

theorem RenameInv.transfer (h : RenameInv s) (hstep : TransferStep i s s')
    (hg : renamePending s = true → sliceKeeps i s = true) : RenameInv s' := by
  cases hstep with
  | quiet hq => exact h.quiet hq
  | slice hq =>
    refine (h.setBuf fun hr hs => ?_).quiet hq
    have := hg (by simp [renamePending, hr, hs])
    simpa [sliceKeeps] using this
  | timeout hs hq => exact (h.setStatus _ (.inl (by omega))).quiet hq

theorem RenameInv.accept (h : RenameInv s) (hp : renamePending s = false) :
    RenameInv (acceptClient s) := by
  refine h.keep rfl ⟨_, rfl, by simp [Event.noRename]⟩ (fun hr hs => ?_) h.reset
  have hr : s.rnfrCmd = true := hr
  have hs : s.cmdStatus = 5 := hs
  simp [renamePending, hr, hs] at hp

theorem RenameInv.handle (h : RenameInv s) (hg : renameGuard s i = true)
    (hstep : handleStep s i = some s') : RenameInv s' := by
  rcases handleFTP_steps (handleStep_ok hstep) with rfl | ⟨ha, t, hsession, htransfer⟩
  · exact h
  unfold renameGuard at hg
  simp only [ha, Bool.false_or, hsession, Bool.and_eq_true, Bool.or_eq_true,
    Bool.not_eq_true'] at hg
  obtain ⟨hcall, hslice⟩ := hg
  have ht : RenameInv t := by
    unfold arrived at hsession
    split at hsession
    · rename_i hp
      have hidle : renamePending s = false := by
        rcases hcall with hidle | ⟨hnp, -⟩
        · exact hidle
        · rw [hp] at hnp
          cases hnp
      refine (h.accept hidle).session (session_step hsession) fun hpending => ?_
      rw [show renamePending (acceptClient s) = renamePending s from rfl, hidle] at hpending
      cases hpending
    · refine h.session (session_step hsession) fun hpending => ?_
      rcases hcall with hidle | ⟨-, hkeeps⟩
      · rw [hidle] at hpending
        cases hpending
      · exact hkeeps
  refine ht.transfer htransfer fun hpending => ?_
  rcases hslice with hidle | hkeeps
  · rw [hidle] at hpending
    cases hpending
  · exact hkeeps

end

theorem rename_start (name word : List UInt8) : RenameInv (start name word) where
  good pre c source target h := by
    have : pre ++ [Event.rename c source target] = [] := List.prefix_nil.mp h
    simp at this
  source := by simp [start, iniVariables]
  reset := by simp [start, iniVariables]

/-- In every run whose calls all meet the guard, each rename starts from the path
of the latest RNFR of its session that was answered with 350. -/
theorem renames_safe (name word : List UInt8) (s : Server)
    (h : Reach handleStep (fun s i => renameGuard s i = true) (start name word) s) :
    RenamesOk s.log :=
  (h.invariant RenameInv (rename_start name word)
    fun _ _ _ hinv hg hs => hinv.handle hg hs).good

def onCard : Input :=
  { calm with
    found := fun path => path == ascii "/a"
    renames := true }

def typingFor (i : Input) (line : String) : List Input :=
  (ascii line).map fun b => { i with byte := some b }

theorem renames_safe_accepted :
    ∃ s, runScript handleStep renameGuard (start (ascii "u") (ascii "p"))
        (entering "USER u\n" ++ typingFor onCard "RNFR a\n" ++ typingFor onCard "RNTO b\n") =
          some s ∧
      .rename (some 0) (ascii "/a") (ascii "/b") ∈ s.log ∧ RenamesOk s.log := by
  have hrun : (runScript handleStep renameGuard (start (ascii "u") (ascii "p"))
      (entering "USER u\n" ++ typingFor onCard "RNFR a\n" ++
        typingFor onCard "RNTO b\n")).map
      (fun s => decide (Event.rename (some 0) (ascii "/a") (ascii "/b") ∈ s.log)) =
      some true := by
    decide +kernel
  obtain ⟨s, hs, hm⟩ := Option.map_eq_some_iff.mp hrun
  exact ⟨s, hs, of_decide_eq_true hm, renames_safe _ _ s
    (reach_of_script (fun _ _ h => h) hs)⟩

/-- The last two events of the log are a rename and its answer, and the rename
does not start from `accepted`. -/
def misnamed (accepted source : List UInt8) (c : Conn) (s : Server) : Bool :=
  (s.log.drop (s.log.length - 2)).head? = some (.rename (some c) source (ascii "/c")) &&
    lastFrom (some c) (s.log.take (s.log.length - 2)) = some accepted

theorem not_renamesOk {accepted source : List UInt8} {c : Conn} {s : Server}
    (h : misnamed accepted source c s = true) (hne : accepted ≠ source) : ¬ RenamesOk s.log := by
  intro hok
  simp only [misnamed, Bool.and_eq_true, decide_eq_true_eq] at h
  obtain ⟨hlast, haccepted⟩ := h
  obtain ⟨post, hpost⟩ := List.head?_eq_some_iff.mp hlast
  have := hok (s.log.take (s.log.length - 2)) (some c) source (ascii "/c") ⟨post, by
    rw [List.append_assoc, List.singleton_append, ← hpost, List.take_append_drop]⟩
  rw [haccepted] at this
  exact hne (Option.some.inj this)

/-- RNFR of a file, RNFR of one that does not exist, RNTO. -/
theorem rename_of_missing_file :
    ∃ s, Reach handleStep (fun _ _ => True) (start (ascii "u") (ascii "p")) s ∧
      ¬ RenamesOk s.log := by
  have hrun : (runScript handleStep (fun _ _ => true) (start (ascii "u") (ascii "p"))
      (entering "USER u\n" ++ typingFor onCard "RNFR a\n" ++ typingFor onCard "RNFR b\n" ++
        typingFor onCard "RNTO c\n")).map (misnamed (ascii "/a") (ascii "/b") 0) =
      some true := by decide +kernel
  obtain ⟨s, hs, hbad⟩ := Option.map_eq_some_iff.mp hrun
  exact ⟨s, reach_of_script (fun _ _ _ => trivial) hs, not_renamesOk hbad (by decide)⟩

end Esp32Project.Ftp
