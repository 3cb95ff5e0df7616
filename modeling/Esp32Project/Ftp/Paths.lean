import Esp32Project.Ftp.Login

/-!
The current directory over whole runs, and the paths that `makePath` builds on
it. CWD takes its parameter as it is, and `makePath` measures a path once it is
written.
-/

set_option autoImplicit false

namespace Esp32Project.Ftp
open Esp32Project.Lib

def Absolute (path : List UInt8) : Prop := path.head? = some slash

instance (path : List UInt8) : Decidable (Absolute path) :=
  inferInstanceAs (Decidable (path.head? = some slash))

/-- A parameter behind the directory `cwd`, with one slash between them. -/
def joined (cwd param : List UInt8) : List UInt8 :=
  if param.head? = some slash then param
  else cwd ++ (if cwd.getLast? = some slash then [] else [slash]) ++ param

/-- One slash at the end is dropped, but for the root. -/
def trimmed (path : List UInt8) : List UInt8 :=
  if path ≠ [slash] ∧ path.getLast? = some slash then path.dropLast else path

/-- The array that gets a path: one of the command, or the transfer buffer for RNFR. -/
inductive PathArray where
  | path
  | buf
  deriving DecidableEq, Repr

def PathArray.size : PathArray → Nat
  | .path => ftpCwdSize
  | .buf => ftpBufSize

def Verb.makesPath : Verb → Bool
  | .dele | .retr | .stor | .rnfr | .rnto | .size => true
  | _ => false

/-- They refuse the empty parameter before they make a path of it. -/
theorem empty_refused {i : Input} {s t : Server} {v : Verb} (hv : v.makesPath = true)
    (h : runVerb i s (some []) v = .ok t) :
    t.log = (s.say "501 No file name").log ∨
      v = .rnto ∧ t.log = (s.say "503 Need RNFR before RNTO").log := by
  cases v with
  | dele | retr | stor | size =>
    cases h
    exact .inl rfl
  | rnfr =>
    cases h
    left
    simp only [Server.say, Server.println]
    cases s.client <;> rfl
  | rnto =>
    obtain ⟨source, -, h⟩ := bind_eq_ok.mp h
    split at h <;> cases h
    · exact .inr ⟨rfl, rfl⟩
    · exact .inl rfl
  | _ => cases hv

/-- A parameter that comes to `makePath`. -/
abbrev Param := { p : List UInt8 // p ≠ [] }

/-- What `makePath` should write, and return. -/
def PathRight (array : PathArray) (cwd : List UInt8) (param : Param) : Prop :=
  ∃ written ok, makePath array.size cwd param = .ok (written, ok) ∧ written.length ≤ ftpCwdSize ∧
    (ok = true → trimmed (joined cwd param) ++ [0] <+: written) ∧
    (ftpCwdSize ≤ (trimmed (joined cwd param)).length → ok = false)

def PathFits (cwd : List UInt8) (param : Param) : Prop :=
  (joined cwd param).length < ftpCwdSize ∧ param.1 ≠ [slash, slash]

theorem PathArray.le_size (array : PathArray) : ftpCwdSize ≤ array.size := by
  cases array <;> decide

/-- A path of two characters that ends with a slash is two slashes, or one behind a
relative directory. -/
theorem joined_two {cwd param : List UInt8} (hcwd : Absolute cwd) (hp : param ≠ [])
    (hlen : (joined cwd param).length = 2) (hlast : (joined cwd param).getLast? = some slash) :
    param = [slash, slash] := by
  unfold joined at hlen hlast
  split at hlen
  · rename_i hhead
    rw [if_pos hhead] at hlast
    match param, hlen with
    | [a, b], _ =>
      simp only [List.head?_cons, Option.some.injEq] at hhead
      simp only [List.getLast?_cons_cons, List.getLast?_singleton, Option.some.injEq] at hlast
      rw [hhead, hlast]
  · rename_i hhead
    rw [if_neg hhead] at hlast
    obtain ⟨c, cs, rfl⟩ := List.exists_cons_of_ne_nil hp
    have hne : cwd ≠ [] := by
      rintro rfl
      cases hcwd
    have hpos := List.length_pos_iff.mpr hne
    simp only [List.length_append, List.length_cons] at hlen
    obtain rfl : cs = [] := List.eq_nil_of_length_eq_zero (by omega)
    rw [List.getLast?_append] at hlast
    simp only [List.getLast?_singleton, Option.some_or, Option.some.injEq] at hlast
    exact absurd (by rw [hlast]; rfl) hhead

theorem fullName_joined {cwd : List UInt8} (hcwd : Absolute cwd) (param : List UInt8) :
    fullName cwd param = .ok (joined cwd param) := by
  have hne : cwd ≠ [] := by
    rintro rfl
    cases hcwd
  unfold fullName joined
  simp only [hne, if_false]
  split <;> rfl

theorem joined_slash (cwd : List UInt8) : joined cwd [slash] = [slash] := rfl

theorem joined_ne_slash {cwd param : List UInt8} (hcwd : Absolute cwd) (hp : param ≠ [])
    (hslash : param ≠ [slash]) : joined cwd param ≠ [slash] := by
  intro h
  unfold joined at h
  split at h
  · exact hslash h
  · have hne : cwd ≠ [] := by
      rintro rfl
      cases hcwd
    have := congrArg List.length h
    have hpos := List.length_pos_iff.mpr hne
    have hpos' := List.length_pos_iff.mpr hp
    simp only [List.length_append, List.length_singleton] at this
    omega

/-- Behind an absolute directory a path is right just if it fits. -/
theorem pathRight_iff {cwd : List UInt8} (hcwd : Absolute cwd) (array : PathArray) (param : Param) :
    PathRight array cwd param ↔ PathFits cwd param := by
  obtain ⟨p, hp⟩ := param
  have hsize := array.le_size
  unfold PathRight PathFits
  dsimp only
  by_cases hslash : p = [slash]
  · subst hslash
    rw [joined_slash]
    exact ⟨fun _ => by decide, fun _ => ⟨[slash, 0], true, rfl, by decide, fun _ => by decide,
      fun h => absurd h (by decide)⟩⟩
  have hroot := joined_ne_slash hcwd hp hslash
  have hmake : makePath array.size cwd p =
      (if array.size ≤ (joined cwd p).length then .error .bounds
      else if (joined cwd p).getLast? = some slash ∧ (joined cwd p).length > 2 then
        .ok ((joined cwd p).dropLast ++ [0, 0], (joined cwd p).length - 1 < ftpCwdSize)
      else .ok (joined cwd p ++ [0], (joined cwd p).length < ftpCwdSize)) := by
    simp only [makePath, hslash, hp, or_self, if_false, fullName_joined hcwd, bind, Except.bind]
    rfl
  rw [hmake]
  have htwo := joined_two hcwd hp
  have hnil : joined cwd p ≠ [] := by
    intro h
    unfold joined at h
    split at h <;> simp [hp] at h
  have htwice : p = [slash, slash] → joined cwd p = [slash, slash] := by
    rintro rfl
    rfl
  generalize joined cwd p = full at *
  by_cases hbig : array.size ≤ full.length
  · rw [if_pos hbig]
    exact ⟨nofun, fun ⟨h, _⟩ => by omega⟩
  rw [if_neg hbig]
  by_cases hcut : full.getLast? = some slash ∧ full.length > 2
  · have htrim : trimmed full = full.dropLast := if_pos ⟨hroot, hcut.1⟩
    rw [if_pos hcut, htrim, List.length_dropLast]
    constructor
    · rintro ⟨written, ok, h, hlen, -⟩
      cases h
      rw [List.length_append, List.length_dropLast] at hlen
      refine ⟨by simp at hlen; omega, fun hp₂ => ?_⟩
      rw [htwice hp₂] at hcut
      exact absurd hcut (by decide)
    · rintro ⟨hfits, -⟩
      refine ⟨_, _, rfl, ?_, fun _ => ⟨[0], by simp⟩, fun h => by omega⟩
      rw [List.length_append, List.length_dropLast]
      simp
      omega
  · rw [if_neg hcut]
    constructor
    · rintro ⟨written, ok, h, hlen, hpath, -⟩
      cases h
      rw [List.length_append, List.length_singleton] at hlen
      refine ⟨by omega, fun hp₂ => ?_⟩
      rw [htwice hp₂] at hpath
      exact absurd (hpath rfl) (by decide)
    · rintro ⟨hfits, htwo'⟩
      have hend : full.getLast? ≠ some slash := by
        intro hlast
        have hpos := List.length_pos_iff.mpr hnil
        rcases Nat.lt_or_ge 2 full.length with hlong | hshort
        · exact hcut ⟨hlast, hlong⟩
        rcases Nat.lt_or_ge 1 full.length with htwo₂ | hone
        · exact htwo' (htwo (by omega) hlast)
        · obtain ⟨c, rfl⟩ := List.length_eq_one_iff.mp (show full.length = 1 by omega)
          exact hroot (by simpa using hlast)
      have htrim : trimmed full = full := if_neg fun h => hend h.2
      refine ⟨_, _, rfl, ?_, fun _ => ?_, fun h => ?_⟩
      · rw [List.length_append, List.length_singleton]
        omega
      · rw [htrim]
      · rw [htrim] at h
        omega

structure SameCwd (s t : Server) : Prop where
  cwdName : t.cwdName = s.cwdName
  cmdStatus : t.cmdStatus = s.cmdStatus

theorem SameCwd.trans {s t u : Server} (h₁ : SameCwd s t) (h₂ : SameCwd t u) : SameCwd s u :=
  ⟨h₂.cwdName.trans h₁.cwdName, h₂.cmdStatus.trans h₁.cmdStatus⟩

theorem sameCwd_lines : LineFrame SameCwd where
  refl _ := ⟨rfl, rfl⟩
  trans h₁ h₂ := h₁.trans h₂
  emit _ _ _ := ⟨rfl, rfl⟩
  setData _ _ _ := ⟨rfl, rfl⟩
  setAddress _ _ _ _ := ⟨rfl, rfl⟩
  emitControl _ _ _ := ⟨rfl, rfl⟩
  setLexer _ _ := ⟨rfl, rfl⟩
  setBuf _ _ := ⟨rfl, rfl⟩
  setRnfrCmd _ _ := ⟨rfl, rfl⟩

theorem sameCwd_files : FileFrame SameCwd where
  refl _ := ⟨rfl, rfl⟩
  trans h₁ h₂ := h₁.trans h₂
  emit _ _ _ := ⟨rfl, rfl⟩
  setData _ _ _ := ⟨rfl, rfl⟩
  setAddress _ _ _ _ := ⟨rfl, rfl⟩
  emitFile _ _ _ := ⟨rfl, rfl⟩
  setFile _ _ _ := ⟨rfl, rfl⟩
  setTransfer _ _ _ _ := ⟨rfl, rfl⟩

def cwdNamed (s : Server) : Option (List UInt8) :=
  if verbOf s.lexer.command.text = some .cwd then s.lexer.params.filter (· != ascii ".") else none

def lineCwd (i : Input) (s : Server) : Option (List UInt8) :=
  (receive i s).toOption.bind fun (t, rc) => if 0 < rc then cwdNamed t else none

/-- The directory that a call changes to. -/
def newCwd (i : Input) (s : Server) : Option (List UInt8) :=
  if !ahead s.millisDelay (millis i.now) && s.cmdStatus == 5 then lineCwd i (arrived i s) else none

/-- What becomes of the current directory: it is the one named, or else as before or the root. -/
inductive CwdStep (s t : Server) : Option (List UInt8) → Prop where
  | named {p : List UInt8} (h : t.cwdName.text = p) : CwdStep s t (some p)
  | same (h : t.cwdName = s.cwdName) : CwdStep s t none
  | root (h : t.cwdName = rootDir) : CwdStep s t none

section

variable {i : Input} {s t : Server}

theorem SameCwd.step (h : SameCwd s t) : CwdStep s t none := .same h.cwdName

theorem CwdStep.of_same {p : Option (List UInt8)} {u : Server} (h₁ : SameCwd s t)
    (h₂ : CwdStep t u p) : CwdStep s u p := by
  cases h₂ with
  | named h => exact .named h
  | same h => exact .same (h.trans h₁.cwdName)
  | root h => exact .root h

theorem CwdStep.keep {p : Option (List UInt8)} {u : Server} (h₁ : CwdStep s t p)
    (h₂ : u.cwdName = t.cwdName) : CwdStep s u p := by
  cases h₁ with
  | named h => exact .named ((congrArg CString.text h₂).trans h)
  | same h => exact .same (h₂.trans h)
  | root h => exact .root (h₂.trans h)

theorem sameCwd_disconnectClient (s : Server) : SameCwd s (disconnectClient s) :=
  ((sameCwd_files.abortTransfer s).trans (sameCwd_lines.say _ "221 Goodbye")).trans ⟨rfl, rfl⟩

theorem sameCwd_checkClient (s : Server) (connected : Bool) :
    SameCwd s (s.checkClient connected) := by
  unfold Server.checkClient
  split <;> exact ⟨rfl, rfl⟩

theorem strcpy_text {n : Nat} {text : List UInt8} {c : CString n} (h : strcpy n text = .ok c) :
    c.text = text := by
  unfold strcpy at h
  split at h
  · cases h
    rfl
  · cases h

theorem cwd_step {parameters : Option (List UInt8)} (h : cwd s parameters = .ok t) :
    CwdStep s t (parameters.filter (· != ascii ".")) := by
  cases parameters with
  | none => cases h
  | some p =>
    obtain ⟨q, hq, hrun⟩ := bind_eq_ok.mp h
    obtain rfl : p = q := Except.ok.inj hq
    split at hrun
    · rename_i hdot
      cases hrun
      have hnamed : (some p).filter (· != ascii ".") = none := by simp [hdot]
      rw [hnamed]
      exact (sameCwd_lines.println s _).step
    · rename_i hdot
      obtain ⟨cwdName, hcopy, hrun⟩ := bind_eq_ok.mp hrun
      cases hrun
      have hnamed : (some p).filter (· != ascii ".") = some p := by simp [hdot]
      rw [hnamed]
      exact .named ((congrArg CString.text (sameCwd_lines.println _ _).cwdName).trans
        (strcpy_text hcopy))

theorem processCommand_cwd {b : Bool} (h : processCommand i s = .ok (t, b)) :
    CwdStep s t (cwdNamed s) := by
  by_cases hcwd : verbOf s.lexer.command.text = some .cwd
  · unfold processCommand runCommand at h
    dsimp only at h
    rw [hcwd] at h
    obtain ⟨u, hu, heq⟩ := map_eq_ok.mp h
    cases heq
    rw [cwdNamed, if_pos hcwd]
    exact CwdStep.of_same (t := s.emit _) ⟨rfl, rfl⟩ (cwd_step hu)
  · rw [cwdNamed, if_neg hcwd]
    refine (sameCwd_lines.processCommand_of h fun v hv u u' hverb _ hrun => ?_).step
    simp only [Verb.ofTransfer, List.mem_cons, List.not_mem_nil, or_false] at hv
    obtain rfl | rfl | rfl | rfl | rfl | rfl := hv
    · exact absurd hverb hcwd
    · exact sameCwd_files.retr hrun
    · exact sameCwd_files.stor hrun
    · exact sameCwd_files.size hrun
    · cases hrun
      exact sameCwd_disconnectClient u
    · cases hrun
      exact (sameCwd_files.abortTransfer u).trans (sameCwd_files.say _ _)

theorem userIdentity_cwd {b : Bool} (h : userIdentity i s = .ok (t, b)) : CwdStep s t none := by
  obtain ⟨u, hu, ⟨-, -, rfl⟩ | ⟨-, rfl⟩⟩ := userIdentity_cases h
  · exact .root rfl
  · have hsay : SameCwd s u := by
      rcases hu with rfl | rfl
      · exact sameCwd_lines.refl u
      · exact sameCwd_lines.say s _
    exact (hsay.trans (sameCwd_lines.say u _)).step.keep rfl

theorem userPassword_cwd {b : Bool} (h : userPassword i s = .ok (t, b)) :
    t.cwdName = s.cwdName := by
  obtain ⟨-, -, -, rfl⟩ | ⟨text, -, rfl⟩ := userPassword_cases h
  · exact (sameCwd_lines.say s _).cwdName
  · exact (sameCwd_lines.say s _).cwdName

theorem lineReceived_cwd (h : lineReceived i s = .ok t) :
    CwdStep s t (if s.cmdStatus = 5 then cwdNamed s else none) := by
  rcases lineReceived_cases h with ⟨h₃, u, b, hu, rfl⟩ | ⟨h₄, u, b, hu, rfl⟩ |
    ⟨h₅, u, b, hu, rfl⟩ | ⟨hno, rfl⟩
  · have hne : s.cmdStatus ≠ 5 := by omega
    rw [if_neg hne]
    exact (userIdentity_cwd hu).keep rfl
  · have hsame := userPassword_cwd hu
    have hne : s.cmdStatus ≠ 5 := by omega
    rw [if_neg hne]
    split <;> exact .same hsame
  · have hstep := processCommand_cwd hu
    rw [if_pos h₅]
    split <;> exact hstep.keep rfl
  · have hne : t.cmdStatus ≠ 5 := fun h₅ => hno (by simp [h₅])
    rw [if_neg hne]
    exact .same rfl

theorem session_cwd (h : session i s = .ok t) :
    CwdStep s t (if s.cmdStatus = 5 then lineCwd i s else none) := by
  have hcheck := sameCwd_checkClient s i.connected
  unfold session at h
  split at h
  · rename_i h₀
    cases h
    have hne : s.cmdStatus ≠ 5 := by omega
    rw [if_neg hne]
    refine .same ?_
    dsimp only
    split
    · exact (hcheck.trans (sameCwd_disconnectClient _)).cwdName
    · exact hcheck.cwdName
  split at h
  · rename_i h₁
    cases h
    have hne : s.cmdStatus ≠ 5 := by omega
    rw [if_neg hne]
    exact .root rfl
  split at h
  · rename_i h₂
    have hne : s.cmdStatus ≠ 5 := by omega
    rw [if_neg hne]
    dsimp only at h
    split at h
    · obtain ⟨u, hu, hconnected⟩ := sameCwd_lines.clientConnected (s.checkClient i.connected)
      rw [hconnected] at h
      cases h
      exact (hcheck.trans hu).step.keep rfl
    · cases h
      exact hcheck.step
  obtain ⟨⟨u, rc⟩, hu, h⟩ := bind_eq_ok.mp h
  have hreceive := sameCwd_lines.receive hu
  have hline : lineCwd i s = if 0 < rc then cwdNamed u else none := by
    rw [lineCwd, hu]
    rfl
  dsimp only at h
  split at h
  · rename_i hrc
    rw [hline, if_pos hrc, ← hreceive.cmdStatus]
    exact (lineReceived_cwd h).of_same hreceive
  · rename_i hrc
    rw [hline, if_neg hrc, ite_self]
    have hgone := hreceive.trans (sameCwd_checkClient u i.connected)
    split at h <;> cases h
    · exact hgone.step
    · exact hgone.step.keep rfl

theorem transfer_cwd (i : Input) (s : Server) : (transfer i s).cwdName = s.cwdName := by
  have hclose (u : Server) := sameCwd_files.closeTransfer i u
  unfold transfer
  split
  · have hslice : (doRetrieve i s).1.cwdName = s.cwdName := by
      unfold doRetrieve
      dsimp only
      generalize (if s.file.isSome then i.source.take ftpBufSize else []) = bytes
      split
      · rfl
      · exact (hclose s).cwdName
    dsimp only
    split <;> exact hslice
  split
  · have hslice : (doStore i s).1.cwdName = s.cwdName := by
      have hdata := sameCwd_lines.checkData s i.dataOpen
      unfold doStore
      dsimp only
      split
      · split <;> exact hdata.cwdName
      · exact (hdata.trans (hclose _)).cwdName
    dsimp only
    split <;> exact hslice
  split
  · exact (sameCwd_lines.say s "530 Timeout").cwdName
  · rfl

theorem handleFTP_cwd (h : handleFTP i s = .ok t) : CwdStep s t (newCwd i s) := by
  have harrived : SameCwd s (arrived i s) := by
    unfold arrived
    split <;> exact ⟨rfl, rfl⟩
  unfold handleFTP at h
  split at h
  · rename_i hahead
    cases h
    rw [newCwd, hahead]
    exact .same rfl
  · rename_i hahead
    rw [newCwd]
    obtain ⟨u, hu, h⟩ := bind_eq_ok.mp h
    cases h
    have hsession := (session_cwd hu).of_same harrived
    rw [harrived.cmdStatus] at hsession
    simpa [hahead] using hsession.keep (transfer_cwd i u)

end

/-- A step of a session, or a path that is made in it. -/
inductive PathStep where
  | call (i : Input)
  | path (array : PathArray) (param : Param)

def pathStep (s : Server) : PathStep → Option Server
  | .call i => handleStep s i
  | .path _ _ => some s

/-- The current directory stays absolute, and paths are made as they should be. -/
def pathOk (s : Server) : PathStep → Prop
  | .call i => ∀ t, handleStep s i = some t → Absolute t.cwdName.text
  | .path array param => PathRight array s.cwdName.text param

/-- CWD names an absolute path; a path that is made fits and is not two slashes. -/
def pathGuard (s : Server) : PathStep → Prop
  | .call i => ∀ t, handleStep s i = some t → ∀ p, newCwd i s = some p → Absolute p
  | .path _ param => PathFits s.cwdName.text param

theorem pathOk_iff {s : Server} (h : Absolute s.cwdName.text) (a : PathStep) :
    pathOk s a ↔ pathGuard s a := by
  cases a with
  | path array param => exact pathRight_iff h array param
  | call i =>
    refine forall_congr' fun t => imp_congr_right fun ht => ?_
    have hstep : CwdStep s t (newCwd i s) := handleFTP_cwd (handleStep_ok ht)
    generalize newCwd i s = named at hstep
    cases hstep with
    | named hnamed =>
      rw [hnamed]
      exact ⟨fun habs p hp => Option.some.inj hp ▸ habs, fun hg => hg _ rfl⟩
    | same hsame =>
      rw [hsame]
      exact ⟨fun _ => nofun, fun _ => h⟩
    | root hroot =>
      rw [hroot]
      exact ⟨fun _ => nofun, fun _ => rfl⟩

/-- In every session the current directory stays absolute and every path is made right,
just if CWD only names absolute paths, and the paths fit and are not two slashes. -/
theorem paths_right_iff (uname pword : List UInt8) (steps : List PathStep) :
    Along pathStep pathOk (start uname pword) steps ↔
      Along pathStep pathGuard (start uname pword) steps := by
  have hroot : Absolute (start uname pword).cwdName.text := rfl
  refine along_iff (fun s => Absolute s.cwdName.text) (fun s a h => pathOk_iff h a) ?_ hroot steps
  intro s a s' h hg hs
  cases a with
  | call i => exact (pathOk_iff h (.call i)).mpr hg s' hs
  | path array param =>
    cases hs
    exact h

def lineEnd : Input := { calm with byte := some lf }

/-- CWD with a relative name. -/
theorem cwd_relative :
    ¬Along pathStep pathOk (start (ascii "u") (ascii "p"))
      ((entering "USER u\n" ++ typing "CWD a").map .call ++ [.call lineEnd]) := by
  have hrun : ((runScript pathStep (fun _ _ => true) (start (ascii "u") (ascii "p"))
      ((entering "USER u\n" ++ typing "CWD a").map .call)).bind fun s =>
        (handleStep s lineEnd).map fun t => t.cwdName.text) = some (ascii "a") := by decide +kernel
  intro h
  obtain ⟨s, hs, hlast⟩ := Option.bind_eq_some_iff.mp hrun
  obtain ⟨t, ht, htext⟩ := Option.map_eq_some_iff.mp hlast
  have hroot := h.at_script hs t ht
  rw [htext] at hroot
  exact absurd hroot (by decide)

end Esp32Project.Ftp
