import Esp32Project.Ftp.Commands
import Esp32Project.Lib.Except

/-!
Functions of the server that only reply, print on the data connection or change
where it leads. What they leave alone is stated for any relation between states
that their single changes are in.
-/

set_option autoImplicit false

namespace Esp32Project.Ftp
open Esp32Project.Lib

theorem given_eq_ok {parameters : Option (List UInt8)} {p : List UInt8}
    (h : given parameters = .ok p) : parameters = some p := by
  cases parameters with
  | none => cases h
  | some q =>
    cases h
    rfl

/-- PORT returns only to report success. -/
theorem port_cases {i : Input} {s t : Server} {parameters : Option (List UInt8)}
    (h : port i s parameters = .ok t) : ∃ dataIp dataPort,
      t = Server.say { (s.checkData i.dataConnected).dataStop with
        dataIp, dataPort, dataPassiveConn := false } "200 PORT command successful" := by
  obtain ⟨p₀, -, h⟩ := bind_eq_ok.mp h
  obtain ⟨p₁, -, h⟩ := bind_eq_ok.mp h
  obtain ⟨p₂, -, h⟩ := bind_eq_ok.mp h
  obtain ⟨p₃, -, h⟩ := bind_eq_ok.mp h
  obtain ⟨p₄, -, h⟩ := bind_eq_ok.mp h
  obtain ⟨p₅, -, h⟩ := bind_eq_ok.mp h
  cases h
  exact ⟨_, _, rfl⟩

/-- The name of a command other than USER is refused, and the parameters are looked at all
the same. -/
theorem userIdentity_cases {i : Input} {s s' : Server} {b : Bool}
    (h : userIdentity i s = .ok (s', b)) :
    ∃ t, (t = s ∨ t = s.say "500 Syntax error") ∧
      (b = true ∧ t.lexer.params = some (cString t.ftpUser) ∧
          s' = { t.say "331 OK. Password required" with cwdName := rootDir } ∨
        b = false ∧
          s' = { t.say "530 user not found" with millisDelay := millis i.later + 100 }) := by
  unfold userIdentity at h
  dsimp only at h
  refine ⟨if s.lexer.command.text = ascii "USER" then s else s.say "500 Syntax error", ?_, ?_⟩
  · split
    · exact .inl rfl
    · exact .inr rfl
  generalize (if s.lexer.command.text = ascii "USER" then s else s.say "500 Syntax error") = t at h
  obtain ⟨p, hp, h⟩ := bind_eq_ok.mp h
  split at h
  · rename_i heq
    cases h
    exact .inl ⟨rfl, heq ▸ given_eq_ok hp, rfl⟩
  · cases h
    exact .inr ⟨rfl, rfl⟩

theorem userPassword_cases {i : Input} {s s' : Server} {b : Bool}
    (h : userPassword i s = .ok (s', b)) :
    b = true ∧ s.lexer.command.text = ascii "PASS" ∧ s.lexer.params = some (cString s.ftpPass) ∧
        s' = s.say "230 OK." ∨
      ∃ text, b = false ∧ s' = { s.say text with millisDelay := millis i.later + 100 } := by
  unfold userPassword at h
  dsimp only at h
  split at h
  · rename_i hpass
    obtain ⟨p, hp, h⟩ := bind_eq_ok.mp h
    split at h
    · rename_i heq
      cases h
      exact .inl ⟨rfl, hpass, heq ▸ given_eq_ok hp, rfl⟩
    · cases h
      exact .inr ⟨_, rfl, rfl⟩
  · cases h
    exact .inr ⟨_, rfl, rfl⟩

theorem lineReceived_cases {i : Input} {s t : Server} (h : lineReceived i s = .ok t) :
    (s.cmdStatus = 3 ∧ ∃ u b, userIdentity i s = .ok (u, b) ∧
      t = { u with cmdStatus := if b then 4 else 0 }) ∨
    (s.cmdStatus = 4 ∧ ∃ u b, userPassword i s = .ok (u, b) ∧
      t = if b then
          { u with cmdStatus := 5, millisEndConnection := millis i.later + u.millisTimeOut }
        else { u with cmdStatus := 0 }) ∨
    (s.cmdStatus = 5 ∧ ∃ u b, processCommand i s = .ok (u, b) ∧
      t = if b then { u with millisEndConnection := millis i.later + u.millisTimeOut }
        else { u with cmdStatus := 0 }) ∨
    s.cmdStatus ∉ [3, 4, 5] ∧ t = s := by
  unfold lineReceived at h
  split at h
  · rename_i h₃
    obtain ⟨⟨u, b⟩, hu, h⟩ := bind_eq_ok.mp h
    cases h
    exact .inl ⟨h₃, u, b, hu, rfl⟩
  split at h
  · rename_i h₄
    obtain ⟨⟨u, b⟩, hu, h⟩ := bind_eq_ok.mp h
    refine .inr (.inl ⟨h₄, u, b, hu, ?_⟩)
    cases b <;> cases h <;> rfl
  split at h
  · rename_i h₅
    obtain ⟨⟨u, b⟩, hu, h⟩ := bind_eq_ok.mp h
    refine .inr (.inr (.inl ⟨h₅, u, b, hu, ?_⟩))
    cases b <;> cases h <;> rfl
  · rename_i h₃ h₄ h₅
    cases h
    exact .inr (.inr (.inr ⟨by simp [h₃, h₄, h₅], rfl⟩))

def Event.plain : Event → Bool
  | .replied _ _ | .removed _ | .dataAccepted _ _ | .dataStopped _ | .dataLine _ => true
  | _ => false

/-- A relation that holds across the changes of the data connection and of the log. -/
structure PlainFrame (R : Server → Server → Prop) : Prop where
  refl : ∀ s, R s s
  trans : ∀ {s t u}, R s t → R t u → R s u
  emit : ∀ s e, e.plain = true → R s (s.emit e)
  setData : ∀ (s : Server) d n, R s { s with data := d, nextData := n }
  setAddress : ∀ (s : Server) dataIp dataPort dataPassiveConn,
    R s { s with dataIp, dataPort, dataPassiveConn }

section

variable {R : Server → Server → Prop} (F : PlainFrame R)

include F

theorem PlainFrame.println (s : Server) (text : List UInt8) : R s (s.println text) := by
  unfold Server.println
  split
  · exact F.emit s _ rfl
  · exact F.refl s

theorem PlainFrame.say (s : Server) (text : String) : R s (s.say text) := F.println s _

theorem PlainFrame.dataStop (s : Server) : R s s.dataStop := by
  unfold Server.dataStop
  split
  · exact F.trans (F.setData s none s.nextData) (F.emit _ _ rfl)
  · exact F.refl s

theorem PlainFrame.checkData (s : Server) (connected : Bool) : R s (s.checkData connected) := by
  unfold Server.checkData
  split
  · exact F.refl s
  · exact F.setData s none s.nextData

theorem PlainFrame.dataConnect (i : Input) (s : Server) : R s (Ftp.dataConnect i s).1 := by
  refine F.trans (F.checkData s i.dataConnected) ?_
  unfold Ftp.dataConnect
  dsimp only
  split
  · exact F.refl _
  · split
    · exact F.trans (F.setData _ _ _) (F.emit _ _ rfl)
    · exact F.refl _

theorem PlainFrame.foldl {α : Type} {f : Server → α → Server} (hf : ∀ s a, R s (f s a))
    (as : List α) (s : Server) : R s (as.foldl f s) := by
  induction as generalizing s with
  | nil => exact F.refl s
  | cons a as ih => exact F.trans (hf s a) (ih _)

theorem PlainFrame.listing (i : Input) (s : Server) (unconnected : String)
    (missing : Option (List UInt8)) (line : Entry → List UInt8) (options : List String) :
    R s (Ftp.listing i s unconnected missing line options) := by
  unfold Ftp.listing
  dsimp only
  refine F.trans (F.dataConnect i s) ?_
  split
  · exact F.say _ _
  · refine F.trans (F.say _ "150 Accepted data connection") (F.trans ?_ (F.dataStop _))
    cases missing with
    | some text => exact F.println _ _
    | none =>
      refine F.trans ?_ (F.println _ _)
      refine F.trans ?_ (F.foldl F.say options _)
      exact F.foldl (fun s e => F.emit s _ rfl) _ _

theorem PlainFrame.localPath {s s' : Server} {param : List UInt8} {path : Option (List UInt8)}
    (h : Ftp.localPath s param = .ok (s', path)) : R s s' ∧ (path.isSome → s' = s) := by
  obtain ⟨⟨written, ok⟩, -, h⟩ := bind_eq_ok.mp h
  cases ok with
  | true =>
    cases h
    exact ⟨F.refl s, fun _ => rfl⟩
  | false =>
    cases h
    exact ⟨F.say s tooLong, by simp⟩

theorem PlainFrame.withFile_cases {s s' : Server} {parameters : Option (List UInt8)}
    {run : Server → List UInt8 → List UInt8 → Server}
    (h : Ftp.withFile s parameters run = .ok s') :
    R s s' ∨ ∃ p path, parameters = some p ∧ p ≠ [] ∧
      Ftp.localPath s p = .ok (s, some path) ∧ s' = run s p path := by
  cases parameters with
  | none => cases h
  | some p =>
    obtain ⟨q, hq, h⟩ := bind_eq_ok.mp h
    cases hq
    split at h
    · cases h
      exact .inl (F.say s _)
    rename_i hlen
    obtain ⟨⟨t, path⟩, hl, h⟩ := bind_eq_ok.mp h
    obtain ⟨hr, hsame⟩ := F.localPath hl
    cases path with
    | none =>
      cases h
      exact .inl hr
    | some path =>
      cases h
      rw [hsame rfl] at hl ⊢
      exact .inr ⟨p, path, rfl, fun hnil => hlen (by rw [hnil]; rfl), hl, rfl⟩

theorem PlainFrame.withFile {s s' : Server} {parameters : Option (List UInt8)}
    {run : Server → List UInt8 → List UInt8 → Server}
    (hrun : ∀ s p path, R s (run s p path))
    (h : Ftp.withFile s parameters run = .ok s') : R s s' := by
  rcases F.withFile_cases h with hr | ⟨p, path, -, -, -, rfl⟩
  · exact hr
  · exact hrun s p path

theorem PlainFrame.mode {s s' : Server} {p : Option (List UInt8)} (h : Ftp.mode s p = .ok s') :
    R s s' := by
  obtain ⟨q, -, h⟩ := bind_eq_ok.mp h
  split at h <;> cases h <;> exact F.say s _

theorem PlainFrame.stru {s s' : Server} {p : Option (List UInt8)} (h : Ftp.stru s p = .ok s') :
    R s s' := by
  obtain ⟨q, -, h⟩ := bind_eq_ok.mp h
  split at h <;> cases h <;> exact F.say s _

theorem PlainFrame.type {s s' : Server} {p : Option (List UInt8)} (h : Ftp.type s p = .ok s') :
    R s s' := by
  obtain ⟨q, -, h⟩ := bind_eq_ok.mp h
  split at h
  · cases h
    exact F.say s _
  · split at h <;> cases h <;> exact F.say s _

theorem PlainFrame.pasv (i : Input) (s : Server) : R s (Ftp.pasv i s) := by
  refine F.trans (F.trans (F.checkData s i.dataConnected) (F.dataStop _)) ?_
  exact F.trans (F.setAddress _ _ _ _) (F.println _ _)

theorem PlainFrame.port {i : Input} {s s' : Server} {p : Option (List UInt8)}
    (h : Ftp.port i s p = .ok s') : R s s' := by
  obtain ⟨dataIp, dataPort, rfl⟩ := port_cases h
  refine F.trans (F.trans (F.checkData s i.dataConnected) (F.dataStop _)) ?_
  exact F.trans (F.setAddress _ _ _ _) (F.say _ _)

theorem PlainFrame.dele {i : Input} {s s' : Server} {p : Option (List UInt8)}
    (h : Ftp.dele i s p = .ok s') : R s s' := by
  refine F.withFile (fun s p path => ?_) h
  split
  · exact F.println _ _
  · split
    · exact F.trans (F.emit s _ rfl) (F.println _ _)
    · exact F.println _ _

theorem PlainFrame.runVerb_of_ne {i : Input} {s s' : Server} {p : Option (List UInt8)} {v : Verb}
    (h : Ftp.runVerb i s p v = .ok s')
    (hv : v ∉ [.retr, .stor, .size, .quit, .abor, .rnfr, .rnto]) (hcwd : v ≠ .cwd) : R s s' := by
  cases v with
  | retr | stor | size | quit | abor | rnfr | rnto => simp at hv
  | cwd => exact absurd rfl hcwd
  | mode => exact F.mode h
  | stru => exact F.stru h
  | type => exact F.type h
  | port => exact F.port h
  | dele => exact F.dele h
  | pasv =>
    cases h
    exact F.pasv i s
  | list | mlsd | nlst =>
    cases h
    exact F.listing i s _ _ _ _
  | feat =>
    cases h
    exact F.trans (F.trans (F.say s _) (F.say _ _)) (F.say _ _)
  | cdup | pwd | noop | mkd | rmd | mdtm | site =>
    cases h
    exact F.println s _

theorem PlainFrame.clientConnected (s : Server) :
    ∃ t, R s t ∧ Ftp.clientConnected s = { t with lexer := t.lexer.restart } :=
  ⟨_, F.trans (F.trans (F.say s _) (F.say _ _)) (F.say _ _), rfl⟩

end

/-- A relation that also holds across a change of the current directory. -/
structure Frame (R : Server → Server → Prop) : Prop extends PlainFrame R where
  setCwd : ∀ (s : Server) cwdName, R s { s with cwdName }

section

variable {R : Server → Server → Prop} (F : Frame R)

include F

theorem Frame.cwd {s s' : Server} {p : Option (List UInt8)} (h : Ftp.cwd s p = .ok s') :
    R s s' := by
  obtain ⟨q, -, h⟩ := bind_eq_ok.mp h
  split at h
  · cases h
    exact F.println s _
  obtain ⟨cwdName, -, h⟩ := bind_eq_ok.mp h
  cases h
  exact F.trans (F.setCwd s cwdName) (F.println _ _)

theorem Frame.runVerb {i : Input} {s s' : Server} {p : Option (List UInt8)} {v : Verb}
    (h : Ftp.runVerb i s p v = .ok s')
    (hv : v ∉ [.retr, .stor, .size, .quit, .abor, .rnfr, .rnto]) : R s s' := by
  by_cases hcwd : v = .cwd
  · subst hcwd
    exact F.cwd h
  · exact F.runVerb_of_ne h hv hcwd

end

def Event.control : Event → Bool
  | .accepted _ | .received _ _ | .command _ _ _ | .renameFrom _ _ | .rename _ _ _ => true
  | _ => false

/-- A relation that also holds across the changes that reading a line, RNFR and
RNTO make. -/
structure LineFrame (R : Server → Server → Prop) : Prop extends PlainFrame R where
  emitControl : ∀ s e, e.control = true → R s (s.emit e)
  setLexer : ∀ (s : Server) lexer, R s { s with lexer }
  setBuf : ∀ (s : Server) buf, R s { s with buf }
  setRnfrCmd : ∀ (s : Server) rnfrCmd, R s { s with rnfrCmd }

section

variable {R : Server → Server → Prop} (F : LineFrame R)

include F

theorem LineFrame.receive {i : Input} {s s' : Server} {rc : Int}
    (h : Ftp.receive i s = .ok (s', rc)) : R s s' := by
  obtain ⟨⟨lexer, rc', replies⟩, -, h⟩ := bind_eq_ok.mp h
  cases h
  refine F.trans ?_ (F.foldl F.println replies _)
  refine F.trans ?_ (F.setLexer _ lexer)
  cases s.client.bind fun c => i.byte.map fun b => (c, b) with
  | none => exact F.refl s
  | some byte => exact F.emitControl s _ rfl

theorem LineFrame.rnfr {i : Input} {s s' : Server} {p : Option (List UInt8)}
    (h : Ftp.rnfr i s p = .ok s') : R s s' := by
  obtain ⟨q, -, h⟩ := bind_eq_ok.mp h
  refine F.trans (F.setBuf s (overwrite s.buf [0])) ?_
  split at h
  · cases h
    exact F.say _ _
  obtain ⟨⟨written, ok⟩, -, h⟩ := bind_eq_ok.mp h
  refine F.trans (F.setBuf _ (overwrite (overwrite s.buf [0]) written)) ?_
  dsimp only at h
  split at h
  · cases h
    exact F.say _ _
  split at h
  · cases h
    exact F.println _ _
  · cases h
    exact F.trans (F.trans (F.say _ _) (F.setRnfrCmd _ true)) (F.emitControl _ _ rfl)

theorem LineFrame.rnto {i : Input} {s s' : Server} {p : Option (List UInt8)}
    (h : Ftp.rnto i s p = .ok s') : R s s' := by
  obtain ⟨source, -, h⟩ := bind_eq_ok.mp h
  split at h
  · cases h
    exact F.trans (F.say s _) (F.setRnfrCmd _ false)
  obtain ⟨t, ht, h⟩ := bind_eq_ok.mp h
  cases h
  refine F.trans (F.withFile (fun s p path => ?_) ht) (F.setRnfrCmd t false)
  dsimp only
  split
  · exact F.println _ _
  have hrename := F.emitControl s (.rename s.client source path) rfl
  split
  · exact F.trans hrename (F.say _ _)
  · exact F.trans hrename (F.say _ _)

def Verb.ofTransfer : List Verb := [.retr, .stor, .size, .quit, .abor]

theorem LineFrame.processCommand_of {i : Input} {s s' : Server} {b : Bool}
    (h : Ftp.processCommand i s = .ok (s', b))
    (hother : ∀ v ∈ .cwd :: Verb.ofTransfer, ∀ t t', verbOf s.lexer.command.text = some v →
      t = s.emit (.command s.client s.lexer.command.text s.lexer.params) →
      Ftp.runVerb i t s.lexer.params v = .ok t' → R t t') : R s s' := by
  have hcommand := F.emitControl s (.command s.client s.lexer.command.text s.lexer.params) rfl
  refine F.trans hcommand ?_
  unfold Ftp.processCommand runCommand at h
  dsimp only at h
  split at h
  · rename_i v hverb
    obtain ⟨t, ht, heq⟩ := map_eq_ok.mp h
    cases heq
    by_cases hv : v ∈ .cwd :: Verb.ofTransfer
    · exact hother v hv _ _ hverb rfl ht
    · rw [List.mem_cons, not_or] at hv
      by_cases hrename : v ∈ [.rnfr, .rnto]
      · rw [List.mem_pair] at hrename
        rcases hrename with rfl | rfl
        · exact F.rnfr ht
        · exact F.rnto ht
      · exact F.runVerb_of_ne ht (fun hmem =>
          (List.mem_append (s := Verb.ofTransfer).mp hmem).elim hv.2 hrename) hv.1
  · cases h
    exact F.say _ _

end

structure WideFrame (R : Server → Server → Prop) : Prop extends Frame R, LineFrame R

theorem WideFrame.processCommand {R : Server → Server → Prop} (F : WideFrame R) {i : Input}
    {s s' : Server} {b : Bool} (h : Ftp.processCommand i s = .ok (s', b))
    (htransfer : ∀ v ∈ Verb.ofTransfer, ∀ t t', verbOf s.lexer.command.text = some v →
      t = s.emit (.command s.client s.lexer.command.text s.lexer.params) →
      Ftp.runVerb i t s.lexer.params v = .ok t' → R t t') : R s s' := by
  refine F.processCommand_of h fun v hv t t' hverb ht hrun => ?_
  rcases List.mem_cons.mp hv with rfl | hv
  · exact F.cwd hrun
  · exact htransfer v hv t t' hverb ht hrun

def Event.ofFile : Event → Bool
  | .opened _ _ _ | .closed _ | .moved _ _ => true
  | _ => false

/-- A relation that also holds across what a transfer changes. -/
structure FileFrame (R : Server → Server → Prop) : Prop extends PlainFrame R where
  emitFile : ∀ s e, e.ofFile = true → R s (s.emit e)
  setFile : ∀ (s : Server) f n, R s { s with file := f, nextFile := n }
  setTransfer : ∀ (s : Server) transferStatus millisBeginTrans bytesTransfered,
    R s { s with transferStatus, millisBeginTrans, bytesTransfered }

section

variable {R : Server → Server → Prop} (F : FileFrame R)

include F

theorem FileFrame.fileClose (s : Server) : R s s.fileClose := by
  unfold Server.fileClose
  split
  · exact F.trans (F.setFile s none s.nextFile) (F.emitFile _ _ rfl)
  · exact F.refl s

theorem FileFrame.fileOpen (i : Input) (s : Server) (path : List UInt8) (mode : Mode) :
    R s (s.fileOpen i path mode) := by
  unfold Server.fileOpen
  split
  · exact F.trans (F.setFile s _ _) (F.emitFile _ _ rfl)
  · exact F.setFile s none s.nextFile

theorem FileFrame.abortTransfer (s : Server) : R s (Ftp.abortTransfer s) := by
  unfold Ftp.abortTransfer
  dsimp only
  refine F.trans ?_ (F.setTransfer _ 0 _ _)
  split
  · exact F.trans (F.trans (F.fileClose s) (F.dataStop _)) (F.say _ _)
  · exact F.refl s

theorem FileFrame.closeTransfer (i : Input) (s : Server) : R s (Ftp.closeTransfer i s) := by
  unfold Ftp.closeTransfer
  dsimp only
  refine F.trans ?_ (F.trans (F.fileClose _) (F.dataStop _))
  split
  · exact F.trans (F.say s _) (F.println _ _)
  · exact F.say s _

theorem FileFrame.retr {i : Input} {s s' : Server} {p : Option (List UInt8)}
    (h : Ftp.retr i s p = .ok s') : R s s' := by
  refine F.withFile (fun s p path => F.trans (F.fileOpen i s path .read) ?_) h
  dsimp only
  split
  · exact F.println _ _
  refine F.trans (F.dataConnect i _) ?_
  split
  · exact F.say _ _
  · exact F.trans (F.trans (F.println _ _) (F.println _ _)) (F.setTransfer _ _ _ _)

theorem FileFrame.stor {i : Input} {s s' : Server} {p : Option (List UInt8)}
    (h : Ftp.stor i s p = .ok s') : R s s' := by
  refine F.withFile (fun s p path => F.trans (F.fileOpen i s path .write) ?_) h
  dsimp only
  split
  · exact F.println _ _
  refine F.trans (F.dataConnect i _) ?_
  split
  · exact F.trans (F.say _ _) (F.fileClose _)
  · exact F.trans (F.println _ _) (F.setTransfer _ _ _ _)

theorem FileFrame.size {i : Input} {s s' : Server} {p : Option (List UInt8)}
    (h : Ftp.size i s p = .ok s') : R s s' := by
  refine F.withFile (fun s p path => F.trans (F.fileOpen i s path .read) ?_) h
  dsimp only
  split
  · exact F.println _ _
  · exact F.trans (F.println _ _) (F.fileClose _)

end

end Esp32Project.Ftp
