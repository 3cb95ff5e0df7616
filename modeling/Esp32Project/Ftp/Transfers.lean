import Esp32Project.Ftp.Rename
import Esp32Project.Ftp.Backoff

/-!
Transfers over whole runs: which file a transfer has, and whether its sink took
what its source delivered.
-/

set_option autoImplicit false

namespace Esp32Project.Ftp
open Esp32Project.Lib

def short (events : List Event) : Bool :=
  events.any fun e => match e with
    | .moved read taken => taken < read
    | _ => false

example : short [.moved 2 1] = true := by decide +kernel

theorem short_append (a b : List Event) : short (a ++ b) = (short a || short b) :=
  List.any_append

/-- What a part of a call does to the transfer, as long as slices are taken in
full: a transfer in progress keeps its file or has it closed. -/
structure Lifecycle (s t : Server) : Prop where
  file : (0 < s.transferStatus → s.file.isSome = true) →
    0 < t.transferStatus → t.file.isSome = true
  log : ∃ new, t.log = s.log ++ new ∧ short new = false ∧
    ∀ f, 0 < s.transferStatus → s.file = some f →
      0 < t.transferStatus ∧ t.file = some f ∨ .closed f ∈ new

theorem lifecycle_of_same {s t : Server} (new : List Event) (hf : t.file = s.file)
    (hs : t.transferStatus = s.transferStatus) (hl : t.log = s.log ++ new)
    (hnew : short new = false) : Lifecycle s t where
  file := by
    rw [hf, hs]
    exact id
  log := ⟨new, hl, hnew, fun f hstatus hfile => .inl ⟨hs ▸ hstatus, hf.trans hfile⟩⟩

theorem lifecycle_of_idle {s t : Server} (new : List Event) (hs : s.transferStatus = 0)
    (hf : 0 < t.transferStatus → t.file.isSome = true) (hl : t.log = s.log ++ new)
    (hnew : short new = false) : Lifecycle s t where
  file _ := hf
  log := ⟨new, hl, hnew, fun f hstatus => by omega⟩

theorem Lifecycle.trans {s t u : Server} (h₁ : Lifecycle s t) (h₂ : Lifecycle t u) :
    Lifecycle s u where
  file h := h₂.file (h₁.file h)
  log := by
    obtain ⟨new₁, hlog₁, hshort₁, hfile₁⟩ := h₁.log
    obtain ⟨new₂, hlog₂, hshort₂, hfile₂⟩ := h₂.log
    refine ⟨new₁ ++ new₂, by rw [hlog₂, hlog₁, List.append_assoc], ?_, ?_⟩
    · rw [short_append, hshort₁, hshort₂]
      rfl
    · intro f hstatus hfile
      rcases hfile₁ f hstatus hfile with ⟨hstatus', hfile'⟩ | hclosed
      · rcases hfile₂ f hstatus' hfile' with hkept | hclosed
        · exact .inl hkept
        · exact .inr (List.mem_append_right _ hclosed)
      · exact .inr (List.mem_append_left _ hclosed)

theorem lifecycle_set {s t : Server} (hf : t.file = s.file)
    (hs : t.transferStatus = s.transferStatus) (hl : t.log = s.log) : Lifecycle s t :=
  lifecycle_of_same [] hf hs (hl.trans (List.append_nil _).symm) rfl

structure SameTransfer (s t : Server) : Prop where
  file : t.file = s.file
  status : t.transferStatus = s.transferStatus
  log : ∃ new, t.log = s.log ++ new ∧ short new = false

theorem SameTransfer.lifecycle {s t : Server} (h : SameTransfer s t) : Lifecycle s t := by
  obtain ⟨new, hlog, hshort⟩ := h.log
  exact lifecycle_of_same new h.file h.status hlog hshort

theorem SameTransfer.trans {s t u : Server} (h₁ : SameTransfer s t) (h₂ : SameTransfer t u) :
    SameTransfer s u := by
  obtain ⟨new₁, hlog₁, hshort₁⟩ := h₁.log
  obtain ⟨new₂, hlog₂, hshort₂⟩ := h₂.log
  refine ⟨h₂.file.trans h₁.file, h₂.status.trans h₁.status, new₁ ++ new₂, ?_, ?_⟩
  · rw [hlog₂, hlog₁, List.append_assoc]
  · rw [short_append, hshort₁, hshort₂]
    rfl

theorem sameTransfer_set {s t : Server} (hf : t.file = s.file)
    (hs : t.transferStatus = s.transferStatus) (hl : t.log = s.log) : SameTransfer s t :=
  ⟨hf, hs, [], hl.trans (List.append_nil _).symm, rfl⟩

theorem sameTransfer_frame : WideFrame SameTransfer where
  refl _ := sameTransfer_set rfl rfl rfl
  trans h₁ h₂ := h₁.trans h₂
  emit s e he := ⟨rfl, rfl, [e], rfl, by cases e <;> first | rfl | cases he⟩
  setData _ _ _ := sameTransfer_set rfl rfl rfl
  setAddress _ _ _ _ := sameTransfer_set rfl rfl rfl
  setCwd _ _ := sameTransfer_set rfl rfl rfl
  emitControl s e he := ⟨rfl, rfl, [e], rfl, by cases e <;> first | rfl | cases he⟩
  setLexer _ _ := sameTransfer_set rfl rfl rfl
  setBuf _ _ := sameTransfer_set rfl rfl rfl
  setRnfrCmd _ _ := sameTransfer_set rfl rfl rfl

theorem lifecycle_frame : WideFrame Lifecycle where
  refl _ := lifecycle_set rfl rfl rfl
  trans h₁ h₂ := h₁.trans h₂
  emit s e he := (sameTransfer_frame.emit s e he).lifecycle
  setData _ _ _ := lifecycle_set rfl rfl rfl
  setAddress _ _ _ _ := lifecycle_set rfl rfl rfl
  setCwd _ _ := lifecycle_set rfl rfl rfl
  emitControl s e he := (sameTransfer_frame.emitControl s e he).lifecycle
  setLexer _ _ := lifecycle_set rfl rfl rfl
  setBuf _ _ := lifecycle_set rfl rfl rfl
  setRnfrCmd _ _ := lifecycle_set rfl rfl rfl

theorem lifecycle_fileClose (s : Server) :
    Lifecycle s { s.fileClose with transferStatus := 0 } := by
  unfold Server.fileClose
  split
  · rename_i f hf
    refine ⟨fun _ h => absurd h (Nat.lt_irrefl 0), ⟨[.closed f], rfl, rfl, ?_⟩⟩
    intro g _ hg
    cases hf.symm.trans hg
    exact .inr (List.mem_singleton_self _)
  · rename_i hf
    refine ⟨fun _ h => absurd h (Nat.lt_irrefl 0), ⟨[], (List.append_nil _).symm, rfl, ?_⟩⟩
    intro g _ hg
    cases hf.symm.trans hg

theorem dataStop_status (s : Server) (n : Nat) :
    { s.dataStop with transferStatus := n } = { s with transferStatus := n }.dataStop := by
  cases s with
  | mk client data => cases data <;> rfl

theorem say_status (s : Server) (text : String) (n : Nat) :
    { s.say text with transferStatus := n } = { s with transferStatus := n }.say text := by
  cases s with
  | mk client => cases client <;> rfl

theorem lifecycle_stop (s : Server) :
    Lifecycle s { s.fileClose.dataStop with transferStatus := 0 } := by
  rw [dataStop_status]
  exact (lifecycle_fileClose s).trans (lifecycle_frame.dataStop _)

theorem lifecycle_abortTransfer (s : Server) : Lifecycle s (abortTransfer s) := by
  unfold abortTransfer
  split
  · rw [say_status]
    exact (lifecycle_stop s).trans (lifecycle_frame.say _ _)
  · exact lifecycle_of_idle [] (by omega) (fun h => by cases h) (List.append_nil _).symm rfl

theorem lifecycle_disconnectClient (s : Server) : Lifecycle s (disconnectClient s) :=
  ((lifecycle_abortTransfer s).trans (lifecycle_frame.say _ "221 Goodbye")).trans
    (lifecycle_set rfl rfl rfl)

theorem lifecycle_closeTransfer (i : Input) (s : Server) :
    Lifecycle s { closeTransfer i s with transferStatus := 0 } := by
  unfold closeTransfer
  dsimp only
  refine Lifecycle.trans ?_ (lifecycle_stop _)
  split
  · exact (lifecycle_frame.say s _).trans (lifecycle_frame.println _ _)
  · exact lifecycle_frame.say s _

theorem lifecycle_moveSlice {i : Input} (s : Server) {bytes : List UInt8}
    (h : bytes.length ≤ i.taken) : Lifecycle s (moveSlice i s bytes) := by
  refine lifecycle_of_same [.moved bytes.length i.taken] rfl rfl rfl ?_
  simp [short, h]

theorem lifecycle_transfer {i : Input} (s : Server)
    (h : (i.source.take ftpBufSize).length ≤ i.taken) : Lifecycle s (transfer i s) := by
  have hdata := lifecycle_frame.checkData s i.dataOpen
  unfold transfer
  split
  · unfold doRetrieve
    have hbytes : (if s.file.isSome then i.source.take ftpBufSize else []).length ≤ i.taken := by
      split
      · exact h
      · exact Nat.zero_le _
    dsimp only
    generalize (if s.file.isSome then i.source.take ftpBufSize else []) = bytes at hbytes
    split
    · exact lifecycle_moveSlice s hbytes
    · exact lifecycle_closeTransfer i s
  split
  · unfold doStore
    dsimp only
    split
    · split
      · exact hdata.trans (lifecycle_moveSlice _ h)
      · exact hdata
    · exact hdata.trans (lifecycle_closeTransfer i _)
  split
  · exact (lifecycle_frame.say s "530 Timeout").trans (lifecycle_set rfl rfl rfl)
  · exact lifecycle_frame.refl s

def namesFile (cwd : List UInt8) (parameters : Option (List UInt8)) : Bool :=
  parameters.any fun p => !p.isEmpty && (makePath ftpCwdSize cwd p).toOption.any Prod.snd

/-- The line in `s` is one of a command that opens a file. -/
def namesOpened (s : Server) : Bool :=
  ([.retr, .stor, .size].any fun v => verbOf s.lexer.command.text == some v) &&
    namesFile s.cwdName.text s.lexer.params

/-- A call completes the line of a command that opens a file. -/
def opensFile (i : Input) (s : Server) : Bool :=
  !ahead s.millisDelay (millis i.now) && s.cmdStatus == 5 &&
    (receive i (arrived i s)).toOption.any fun (t, rc) =>
      0 < rc && namesOpened t

theorem namesFile_of_path {s : Server} {p path : List UInt8} (hne : p ≠ [])
    (h : localPath s p = .ok (s, some path)) : namesFile s.cwdName.text (some p) = true := by
  obtain ⟨⟨written, ok⟩, hm, h⟩ := bind_eq_ok.mp h
  cases ok with
  | false => cases (Prod.mk.inj (Except.ok.inj h)).2
  | true => simp [namesFile, hm, hne, Except.toOption]

section

variable {i : Input} {s s' : Server} {parameters : Option (List UInt8)}

theorem lifecycle_fileOpen (path : List UInt8) (mode : Mode) (h : s.transferStatus = 0) :
    Lifecycle s (s.fileOpen i path mode) ∧
      (s.fileOpen i path mode).transferStatus = 0 := by
  unfold Server.fileOpen
  split
  · exact ⟨lifecycle_of_idle [_] h (fun _ => rfl) rfl rfl, h⟩
  · exact ⟨lifecycle_of_idle [] h (fun hs => absurd h (Nat.ne_of_gt hs))
      (List.append_nil _).symm rfl, h⟩

theorem lifecycle_fileClose_idle (h : s.transferStatus = 0) : Lifecycle s s.fileClose := by
  have hstatus : s.fileClose.transferStatus = 0 := by
    unfold Server.fileClose
    split <;> exact h
  have hlog : ∃ new, s.fileClose.log = s.log ++ new ∧ short new = false := by
    unfold Server.fileClose
    split
    · exact ⟨_, rfl, rfl⟩
    · exact ⟨[], (List.append_nil _).symm, rfl⟩
  obtain ⟨new, hlog, hshort⟩ := hlog
  exact lifecycle_of_idle new h (by omega) hlog hshort

theorem lifecycle_begin (h : s.transferStatus = 0) (hf : s.file.isSome = true)
    (millisBeginTrans bytesTransfered : UInt32) (n : Nat) :
    Lifecycle s { s with millisBeginTrans, bytesTransfered, transferStatus := n } :=
  lifecycle_of_idle [] h (fun _ => hf) (List.append_nil _).symm rfl

theorem lifecycle_begin_after {t u : Server} (hsame : SameTransfer t u)
    (h : t.transferStatus = 0) (hf : ¬ t.file.isNone = true)
    (millisBeginTrans bytesTransfered : UInt32) (n : Nat) :
    Lifecycle u { u with millisBeginTrans, bytesTransfered, transferStatus := n } := by
  refine lifecycle_begin (hsame.status.trans h) ?_ _ _ _
  rw [hsame.file]
  simpa [Option.isSome_iff_ne_none] using hf

/-- A command that opens a file opens it while no transfer is running. -/
theorem opened_cases {run : Server → List UInt8 → List UInt8 → Server}
    (h : withFile s parameters run = .ok s')
    (hidle : namesFile s.cwdName.text parameters = true → s.transferStatus = 0) (mode : Mode) :
    Lifecycle s s' ∨ ∃ p path, s' = run s p path ∧ Lifecycle s (s.fileOpen i path mode) ∧
      (s.fileOpen i path mode).transferStatus = 0 := by
  rcases lifecycle_frame.withFile_cases h with hr | ⟨p, path, rfl, hne, hl, rfl⟩
  · exact .inl hr
  · have hopen := lifecycle_fileOpen (i := i) path mode (hidle (namesFile_of_path hne hl))
    exact .inr ⟨p, path, rfl, hopen⟩

theorem lifecycle_retr (h : retr i s parameters = .ok s')
    (hidle : namesFile s.cwdName.text parameters = true → s.transferStatus = 0) :
    Lifecycle s s' := by
  rcases opened_cases (i := i) h hidle .read with hr | ⟨p, path, rfl, hopen, hstatus⟩
  · exact hr
  refine hopen.trans ?_
  dsimp only
  generalize s.fileOpen i path .read = t at hstatus
  split
  · exact lifecycle_frame.println t _
  rename_i hf
  have hconnect := sameTransfer_frame.dataConnect i t
  generalize dataConnect i t = u at hconnect
  refine hconnect.lifecycle.trans ?_
  split
  · exact lifecycle_frame.say u.1 _
  · have hsay (a b : List UInt8) := (sameTransfer_frame.println u.1 a).trans
      (sameTransfer_frame.println _ b)
    exact (hsay _ _).lifecycle.trans
      (lifecycle_begin_after (hconnect.trans (hsay _ _)) hstatus hf _ _ _)

theorem lifecycle_stor (h : stor i s parameters = .ok s')
    (hidle : namesFile s.cwdName.text parameters = true → s.transferStatus = 0) :
    Lifecycle s s' := by
  rcases opened_cases (i := i) h hidle .write with hr | ⟨p, path, rfl, hopen, hstatus⟩
  · exact hr
  refine hopen.trans ?_
  dsimp only
  generalize s.fileOpen i path .write = t at hstatus
  split
  · exact lifecycle_frame.println t _
  rename_i hf
  have hconnect := sameTransfer_frame.dataConnect i t
  generalize dataConnect i t = u at hconnect
  refine hconnect.lifecycle.trans ?_
  split
  · have hsay := sameTransfer_frame.say u.1 "425 No data connection"
    refine hsay.lifecycle.trans (lifecycle_fileClose_idle ?_)
    rw [hsay.status, hconnect.status, hstatus]
  · have hsay (a : List UInt8) := sameTransfer_frame.println u.1 a
    exact (hsay _).lifecycle.trans
      (lifecycle_begin_after (hconnect.trans (hsay _)) hstatus hf _ _ _)

theorem lifecycle_size (h : size i s parameters = .ok s')
    (hidle : namesFile s.cwdName.text parameters = true → s.transferStatus = 0) :
    Lifecycle s s' := by
  rcases opened_cases (i := i) h hidle .read with hr | ⟨p, path, rfl, hopen, hstatus⟩
  · exact hr
  refine hopen.trans ?_
  dsimp only
  generalize s.fileOpen i path .read = t at hstatus
  have hsay (a : List UInt8) := sameTransfer_frame.println t a
  split
  · exact (hsay _).lifecycle
  · refine (hsay _).lifecycle.trans (lifecycle_fileClose_idle ?_)
    rw [(hsay _).status, hstatus]

theorem lifecycle_processCommand {b : Bool} (h : processCommand i s = .ok (s', b))
    (hidle : ([.retr, .stor, .size].any fun v => verbOf s.lexer.command.text == some v) = true →
      namesFile s.cwdName.text s.lexer.params = true → s.transferStatus = 0) :
    Lifecycle s s' := by
  refine lifecycle_frame.processCommand h fun v hv t t' hverb ht hrun => ?_
  have hopens (hmem : v ∈ [Verb.retr, .stor, .size])
      (hnames : namesFile t.cwdName.text s.lexer.params = true) : t.transferStatus = 0 := by
    subst ht
    exact hidle (List.any_eq_true.mpr ⟨v, hmem, by simp [hverb]⟩) hnames
  simp only [Verb.ofTransfer, List.mem_cons, List.not_mem_nil, or_false] at hv
  obtain rfl | rfl | rfl | rfl | rfl := hv
  · exact lifecycle_retr hrun (hopens (by decide))
  · exact lifecycle_stor hrun (hopens (by decide))
  · exact lifecycle_size hrun (hopens (by decide))
  · cases hrun
    exact lifecycle_disconnectClient t
  · cases hrun
    exact (lifecycle_abortTransfer t).trans (lifecycle_frame.say _ _)

theorem lifecycle_userIdentity {b : Bool} (h : userIdentity i s = .ok (s', b)) :
    Lifecycle s s' := by
  obtain ⟨t, ht, hanswer⟩ := userIdentity_cases h
  have hrefused : Lifecycle s t := by
    rcases ht with rfl | rfl
    · exact lifecycle_frame.refl t
    · exact lifecycle_frame.say s _
  obtain ⟨-, -, rfl⟩ | ⟨-, rfl⟩ := hanswer
  · exact (hrefused.trans (lifecycle_frame.say _ _)).trans (lifecycle_set rfl rfl rfl)
  · exact (hrefused.trans (lifecycle_frame.say _ _)).trans (lifecycle_set rfl rfl rfl)

theorem lifecycle_userPassword {b : Bool} (h : userPassword i s = .ok (s', b)) :
    Lifecycle s s' := by
  obtain ⟨-, -, -, rfl⟩ | ⟨text, -, rfl⟩ := userPassword_cases h
  · exact lifecycle_frame.say s _
  · exact (lifecycle_frame.say s _).trans (lifecycle_set rfl rfl rfl)

theorem lifecycle_lineReceived (h : lineReceived i s = .ok s')
    (hidle : s.cmdStatus = 5 → namesOpened s = true → s.transferStatus = 0) :
    Lifecycle s s' := by
  rcases lineReceived_cases h with ⟨-, u, b, hu, rfl⟩ | ⟨-, u, b, hu, rfl⟩ |
    ⟨h₅, u, b, hu, rfl⟩ | ⟨-, rfl⟩
  · exact (lifecycle_userIdentity hu).trans (lifecycle_set rfl rfl rfl)
  · refine (lifecycle_userPassword hu).trans ?_
    split <;> exact lifecycle_set rfl rfl rfl
  · refine (lifecycle_processCommand hu fun hv hn => ?_).trans ?_
    · exact hidle h₅ (by rw [namesOpened, hv, hn]; rfl)
    · split <;> exact lifecycle_set rfl rfl rfl
  · exact lifecycle_frame.refl s'

theorem lifecycle_checkClient (s : Server) (connected : Bool) :
    Lifecycle s (s.checkClient connected) := by
  unfold Server.checkClient
  split
  · exact lifecycle_frame.refl s
  · exact lifecycle_set rfl rfl rfl

theorem lifecycle_session (h : session i s = .ok s')
    (hidle : ∀ t rc, receive i s = .ok (t, rc) → 0 < rc → s.cmdStatus = 5 →
      namesOpened t = true → s.transferStatus = 0) : Lifecycle s s' := by
  have hstatus (t : Server) (n : Nat) : Lifecycle t { t with cmdStatus := n } :=
    lifecycle_set rfl rfl rfl
  have hcheck := lifecycle_checkClient s i.connected
  unfold session at h
  split at h
  · cases h
    refine Lifecycle.trans ?_ (hstatus _ 1)
    split
    · exact hcheck.trans (lifecycle_disconnectClient _)
    · exact hcheck
  split at h
  · cases h
    have habort : (abortTransfer s).transferStatus = 0 := rfl
    refine (lifecycle_abortTransfer s).trans ?_
    exact lifecycle_of_idle [] habort (fun h => absurd h (Nat.lt_irrefl 0))
      (List.append_nil _).symm rfl
  split at h
  · dsimp only at h
    split at h
    · obtain ⟨u, hu, hconnected⟩ := lifecycle_frame.clientConnected (s.checkClient i.connected)
      rw [hconnected] at h
      cases h
      exact (hcheck.trans hu).trans (lifecycle_set rfl rfl rfl)
    · cases h
      exact hcheck
  obtain ⟨⟨u, rc⟩, hu, h⟩ := bind_eq_ok.mp h
  have hreceive := sameTransfer_frame.receive hu
  have hsame := (sameDelay_frame.receive hu).cmdStatus
  refine hreceive.lifecycle.trans ?_
  dsimp only at h
  split at h
  · rename_i hrc
    refine lifecycle_lineReceived h fun h₅ hn => ?_
    rw [hreceive.status]
    exact hidle u rc hu hrc (hsame ▸ h₅) hn
  · split at h
    · cases h
      exact lifecycle_checkClient u _
    · cases h
      exact (lifecycle_checkClient u _).trans (hstatus _ 1)

theorem lifecycle_arrived (i : Input) (s : Server) : SameTransfer s (arrived i s) := by
  unfold arrived
  split
  · exact ⟨rfl, rfl, [.accepted s.nextConn], rfl, rfl⟩
  · exact sameTransfer_frame.refl s

/-- While a transfer is in progress no command opens a file, and what a slice
reads is taken in full. -/
def undisturbed (s : Server) (i : Input) : Prop :=
  (0 < s.transferStatus → opensFile i s = false) ∧ (i.source.take ftpBufSize).length ≤ i.taken

theorem lifecycle_handleFTP (hc : undisturbed s i) (h : handleFTP i s = .ok s') :
    Lifecycle s s' := by
  unfold handleFTP at h
  split at h
  · cases h
    exact lifecycle_frame.refl s
  rename_i hahead
  obtain ⟨t, ht, h⟩ := bind_eq_ok.mp h
  cases h
  have harrived := lifecycle_arrived i s
  have hcmd : (arrived i s).cmdStatus = s.cmdStatus := by
    unfold arrived
    split <;> rfl
  refine (harrived.lifecycle.trans ?_).trans (lifecycle_transfer t hc.2)
  refine lifecycle_session ht fun u rc hu hrc h₅ hn => ?_
  rw [harrived.status]
  by_contra hne
  have hno := hc.1 (Nat.pos_of_ne_zero hne)
  simp [opensFile, hahead, ← hcmd, h₅, hu, Except.toOption, hrc, hn] at hno

end

/-- A run of the server with the files of the transfers that have begun and are
not closed, and whether the latest of them has lost bytes. -/
structure TransferRun where
  server : Server
  active : List Nat
  lost : Bool

def news (s s' : Server) : List Event := s'.log.drop s.log.length

def running (s : Server) : Option Nat := if 0 < s.transferStatus then s.file else none

def TransferRun.after (w : TransferRun) (s' : Server) : TransferRun :=
  let new := news w.server s'
  { server := s'
    active := (running s').toList ∪ w.active.filter fun f => !new.contains (.closed f)
    lost := (running s').isSome && (short new || w.lost && running s' == running w.server) }

def transferStep (w : TransferRun) (i : Input) : Option TransferRun :=
  (handleStep w.server i).map w.after

def transferStart (uname pword : List UInt8) : TransferRun := ⟨start uname pword, [], false⟩

def successLines : List (List UInt8) :=
  [ascii "226 File successfully transferred", ascii "226-File successfully transferred"]

def succeeds (events : List Event) : Prop :=
  ∃ c, ∃ text ∈ successLines, Event.replied c text ∈ events

/-- What a call that leads to `s'` may do to transfers. -/
structure TransferOk (w : TransferRun) (s' : Server) : Prop where
  kept : ∀ f, running w.server = some f →
    running s' = some f ∨ .closed f ∈ news w.server s'
  single : (w.after s').active.length ≤ 1
  whole : succeeds (news w.server s') → w.lost = false ∧ short (news w.server s') = false

def transferOk (w : TransferRun) (i : Input) : Prop :=
  ∀ s', handleStep w.server i = some s' → TransferOk w s'

structure TransferInv (w : TransferRun) : Prop where
  file : 0 < w.server.transferStatus → w.server.file.isSome = true
  active : w.active = (running w.server).toList
  whole : w.lost = false

theorem transfer_start (uname pword : List UInt8) : TransferInv (transferStart uname pword) where
  file h := absurd h (Nat.lt_irrefl 0)
  active := rfl
  whole := rfl

theorem TransferInv.lifecycle {w : TransferRun} (h : TransferInv w) {s' : Server}
    (hl : Lifecycle w.server s') : TransferOk w s' ∧ TransferInv (w.after s') := by
  obtain ⟨new, hlog, hshort, hfile⟩ := hl.log
  have hnews : news w.server s' = new := by
    rw [news, hlog, List.drop_left]
  have hkept : ∀ f, running w.server = some f → running s' = some f ∨ .closed f ∈ new := by
    intro f hf
    unfold running at hf ⊢
    split at hf
    · rename_i hstatus
      refine (hfile f hstatus hf).imp_left fun hgo => ?_
      rw [if_pos hgo.1, hgo.2]
    · cases hf
  have hactive : (w.after s').active = (running s').toList := by
    simp only [TransferRun.after, hnews, h.active]
    cases hf : running w.server with
    | none => cases running s' <;> rfl
    | some f =>
      -- the file before is closed, or the one after is the same
      cases hg : running s' with
      | none =>
        have hclosed := (hkept f hf).resolve_left (by simp [hg])
        simp [hclosed]
      | some g =>
        by_cases hclosed : .closed f ∈ new
        · simp [hclosed]
        · have hsame := (hkept f hf).resolve_right hclosed
          rw [hg] at hsame
          cases hsame
          simp [hclosed]
  have hlost : (w.after s').lost = false := by
    simp [TransferRun.after, hnews, hshort, h.whole]
  refine ⟨⟨hnews ▸ hkept, ?_, fun _ => ⟨h.whole, hnews ▸ hshort⟩⟩, hl.file h.file, hactive, hlost⟩
  rw [hactive]
  exact Option.length_toList_le

theorem TransferInv.step {w w' : TransferRun} (h : TransferInv w) {i : Input}
    (hc : undisturbed w.server i) (hs : transferStep w i = some w') : TransferInv w' := by
  obtain ⟨s', hs', rfl⟩ := Option.map_eq_some_iff.mp hs
  exact (h.lifecycle (lifecycle_handleFTP hc (handleStep_ok hs'))).2

/-- In every run in which no command opens a file during a transfer and every
slice is taken in full, a transfer keeps its file until that is closed, no two
are active, and success is only reported when nothing was lost. -/
theorem transfers_ok (uname pword : List UInt8) (w : TransferRun)
    (h : Reach transferStep (fun w i => undisturbed w.server i) (transferStart uname pword) w)
    (i : Input) (hi : undisturbed w.server i) : transferOk w i := by
  have hinv := h.invariant TransferInv (transfer_start uname pword) fun _ _ _ hw hc hs =>
    hw.step hc hs
  intro s' hs'
  exact (hinv.lifecycle (lifecycle_handleFTP hi (handleStep_ok hs'))).1

instance (s : Server) (i : Input) : Decidable (undisturbed s i) :=
  inferInstanceAs (Decidable (_ ∧ _))

/-- The card holds two files, a client waits for data, and a transfer gets
`source`, of which `taken` bytes are taken. -/
def serving (source : List UInt8) (taken : Nat) : Input :=
  { calm with
    size := fun path _ => if path ∈ [ascii "/a", ascii "/b"] then some 3 else none
    dataPending := some true
    dataConnected := true
    source
    taken }

theorem transfers_ok_retrieved :
    ∃ w s', runScript transferStep (fun w i => undisturbed w.server i)
        (transferStart (ascii "u") (ascii "p"))
        (entering "USER u\n" ++ typingFor (serving [1, 2, 3] 3) "RETR a\n") = some w ∧
      handleStep w.server (serving [] 0) = some s' ∧ succeeds (news w.server s') ∧
      TransferOk w s' := by
  have hrun : ((runScript transferStep (fun w i => undisturbed w.server i)
      (transferStart (ascii "u") (ascii "p"))
      (entering "USER u\n" ++ typingFor (serving [1, 2, 3] 3) "RETR a\n")).bind fun w =>
        (handleStep w.server (serving [] 0)).map fun s' =>
          decide (undisturbed w.server (serving [] 0) ∧ .replied 0
            (ascii "226 File successfully transferred") ∈ news w.server s')) = some true := by
    decide +kernel
  obtain ⟨w, hw, hs⟩ := Option.bind_eq_some_iff.mp hrun
  obtain ⟨s', hs', hlast⟩ := Option.map_eq_some_iff.mp hs
  obtain ⟨hi, hreply⟩ := of_decide_eq_true hlast
  have hreach : Reach transferStep (fun w i => undisturbed w.server i)
      (transferStart (ascii "u") (ascii "p")) w :=
    reach_of_script (fun w i (h : decide (undisturbed w.server i) = true) =>
      of_decide_eq_true h) hw
  exact ⟨w, s', hw, hs', ⟨0, _, List.mem_cons_self, hreply⟩,
    transfers_ok _ _ w hreach (serving [] 0) hi s' hs'⟩

def lastCall (script : List Input) (i : Input) : Option (TransferRun × Server) :=
  (runScript transferStep (fun _ _ => true) (transferStart (ascii "u") (ascii "p")) script).bind
    fun w => (handleStep w.server i).map (w, ·)

theorem exists_lastCall {script : List Input} {i : Input} {bad : TransferRun × Server → Bool}
    (h : (lastCall script i).map bad = some true) :
    ∃ w s', Reach transferStep (fun _ _ => True) (transferStart (ascii "u") (ascii "p")) w ∧
      handleStep w.server i = some s' ∧ bad (w, s') = true := by
  obtain ⟨⟨w, s'⟩, hlast, hbad⟩ := Option.map_eq_some_iff.mp h
  obtain ⟨u, hu, hs⟩ := Option.bind_eq_some_iff.mp hlast
  obtain ⟨t, ht, heq⟩ := Option.map_eq_some_iff.mp hs
  cases heq
  exact ⟨w, s', reach_of_script (fun _ _ _ => trivial) hu, ht, hbad⟩

/-- RETR during a transfer replaces its file; a transfer whose sink took one of
three bytes succeeds. -/
theorem transfers_broken :
    (∃ w i s', Reach transferStep (fun _ _ => True) (transferStart (ascii "u") (ascii "p")) w ∧
      handleStep w.server i = some s' ∧ running w.server = some 0 ∧ running s' = some 1 ∧
      ¬ TransferOk w s') ∧
    ∃ w i s', Reach transferStep (fun _ _ => True) (transferStart (ascii "u") (ascii "p")) w ∧
      handleStep w.server i = some s' ∧ w.lost = true ∧ ¬ TransferOk w s' := by
  constructor
  · have hrun : (lastCall (entering "USER u\n" ++ typingFor (serving [1, 2, 3] 3) "RETR a\nRETR b")
        { serving [1, 2, 3] 3 with byte := some lf }).map (fun (w, s') =>
          decide (running w.server = some 0 ∧ running s' = some 1 ∧
            .closed 0 ∉ news w.server s')) = some true := by
      decide +kernel
    obtain ⟨w, s', hreach, hs, hbad⟩ := exists_lastCall hrun
    obtain ⟨hbefore, hbehind, hopen⟩ := of_decide_eq_true hbad
    refine ⟨w, _, s', hreach, hs, hbefore, hbehind, fun hok => ?_⟩
    have hkept := (hok.kept 0 hbefore).resolve_right hopen
    rw [hbehind] at hkept
    cases hkept
  · have hrun : (lastCall (entering "USER u\n" ++ typingFor (serving [1, 2, 3] 1) "RETR a\n")
        (serving [] 0)).map (fun (w, s') =>
          decide (w.lost = true ∧ .replied 0 (ascii "226 File successfully transferred") ∈
            news w.server s')) = some true := by
      decide +kernel
    obtain ⟨w, s', hreach, hs, hbad⟩ := exists_lastCall hrun
    obtain ⟨hlost, hreply⟩ := of_decide_eq_true hbad
    refine ⟨w, _, s', hreach, hs, hlost, fun hok => ?_⟩
    have hwhole := (hok.whole ⟨0, _, List.mem_cons_self, hreply⟩).1
    rw [hlost] at hwhole
    cases hwhole

end Esp32Project.Ftp
