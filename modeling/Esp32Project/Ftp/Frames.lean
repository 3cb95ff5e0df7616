import Esp32Project.Ftp.Replies

/-!
What the functions of the server leave alone: replies, transfers and most
commands change neither the control connection nor the state of login and
rename.
-/

set_option autoImplicit false

namespace Esp32Project.Ftp
open Esp32Project.Lib

/-- The part of the state that login and rename depend on. -/
structure View where
  client : Option Conn
  nextConn : Nat
  lexer : Lexer
  ftpUser : List UInt8
  ftpPass : List UInt8
  cmdStatus : Nat
  rnfrCmd : Bool
  buf : List UInt8

def Server.view (s : Server) : View :=
  ⟨s.client, s.nextConn, s.lexer, s.ftpUser, s.ftpPass, s.cmdStatus, s.rnfrCmd, s.buf⟩

def Event.quiet : Event → Bool
  | .accepted _ | .received _ _ | .command _ _ _ | .renameFrom _ _ | .rename _ _ _ => false
  | _ => true

structure Quiet (s s' : Server) : Prop where
  view : s'.view = s.view
  log : ∃ new, s'.log = s.log ++ new ∧ ∀ e ∈ new, e.quiet = true

theorem Quiet.rfl {s : Server} : Quiet s s := ⟨Eq.refl _, [], by simp, by simp⟩

theorem Quiet.trans {s t u : Server} (h₁ : Quiet s t) (h₂ : Quiet t u) : Quiet s u := by
  obtain ⟨new₁, hlog₁, hq₁⟩ := h₁.log
  obtain ⟨new₂, hlog₂, hq₂⟩ := h₂.log
  refine ⟨h₂.view.trans h₁.view, new₁ ++ new₂, by rw [hlog₂, hlog₁, List.append_assoc], ?_⟩
  intro e he
  rcases List.mem_append.mp he with he | he
  · exact hq₁ e he
  · exact hq₂ e he

theorem quiet_of_eq {s s' : Server} (hv : s'.view = s.view) (hl : s'.log = s.log) : Quiet s s' :=
  ⟨hv, [], by simp [hl], by simp⟩

theorem quiet_update {s t : Server} {e : Event} (hv : t.view = s.view) (hl : t.log = s.log)
    (he : e.quiet = true) : Quiet s (t.emit e) :=
  ⟨hv, [e], by simp [Server.emit, hl], by simpa using he⟩

theorem quiet_emit (s : Server) {e : Event} (he : e.quiet = true) : Quiet s (s.emit e) :=
  quiet_update rfl rfl he

theorem quiet_frame : Frame Quiet where
  refl _ := .rfl
  trans h₁ h₂ := h₁.trans h₂
  emit s e he := quiet_emit s (by cases e <;> first | rfl | cases he)
  setData _ _ _ := quiet_of_eq rfl rfl
  setAddress _ _ _ _ := quiet_of_eq rfl rfl
  setCwd _ _ := quiet_of_eq rfl rfl

theorem quiet_files : FileFrame Quiet where
  refl _ := .rfl
  trans h₁ h₂ := h₁.trans h₂
  emit s e he := quiet_frame.emit s e he
  setData _ _ _ := quiet_of_eq rfl rfl
  setAddress _ _ _ _ := quiet_of_eq rfl rfl
  emitFile s e he := quiet_emit s (by cases e <;> first | rfl | cases he)
  setFile _ _ _ := quiet_of_eq rfl rfl
  setTransfer _ _ _ _ := quiet_of_eq rfl rfl

theorem quiet_println (s : Server) (text : List UInt8) : Quiet s (s.println text) :=
  quiet_frame.println s text

theorem quiet_say (s : Server) (text : String) : Quiet s (s.say text) := quiet_println s _

theorem makePath_terminated {cap : Nat} {cwd param written : List UInt8} {ok : Bool}
    (h : makePath cap cwd param = .ok (written, ok)) : 0 ∈ written := by
  unfold makePath at h
  split at h
  · cases h
    simp
  obtain ⟨full, -, h⟩ := bind_eq_ok.mp h
  split at h
  · cases h
  split at h <;> cases h <;> simp

theorem cString_overwrite (buf : List UInt8) {bytes : List UInt8} (h : 0 ∈ bytes) :
    cString (overwrite buf bytes) = cString bytes := by
  obtain ⟨a, b, rfl⟩ := List.append_of_mem h
  unfold overwrite
  rw [List.append_assoc, List.cons_append, cString_append_zero, cString_append_zero]

theorem overwrite_overwrite (buf : List UInt8) {bytes : List UInt8} (h : bytes ≠ []) :
    overwrite (overwrite buf [0]) bytes = overwrite buf bytes := by
  obtain ⟨b, bs, rfl⟩ := List.exists_cons_of_ne_nil h
  cases buf <;> simp [overwrite]

/-- What a command can do to the control connection, to buf and to rnfrCmd. -/
inductive CommandStep (i : Input) (s : Server) (parameters : Option (List UInt8)) :
    Option Verb → Server → Prop where
  | quiet {v : Option Verb} {s' : Server} (h : Quiet s s') : CommandStep i s parameters v s'
  | quit {s' : Server} (h : Quiet { s with client := none } s') :
      CommandStep i s parameters (some .quit) s'
  | noName {s' : Server} (h : Quiet { s with buf := overwrite s.buf [0] } s') :
      CommandStep i s parameters (some .rnfr) s'
  | notFound {s' : Server} {p written : List UInt8} {ok : Bool} (hp : parameters = some p)
      (hne : p ≠ []) (hm : makePath ftpBufSize s.cwdName.text p = .ok (written, ok))
      (hn : (ok && i.found (cString written)) = false)
      (h : Quiet { s with buf := overwrite s.buf written } s') :
      CommandStep i s parameters (some .rnfr) s'
  | renameFrom {t : Server} {p written : List UInt8} (hp : parameters = some p)
      (hm : makePath ftpBufSize s.cwdName.text p = .ok (written, true))
      (h : Quiet { s with buf := overwrite s.buf written } t) :
      CommandStep i s parameters (some .rnfr)
        ({ t with rnfrCmd := true }.emit (.renameFrom t.client (cString written)))
  | notRenamed {s' : Server} (h : Quiet { s with rnfrCmd := false } s') :
      CommandStep i s parameters (some .rnto) s'
  | rename {s' : Server} {path : List UInt8} (hc : s.rnfrCmd = true) (hs : cString s.buf ≠ [])
      (h : Quiet ({ s with rnfrCmd := false }.emit
        (.rename s.client (cString s.buf) path)) s') :
      CommandStep i s parameters (some .rnto) s'

theorem rnfr_step {i : Input} {s s' : Server} {parameters : Option (List UInt8)}
    (h : rnfr i s parameters = .ok s') : CommandStep i s parameters (some .rnfr) s' := by
  cases parameters with
  | none => cases h
  | some p =>
    obtain ⟨q, hq, h⟩ := bind_eq_ok.mp h
    cases hq
    split at h
    · cases h
      exact .noName (quiet_say _ _)
    rename_i hlen
    have hne : p ≠ [] := fun h => hlen (by rw [h]; rfl)
    obtain ⟨⟨written, ok⟩, hm, h⟩ := bind_eq_ok.mp h
    have hz := makePath_terminated hm
    have hbuf := overwrite_overwrite s.buf (List.ne_nil_of_mem hz)
    dsimp only at h
    rw [hbuf] at h
    split at h
    · rename_i hok
      cases h
      exact .notFound rfl hne hm (by simp_all) (quiet_say _ _)
    rename_i hok
    obtain rfl : ok = true := by simpa using hok
    rw [cString_overwrite s.buf hz] at h
    split at h
    · rename_i hfound
      cases h
      exact .notFound rfl hne hm (by simpa using hfound) (quiet_println _ _)
    · cases h
      exact .renameFrom rfl hm (quiet_say _ _)

theorem Quiet.setRnfrCmd {s t : Server} (h : Quiet s t) (b : Bool) :
    Quiet { s with rnfrCmd := b } { t with rnfrCmd := b } :=
  ⟨congrArg (fun v : View => { v with rnfrCmd := b }) h.view, h.log⟩

theorem Quiet.setStatus {s t : Server} (h : Quiet s t) (n : Nat) :
    Quiet { s with cmdStatus := n } { t with cmdStatus := n } :=
  ⟨congrArg (fun v : View => { v with cmdStatus := n }) h.view, h.log⟩

theorem Quiet.setClient {s t : Server} (h : Quiet s t) (c : Option Conn) :
    Quiet { s with client := c } { t with client := c } :=
  ⟨congrArg (fun v : View => { v with client := c }) h.view, h.log⟩

theorem Quiet.setLexer {s t : Server} (h : Quiet s t) (lexer : Lexer) :
    Quiet { s with lexer } { t with lexer } :=
  ⟨congrArg (fun v : View => { v with lexer }) h.view, h.log⟩

theorem rnto_step {i : Input} {s s' : Server} {parameters : Option (List UInt8)}
    (h : rnto i s parameters = .ok s') : CommandStep i s parameters (some .rnto) s' := by
  obtain ⟨source, hs, h⟩ := bind_eq_ok.mp h
  obtain rfl : source = cString s.buf := by
    unfold bufString at hs
    split at hs <;> cases hs
    rfl
  split at h
  · cases h
    exact .notRenamed ((quiet_say s _).setRnfrCmd false)
  rename_i hcond
  simp only [not_or, List.length_eq_zero_iff, Bool.not_eq_true', Bool.not_eq_false] at hcond
  obtain ⟨t, ht, h⟩ := bind_eq_ok.mp h
  cases h
  rcases quiet_frame.withFile_cases ht with hq | ⟨p, path, -, -, -, rfl⟩
  · exact .notRenamed (hq.setRnfrCmd false)
  dsimp only
  split
  · exact .notRenamed ((quiet_println s _).setRnfrCmd false)
  · have hsay := quiet_say (s.emit (.rename s.client (cString s.buf) path))
    split
    · exact .rename hcond.2 hcond.1
        ((hsay "250 File successfully renamed or moved").setRnfrCmd false)
    · exact .rename hcond.2 hcond.1 ((hsay "451 Rename/move failure").setRnfrCmd false)

theorem quiet_quit (s : Server) : Quiet { s with client := none } (disconnectClient s) := by
  exact ((quiet_files.abortTransfer s).trans (quiet_say _ "221 Goodbye")).setClient none

theorem runVerb_step {i : Input} {s s' : Server} {parameters : Option (List UInt8)} {v : Verb}
    (h : runVerb i s parameters v = .ok s') : CommandStep i s parameters (some v) s' := by
  by_cases hv : v ∈ [.retr, .stor, .size, .quit, .abor, .rnfr, .rnto]
  · simp only [List.mem_cons, List.not_mem_nil, or_false] at hv
    obtain rfl | rfl | rfl | rfl | rfl | rfl | rfl := hv
    · exact .quiet (quiet_files.retr h)
    · exact .quiet (quiet_files.stor h)
    · exact .quiet (quiet_files.size h)
    · cases h
      exact .quit (quiet_quit s)
    · cases h
      exact .quiet ((quiet_files.abortTransfer s).trans (quiet_say _ _))
    · exact rnfr_step h
    · exact rnto_step h
  · exact .quiet (quiet_frame.runVerb h hv)

theorem runCommand_step {i : Input} {s s' : Server} {command : List UInt8}
    {parameters : Option (List UInt8)} {b : Bool}
    (h : runCommand i s command parameters = .ok (s', b)) :
    CommandStep i s parameters (verbOf command) s' ∧ (b = true → verbOf command ≠ some .quit) := by
  unfold runCommand at h
  split at h
  · rename_i v hv
    obtain ⟨t, ht, heq⟩ := map_eq_ok.mp h
    cases heq
    rw [hv]
    exact ⟨runVerb_step ht, by simp⟩
  · rename_i hv
    cases h
    rw [hv]
    exact ⟨.quiet (quiet_say s _), by simp⟩

theorem userIdentity_ok {i : Input} {s s' : Server} {b : Bool}
    (h : userIdentity i s = .ok (s', b)) :
    Quiet s s' ∧ (b = true → s.lexer.params = some (cString s.ftpUser)) := by
  obtain ⟨t, ht, hanswer⟩ := userIdentity_cases h
  have hrefused : Quiet s t := by
    rcases ht with rfl | rfl
    · exact .rfl
    · exact quiet_say s _
  have hlexer : t.lexer = s.lexer := congrArg View.lexer hrefused.view
  have huser : t.ftpUser = s.ftpUser := congrArg View.ftpUser hrefused.view
  obtain ⟨rfl, hparams, rfl⟩ | ⟨rfl, rfl⟩ := hanswer
  · refine ⟨(hrefused.trans (quiet_say _ _)).trans (quiet_of_eq rfl rfl), fun _ => ?_⟩
    rw [← hlexer, ← huser]
    exact hparams
  · exact ⟨(hrefused.trans (quiet_say _ _)).trans (quiet_of_eq rfl rfl), by simp⟩

theorem userPassword_ok {i : Input} {s s' : Server} {b : Bool}
    (h : userPassword i s = .ok (s', b)) :
    Quiet s s' ∧ (b = true → s.lexer.command.text = ascii "PASS" ∧
      s.lexer.params = some (cString s.ftpPass)) := by
  obtain ⟨rfl, hpass, hparams, rfl⟩ | ⟨text, rfl, rfl⟩ := userPassword_cases h
  · exact ⟨quiet_say s _, fun _ => ⟨hpass, hparams⟩⟩
  · exact ⟨(quiet_say s _).trans (quiet_of_eq rfl rfl), by simp⟩

def incoming (i : Input) (s : Server) : Option (Conn × UInt8) :=
  s.client.bind fun c => i.byte.map fun b => (c, b)

def taking (s : Server) (byte : Option (Conn × UInt8)) (lexer : Lexer) : Server :=
  { byte.elim s fun (c, b) => s.emit (.received c b) with lexer }

theorem report_rc (s : Lexer) (rc : Int) : (report s rc).2.1 = rc := by
  unfold report
  dsimp only
  split <;> rfl

theorem report_replies {s : Lexer} {rc : Int} (h : rc > 0) : (report s rc).2.2 = [] := by
  unfold report
  rw [if_neg (show rc ≠ -2 by omega)]

theorem readChar_silent {s : Lexer} {byte : Option UInt8} {r : Lexer × Int × List (List UInt8)}
    (h : readChar s byte = .ok r) (hrc : r.2.1 > 0) : r.2.2 = [] := by
  have hreport : ∀ t rc, .ok (report t rc) = (.ok r : Except Fault _) → r.2.2 = [] := by
    intro t rc ht
    cases ht
    rw [report_rc] at hrc
    exact report_replies hrc
  cases byte with
  | none => cases h; rfl
  | some c =>
    simp only [readChar] at h
    by_cases hcr : (if c = backslash then slash else c) = cr
    · rw [if_pos hcr] at h
      exact hreport _ _ h
    rw [if_neg hcr] at h
    by_cases hlf : (if c = backslash then slash else c) = lf
    · rw [if_pos hlf] at h
      obtain ⟨q, -, h⟩ := bind_eq_ok.mp h
      exact hreport _ _ h
    · rw [if_neg hlf] at h
      exact hreport _ _ h

theorem receive_ok {i : Input} {s s' : Server} {rc : Int} (h : receive i s = .ok (s', rc)) :
    ∃ lexer replies, readChar s.lexer ((incoming i s).map Prod.snd) = .ok (lexer, rc, replies) ∧
      Quiet (taking s (incoming i s) lexer) s' ∧
      (rc > 0 → s' = taking s (incoming i s) lexer) := by
  obtain ⟨⟨lexer, rc', replies⟩, hr, h⟩ := bind_eq_ok.mp h
  have hlexer : (Option.elim (incoming i s) s fun (c, b) => s.emit (.received c b)).lexer =
      s.lexer := by
    cases incoming i s <;> rfl
  have hr' : readChar s.lexer ((incoming i s).map Prod.snd) = .ok (lexer, rc', replies) := by
    rw [← hlexer]
    exact hr
  cases h
  refine ⟨lexer, replies, hr', quiet_frame.foldl quiet_println _ _, fun hrc => ?_⟩
  rw [show replies = [] from readChar_silent hr' hrc]
  rfl

/-- What a call can do by cmdStatus, up to what login and rename do not see. -/
inductive SessionStep (i : Input) (s : Server) : Server → Prop where
  | leave {s' : Server} (hs : s.cmdStatus = 0)
      (h : Quiet { s with client := none, cmdStatus := 1 } s') : SessionStep i s s'
  | reset {s' : Server} (hs : s.cmdStatus = 1)
      (h : Quiet { s with cmdStatus := 2, rnfrCmd := false } s') : SessionStep i s s'
  | idle {s' : Server} (hs : s.cmdStatus = 2) (h : Quiet { s with client := none } s') :
      SessionStep i s s'
  | greet {s' : Server} (hs : s.cmdStatus = 2) (hc : s.client.isSome = true)
      (h : Quiet { s with lexer := s.lexer.restart, cmdStatus := 3 } s') : SessionStep i s s'
  | byte {s' : Server} {r : Lexer × Int × List (List UInt8)} (hs : 2 < s.cmdStatus)
      (hr : readChar s.lexer ((incoming i s).map Prod.snd) = .ok r)
      (h : Quiet (taking s (incoming i s) r.1) s') : SessionStep i s s'
  | gone {s' : Server} {r : Lexer × Int × List (List UInt8)} (hs : 2 < s.cmdStatus)
      (hr : readChar s.lexer ((incoming i s).map Prod.snd) = .ok r)
      (h : Quiet { taking s (incoming i s) r.1 with client := none, cmdStatus := 1 } s') :
      SessionStep i s s'
  | refused {s' : Server} {r : Lexer × Int × List (List UInt8)} (hs : 2 < s.cmdStatus)
      (hr : readChar s.lexer ((incoming i s).map Prod.snd) = .ok r)
      (h : Quiet { taking s (incoming i s) r.1 with cmdStatus := 0 } s') : SessionStep i s s'
  | identified {s' : Server} {r : Lexer × Int × List (List UInt8)} (hs : s.cmdStatus = 3)
      (hr : readChar s.lexer ((incoming i s).map Prod.snd) = .ok r) (hrc : r.2.1 > 0)
      (hp : r.1.params = some (cString s.ftpUser))
      (h : Quiet { taking s (incoming i s) r.1 with cmdStatus := 4 } s') : SessionStep i s s'
  | admitted {s' : Server} {r : Lexer × Int × List (List UInt8)} (hs : s.cmdStatus = 4)
      (hr : readChar s.lexer ((incoming i s).map Prod.snd) = .ok r) (hrc : r.2.1 > 0)
      (hc : r.1.command.text = ascii "PASS") (hp : r.1.params = some (cString s.ftpPass))
      (h : Quiet { taking s (incoming i s) r.1 with cmdStatus := 5 } s') : SessionStep i s s'
  | command {t s' : Server} {r : Lexer × Int × List (List UInt8)} (hs : s.cmdStatus = 5)
      (hr : readChar s.lexer ((incoming i s).map Prod.snd) = .ok r) (hrc : r.2.1 > 0)
      (ht : CommandStep i ((taking s (incoming i s) r.1).emit
        (.command s.client r.1.command.text r.1.params)) r.1.params (verbOf r.1.command.text) t)
      (h : (Quiet t s' ∧ verbOf r.1.command.text ≠ some .quit) ∨
        Quiet { t with cmdStatus := 0 } s') :
      SessionStep i s s'

theorem quiet_noClient {s : Server} (h : s.client.isSome = false) :
    Quiet { s with client := none } s := by
  refine quiet_of_eq ?_ rfl
  rw [Option.isSome_eq_false_iff, Option.isNone_iff_eq_none] at h
  simp [Server.view, h]

theorem quiet_checkClient {s : Server} {connected : Bool}
    (h : (s.checkClient connected).client.isSome = false) :
    Quiet { s with client := none } (s.checkClient connected) := by
  unfold Server.checkClient at h ⊢
  cases connected with
  | true => exact quiet_noClient h
  | false => exact .rfl

theorem checkClient_isSome {s : Server} {connected : Bool}
    (h : (s.checkClient connected).client.isSome = true) : s.checkClient connected = s := by
  unfold Server.checkClient at h ⊢
  cases connected with
  | true => rfl
  | false => cases h

theorem quiet_setEnd (s : Server) (m : UInt32) :
    Quiet s { s with millisEndConnection := m } := quiet_of_eq rfl rfl

theorem lineReceived_step {i : Input} {s s' : Server} {r : Lexer × Int × List (List UInt8)}
    (hs : 2 < s.cmdStatus)
    (hr : readChar s.lexer ((incoming i s).map Prod.snd) = .ok r) (hrc : r.2.1 > 0)
    (h : lineReceived i (taking s (incoming i s) r.1) = .ok s') : SessionStep i s s' := by
  have htake : ∀ byte, (taking s byte r.1).cmdStatus = s.cmdStatus ∧
      (taking s byte r.1).client = s.client ∧ (taking s byte r.1).ftpUser = s.ftpUser ∧
      (taking s byte r.1).ftpPass = s.ftpPass := by
    intro byte
    cases byte <;> exact ⟨rfl, rfl, rfl, rfl⟩
  obtain ⟨hstatus, hclient, huser, hpass⟩ := htake (incoming i s)
  have hlexer : (taking s (incoming i s) r.1).lexer = r.1 := rfl
  generalize hu : taking s (incoming i s) r.1 = u at *
  have hcases := lineReceived_cases h
  rw [hstatus] at hcases
  rcases hcases with ⟨h₃, t, b, ht, rfl⟩ | ⟨h₄, t, b, ht, rfl⟩ | ⟨h₅, t, b, ht, rfl⟩ | ⟨-, rfl⟩
  · obtain ⟨hq, hp⟩ := userIdentity_ok ht
    cases b with
    | true =>
      rw [hlexer, huser] at hp
      exact .identified h₃ hr hrc (hp rfl) (hu ▸ hq.setStatus 4)
    | false => exact .refused hs hr (hu ▸ hq.setStatus 0)
  · obtain ⟨hq, hp⟩ := userPassword_ok ht
    cases b with
    | true =>
      rw [hlexer, hpass] at hp
      exact .admitted h₄ hr hrc (hp rfl).1 (hp rfl).2
        (hu ▸ (hq.setStatus 5).trans (quiet_setEnd _ _))
    | false => exact .refused hs hr (hu ▸ hq.setStatus 0)
  · unfold processCommand at ht
    rw [hclient, hlexer] at ht
    obtain ⟨hstep, hquit⟩ := runCommand_step ht
    subst hu
    cases b with
    | true => exact .command h₅ hr hrc hstep (.inl ⟨quiet_setEnd _ _, hquit rfl⟩)
    | false => exact .command h₅ hr hrc hstep (.inr .rfl)
  · exact .byte hs hr (hu ▸ .rfl)

theorem quiet_leave (s : Server) (connected : Bool) :
    Quiet { s with client := none }
      (if (s.checkClient connected).client.isSome then disconnectClient (s.checkClient connected)
        else s.checkClient connected) := by
  split
  · rename_i hc
    rw [checkClient_isSome hc]
    exact quiet_quit s
  · rename_i hc
    exact quiet_checkClient (by simpa using hc)

theorem quiet_clientConnected (s : Server) :
    Quiet { s with lexer := s.lexer.restart } (clientConnected s) := by
  obtain ⟨t, hq, ht⟩ := quiet_frame.clientConnected s
  rw [ht, show t.lexer = s.lexer from congrArg View.lexer hq.view]
  exact hq.setLexer _

theorem session_step {i : Input} {s s' : Server} (h : session i s = .ok s') :
    SessionStep i s s' := by
  unfold session at h
  split at h
  · rename_i hs
    cases h
    exact .leave hs ((quiet_leave s i.connected).setStatus 1)
  split at h
  · rename_i hs
    cases h
    refine .reset hs ((((quiet_files.abortTransfer s).setRnfrCmd false).setStatus 2).trans ?_)
    exact quiet_of_eq rfl rfl
  split at h
  · rename_i hs
    dsimp only at h
    split at h
    · rename_i hc
      rw [checkClient_isSome hc] at h hc
      have hq := (quiet_clientConnected s).setStatus 3
      generalize clientConnected s = t at h hq
      cases h
      exact .greet hs hc (hq.trans (quiet_setEnd _ _))
    · rename_i hc
      cases h
      exact .idle hs (quiet_checkClient (by simpa using hc))
  rename_i h₀ h₁ h₂
  have hs : 2 < s.cmdStatus := by omega
  obtain ⟨⟨t, rc⟩, ht, h⟩ := bind_eq_ok.mp h
  obtain ⟨lexer, replies, hr, hq, heq⟩ := receive_ok ht
  dsimp only at h
  split at h
  · rename_i hrc
    rw [heq hrc] at h
    exact lineReceived_step hs hr hrc h
  · split at h
    · rename_i hc
      rw [checkClient_isSome hc] at h
      cases h
      exact .byte hs hr hq
    · rename_i hc
      cases h
      have hgone := (hq.setClient none).trans (quiet_checkClient (by simpa using hc))
      exact .gone hs hr (hgone.setStatus 1)

theorem quiet_setTransfer (s : Server) (n : Nat) : Quiet s { s with transferStatus := n } :=
  quiet_of_eq rfl rfl

theorem quiet_setDelay (s : Server) (m : UInt32) : Quiet s { s with millisDelay := m } :=
  quiet_of_eq rfl rfl

theorem Quiet.setBuf {s t : Server} (h : Quiet s t) (buf : List UInt8) :
    Quiet { s with buf } { t with buf } :=
  ⟨congrArg (fun v : View => { v with buf }) h.view, h.log⟩

theorem quiet_moveSlice (i : Input) (s : Server) (bytes : List UInt8) :
    Quiet { s with buf := overwrite s.buf bytes } (moveSlice i s bytes) :=
  quiet_update rfl rfl rfl

def sliceRead (i : Input) (s : Server) : List UInt8 :=
  if s.transferStatus = 1 ∧ s.file.isSome ∨
      s.transferStatus = 2 ∧ (s.checkData i.dataOpen).data.isSome then i.source.take ftpBufSize
  else []

inductive TransferStep (i : Input) (s : Server) : Server → Prop where
  | quiet {s' : Server} (h : Quiet s s') : TransferStep i s s'
  | slice {s' : Server} (h : Quiet { s with buf := overwrite s.buf (sliceRead i s) } s') :
      TransferStep i s s'
  | timeout {s' : Server} (hs : 2 < s.cmdStatus) (h : Quiet { s with cmdStatus := 0 } s') :
      TransferStep i s s'

theorem doRetrieve_step (i : Input) {s : Server} (hs : s.transferStatus = 1) :
    TransferStep i s (doRetrieve i s).1 := by
  unfold doRetrieve
  dsimp only
  by_cases hf : s.file.isSome = true
  · rw [if_pos hf]
    split
    · refine .slice ?_
      rw [sliceRead, if_pos (.inl ⟨hs, hf⟩)]
      exact quiet_moveSlice i s _
    · exact .quiet (quiet_files.closeTransfer i s)
  · rw [if_neg hf]
    exact .quiet (quiet_files.closeTransfer i s)

theorem doStore_step (i : Input) {s : Server} (hs : s.transferStatus = 2) :
    TransferStep i s (doStore i s).1 := by
  have hc := quiet_frame.checkData s i.dataOpen
  have hread : (s.checkData i.dataOpen).data.isSome = true →
      sliceRead i s = i.source.take ftpBufSize := fun hd => if_pos (.inr ⟨hs, hd⟩)
  unfold doStore
  dsimp only
  generalize s.checkData i.dataOpen = t at hc hread ⊢
  split
  · rename_i hd
    split
    · have hbuf : t.buf = s.buf := congrArg View.buf hc.view
      refine .slice ((hc.setBuf _).trans ?_)
      rw [← hbuf, hread hd]
      exact quiet_moveSlice i t _
    · exact .quiet hc
  · exact .quiet (hc.trans (quiet_files.closeTransfer i t))

theorem TransferStep.trans {i : Input} {s t u : Server} (h : TransferStep i s t)
    (hq : Quiet t u) : TransferStep i s u := by
  cases h with
  | quiet h => exact .quiet (h.trans hq)
  | slice h => exact .slice (h.trans hq)
  | timeout hs h => exact .timeout hs (h.trans hq)

theorem transfer_step (i : Input) (s : Server) : TransferStep i s (transfer i s) := by
  unfold transfer
  split
  · rename_i hs
    have h := doRetrieve_step i hs
    dsimp only
    split
    · exact h
    · exact h.trans (quiet_setTransfer _ _)
  split
  · rename_i hs
    have h := doStore_step i hs
    dsimp only
    split
    · exact h
    · exact h.trans (quiet_setTransfer _ _)
  split
  · rename_i hs
    exact .timeout hs.1 (((quiet_say s _).setStatus 0).trans (quiet_setDelay _ _))
  · exact .quiet .rfl

theorem handleFTP_steps {i : Input} {s s' : Server} (h : handleFTP i s = .ok s') :
    s' = s ∨ ahead s.millisDelay (millis i.now) = false ∧
      ∃ t, session i (arrived i s) = .ok t ∧ TransferStep i t s' := by
  unfold handleFTP at h
  split at h
  · cases h
    exact .inl rfl
  · rename_i ha
    obtain ⟨t, ht, h⟩ := bind_eq_ok.mp h
    cases h
    exact .inr ⟨by simpa using ha, t, ht, transfer_step i t⟩

end Esp32Project.Ftp
