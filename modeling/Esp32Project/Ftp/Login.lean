import Esp32Project.Ftp.Frames
import Esp32Project.Ftp.Lines
import Esp32Project.Lib.Reach

/-!
Login over whole runs. A client that is accepted while another one has logged in
takes over its cmdStatus, and `userIdentity` goes on to the user name after it
has refused the command.
-/

set_option autoImplicit false

namespace Esp32Project.Ftp
open Esp32Project.Lib

def handleStep (s : Server) (i : Input) : Option Server := (handleFTP i s).toOption

def sent (c : Conn) (log : List Event) : List (Option UInt8) :=
  log.filterMap fun
    | .received c' b => if c' = c then some (some b) else none
    | _ => none

def userLine (name : List UInt8) : Reading := .line (ascii "USER") (some name)
def passLine (word : List UInt8) : Reading := .line (ascii "PASS") (some word)

example : passLine [] ≠ userLine [] := by decide +kernel

/-- The lines that `readChar` makes of what the connection sent hold the user
name and, behind it, the password. -/
def LoggedIn (name word : List UInt8) (c : Conn) (log : List Event) : Prop :=
  ∃ typed pre mid post, typeAll [] (sent c log) =
    .ok (typed, pre ++ userLine name :: mid ++ passLine word :: post)

/-- Every command ran for a connection that had logged in. -/
def Authenticated (name word : List UInt8) (log : List Event) : Prop :=
  ∀ pre c command parameters, pre ++ [.command c command parameters] <+: log →
    ∃ c', c = some c' ∧ LoggedIn name word c' pre

/-- A line with the user name in it is a USER line. -/
def namesUser (name : List UInt8) : Except Fault (Lexer × Int × List (List UInt8)) → Bool
  | .ok r => r.2.1 ≤ 0 || r.1.params != some name || r.1.command.text == ascii "USER"
  | .error _ => true

/-- No client comes in while another one is logging in or has done so, and no
other command than USER has the user name as its parameter. -/
def loginGuard (s : Server) (i : Input) : Bool :=
  ahead s.millisDelay (millis i.now) ||
    ((!i.pending || s.cmdStatus ≤ 2 || (s.cmdStatus == 3 && s.lexer.iCL == 0)) &&
      (s.cmdStatus != 3 || namesUser (cString s.ftpUser)
        (readChar s.lexer ((incoming i (arrived i s)).map Prod.snd))))

theorem sent_append (c : Conn) (a b : List Event) : sent c (a ++ b) = sent c a ++ sent c b :=
  List.filterMap_append

def Event.aside : Event → Bool
  | .accepted _ | .received _ _ | .command _ _ _ => false
  | _ => true

theorem aside_of_quiet {e : Event} (h : e.quiet = true) : e.aside = true := by
  cases e <;> first | rfl | cases h

theorem sent_aside (c : Conn) {new : List Event} (h : ∀ e ∈ new, e.aside = true) :
    sent c new = [] := by
  refine List.filterMap_eq_nil_iff.mpr fun e he => ?_
  have := h e he
  cases e <;> first | rfl | cases this

theorem prefix_of_append {α : Type} {pre l new : List α} {x : α} (hx : x ∉ new)
    (h : pre ++ [x] <+: l ++ new) : pre ++ [x] <+: l := by
  induction new using List.reverseRecOn with
  | nil => simpa using h
  | append_singleton new y ih =>
    rw [← List.append_assoc, List.prefix_concat_iff] at h
    rcases h with h | h
    · have := (List.append_inj' h rfl).2
      simp_all
    · exact ih (fun hm => hx (List.mem_append_left _ hm)) h

theorem Authenticated.append {name word : List UInt8} {log new : List Event}
    (h : Authenticated name word log) (hn : ∀ e ∈ new, ∀ c n p, e ≠ .command c n p) :
    Authenticated name word (log ++ new) := by
  intro pre c command parameters hp
  exact h pre c command parameters (prefix_of_append (fun hm => hn _ hm _ _ _ rfl) hp)

/-- The connection `c` is served, and the lexer has read `rs` from it. -/
structure Typed (s : Server) (c : Conn) (typed : List UInt8) (rs : List Reading) : Prop where
  client : s.client = some c
  lines : typeAll [] (sent c s.log) = .ok (typed, rs)
  holds : Holds s.lexer typed

/-- What cmdStatus tells about the lines of the connection. -/
def Progress (name word : List UInt8) (status : Nat) (rs : List Reading) : Prop :=
  (3 < status → ∃ pre post, rs = pre ++ userLine name :: post) ∧
    (4 < status → ∃ pre mid post, rs = pre ++ userLine name :: mid ++ passLine word :: post)

theorem Progress.append {name word : List UInt8} {status : Nat} {rs : List Reading}
    (h : Progress name word status rs) (more : List Reading) :
    Progress name word status (rs ++ more) := by
  constructor
  · intro hs
    obtain ⟨pre, post, rfl⟩ := h.1 hs
    exact ⟨pre, post ++ more, by simp⟩
  · intro hs
    obtain ⟨pre, mid, post, rfl⟩ := h.2 hs
    exact ⟨pre, mid, post ++ more, by simp⟩

structure LoginInv (name word : List UInt8) (s : Server) : Prop where
  user : cString s.ftpUser = name
  pass : cString s.ftpPass = word
  good : Authenticated name word s.log
  fresh : ∀ c, s.nextConn ≤ c → sent c s.log = []
  client : ∀ c, s.client = some c → c < s.nextConn
  idle : s.cmdStatus = 1 ∨ s.cmdStatus = 2 → ∀ c, s.client = some c → sent c s.log = []
  login : 2 < s.cmdStatus →
    ∃ c typed rs, Typed s c typed rs ∧ Progress name word s.cmdStatus rs

def Server.loginView (s : Server) : View := { s.view with rnfrCmd := false, buf := [] }

structure Aside (s s' : Server) : Prop where
  view : s'.loginView = s.loginView
  log : ∃ new, s'.log = s.log ++ new ∧ ∀ e ∈ new, e.aside = true

theorem Quiet.aside {s s' : Server} (h : Quiet s s') : Aside s s' := by
  obtain ⟨new, hlog, hnew⟩ := h.log
  refine ⟨?_, new, hlog, fun e he => aside_of_quiet (hnew e he)⟩
  rw [Server.loginView, h.view, Server.loginView]

theorem Aside.trans {s t u : Server} (h₁ : Aside s t) (h₂ : Aside t u) : Aside s u := by
  obtain ⟨new₁, hlog₁, ha₁⟩ := h₁.log
  obtain ⟨new₂, hlog₂, ha₂⟩ := h₂.log
  refine ⟨h₂.view.trans h₁.view, new₁ ++ new₂, by rw [hlog₂, hlog₁, List.append_assoc], ?_⟩
  intro e he
  rcases List.mem_append.mp he with he | he
  · exact ha₁ e he
  · exact ha₂ e he

theorem aside_update {s t : Server} {e : Event} (hv : t.loginView = s.loginView)
    (hl : t.log = s.log) (he : e.aside = true) : Aside s (t.emit e) :=
  ⟨hv, [e], by simp [Server.emit, hl], by simpa using he⟩

theorem Quiet.aside_of_eq {s t s' : Server} (h : Quiet t s') (hv : t.loginView = s.loginView)
    (hl : t.log = s.log) : Aside s s' := by
  obtain ⟨new, hlog, hnew⟩ := h.aside.log
  exact ⟨h.aside.view.trans hv, new, hl ▸ hlog, hnew⟩

section

variable {name word : List UInt8} {s s' : Server} {i : Input}

theorem LoginInv.aside (h : LoginInv name word s) (hq : Aside s s') : LoginInv name word s' := by
  obtain ⟨new, hlog, haside⟩ := hq.log
  have hsent : ∀ c, sent c s'.log = sent c s.log := by
    intro c
    rw [hlog, sent_append, sent_aside c haside, List.append_nil]
  have hclient : s'.client = s.client := congrArg View.client hq.view
  have hstatus : s'.cmdStatus = s.cmdStatus := congrArg View.cmdStatus hq.view
  have hnext : s'.nextConn = s.nextConn := congrArg View.nextConn hq.view
  have hlexer : s'.lexer = s.lexer := congrArg View.lexer hq.view
  constructor
  · rw [show s'.ftpUser = s.ftpUser from congrArg View.ftpUser hq.view, h.user]
  · rw [show s'.ftpPass = s.ftpPass from congrArg View.ftpPass hq.view, h.pass]
  · rw [hlog]
    refine h.good.append fun e he c n p heq => ?_
    have := haside e he
    rw [heq] at this
    cases this
  · intro c hc
    rw [hsent, h.fresh c (hnext ▸ hc)]
  · intro c hc
    rw [hnext]
    exact h.client c (hclient ▸ hc)
  · intro hs c hc
    rw [hsent]
    exact h.idle (hstatus ▸ hs) c (hclient ▸ hc)
  · intro hs
    obtain ⟨c, typed, rs, ht, hp⟩ := h.login (hstatus ▸ hs)
    refine ⟨c, typed, rs, ⟨hclient.trans ht.client, by rw [hsent]; exact ht.lines, ?_⟩, ?_⟩
    · rw [hlexer]
      exact ht.holds
    · rwa [hstatus]

theorem LoginInv.quiet (h : LoginInv name word s) (hq : Quiet s s') : LoginInv name word s' :=
  h.aside hq.aside

theorem LoginInv.over (h : LoginInv name word s) :
    LoginInv name word { s with cmdStatus := 0 } where
  user := h.user
  pass := h.pass
  good := h.good
  fresh := h.fresh
  client := h.client
  idle := by simp
  login := by simp

theorem LoginInv.alone (h : LoginInv name word s) {n : Nat} (hn : n ≤ 2) :
    LoginInv name word { s with client := none, cmdStatus := n } where
  user := h.user
  pass := h.pass
  good := h.good
  fresh := h.fresh
  client := by simp
  idle := by simp
  login hs := absurd hs (by simpa using hn)

theorem LoginInv.accept (h : LoginInv name word s)
    (hs : s.cmdStatus ≤ 2 ∨ s.cmdStatus = 3 ∧ s.lexer.iCL = 0) :
    LoginInv name word (acceptClient s) := by
  have hsent : ∀ c, sent c (acceptClient s).log = sent c s.log := by
    intro c
    rw [show (acceptClient s).log = s.log ++ [.accepted s.nextConn] from rfl, sent_append]
    simp [sent]
  refine ⟨h.user, h.pass, h.good.append (by simp), ?_, ?_, ?_, ?_⟩
  · intro c hc
    rw [hsent]
    exact h.fresh c (Nat.le_of_succ_le hc)
  · intro c hc
    cases hc
    exact Nat.lt_succ_self _
  · intro _ c hc
    cases hc
    rw [hsent]
    exact h.fresh _ (Nat.le_refl _)
  · intro hlt
    rcases hs with hs | ⟨hs, hi⟩
    · exact absurd hlt (Nat.not_lt.mpr hs)
    · refine ⟨s.nextConn, [], [], ⟨rfl, ?_, holds_nil hi⟩, ?_⟩
      · rw [hsent, h.fresh _ (Nat.le_refl _)]
        rfl
      · have : (acceptClient s).cmdStatus = 3 := hs
        rw [this]
        exact ⟨by simp, by simp⟩

theorem Typed.readOn {c : Conn} {typed : List UInt8} {rs : List Reading}
    {r : Lexer × Int × List (List UInt8)} (h : Typed s c typed rs)
    (hr : readChar s.lexer ((incoming i s).map Prod.snd) = .ok r) :
    ∃ typed', Typed (taking s (incoming i s) r.1) c typed' (rs ++ reading r) := by
  have hspec := readChar_typeChar h.holds ((incoming i s).map Prod.snd)
  cases hb : i.byte with
  | none =>
    have hin : incoming i s = none := by simp [incoming, hb]
    rw [hin] at hr ⊢
    cases hr
    refine ⟨typed, h.client, ?_, h.holds⟩
    rw [show reading (s.lexer, (-1 : Int), []) = [] from rfl, List.append_nil]
    exact h.lines
  | some b =>
    have hin : incoming i s = some (c, b) := by simp [incoming, hb, h.client]
    rw [hin] at hr hspec ⊢
    simp only [Option.map_some] at hr hspec
    cases ht : typeChar typed (some b) with
    | error e =>
      rw [ht] at hspec
      rw [hspec] at hr
      cases hr
    | ok p =>
      rw [ht] at hspec
      obtain ⟨r', hr', hreading, hholds⟩ := hspec
      rw [hr] at hr'
      cases hr'
      refine ⟨p.1, h.client, ?_, hholds⟩
      have hlog : (taking s (some (c, b)) r.1).log = s.log ++ [.received c b] := rfl
      have hone : sent c [Event.received c b] = [some b] := by simp [sent]
      rw [hlog, sent_append, hone, typeAll_append, h.lines]
      simp only [typeAll, bind, Except.bind, ht, pure, Except.pure, hreading, List.append_nil]

theorem taking_log (s : Server) (byte : Option (Conn × UInt8)) (lexer : Lexer) :
    (taking s byte lexer).log = s.log ++ (byte.map fun p => Event.received p.1 p.2).toList := by
  cases byte with
  | none => simp [taking]
  | some p => rfl

theorem taking_client (byte : Option (Conn × UInt8)) (lexer : Lexer) :
    (taking s byte lexer).client = s.client := by
  cases byte <;> rfl

theorem taking_status {n : Nat} (h : s.cmdStatus = n) {byte : Option (Conn × UInt8)}
    {lexer : Lexer} : (taking s byte lexer).cmdStatus = n := by
  cases byte <;> exact h

theorem sent_taking {c c' : Conn} {lexer : Lexer} (hc : s.client = some c) (hne : c ≠ c') :
    sent c' (taking s (incoming i s) lexer).log = sent c' s.log := by
  rw [taking_log, sent_append]
  cases hb : i.byte with
  | none => simp [incoming, hb, sent]
  | some b => simp [incoming, hb, hc, sent, hne]

theorem LoginInv.readOn (h : LoginInv name word s) (hs : 2 < s.cmdStatus)
    {r : Lexer × Int × List (List UInt8)}
    (hr : readChar s.lexer ((incoming i s).map Prod.snd) = .ok r) :
    LoginInv name word (taking s (incoming i s) r.1) := by
  obtain ⟨c, typed, rs, ht, hp⟩ := h.login hs
  obtain ⟨typed', ht'⟩ := ht.readOn hr
  have hkeep : ∀ byte : Option (Conn × UInt8), (taking s byte r.1).ftpUser = s.ftpUser ∧
      (taking s byte r.1).ftpPass = s.ftpPass ∧ (taking s byte r.1).nextConn = s.nextConn ∧
      (taking s byte r.1).cmdStatus = s.cmdStatus := by
    intro byte
    cases byte <;> exact ⟨rfl, rfl, rfl, rfl⟩
  obtain ⟨huser, hpass, hnext, hstatus⟩ := hkeep (incoming i s)
  constructor
  · rw [huser, h.user]
  · rw [hpass, h.pass]
  · rw [taking_log]
    refine h.good.append fun e he c n p heq => ?_
    cases hin : incoming i s with
    | none => simp [hin] at he
    | some q => simp [hin, heq] at he
  · intro c' hc'
    rw [hnext] at hc'
    have hlt := Nat.lt_of_lt_of_le (h.client c ht.client) hc'
    rw [sent_taking ht.client (Nat.ne_of_lt hlt), h.fresh c' hc']
  · intro c' hc'
    rw [ht'.client] at hc'
    cases hc'
    rw [hnext]
    exact h.client c ht.client
  · intro hs'
    rw [hstatus] at hs'
    omega
  · intro _
    rw [hstatus]
    exact ⟨c, typed', _, ht', hp.append _⟩

theorem LoginInv.advance (h : LoginInv name word s) {c : Conn} {typed : List UInt8}
    {rs : List Reading} (ht : Typed s c typed rs) {n : Nat} (hn : 2 < n)
    (hp : Progress name word n rs) : LoginInv name word { s with cmdStatus := n } where
  user := h.user
  pass := h.pass
  good := h.good
  fresh := h.fresh
  client := h.client
  idle hs := by
    simp only at hs
    omega
  login _ := ⟨c, typed, rs, ⟨ht.client, ht.lines, ht.holds⟩, hp⟩

theorem reading_line {r : Lexer × Int × List (List UInt8)} {byte : Option UInt8} {lexer : Lexer}
    (hr : readChar lexer byte = .ok r) (hrc : r.2.1 > 0) :
    reading r = [.line r.1.command.text r.1.params] := by
  rw [reading, if_pos hrc, readChar_silent hr hrc]
  rfl

theorem LoginInv.reset (h : LoginInv name word s) (hs : s.cmdStatus = 1) :
    LoginInv name word { s with cmdStatus := 2, rnfrCmd := false } where
  user := h.user
  pass := h.pass
  good := h.good
  fresh := h.fresh
  client := h.client
  idle _ := h.idle (.inl hs)
  login := by simp

theorem LoginInv.greet (h : LoginInv name word s) (hs : s.cmdStatus = 2)
    (hc : s.client.isSome = true) :
    LoginInv name word { s with lexer := s.lexer.restart, cmdStatus := 3 } where
  user := h.user
  pass := h.pass
  good := h.good
  fresh := h.fresh
  client := h.client
  idle := by simp
  login _ := by
    obtain ⟨c, hc⟩ := Option.isSome_iff_exists.mp hc
    refine ⟨c, [], [], ⟨hc, ?_, holds_nil rfl⟩, by simp [Progress]⟩
    rw [h.idle (.inr hs) c hc]
    rfl

theorem LoginInv.command (h : LoginInv name word s) (hs : s.cmdStatus = 5)
    (command : List UInt8) (parameters : Option (List UInt8)) :
    LoginInv name word (s.emit (.command s.client command parameters)) := by
  obtain ⟨c, typed, rs, ht, hp⟩ := h.login (by omega)
  have hsent : ∀ c', sent c' (s.emit (.command s.client command parameters)).log =
      sent c' s.log := by
    intro c'
    rw [Server.emit, sent_append]
    simp [sent]
  refine ⟨h.user, h.pass, ?_, ?_, h.client, ?_, fun _ => ?_⟩
  · intro pre c' command' parameters' hpre
    rcases List.prefix_concat_iff.mp hpre with heq | hpre
    · obtain ⟨hlog, hlast⟩ := List.append_inj' heq rfl
      simp only [List.cons.injEq, Event.command.injEq, and_true] at hlast
      obtain ⟨before, mid, post, rfl⟩ := hp.2 (by omega)
      rw [hlast.1, hlog]
      exact ⟨c, ht.client, typed, before, mid, post, ht.lines⟩
    · exact h.good pre c' command' parameters' hpre
  · intro c' hc'
    rw [hsent]
    exact h.fresh c' hc'
  · intro hs'
    have : s.cmdStatus = 1 ∨ s.cmdStatus = 2 := hs'
    omega
  · exact ⟨c, typed, rs, ⟨ht.client, by rw [hsent]; exact ht.lines, ht.holds⟩, hp⟩

theorem CommandStep.aside {t : Server} {parameters : Option (List UInt8)} {v : Option Verb}
    (h : CommandStep i s parameters v t) (hv : v ≠ some .quit) : Aside s t := by
  cases h with
  | quiet h => exact h.aside
  | quit h => exact absurd rfl hv
  | noName h => exact h.aside_of_eq rfl rfl
  | notFound hp hne hm hn h => exact h.aside_of_eq rfl rfl
  | renameFrom hp hm h =>
    refine Aside.trans (h.aside_of_eq (s := s) rfl rfl) ?_
    exact aside_update rfl rfl rfl
  | notRenamed h => exact h.aside_of_eq rfl rfl
  | rename hc hs h =>
    refine Aside.trans ?_ h.aside
    exact aside_update rfl rfl rfl

theorem namesUser_line {r : Lexer × Int × List (List UInt8)}
    (h : namesUser name (.ok r) = true) (hrc : r.2.1 > 0) (hp : r.1.params = some name) :
    r.1.command.text = ascii "USER" := by
  simp only [namesUser, hp, bne_self_eq_false, Bool.or_false, Bool.or_eq_true, decide_eq_true_eq,
    beq_iff_eq] at h
  rcases h with h | h
  · omega
  · exact h

theorem LoginInv.session (h : LoginInv name word s) (hstep : SessionStep i s s')
    (hg : s.cmdStatus = 3 →
      namesUser name (readChar s.lexer ((incoming i s).map Prod.snd)) = true) :
    LoginInv name word s' := by
  cases hstep with
  | leave hs hq => exact (h.alone (by omega)).quiet hq
  | reset hs hq => exact (h.reset hs).quiet hq
  | idle hs hq => exact (h.alone (n := s.cmdStatus) (by omega)).quiet hq
  | greet hs hc hq => exact (h.greet hs hc).quiet hq
  | byte hs hr hq => exact (h.readOn hs hr).quiet hq
  | gone hs hr hq => exact ((h.readOn hs hr).alone (by omega)).quiet hq
  | refused hs hr hq => exact (h.readOn hs hr).over.quiet hq
  | identified hs hr hrc hp hq =>
    obtain ⟨c, typed, rs, ht, -⟩ := h.login (by omega)
    obtain ⟨typed', ht'⟩ := ht.readOn hr
    refine ((h.readOn (by omega) hr).advance ht' (by omega) ⟨fun _ => ?_, by simp⟩).quiet hq
    have hcmd := hg hs
    rw [hr] at hcmd
    rw [h.user] at hp
    rw [reading_line hr hrc, hp, namesUser_line hcmd hrc hp]
    exact ⟨rs, [], rfl⟩
  | admitted hs hr hrc hc hp hq =>
    obtain ⟨c, typed, rs, ht, hprog⟩ := h.login (by omega)
    obtain ⟨typed', ht'⟩ := ht.readOn hr
    obtain ⟨pre, post, rfl⟩ := hprog.1 (by omega)
    refine ((h.readOn (by omega) hr).advance ht' (by omega) ⟨fun _ => ?_, fun _ => ?_⟩).quiet hq
    · exact ⟨pre, _, by rw [List.append_assoc, List.cons_append]⟩
    · rw [reading_line hr hrc, hc, hp, h.pass]
      exact ⟨pre, post, [], rfl⟩
  | command hs hr hrc ht hq =>
    rename_i t r
    have hcmd := (h.readOn (by omega) hr).command (taking_status hs) r.1.command.text r.1.params
    rw [taking_client] at hcmd
    by_cases hv : verbOf r.1.command.text = some .quit
    · rcases hq with ⟨-, hne⟩ | hq
      · exact absurd hv hne
      rw [hv] at ht
      cases ht with
      | quiet ht => exact (hcmd.quiet ht).over.quiet hq
      | quit ht => exact (hcmd.alone (by omega)).quiet ((ht.setStatus 0).trans hq)
    · have ht' := hcmd.aside (ht.aside hv)
      rcases hq with ⟨hq, -⟩ | hq
      · exact ht'.quiet hq
      · exact ht'.over.quiet hq

theorem LoginInv.transfer (h : LoginInv name word s) (hstep : TransferStep i s s') :
    LoginInv name word s' := by
  cases hstep with
  | quiet hq => exact h.quiet hq
  | slice hq => exact h.aside (hq.aside_of_eq rfl rfl)
  | timeout hs hq => exact h.over.quiet hq

theorem handleStep_ok (h : handleStep s i = some s') : handleFTP i s = .ok s' := by
  unfold handleStep at h
  cases hf : handleFTP i s with
  | error e =>
    rw [hf] at h
    cases h
  | ok t =>
    rw [hf] at h
    cases h
    rfl

theorem LoginInv.handle (h : LoginInv name word s) (hg : loginGuard s i = true)
    (hstep : handleStep s i = some s') : LoginInv name word s' := by
  rcases handleFTP_steps (handleStep_ok hstep) with rfl | ⟨ha, t, hsession, htransfer⟩
  · exact h
  unfold loginGuard at hg
  simp only [ha, Bool.false_or, Bool.and_eq_true, Bool.or_eq_true, Bool.not_eq_true',
    decide_eq_true_eq, beq_iff_eq, bne_iff_ne, ne_eq] at hg
  obtain ⟨hnew, huser⟩ := hg
  have harr : LoginInv name word (arrived i s) := by
    unfold arrived
    split
    · rename_i hp
      refine h.accept ?_
      rcases hnew with (hnp | hle) | heq
      · rw [hp] at hnp
        cases hnp
      · exact .inl hle
      · exact .inr heq
    · exact h
  refine (harr.session (session_step hsession) fun hs => ?_).transfer htransfer
  have hkeep : (arrived i s).cmdStatus = s.cmdStatus ∧ (arrived i s).lexer = s.lexer := by
    unfold arrived
    split <;> exact ⟨rfl, rfl⟩
  rw [hkeep.1] at hs
  rw [hkeep.2, ← h.user]
  exact huser.resolve_left (fun hne => hne hs)

end

theorem login_start (name word : List UInt8) :
    LoginInv (cString name) (cString word) (start name word) where
  user := rfl
  pass := rfl
  good pre c n p h := by
    have : pre ++ [Event.command c n p] = [] := List.prefix_nil.mp h
    simp at this
  fresh _ _ := rfl
  client := by simp [start, iniVariables]
  idle := by simp [start, iniVariables]
  login := by simp [start, iniVariables]

/-- In every run whose calls all meet the guard, commands run for connections
that have logged in. -/
theorem commands_authenticated (name word : List UInt8) (s : Server)
    (h : Reach handleStep (fun s i => loginGuard s i = true) (start name word) s) :
    Authenticated (cString name) (cString word) s.log :=
  (h.invariant (LoginInv (cString name) (cString word)) (login_start name word)
    fun _ _ _ hinv hg hs => hinv.handle hg hs).good

def calm : Input where
  now := 0
  later := 0
  pending := false
  connected := true
  byte := none
  dataConnected := false
  dataPending := none
  dataPeer := ⟨Vector.replicate 4 0, 0⟩
  dataOpen := false
  localIp := Vector.replicate 4 0
  found _ := false
  size _ _ := none
  entries := none
  removes := false
  renames := false
  source := []
  taken := 0

def typing (line : String) : List Input := (ascii line).map fun b => { calm with byte := some b }

/-- A client comes in, gives its name and its password. -/
def entering (first : String) : List Input :=
  [calm, calm, { calm with pending := true }] ++ typing first ++ typing "PASS p\n"

theorem commands_authenticated_entering :
    ∃ s, runScript handleStep loginGuard (start (ascii "u") (ascii "p"))
        (entering "USER u\n" ++ typing "NOOP\n") = some s ∧
      .command (some 0) (ascii "NOOP") none ∈ s.log ∧
      Authenticated (cString (ascii "u")) (cString (ascii "p")) s.log := by
  have hrun : (runScript handleStep loginGuard (start (ascii "u") (ascii "p"))
      (entering "USER u\n" ++ typing "NOOP\n")).map
      (fun s => decide (Event.command (some 0) (ascii "NOOP") none ∈ s.log)) = some true := by
    decide +kernel
  obtain ⟨s, hs, hm⟩ := Option.map_eq_some_iff.mp hrun
  exact ⟨s, hs, of_decide_eq_true hm, commands_authenticated _ _ s
    (reach_of_script (fun _ _ h => h) hs)⟩

/-- The last two events of the log are a command and its answer, and the lines
of its connection are not those of a login. -/
def unauthorised (lines : List Reading) (c : Conn) (s : Server) : Bool :=
  (s.log.drop (s.log.length - 2)).head? = some (.command (some c) (ascii "NOOP") none) &&
    (typeAll [] (sent c (s.log.take (s.log.length - 2)))).toOption.map Prod.snd = some lines

theorem not_authenticated {lines : List Reading} {c : Conn} {s : Server}
    (h : unauthorised lines c s = true) {name word : List UInt8} (hl : userLine name ∉ lines) :
    ¬ Authenticated name word s.log := by
  intro ha
  simp only [unauthorised, Bool.and_eq_true, decide_eq_true_eq] at h
  obtain ⟨hlast, hlines⟩ := h
  obtain ⟨post, hpost⟩ := List.head?_eq_some_iff.mp hlast
  have hpre : s.log.take (s.log.length - 2) ++ [.command (some c) (ascii "NOOP") none] <+:
      s.log := by
    refine ⟨post, ?_⟩
    rw [List.append_assoc, List.singleton_append, ← hpost, List.take_append_drop]
  obtain ⟨c', hc, typed, pre, mid, post, ht⟩ := ha _ _ _ _ hpre
  cases hc
  rw [ht] at hlines
  simp only [Except.toOption, Option.map_some, Option.some.injEq] at hlines
  exact hl (hlines ▸ by simp)

/-- A second client takes over the login of the first; and a client that never
sends USER is admitted. -/
theorem commands_unauthenticated :
    (∃ s, Reach handleStep (fun _ _ => True) (start (ascii "u") (ascii "p")) s ∧
      ¬ Authenticated (cString (ascii "u")) (cString (ascii "p")) s.log) ∧
    ∃ s, Reach handleStep (fun s i => i.pending → s.cmdStatus ≤ 2)
        (start (ascii "u") (ascii "p")) s ∧
      ¬ Authenticated (cString (ascii "u")) (cString (ascii "p")) s.log := by
  constructor
  · have hrun : (runScript handleStep (fun _ _ => true) (start (ascii "u") (ascii "p"))
        (entering "USER u\n" ++ [{ calm with pending := true }] ++ typing "NOOP\n")).map
        (unauthorised [.line (ascii "NOOP") none] 1) = some true := by decide +kernel
    obtain ⟨s, hs, hbad⟩ := Option.map_eq_some_iff.mp hrun
    exact ⟨s, reach_of_script (fun _ _ _ => trivial) hs, not_authenticated hbad (by decide)⟩
  · have hrun : (runScript handleStep (fun s i => !i.pending || s.cmdStatus ≤ 2)
        (start (ascii "u") (ascii "p")) (entering "FOO u\n" ++ typing "NOOP\n")).map
        (unauthorised [.line (ascii "FOO") (some (ascii "u")), passLine (ascii "p"),
          .line (ascii "NOOP") none] 0) = some true := by decide +kernel
    obtain ⟨s, hs, hbad⟩ := Option.map_eq_some_iff.mp hrun
    refine ⟨s, reach_of_script (fun s i h hp => ?_) hs, not_authenticated hbad (by decide)⟩
    simpa [hp] using h

end Esp32Project.Ftp
