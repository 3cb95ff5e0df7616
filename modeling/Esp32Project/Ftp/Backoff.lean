import Esp32Project.Ftp.Login
import Esp32Project.Ftp.Replies

/-!
The delay after a failed login or a timeout, against a clock of 32 bits. The
clock of a run counts the milliseconds since the start without a bound, and
`millis` is what the server reads of it.
-/

set_option autoImplicit false

namespace Esp32Project.Ftp
open Esp32Project.Lib

structure SameDelay (s s' : Server) : Prop where
  millisDelay : s'.millisDelay = s.millisDelay
  cmdStatus : s'.cmdStatus = s.cmdStatus

theorem SameDelay.trans {s t u : Server} (h₁ : SameDelay s t) (h₂ : SameDelay t u) :
    SameDelay s u :=
  ⟨h₂.millisDelay.trans h₁.millisDelay, h₂.cmdStatus.trans h₁.cmdStatus⟩

theorem sameDelay_frame : WideFrame SameDelay where
  refl _ := ⟨rfl, rfl⟩
  trans h₁ h₂ := h₁.trans h₂
  emit _ _ _ := ⟨rfl, rfl⟩
  setData _ _ _ := ⟨rfl, rfl⟩
  setAddress _ _ _ _ := ⟨rfl, rfl⟩
  setCwd _ _ := ⟨rfl, rfl⟩
  emitControl _ _ _ := ⟨rfl, rfl⟩
  setLexer _ _ := ⟨rfl, rfl⟩
  setBuf _ _ := ⟨rfl, rfl⟩
  setRnfrCmd _ _ := ⟨rfl, rfl⟩

theorem sameDelay_files : FileFrame SameDelay where
  refl _ := ⟨rfl, rfl⟩
  trans h₁ h₂ := h₁.trans h₂
  emit _ _ _ := ⟨rfl, rfl⟩
  setData _ _ _ := ⟨rfl, rfl⟩
  setAddress _ _ _ _ := ⟨rfl, rfl⟩
  emitFile _ _ _ := ⟨rfl, rfl⟩
  setFile _ _ _ := ⟨rfl, rfl⟩
  setTransfer _ _ _ _ := ⟨rfl, rfl⟩

theorem sameDelay_say (s : Server) (text : String) : SameDelay s (s.say text) :=
  sameDelay_frame.say s text

theorem sameDelay_disconnectClient (s : Server) : SameDelay s (disconnectClient s) :=
  ((sameDelay_files.abortTransfer s).trans (sameDelay_say _ "221 Goodbye")).trans ⟨rfl, rfl⟩

theorem sameDelay_processCommand {i : Input} {s s' : Server} {b : Bool}
    (h : processCommand i s = .ok (s', b)) : SameDelay s s' := by
  refine sameDelay_frame.processCommand h fun v hv t t' _ _ ht => ?_
  simp only [Verb.ofTransfer, List.mem_cons, List.not_mem_nil, or_false] at hv
  obtain rfl | rfl | rfl | rfl | rfl := hv
  · exact sameDelay_files.retr ht
  · exact sameDelay_files.stor ht
  · exact sameDelay_files.size ht
  · cases ht
    exact sameDelay_disconnectClient t
  · cases ht
    exact (sameDelay_files.abortTransfer t).trans (sameDelay_say _ _)

theorem sameDelay_checkClient (s : Server) (connected : Bool) :
    SameDelay s (s.checkClient connected) := by
  unfold Server.checkClient
  split <;> exact ⟨rfl, rfl⟩

theorem userIdentity_delay {i : Input} {s s' : Server} {b : Bool}
    (h : userIdentity i s = .ok (s', b)) :
    s'.millisDelay = if b then s.millisDelay else millis i.later + 100 := by
  obtain ⟨t, ht, ⟨rfl, -, rfl⟩ | ⟨rfl, rfl⟩⟩ := userIdentity_cases h
  · have hrefused : SameDelay s t := by
      rcases ht with rfl | rfl
      · exact sameDelay_frame.refl t
      · exact sameDelay_say s _
    exact (hrefused.trans (sameDelay_say _ _)).millisDelay
  · rfl

theorem userPassword_delay {i : Input} {s s' : Server} {b : Bool}
    (h : userPassword i s = .ok (s', b)) :
    s'.millisDelay = if b then s.millisDelay else millis i.later + 100 := by
  obtain ⟨rfl, -, -, rfl⟩ | ⟨text, rfl, rfl⟩ := userPassword_cases h
  · exact (sameDelay_say s _).millisDelay
  · rfl

/-- `session` refuses a name or a password: it goes from `s` to `t`. -/
def loginFails (s t : Server) : Bool := (s.cmdStatus == 3 || s.cmdStatus == 4) && t.cmdStatus == 0

def timesOut (i : Input) (t : Server) : Bool :=
  t.transferStatus != 1 && t.transferStatus != 2 && 2 < t.cmdStatus &&
    !ahead t.millisEndConnection (millis i.later)

/-- The deadline that a call sets once it has passed its first check. -/
def newDeadline (i : Input) (s : Server) : Option Nat :=
  match session i (arrived i s) with
  | .ok t =>
    if loginFails s t then some (i.later + 100)
    else if timesOut i t then some (i.later + 200)
    else none
  | .error _ => none

theorem lineReceived_delay {i : Input} {s t : Server}
    (h : lineReceived i s = .ok t) :
    t.millisDelay = if loginFails s t then millis i.later + 100 else s.millisDelay := by
  rcases lineReceived_cases h with ⟨h₃, u, b, hu, rfl⟩ | ⟨h₄, u, b, hu, rfl⟩ |
    ⟨h₅, u, b, hu, rfl⟩ | ⟨hno, rfl⟩
  · have hd := userIdentity_delay hu
    cases b with
    | true => simpa [loginFails, h₃] using hd
    | false => simpa [loginFails, h₃] using hd
  · have hd := userPassword_delay hu
    cases b with
    | true => simpa [loginFails, h₄] using hd
    | false => simpa [loginFails, h₄] using hd
  · have hd := (sameDelay_processCommand hu).millisDelay
    cases b with
    | true => simpa [loginFails, h₅] using hd
    | false => simpa [loginFails, h₅] using hd
  · simp only [List.mem_cons, List.not_mem_nil, or_false, not_or] at hno
    simp [loginFails, hno.1, hno.2.1]

theorem loginFails_of_status {s s' t : Server} (h : s'.cmdStatus = s.cmdStatus) :
    loginFails s' t = loginFails s t := by
  simp only [loginFails, h]

theorem session_delay {i : Input} {s t : Server} (h : session i s = .ok t) :
    t.millisDelay = if loginFails s t then millis i.later + 100 else s.millisDelay := by
  have hother (hs : ¬ 2 < s.cmdStatus) (hd : t.millisDelay = s.millisDelay) :
      t.millisDelay = if loginFails s t then millis i.later + 100 else s.millisDelay := by
    have hno : loginFails s t = false := by
      simp only [loginFails, Bool.and_eq_false_imp, Bool.or_eq_true, beq_iff_eq]
      omega
    rwa [hno]
  have hcheck := sameDelay_checkClient s i.connected
  unfold session at h
  split at h
  · cases h
    refine hother (by omega) ?_
    dsimp only
    split
    · exact (hcheck.trans (sameDelay_disconnectClient _)).millisDelay
    · exact hcheck.millisDelay
  split at h
  · cases h
    exact hother (by omega) (sameDelay_files.abortTransfer s).millisDelay
  split at h
  · refine hother (by omega) ?_
    dsimp only at h
    split at h
    · obtain ⟨u, hu, hconnected⟩ := sameDelay_frame.clientConnected (s.checkClient i.connected)
      rw [hconnected] at h
      cases h
      exact (hcheck.trans hu).millisDelay
    · cases h
      exact hcheck.millisDelay
  obtain ⟨⟨u, rc⟩, hu, h⟩ := bind_eq_ok.mp h
  have hreceive := sameDelay_frame.receive hu
  dsimp only at h
  split at h
  · rw [← hreceive.millisDelay, ← loginFails_of_status hreceive.cmdStatus]
    exact lineReceived_delay h
  -- the line is not complete, or the client is gone
  have hgone := hreceive.trans (sameDelay_checkClient u i.connected)
  have hno : loginFails s t = false ∧ t.millisDelay = s.millisDelay := by
    simp only [loginFails, Bool.and_eq_false_imp, Bool.or_eq_true, beq_iff_eq,
      beq_eq_false_iff_ne]
    split at h
    · cases h
      exact ⟨fun _ => by rw [hgone.cmdStatus]; assumption, hgone.millisDelay⟩
    · cases h
      exact ⟨fun _ => Nat.one_ne_zero, hgone.millisDelay⟩
  rw [hno.1]
  exact hno.2

theorem transfer_delay (i : Input) (t : Server) :
    (transfer i t).millisDelay = if timesOut i t then millis i.later + 200 else t.millisDelay := by
  unfold transfer
  split
  · rename_i h₁
    have hno : timesOut i t = false := by simp [timesOut, h₁]
    rw [hno]
    have hd : (doRetrieve i t).1.millisDelay = t.millisDelay := by
      unfold doRetrieve
      dsimp only
      generalize (if t.file.isSome then i.source.take ftpBufSize else []) = bytes
      split
      · rfl
      · exact (sameDelay_files.closeTransfer i t).millisDelay
    dsimp only
    split <;> exact hd
  split
  · rename_i h₂
    have hno : timesOut i t = false := by simp [timesOut, h₂]
    rw [hno]
    have hd : (doStore i t).1.millisDelay = t.millisDelay := by
      have hdata := sameDelay_frame.checkData t i.dataOpen
      unfold doStore
      dsimp only
      split
      · split <;> exact hdata.millisDelay
      · exact (hdata.trans (sameDelay_files.closeTransfer i _)).millisDelay
    dsimp only
    split <;> exact hd
  rename_i h₁ h₂
  split
  · rename_i hc
    have hyes : timesOut i t = true := by simp [timesOut, h₁, h₂, hc]
    rw [hyes]
    rfl
  · rename_i hc
    have hno : timesOut i t = false := by
      simpa [timesOut, h₁, h₂] using hc
    rw [hno]
    rfl

/-- A run of `handleFTP` with the clock, the deadline that was set last, and
whether a call has passed the first check since. -/
structure Watch where
  server : Server
  clock : Nat
  deadline : Option Nat
  passed : Bool

/-- A call, the time since the one before and the time it takes. -/
structure Call where
  wait : Nat
  work : Nat
  answers : Input

def Call.input (c : Call) (w : Watch) : Input :=
  { c.answers with now := w.clock + c.wait, later := w.clock + c.wait + c.work }

def returnsEarly (i : Input) (s : Server) : Bool := ahead s.millisDelay (millis i.now)

def Watch.after (w : Watch) (i : Input) (server : Server) : Watch :=
  if returnsEarly i w.server then { w with server, clock := i.now }
  else
    let set := newDeadline i w.server
    ⟨server, i.later, set.or w.deadline, set.isNone⟩

def watchStep (w : Watch) (c : Call) : Option Watch :=
  (handleStep w.server (c.input w)).map (w.after (c.input w))

def watchStart (uname pword : List UInt8) (boot : Nat) : Watch :=
  ⟨start uname pword, boot, none, false⟩

def backoffOk (w : Watch) (c : Call) : Prop :=
  returnsEarly (c.input w) w.server = true →
    (∃ d, w.deadline = some d ∧ (c.input w).now < d) ∧ w.passed = false

/-- The call comes before the latest deadline, or in the first half of a turn of
the clock after it; zero counts as the deadline until one is set. -/
def inFirstHalf (w : Watch) (c : Call) : Prop :=
  (c.input w).now < w.deadline.getD 0 ∨
    ((c.input w).now - w.deadline.getD 0) % 2 ^ 32 ≤ 2 ^ 31

theorem millis_sub (d now : Nat) :
    (millis d - millis now).toNat = (2 ^ 32 - now % 2 ^ 32 + d % 2 ^ 32) % 2 ^ 32 :=
  UInt32.toNat_sub (millis d) (millis now)

theorem bmod_pos {n : Nat} (h : n < 2 ^ 32) : 0 < Int.bmod n (2 ^ 32) ↔ 0 < n ∧ n < 2 ^ 31 := by
  rw [Int.bmod_def]
  omega

theorem ahead_millis (d now : Nat) :
    ahead (millis d) (millis now) = true ↔
      0 < (millis d - millis now).toNat ∧ (millis d - millis now).toNat < 2 ^ 31 := by
  have hlt : (millis d - millis now).toNat < 2 ^ 32 := by
    rw [millis_sub]
    omega
  unfold ahead
  rw [decide_eq_true_eq]
  exact bmod_pos hlt

theorem ahead_after {d now : Nat} (h : d ≤ now) :
    ahead (millis d) (millis now) = true ↔ 2 ^ 31 < (now - d) % 2 ^ 32 := by
  rw [ahead_millis, millis_sub]
  omega

theorem ahead_before {d now : Nat} (h : now < d) (hd : d ≤ now + 200) :
    ahead (millis d) (millis now) = true := by
  rw [ahead_millis, millis_sub]
  omega

structure BackoffInv (w : Watch) : Prop where
  delay : w.server.millisDelay = millis (w.deadline.getD 0)
  near : w.deadline.getD 0 ≤ w.clock + 200
  behind : w.passed = true → w.deadline.getD 0 ≤ w.clock

theorem backoff_start (uname pword : List UInt8) (boot : Nat) :
    BackoffInv (watchStart uname pword boot) where
  delay := rfl
  near := Nat.zero_le _
  behind h := by cases h

theorem BackoffInv.ok_iff {w : Watch} (h : BackoffInv w) (c : Call) :
    backoffOk w c ↔ inFirstHalf w c := by
  have hnow : w.clock ≤ (c.input w).now := Nat.le_add_right _ _
  have hnear := h.near
  unfold backoffOk inFirstHalf returnsEarly
  rw [h.delay]
  by_cases hlt : (c.input w).now < w.deadline.getD 0
  · refine iff_of_true (fun _ => ⟨?_, ?_⟩) (.inl hlt)
    · cases hd : w.deadline with
      | none => simp [hd] at hlt
      | some d => exact ⟨d, rfl, by simpa [hd] using hlt⟩
    · by_contra hp
      have := h.behind (by simpa using hp)
      omega
  · rw [ahead_after (by omega)]
    constructor
    · intro hok
      by_contra hno
      obtain ⟨⟨d, hd, hlater⟩, -⟩ := hok (by omega)
      rw [hd] at hlt
      exact hlt hlater
    · rintro (hbefore | hhalf) hearly
      · exact absurd hbefore hlt
      · omega

/-- What a call that passes the first check makes of `millisDelay`. -/
theorem handleFTP_delay {i : Input} {s s' : Server} (h : handleFTP i s = .ok s')
    (hpass : returnsEarly i s = false) :
    s'.millisDelay = ((newDeadline i s).map millis).getD s.millisDelay := by
  unfold handleFTP at h
  rw [if_neg (by simpa [returnsEarly] using hpass)] at h
  obtain ⟨t, ht, h⟩ := bind_eq_ok.mp h
  cases h
  have harrived : (arrived i s).millisDelay = s.millisDelay ∧
      loginFails (arrived i s) t = loginFails s t := by
    unfold arrived
    split <;> exact ⟨rfl, rfl⟩
  have hsession := session_delay ht
  rw [harrived.1, harrived.2] at hsession
  unfold newDeadline
  rw [transfer_delay, ht]
  dsimp only
  cases hl : loginFails s t with
  | true =>
    have hno : timesOut i t = false := by
      simp only [loginFails, Bool.and_eq_true, beq_iff_eq] at hl
      simp [timesOut, hl.2]
    rw [hl] at hsession
    rw [hno]
    exact hsession.trans (UInt32.ofNat_add i.later 100).symm
  | false =>
    rw [hl] at hsession
    cases ht : timesOut i t with
    | true => exact (UInt32.ofNat_add i.later 200).symm
    | false => exact hsession

theorem newDeadline_later {i : Input} {s : Server} {d : Nat} (h : newDeadline i s = some d) :
    i.later ≤ d ∧ d ≤ i.later + 200 := by
  unfold newDeadline at h
  split at h
  · split at h
    · cases h
      omega
    · split at h
      · cases h
        omega
      · cases h
  · cases h

theorem BackoffInv.early {w : Watch} (h : BackoffInv w) {i : Input} {server : Server}
    (hnow : w.clock ≤ i.now) (hserver : handleFTP i w.server = .ok server)
    (hearly : returnsEarly i w.server = true) : BackoffInv (w.after i server) := by
  have hsame : server = w.server := by
    unfold handleFTP at hserver
    rw [if_pos (show ahead _ _ = true from hearly)] at hserver
    exact (Except.ok.inj hserver).symm
  rw [Watch.after, if_pos hearly, hsame]
  have hnear := h.near
  exact ⟨h.delay, by simp only; omega, fun hp => (h.behind hp).trans hnow⟩

theorem BackoffInv.pass {w : Watch} (h : BackoffInv w) {i : Input} {server : Server}
    (hnow : w.clock ≤ i.now) (hlater : i.now ≤ i.later)
    (hserver : handleFTP i w.server = .ok server)
    (hpass : returnsEarly i w.server = false) : BackoffInv (w.after i server) := by
  have hdelay := handleFTP_delay hserver hpass
  have hnear := h.near
  rw [Watch.after, hpass]
  cases hset : newDeadline i w.server with
  | some d =>
    rw [hset] at hdelay
    exact ⟨hdelay, (newDeadline_later hset).2, fun hp => by cases hp⟩
  | none =>
    rw [hset] at hdelay
    have hover : w.deadline.getD 0 ≤ i.now := by
      by_contra hlt
      rw [returnsEarly, h.delay, ahead_before (by omega) (by omega)] at hpass
      cases hpass
    exact ⟨hdelay.trans h.delay, by simp; omega, fun _ => by simp; omega⟩

theorem BackoffInv.step {w w' : Watch} (h : BackoffInv w) {c : Call}
    (hs : watchStep w c = some w') : BackoffInv w' := by
  have hnow : w.clock ≤ (c.input w).now := Nat.le_add_right _ _
  have hlater : (c.input w).now ≤ (c.input w).later := Nat.le_add_right _ _
  unfold watchStep at hs
  obtain ⟨server, hserver, rfl⟩ := Option.map_eq_some_iff.mp hs
  cases hearly : returnsEarly (c.input w) w.server with
  | true => exact h.early hnow (handleStep_ok hserver) hearly
  | false => exact h.pass hnow hlater (handleStep_ok hserver) hearly

/-- In every run, `handleFTP` returns at its first check only before a deadline
that was set and not passed, if and only if every call comes before the latest
deadline or within half a turn of the clock after it. -/
theorem backoffOk_along_iff (uname pword : List UInt8) (boot : Nat) (calls : List Call) :
    Along watchStep backoffOk (watchStart uname pword boot) calls ↔
      Along watchStep inFirstHalf (watchStart uname pword boot) calls :=
  along_iff BackoffInv (fun _ c h => h.ok_iff c) (fun _ _ _ h _ hs => h.step hs)
    (backoff_start uname pword boot) calls

def lateCall : Call := ⟨0x80000001, 0, calm⟩

/-- A call at the start passes; the next one, more than half a turn of the clock
later, does not, though no deadline was ever set. -/
theorem backoff_without_deadline :
    ¬ ∀ (uname pword : List UInt8) (boot : Nat) (calls : List Call),
      Along watchStep backoffOk (watchStart uname pword boot) calls := by
  intro hall
  have hrun : (runScript watchStep (fun _ _ => true) (watchStart [] [] 0) [⟨0, 0, calm⟩]).map
      (fun w => returnsEarly (lateCall.input w) w.server && w.passed) = some true := by
    decide +kernel
  obtain ⟨w, hw, hstuck⟩ := Option.map_eq_some_iff.mp hrun
  simp only [Bool.and_eq_true] at hstuck
  have hcalls := hall [] [] 0 ([⟨0, 0, calm⟩] ++ [lateCall])
  have hok : backoffOk w lateCall := Along.at_script hcalls hw
  have hpassed := (hok hstuck.1).2
  rw [hstuck.2] at hpassed
  cases hpassed

end Esp32Project.Ftp
