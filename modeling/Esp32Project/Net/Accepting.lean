import Esp32Project.Lib.Reach
import Esp32Project.Net.Stable

/-!
Accepted connections. `post_net_accept` tags its event SENTDATA, so that
`lsent_cb` gets it and no listen callback hears of the connection.
-/

set_option autoImplicit false

namespace Esp32Project.Net
open Esp32Project.Lib

def Drained (s : System) : Prop := s.medium = [] ∧ s.high = [] ∧ s.frame = none

instance (s : System) : Decidable (Drained s) := by
  unfold Drained
  infer_instance

/-- The Lua calls for the server with the socket that `laccept_cb` made, anchored
and bound to the control block. -/
def listenCalls (s : System) (a : Accepted) : List LuaCall :=
  s.log.calls.filter fun c => s.log.bound.any fun b =>
    b.2 = a.newpcb ∧ c.ud = some a.server ∧ c.args = [.sock b.1]

/-- Once everything is handled, each accepted connection has led to one call of
the listen callback. -/
def AcceptOk (s : System) : Prop :=
  Drained s → ∀ a ∈ s.log.accepted, (listenCalls s a).length = 1

/-- No event has the tag ACCEPT, and no connection got a socket. -/
structure Unserved (s : System) : Prop where
  medium : ∀ e ∈ s.medium, ∀ ud newpcb, e ≠ .accept ud newpcb
  high : ∀ e ∈ s.high, ∀ ud newpcb, e ≠ .accept ud newpcb
  bound : s.log.bound = []

theorem Unserved.postMedium {s : System} (h : Unserved s) {e : Event}
    (he : ∀ ud newpcb, e ≠ .accept ud newpcb) (posted : Bool) :
    Unserved (s.postMedium e posted) := by
  cases posted with
  | false => exact h
  | true =>
    refine ⟨fun d hd => ?_, h.high, h.bound⟩
    rcases List.mem_append.mp hd with hd | hd
    · exact h.medium d hd
    · rwa [List.mem_singleton.mp hd]

theorem Unserved.postHigh {s : System} (h : Unserved s) {e : Event}
    (he : ∀ ud newpcb, e ≠ .accept ud newpcb) (posted : Bool) :
    Unserved (s.postHigh e posted) := by
  cases posted with
  | false => exact h
  | true =>
    refine ⟨h.medium, fun d hd => ?_, h.bound⟩
    rcases List.mem_append.mp hd with hd | hd
    · exact h.high d hd
    · rwa [List.mem_singleton.mp hd]

theorem Unserved.netDnsCb {s : System} (h : Unserved s) (ud : Ud) (origin : Option PcbId)
    (a : Option Addr) (posted : Bool) : Unserved (netDnsCb s ud origin a posted) := by
  have h' : Unserved { s with log.answers := s.log.answers ++ [(origin, a.getD ipAddrAny)] } :=
    ⟨h.medium, h.high, h.bound⟩
  exact h'.postMedium (by simp) posted

theorem unserved_stable : Stable Unserved where
  socks _ h := ⟨h.medium, h.high, h.bound⟩
  post he h := h.postMedium (by rintro ud newpcb rfl; cases he) true
  call _ h := ⟨h.medium, h.high, h.bound⟩
  record h := ⟨h.medium, h.high, h.bound⟩
  lookup _ h := ⟨h.medium, h.high, h.bound⟩
  answer _ h := Unserved.netDnsCb (by exact ⟨h.medium, h.high, h.bound⟩) _ _ _ _
  done _ h := Unserved.netDnsCb (by exact ⟨h.medium, h.high, h.bound⟩) _ _ _ _
  forget h := ⟨h.medium, h.high, h.bound⟩
  tcpData {s ud u p posted} _ _ h := by
    have h' : Unserved { s with nextPbuf := s.nextPbuf + 1 } := ⟨h.medium, h.high, h.bound⟩
    have h'' := h'.postHigh (e := .recvData ud p.first none) (by simp) posted
    unfold tcpRecvData
    dsimp only
    split <;> exact ⟨h''.medium, h''.high, h''.bound⟩
  udpData {s ud u p addr port posted} _ h := by
    have h' : Unserved { s with nextPbuf := s.nextPbuf + 1 } := ⟨h.medium, h.high, h.bound⟩
    unfold netUdpRecvCb
    dsimp only
    split
    · exact ⟨h.medium, h.high, h.bound⟩
    · exact h'.postHigh (by simp) posted
  accept h := ⟨h.medium, h.high, h.bound⟩

theorem unserved_handlerEnd {s t : System} {e : Event} {connected : Bool} (h : Unserved s)
    (hs : handlerEnd s connected e = some t) : Unserved t := by
  obtain ⟨x, -, rfl⟩ := handlerEnd_connects hs
  exact ⟨h.medium, h.high, h.bound⟩

theorem nextEvent_mem {s t : System} {e : Event} (hn : nextEvent s = some (e, t)) :
    (e ∈ s.medium ∨ e ∈ s.high) ∧ (∀ d ∈ t.medium, d ∈ s.medium) ∧ ∀ d ∈ t.high, d ∈ s.high := by
  rcases nextEvent_cases hn with ⟨es, hq, rfl⟩ | ⟨hh, es, hq, rfl⟩
  · exact ⟨.inr (by simp [hq]), fun _ => id, fun d hd => by simp [hq, show d ∈ es from hd]⟩
  · exact ⟨.inl (by simp [hq]), fun d hd => by simp [hq, show d ∈ es from hd], fun _ => id⟩

theorem unserved_step {s t : System} {a : Label} (h : Unserved s) (hs : step s a = some t) :
    Unserved t := by
  refine unserved_stable.step h hs (fun c ha => ?_) (fun c ha => ?_)
  · subst ha
    simp only [step] at hs
    split at hs
    · obtain ⟨⟨e, r⟩, hn, hs⟩ := Option.bind_eq_some_iff.mp hs
      obtain ⟨hmem, hm, hh⟩ := nextEvent_mem hn
      have hb : r.log = s.log := by
        rcases nextEvent_cases hn with ⟨es, -, rfl⟩ | ⟨-, es, -, rfl⟩ <;> rfl
      have hr : Unserved r :=
        ⟨fun d hd => h.medium d (hm d hd), fun d hd => h.high d (hh d hd), by rw [hb, h.bound]⟩
      refine unserved_stable.handled hr hs ?_ ?_ ?_ (fun _ => unserved_handlerEnd hr)
      · rintro ud payload src rfl
        obtain ⟨u, -, rfl⟩ := Option.map_eq_some_iff.mp hs
        split <;> exact ⟨hr.medium, hr.high, hr.bound⟩
      · rintro ud newpcb rfl
        exact hmem.elim (fun he => absurd rfl (h.medium _ he ud newpcb))
          fun he => absurd rfl (h.high _ he ud newpcb)
      · rintro c - rfl
        exact ⟨hr.medium, hr.high, hr.bound⟩
    · cases hs
  · subst ha
    obtain ⟨e, -, hs⟩ := Option.bind_eq_some_iff.mp hs
    exact unserved_handlerEnd (s := { s with frame := none }) ⟨h.medium, h.high, h.bound⟩ hs

/-- In every run whose events are all handled, the listen callbacks were called
as they should exactly if no connection was accepted. -/
theorem acceptOk_iff (s : System) (h : Reach step (fun _ _ => True) .init s) (hd : Drained s) :
    AcceptOk s ↔ s.log.accepted = [] := by
  have hu : Unserved s := h.invariant Unserved ⟨by simp [System.init], by simp [System.init], rfl⟩
    fun _ _ _ hi _ hs => unserved_step hi hs
  constructor
  · intro hok
    by_contra hne
    obtain ⟨a, ha⟩ := List.exists_mem_of_ne_nil _ hne
    have hone := hok hd a ha
    simp [listenCalls, hu.bound] at hone
  · intro hnone _ a ha
    simp [hnone] at ha

def arrival : List Label :=
  [.createServer none none, .api 0 (.listen (some 0) (some 5) ⟨true, .ok, true⟩),
    .lwip 0 (.accept true), .handle true]

theorem acceptOk_iff_arrival :
    ∃ s, runScript step (fun _ _ => true) .init arrival = some s ∧
      (AcceptOk s ↔ s.log.accepted = []) := by
  have hrun : (runScript step (fun _ _ => true) .init arrival).map
      (fun s => decide (Drained s)) = some true := by decide +kernel
  obtain ⟨s, hs, hd⟩ := Option.map_eq_some_iff.mp hrun
  exact ⟨s, hs, acceptOk_iff s (reach_of_script (fun _ _ _ => trivial) hs)
    (of_decide_eq_true hd)⟩

/-- The connection is accepted, and all there is to handle is handled without a Lua call. -/
theorem accept_never_called :
    ∃ s, Reach step (fun _ _ => True) .init s ∧ Drained s ∧ s.log.accepted = [⟨0, 1⟩] ∧
      s.log.calls = [] ∧ ¬ AcceptOk s := by
  have hrun : (runScript step (fun _ _ => true) .init arrival).map
      (fun s => (decide (Drained s), s.log.accepted, s.log.calls)) =
      some (true, [⟨0, 1⟩], []) := by decide +kernel
  obtain ⟨s, hs, hv⟩ := Option.map_eq_some_iff.mp hrun
  simp only [Prod.mk.injEq, decide_eq_true_eq] at hv
  obtain ⟨hd, ha, hc⟩ := hv
  refine ⟨s, reach_of_script (fun _ _ _ => trivial) hs, hd, ha, hc, fun hok => ?_⟩
  have hone := hok hd ⟨0, 1⟩ (by simp [ha])
  simp [listenCalls, hc] at hone

end Esp32Project.Net
