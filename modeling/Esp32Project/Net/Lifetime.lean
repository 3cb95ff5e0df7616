import Esp32Project.Lib.Reach
import Esp32Project.Net.Anchors

/-!
The lifetime of a socket. Three places drop `self_ref`. As long as they do so
only for sockets that no queued event names, whatever is under way for a socket
finds it anchored.
-/

set_option autoImplicit false

namespace Esp32Project.Net
open Esp32Project.Lib

/-- A queued event or a lookup under way names the socket. -/
def Named (s : System) (ud : Ud) : Prop :=
  (∃ e ∈ s.medium ++ s.high, e.ud = some ud) ∨ ∃ l ∈ s.lookups, l.arg = .sock ud

def Anchored (s : System) : Prop :=
  ∀ ud, Named s ud → ∃ u, s.socks.uds ud = some u ∧ u.selfRef = true

/-- The socket whose anchor the end of the event's handler drops. -/
def endDrops (s : System) : Event → Option Ud
  | .dnsFound ud _ _ =>
    if ∃ u ∈ s.socks.uds ud, u.pcb = none ∧ u.waitDns = 1 then some ud else none
  | .err ud _ => if ∃ u ∈ s.socks.uds ud, u.waitDns = 0 then some ud else none
  | _ => none

def drops (s : System) : Label → Option Ud
  | .api ud (.close _) =>
    if ∃ u ∈ s.socks.uds ud, u.pcb ≠ none ∧ (u.type = .tcpServer ∨ u.waitDns = 0) then some ud
    else none
  | .handle _ =>
    (nextEvent s).bind fun (e, t) => if (suspending t e).isSome then none else endDrops t e
  | .resume _ => s.frame.bind (endDrops s)
  | _ => none

/-- The events that stay queued in a step that handles one or none. -/
def staying (s : System) : Label → List Event
  | .handle _ => ((nextEvent s).map fun (_, t) => t.medium ++ t.high).getD []
  | _ => s.medium ++ s.high

/-- No event that stays queued names the socket whose anchor is dropped. -/
def keepsAnchor (s : System) (a : Label) : Prop :=
  ∀ ud ∈ drops s a, ∀ e ∈ staying s a, e.ud ≠ some ud

instance (s : System) (a : Label) : Decidable (keepsAnchor s a) := by
  unfold keepsAnchor
  infer_instance

section

variable {s t : System} {ud : Ud} {u : Userdata} {e : Event}

theorem view_unqueued (hq : ∀ e ∈ s.medium ++ s.high, e.ud ≠ some ud) :
    (view s ud).medium = [] ∧ (view s ud).high = [] := by
  simp only [List.mem_append] at hq
  exact ⟨List.filter_eq_nil_iff.mpr fun e he => by simpa using hq e (.inl he),
    List.filter_eq_nil_iff.mpr fun e he => by simpa using hq e (.inr he)⟩

theorem netClose_inv (h : Inv s) (hu : s.socks.uds ud = some u) (closed : Bool)
    (hk : keepsAnchor s (.api ud (.close closed))) :
    Inv { s with socks := netClose s.socks ud u closed } := by
  have hok := h.ok hu
  obtain ⟨u', hx, hu'⟩ := netClose_sets hu closed
  refine h.update hu hx (fun _ _ => rfl) ?_
  rw [view_socks, hu']
  split
  · exact hok
  rename_i hp
  split
  · rename_i hd
    have hw : u.waitDns = 0 := hd.elim hok.server id
    have hdrops : drops s (.api ud (.close closed)) = some ud := by
      simp [drops, hu, hp, hw]
    obtain ⟨hm, hh⟩ := view_unqueued (hk ud hdrops)
    exact hok.drop (hok.idle hw hm hh (hok.frame_none hp hw)) rfl rfl rfl
  · exact hok.mild ⟨rfl, rfl, id, fun hn => absurd rfl hn⟩

theorem apiCall_inv (h : Inv s) (hu : s.socks.uds ud = some u) (c : ApiCall)
    (hk : keepsAnchor s (.api ud c)) : Inv (apiCall s ud u c) := by
  cases c with
  | listen addr fn b =>
    obtain ⟨u', hx, hm⟩ := netListen_gentle hu addr fn b
    exact h.mild hu hx hm.toMild rfl
  | connect port domain a => exact netConnect_inv h hu port domain a
  | on name arg =>
    obtain ⟨u', hx, hm⟩ := netOn_gentle hu name arg
    exact h.mild hu hx hm.toMild rfl
  | send port addr data fn a =>
    obtain ⟨ht, u', hx, hm⟩ := netSend_gentle hu port addr data fn a
    exact h.mild hu hx hm.toMild (view_congr ht.lookups ht.medium ht.high ht.frame)
  | hold hold =>
    obtain ⟨u', hx, hm⟩ := netHold_gentle hu hold
    exact h.mild hu hx hm.toMild rfl
  | dns domain fn a => exact netDns_inv h hu domain fn a
  | close closed => exact netClose_inv h hu closed hk

theorem Inv.local_of {v : View} (h : Inv s) (hv : view s ud ≠ .idle)
    (hok : ∀ u, Ok u (view s ud) → Ok u v) : Local (s.socks.uds ud) v := by
  obtain ⟨u, hu, -⟩ := h.present hv
  rw [hu]
  exact hok u (h.ok hu)

theorem nextEvent_inv (h : Inv s) (hf : s.frame = none) (hn : nextEvent s = some (e, t))
    {frame : Option Event} (hframe : frame = none ∨ frame = some e ∧ (e.isDns ∨ e.isErr)) :
    Inv { t with frame } := by
  have hframe' : ∀ d, e.ud = some d → frame.filter (Event.names d) = frame := by
    rintro d hd
    rcases hframe with rfl | ⟨rfl, -⟩
    · rfl
    · simp [Option.filter, Event.names, hd]
  have hother : ∀ d, e.ud ≠ some d → frame.filter (Event.names d) = none := by
    rintro d hd
    rcases hframe with rfl | ⟨rfl, -⟩
    · rfl
    · simp [Option.filter, Event.names, hd]
  rcases nextEvent_cases hn with ⟨es, hq, rfl⟩ | ⟨hh, es, hq, rfl⟩
  · refine ⟨fun d => ?_, h.fresh⟩
    by_cases hd : e.ud = some d
    · have hv : (view s d).high = e :: es.filter (Event.names d) := by simp [view, hq, hd]
      have hnone : frame = none := by
        rcases hframe with rfl | ⟨rfl, hkind⟩
        · rfl
        · have hbusy : view s d ≠ .idle := fun hi => by simp [hi, View.idle] at hv
          obtain ⟨u, hu, -⟩ := h.present hbusy
          have := (h.ok hu).high e (by simp [hv])
          simp [this] at hkind
      have hview : view { s with high := es, frame := frame } d =
          { view s d with high := es.filter (Event.names d) } := by
        simp [view, hnone, hf]
      rw [hview]
      exact h.local_of (fun hi => by simp [hi, View.idle] at hv) fun u hok => hok.popHigh hv
    · have hview : view { s with high := es, frame := frame } d = view s d := by
        simp [view, hq, hd, hf, hother d hd, Event.names]
      rw [hview]
      exact h.each d
  · refine ⟨fun d => ?_, h.fresh⟩
    by_cases hd : e.ud = some d
    · have hv : (view s d).medium = e :: es.filter (Event.names d) := by simp [view, hq, hd]
      have hview : view { s with medium := es, frame := frame } d =
          { view s d with medium := es.filter (Event.names d), frame := frame } := by
        simp [view, hframe' d hd]
      rw [hview]
      exact h.local_of (fun hi => by simp [hi, View.idle] at hv) fun u hok =>
        hok.popMedium hv (by simp [view, hf]) hframe
    · have hview : view { s with medium := es, frame := frame } d = view s d := by
        simp [view, hq, hd, hf, hother d hd, Event.names]
      rw [hview]
      exact h.each d

end

section

variable {s t : System} {ud : Ud} {u : Userdata} {e : Event}

theorem Inv.leave {u' : Userdata} (h : Inv s) (hf : s.frame = some e) (he : e.ud = some ud)
    (hu : s.socks.uds ud = some u) (hs : Sets s.socks t.socks ud u')
    (hview : view t = view { s with frame := none })
    (hok : Ok u' { view s ud with frame := none }) : Inv t := by
  refine h.update hu hs (fun d hd => ?_) ?_
  · have hne : e.ud ≠ some d := fun h' => hd (Option.some.inj (h'.symm.trans he))
    have hnone : s.frame.filter (Event.names d) = none := by
      simp [hf, Option.filter, Event.names, hne]
    rw [hview]
    simp [view, hnone]
  · rw [hview]
    exact hok

theorem framed (hf : s.frame = some e) (he : e.ud = some ud) : (view s ud).frame = some e := by
  simp [view, hf, Option.filter, Event.names, he]

theorem ldnsfoundEnd_inv {addr : Addr} {origin : Option PcbId} {connected : Bool} (h : Inv s)
    (hf : s.frame = some (.dnsFound ud addr origin)) (hu : s.socks.uds ud = some u)
    (hk : ∀ d ∈ endDrops s (.dnsFound ud addr origin), ∀ e ∈ s.medium ++ s.high, e.ud ≠ some d)
    (hs : ldnsfoundEnd { s with frame := none } ud u addr origin connected = some t) : Inv t := by
  have hend := (h.ok hu).endDns (framed hf rfl) rfl rfl
  unfold ldnsfoundEnd at hs
  dsimp only at hs
  split at hs
  · split at hs
    · obtain ⟨b, -, rfl⟩ := Option.map_eq_some_iff.mp hs
      split
      · exact h.leave hf rfl hu ⟨rfl, rfl, Nat.le_refl _⟩ rfl hend
      · exact h.leave hf rfl hu ⟨rfl, rfl, Nat.le_refl _⟩ rfl hend
    · cases hs
      exact h.leave hf rfl hu ⟨rfl, rfl, Nat.le_refl _⟩ rfl hend
  · rename_i hp
    split at hs
    · rename_i hw
      cases hs
      have hdrops : endDrops s (.dnsFound ud addr origin) = some ud := by
        simp [endDrops, hu, hp]
        omega
      obtain ⟨hm, hh⟩ := view_unqueued (hk ud hdrops)
      exact h.leave hf rfl hu ⟨rfl, rfl, Nat.le_refl _⟩ rfl
        (hend.drop (hend.idle hw hm hh rfl) rfl rfl hp)
    · cases hs
      exact h.leave hf rfl hu ⟨rfl, rfl, Nat.le_refl _⟩ rfl hend

theorem lerrEnd_inv {err : Err} (h : Inv s) (hf : s.frame = some (.err ud err))
    (hu : s.socks.uds ud = some u)
    (hk : ∀ d ∈ endDrops s (.err ud err), ∀ e ∈ s.medium ++ s.high, e.ud ≠ some d) :
    Inv (lerrEnd { s with frame := none } ud u) := by
  have hok := h.ok hu
  have hend := hok.endErr (framed hf rfl) rfl
  unfold lerrEnd
  split
  · rename_i hw
    have hdrops : endDrops s (.err ud err) = some ud := by simp [endDrops, hu, hw]
    obtain ⟨hm, hh⟩ := view_unqueued (hk ud hdrops)
    have hp : u.pcb = none := by
      by_contra hp
      have := hok.inErr hp _ (framed hf rfl) rfl
      omega
    exact h.leave hf rfl hu ⟨rfl, rfl, Nat.le_refl _⟩ rfl
      (hend.drop (hend.idle hw hm hh rfl) rfl rfl hp)
  · exact h.leave hf rfl hu (sets_self hu) rfl hend

theorem handlerEnd_inv {connected : Bool} (h : Inv s) (hf : s.frame = some e)
    (hk : ∀ d ∈ endDrops s e, ∀ e ∈ s.medium ++ s.high, e.ud ≠ some d)
    (hs : handlerEnd { s with frame := none } connected e = some t) : Inv t := by
  unfold handlerEnd at hs
  split at hs
  · obtain ⟨u, hu, hs⟩ := Option.bind_eq_some_iff.mp hs
    exact ldnsfoundEnd_inv h hf hu hk hs
  · obtain ⟨u, hu, rfl⟩ := Option.map_eq_some_iff.mp hs
    exact lerrEnd_inv h hf hu hk
  · cases hs

theorem lacceptCb_inv {newpcb : PcbId} (h : Inv s) (hs : lacceptCb s ud u newpcb = some t) :
    Inv t := by
  unfold lacceptCb at hs
  split at hs
  · obtain ⟨n, hn, rfl⟩ := Option.map_eq_some_iff.mp hs
    have h' := netCreate_inv h .tcpClient none
    have hidle : view s s.socks.nextUd = .idle := by
      have := h.each s.socks.nextUd
      rwa [h.fresh _ le_rfl] at this
    have hw : n.waitDns = 0 := by
      simp only [netCreate, Sockets.setUd, Function.update_self, Option.some.injEq] at hn
      rw [← hn]
    refine h'.update hn ⟨rfl, rfl, Nat.le_refl _⟩ (fun _ _ => rfl) ?_
    change Ok _ (view s s.socks.nextUd)
    rw [hidle]
    exact Ok.start (fun _ => rfl) hw
  · cases hs

theorem handleNetEvent_inv {connected : Bool} (h : Inv s) (hf : s.frame = none)
    (hn : nextEvent s = some (e, t)) {s' : System}
    (hk : suspending t e = none →
      ∀ d ∈ endDrops t e, ∀ e ∈ t.medium ++ t.high, e.ud ≠ some d)
    (hs : handleNetEvent t connected e = some s') : Inv s' := by
  have hframe : t.frame = none := by
    rcases nextEvent_cases hn with ⟨es, -, rfl⟩ | ⟨-, es, -, rfl⟩ <;> exact hf
  have hself : { t with frame := none } = t := by rw [← hframe]
  have hpop : Inv t := hself ▸ nextEvent_inv h hf hn (.inl rfl)
  -- handled at once, it is as if the handler were suspended and then resumed
  have hsusp : e.isDns ∨ e.isErr → StopsOrEnds t connected e s' → Inv s' := by
    intro hkind hs
    have hheld := nextEvent_inv h hf hn (.inr ⟨rfl, hkind⟩)
    rcases hs with ⟨c, -, rfl⟩ | ⟨hnone, hend⟩
    · exact hheld.congr rfl rfl rfl
    · refine handlerEnd_inv hheld rfl ?_ (hself.symm ▸ hend)
      exact hk hnone
  cases e with
  | dnsFound ud addr origin => exact hsusp (.inl rfl) (handleNetEvent_dnsFound hs)
  | err ud err => exact hsusp (.inr rfl) (handleNetEvent_err hs)
  | dnsStatic record cb addr =>
    cases hs
    exact hpop.congr rfl rfl rfl
  | connected ud =>
    obtain ⟨u, -, rfl⟩ := Option.map_eq_some_iff.mp hs
    exact hpop.congr (by simp) (by simp) (view_callAny _)
  | accept ud newpcb =>
    obtain ⟨u, -, hs⟩ := Option.bind_eq_some_iff.mp hs
    exact lacceptCb_inv hpop hs
  | recvData ud payload src =>
    obtain ⟨u, -, rfl⟩ := Option.map_eq_some_iff.mp hs
    split <;> exact hpop.congr rfl rfl rfl
  | sentData ud newpcb =>
    obtain ⟨u, -, rfl⟩ := Option.map_eq_some_iff.mp hs
    exact hpop.congr (by simp) (by simp) (view_callAny _)

end

theorem inv_init : Inv .init := ⟨fun _ => rfl, fun _ _ => rfl⟩

theorem inv_step {s s' : System} {a : Label} (h : Inv s) (hk : keepsAnchor s a)
    (hs : step s a = some s') : Inv s' := by
  cases a with
  | createUDPSocket =>
    cases hs
    exact netCreateUDPSocket_inv h
  | createServer type junk =>
    cases hs
    exact netCreateServer_inv h type junk
  | createConnection type secure =>
    cases hs
    exact netCreateConnection_inv h type secure
  | api ud c =>
    obtain ⟨u, hu, rfl⟩ := Option.map_eq_some_iff.mp hs
    exact apiCall_inv h hu c hk
  | resolve domain fn alloc a =>
    cases hs
    exact netDnsStatic_inv h domain fn alloc a
  | gc ud =>
    obtain ⟨u, hu, hs⟩ := Option.bind_eq_some_iff.mp hs
    split at hs
    · cases hs
    · rename_i hr
      cases hs
      exact netDelete_inv h hu (by simpa using hr)
  | lwip p c =>
    obtain ⟨b, -, hs⟩ := Option.bind_eq_some_iff.mp hs
    split at hs
    · split at hs
      · cases hs
        exact h
      · obtain ⟨u, hu, rfl⟩ := Option.map_eq_some_iff.mp hs
        exact callback_inv h hu p c
    · cases hs
  | dnsDone i ipaddr posted =>
    obtain ⟨l, hl, rfl⟩ := Option.map_eq_some_iff.mp hs
    exact dnsDone_inv h hl ipaddr posted
  | handle connected =>
    simp only [step] at hs
    split at hs
    · rename_i hf
      obtain ⟨⟨e, t⟩, hn, hs⟩ := Option.bind_eq_some_iff.mp hs
      refine handleNetEvent_inv h hf hn (fun hnone ud hd => ?_) hs
      have := hk ud (by simpa [drops, hn, hnone] using hd)
      simpa [staying, hn] using this
    · cases hs
  | resume connected =>
    obtain ⟨e, hf, hs⟩ := Option.bind_eq_some_iff.mp hs
    exact handlerEnd_inv h hf (fun ud hd => hk ud (by simpa [drops, hf] using hd)) hs

theorem Inv.anchored_all {s : System} (h : Inv s) : Anchored s := by
  intro ud hn
  refine h.present fun hv => ?_
  rw [View.idle, view, View.mk.injEq] at hv
  obtain ⟨hl, hm, hh, -⟩ := hv
  rcases hn with ⟨e, he, hud⟩ | ⟨l, hl', harg⟩
  · rcases List.mem_append.mp he with he | he
    · exact List.filter_eq_nil_iff.mp hm e he (by simpa using hud)
    · exact List.filter_eq_nil_iff.mp hh e he (by simpa using hud)
  · exact List.countP_eq_zero.mp hl l hl' (by simpa [Lookup.names] using harg)

/-- The socket is there and not anchored, with the events still queued. -/
def Unanchored (s : System) (ud : Ud) (queued : List Event) : Prop :=
  (∃ u, s.socks.uds ud = some u ∧ u.selfRef = false) ∧ s.medium ++ s.high = queued

theorem Unanchored.breaks {s : System} {ud : Ud} {es : List Event} {e : Event}
    (h : Unanchored s ud es) (he : e ∈ es) (hud : e.ud = some ud) : ¬ Anchored s := by
  intro ha
  obtain ⟨⟨u, hu, hr⟩, rfl⟩ := h
  obtain ⟨v, hv, hr'⟩ := ha ud (.inl ⟨e, he, hud⟩)
  obtain rfl : u = v := Option.some.inj (hu.symm.trans hv)
  simp [hr] at hr'

theorem netClose_drops {s : System} {ud d : Ud} {u : Userdata} {closed : Bool}
    (hu : s.socks.uds ud = some u) (hd : drops s (.api ud (.close closed)) = some d) :
    Unanchored { s with socks := netClose s.socks ud u closed } d (s.medium ++ s.high) := by
  obtain ⟨u', hx, hu'⟩ := netClose_sets hu closed
  simp only [drops, hu, Option.mem_some_iff, exists_eq_left'] at hd
  split at hd
  · rename_i hc
    obtain rfl := Option.some.inj hd
    refine ⟨⟨u', by simp [hx.uds], ?_⟩, rfl⟩
    rw [hu', if_neg hc.1, if_pos hc.2]
  · cases hd

theorem handlerEnd_drops {s t : System} {d : Ud} {e : Event} {connected : Bool}
    (hd : endDrops s e = some d) (hs : handlerEnd s connected e = some t) :
    Unanchored t d (s.medium ++ s.high) := by
  cases e with
  | dnsFound ud addr origin =>
    obtain ⟨u, hu, hs⟩ := Option.bind_eq_some_iff.mp hs
    simp only [endDrops, hu, Option.mem_some_iff, exists_eq_left'] at hd
    split at hd
    · rename_i hc
      obtain rfl := Option.some.inj hd
      have hw : u.waitDns - 1 = 0 := by omega
      simp only [ldnsfoundEnd, hc.1, hw, if_true] at hs
      cases hs
      exact ⟨⟨_, Function.update_self .., rfl⟩, rfl⟩
    · cases hd
  | err ud err =>
    obtain ⟨u, hu, rfl⟩ := Option.map_eq_some_iff.mp hs
    simp only [endDrops, hu, Option.mem_some_iff, exists_eq_left'] at hd
    split at hd
    · rename_i hw
      obtain rfl := Option.some.inj hd
      rw [lerrEnd, if_pos hw]
      exact ⟨⟨_, Function.update_self .., rfl⟩, rfl⟩
    · cases hd
  | _ => cases hd

/-- A step that drops the anchor of a socket still named breaks the rule. -/
theorem drop_breaks {s s' : System} {a : Label} (hk : ¬ keepsAnchor s a)
    (hs : step s a = some s') : ¬ Anchored s' := by
  simp only [keepsAnchor, ne_eq, not_forall, not_not] at hk
  obtain ⟨d, hd, e, he, hud⟩ := hk
  suffices h : Unanchored s' d (staying s a) from h.breaks he hud
  cases a with
  | api ud c =>
    obtain ⟨u, hu, rfl⟩ := Option.map_eq_some_iff.mp hs
    cases c with
    | close closed => exact netClose_drops hu hd
    | _ => cases hd
  | handle connected =>
    simp only [step] at hs
    split at hs
    · obtain ⟨⟨e', t⟩, hn, hs⟩ := Option.bind_eq_some_iff.mp hs
      simp only [drops, hn, Option.bind_some, Option.mem_def] at hd
      split at hd
      · cases hd
      · rename_i hsusp
        have hnone : suspending t e' = none := by simpa using hsusp
        have hend : handlerEnd t connected e' = some s' := by
          cases e' <;> first
            | cases hd
            | simpa [handleNetEvent, hnone] using hs
        simpa [staying, hn] using handlerEnd_drops hd hend
    · cases hs
  | resume connected =>
    obtain ⟨e', hf, hs⟩ := Option.bind_eq_some_iff.mp hs
    simp only [drops, hf, Option.bind_some] at hd
    exact handlerEnd_drops (s := { s with frame := none }) hd hs
  | _ => cases hd

/-- Along every run whose steps keep the anchors of named sockets, the sockets
named are anchored, and a step leaves them so exactly when it keeps them. -/
theorem anchored_of_keepsAnchor (s : System) (h : Reach step keepsAnchor .init s) :
    Anchored s ∧ ∀ a s', step s a = some s' → (Anchored s' ↔ keepsAnchor s a) := by
  have hi : Inv s := h.invariant Inv inv_init fun _ _ _ => inv_step
  refine ⟨hi.anchored_all, fun a s' hs =>
    ⟨fun ha => ?_, fun hk => (inv_step hi hk hs).anchored_all⟩⟩
  by_contra hk
  exact drop_breaks hk hs ha

def connection : List Label :=
  [.createConnection none none,
    .api 0 (.connect 80 (some "host") ⟨true, .inProgress, 0, true⟩),
    .dnsDone 0 (some 7) true, .handle true,
    .lwip 0 (.connected .ok true)]

theorem anchored_of_keepsAnchor_connection :
    ∃ s, runScript step (fun s a => decide (keepsAnchor s a)) .init
        (connection ++ [.handle true, .lwip 0 (.err .rst true), .handle true, .gc 0]) = some s ∧
      Anchored s := by
  obtain ⟨s, hs⟩ : ∃ s, runScript step (fun s a => decide (keepsAnchor s a)) .init
      (connection ++ [.handle true, .lwip 0 (.err .rst true), .handle true, .gc 0]) = some s :=
    Option.isSome_iff_exists.mp (by decide +kernel)
  exact ⟨s, hs, (anchored_of_keepsAnchor s
    (reach_of_script (fun _ _ => of_decide_eq_true) hs)).1⟩

/-- The socket is closed with its CONNECTED event still queued, and collected. -/
theorem close_drops_queued :
    ∃ s t, Reach step (fun _ _ => True) .init s ∧ ¬ Anchored s ∧ step s (.gc 0) = some t ∧
      t.medium = [.connected 0] ∧ t.socks.uds 0 = none := by
  have hrun : ((runScript step (fun _ _ => true) .init (connection ++ [.api 0 (.close true)])).bind
      fun s => (step s (.gc 0)).map fun t =>
        (s.medium, (s.socks.uds 0).map Userdata.selfRef, t.medium, t.socks.uds 0)) =
      some ([.connected 0], some false, [.connected 0], none) := by decide +kernel
  obtain ⟨s, hs, hv⟩ := Option.bind_eq_some_iff.mp hrun
  obtain ⟨t, ht, hv⟩ := Option.map_eq_some_iff.mp hv
  simp only [Prod.mk.injEq, Option.map_eq_some_iff] at hv
  obtain ⟨hm, ⟨u, hu, hr⟩, hm', hgone⟩ := hv
  refine ⟨s, t, reach_of_script (fun _ _ _ => trivial) hs, ?_, ht, hm', hgone⟩
  exact Unanchored.breaks (e := .connected 0) ⟨⟨u, hu, hr⟩, rfl⟩ (by simp [hm]) rfl

end Esp32Project.Net