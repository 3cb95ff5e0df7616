import Esp32Project.Lib.Reach
import Esp32Project.Net.Anchors

/-!
What `wait_dns` is worth. It counts the lookups that still come back as long as
no answer is lost on its way into the event queue, and then a closed socket is
released with the last of them.
-/

set_option autoImplicit false

namespace Esp32Project.Net
open Esp32Project.Lib

/-- A state of a run, with the sockets that `close` closed and that have no
control block since. -/
structure Watched where
  sys : System
  closed : List Ud

def closes (s : System) : Label → Option Ud
  | .api ud (.close _) => if ∃ u ∈ s.socks.uds ud, u.pcb ≠ none then some ud else none
  | _ => none

def unopened (s : System) (ud : Ud) : Bool := (s.socks.uds ud).all fun u => u.pcb = none

def Watched.step (w : Watched) (a : Label) : Option Watched :=
  (Net.step w.sys a).map fun t => ⟨t, ((closes w.sys a).toList ++ w.closed).filter (unopened t)⟩

/-- `net_connect` gets as far as its lookup. -/
def canConnect (u : Userdata) (port : Int) (a : Answer) : Prop :=
  u.type = .tcpClient ∧ u.pcb = none ∧ (port % 65536).toNat ≠ 0 ∧ a.pcb = true

def canAsk (u : Userdata) (fn : Option Fn) : Prop :=
  u.type ≠ .tcpServer ∧ fn.or u.cbDns ≠ none

/-- `net_dns_cb` answers a lookup of a socket, at once or later, and
`post_net_dns` fails. -/
def losesAnswer (s : System) : Label → Prop
  | .api ud (.connect port _ a) =>
    (a.err = .ok ∧ a.posted = false) ∧ ∃ u, s.socks.uds ud = some u ∧ canConnect u port a
  | .api ud (.dns _ fn a) =>
    (a.err = .ok ∧ a.posted = false) ∧ ∃ u, s.socks.uds ud = some u ∧ canAsk u fn
  | .dnsDone i _ posted => posted = false ∧ ∃ l ud, s.lookups[i]? = some l ∧ l.arg = .sock ud
  | _ => False

/-- What `wait_dns` says of a socket. -/
structure Waits (w : Watched) (ud : Ud) (u : Userdata) : Prop where
  counted : u.type ≠ .tcpServer → u.waitDns = (view w.sys ud).answers
  nonneg : u.type ≠ .tcpServer → 0 ≤ u.waitDns
  released : ud ∈ w.closed → (view w.sys ud).answers = 0 → u.selfRef = false

def WaitsAll (w : Watched) : Prop :=
  ∀ ud u, w.sys.socks.uds ud = some u → Waits w ud u

structure Counts (closed : Prop) (u : Userdata) (v : View) : Prop where
  counted : u.waitDns = v.answers
  anchored : u.waitDns ≠ 0 → u.selfRef = true
  server : u.type = .tcpServer → u.waitDns = 0
  released : closed → u.pcb = none ∧ (u.waitDns = 0 → u.selfRef = false)

structure Counted (closed : Ud → Prop) (s : System) : Prop where
  each : ∀ ud u, s.socks.uds ud = some u → Counts (closed ud) u (view s ud)
  gone : ∀ ud, s.socks.uds ud = none → (view s ud).answers = 0
  high : ∀ e ∈ s.high, e.isDns = false
  fresh : ∀ ud, s.socks.nextUd ≤ ud → s.socks.uds ud = none

def Still (closed : Ud → Prop) (s : System) (ud : Ud) : Prop :=
  closed ud ∧ ∀ u, s.socks.uds ud = some u → u.pcb = none

structure SameAnswers (s t : System) : Prop where
  answers : ∀ d, (view t d).answers = (view s d).answers
  high : (∀ e ∈ s.high, e.isDns = false) → ∀ e ∈ t.high, e.isDns = false

namespace Counts

variable {closed closed' : Prop} {u u' : Userdata} {v v' : View}

theorem mono (h : Counts closed u v) (hc : closed' → closed) : Counts closed' u v :=
  { h with released := fun h' => h.released (hc h') }

theorem congr (h : Counts closed u v) (hv : v'.answers = v.answers) : Counts closed u v' :=
  { h with counted := by rw [hv, h.counted] }

theorem gentle (h : Counts closed u v) (hm : Gentle u u') :
    Counts (closed ∧ u'.pcb = none) u' v where
  counted := hm.waitDns.trans h.counted
  anchored hw := hm.selfRef (h.anchored (hm.waitDns ▸ hw))
  server ht := hm.waitDns.trans (h.server (hm.type ▸ ht))
  released hc := by
    refine ⟨hc.2, fun hw => ?_⟩
    by_contra hr
    rcases hm.anchor (Bool.not_eq_false _ ▸ hr) with hr | hp
    · rw [(h.released hc.1).2 (hm.waitDns ▸ hw)] at hr
      cases hr
    · exact hp hc.2

theorem lose (h : Counts closed u v) : Counts closed { u with pcb := none } v :=
  ⟨h.counted, h.anchored, h.server, fun hc => ⟨rfl, (h.released hc).2⟩⟩

theorem wait (h : Counts closed u v) (ht : u'.type = u.type) (hs : u.type ≠ .tcpServer)
    (hw : u'.waitDns = u.waitDns + 1) (hr : u'.selfRef = true)
    (hv : v'.answers = v.answers + 1) : Counts (closed ∧ u'.pcb = none) u' v' := by
  have hcount := h.counted
  refine ⟨by omega, fun _ => hr, fun hs' => absurd (ht ▸ hs') hs, fun hc => ⟨hc.2, ?_⟩⟩
  intro hz
  omega

theorem unwait (h : Counts closed u v) (ht : u'.type = u.type) (hp : u'.pcb = u.pcb)
    (hw : u'.waitDns = u.waitDns - 1) (hv : v.answers = v'.answers + 1)
    (hr : u'.selfRef = if u.pcb = none ∧ u'.waitDns = 0 then false else u.selfRef) :
    Counts closed u' v' := by
  have hcount := h.counted
  refine ⟨by omega, fun hn => ?_, fun hs => ?_, fun hc => ⟨hp ▸ (h.released hc).1, fun hz => ?_⟩⟩
  · rw [hr, if_neg (fun hc => hn hc.2)]
    exact h.anchored (by omega)
  · have := h.server (ht ▸ hs)
    omega
  · rw [hr, if_pos ⟨(h.released hc).1, hz⟩]

theorem drop (h : Counts closed u v) (hw : u.waitDns = 0) :
    Counts closed { u with selfRef := false } v :=
  ⟨h.counted, fun hn => absurd hw hn, h.server, fun hc => ⟨(h.released hc).1, fun _ => rfl⟩⟩

end Counts

section

variable {s t r : System} {e : Event}

theorem SameAnswers.trans (h : SameAnswers s t) (h' : SameAnswers t r) : SameAnswers s r where
  answers d := (h'.answers d).trans (h.answers d)
  high hh := h'.high (h.high hh)

theorem sameAnswers_of_view (hv : view t = view s) (hh : t.high = s.high) : SameAnswers s t where
  answers d := by rw [hv]
  high := by rw [hh]; exact id

theorem SameTraffic.sameAnswers (h : SameTraffic s t) : SameAnswers s t :=
  sameAnswers_of_view (view_congr h.lookups h.medium h.high h.frame) h.high

theorem postMedium_sameAnswers (hd : e.isDns = false) (posted : Bool) :
    SameAnswers s (s.postMedium e posted) where
  answers d := by
    rw [view_postMedium]
    split
    · simp [View.answers, View.inDns, hd]
    · rfl
  high hh := by cases posted <;> exact hh

theorem postHigh_sameAnswers (hd : e.isDns = false) (posted : Bool) :
    SameAnswers s (s.postHigh e posted) where
  answers d := by
    rw [view_postHigh]
    split <;> rfl
  high hh d hm := by
    cases posted with
    | false => exact hh d hm
    | true =>
      rcases List.mem_append.mp hm with hm | hm
      · exact hh d hm
      · rw [List.mem_singleton.mp hm]
        exact hd

end

section

variable {C C' : Ud → Prop} {s t : System} {ud : Ud} {u u' : Userdata} {e : Event}

theorem Counted.mono (h : Counted C s) (hc : ∀ d, C' d → C d) : Counted C' s :=
  { h with each := fun ud u hu => (h.each ud u hu).mono (hc ud) }

theorem Counted.still (h : Counted C s) : Counted (Still C s) s := h.mono fun _ hd => hd.1

theorem Counted.congr (h : Counted C s) (huds : t.socks.uds = s.socks.uds)
    (hnext : t.socks.nextUd = s.socks.nextUd) (hs : SameAnswers s t) : Counted C t where
  each d u hu := (h.each d u (huds ▸ hu)).congr (hs.answers d)
  gone d hu := (hs.answers d).trans (h.gone d (huds ▸ hu))
  high := hs.high h.high
  fresh d hd := by
    rw [huds]
    exact h.fresh d (hnext ▸ hd)

theorem Counted.update (h : Counted C s) (hu : s.socks.uds ud = some u)
    (hs : Sets s.socks t.socks ud u') (hC : ∀ d, d ≠ ud → C' d → C d)
    (hother : ∀ d, d ≠ ud → (view t d).answers = (view s d).answers)
    (hhigh : ∀ e ∈ t.high, e.isDns = false)
    (hl : Counts (C' ud ∧ u'.pcb = none) u' (view t ud)) : Counted (Still C' t) t where
  each d v hv := by
    rw [hs.uds] at hv
    by_cases hd : d = ud
    · subst hd
      rw [Function.update_self] at hv
      obtain rfl := Option.some.inj hv
      exact hl.mono fun hc => ⟨hc.1, hc.2 u' (by rw [hs.uds, Function.update_self])⟩
    · rw [Function.update_of_ne hd] at hv
      exact ((h.each d v hv).congr (hother d hd)).mono fun hc => hC d hd hc.1
  gone d hv := by
    rw [hs.uds] at hv
    by_cases hd : d = ud
    · subst hd
      simp at hv
    · rw [Function.update_of_ne hd] at hv
      exact (hother d hd).trans (h.gone d hv)
  high := hhigh
  fresh d hd := by
    have hne : d ≠ ud := by
      rintro rfl
      rw [h.fresh d (hs.nextUd ▸ hd)] at hu
      cases hu
    rw [hs.uds, Function.update_of_ne hne]
    exact h.fresh d (hs.nextUd ▸ hd)

theorem Counted.turn (h : Counted C s) (hu : s.socks.uds ud = some u)
    (hs : Sets s.socks t.socks ud u') (ha : SameAnswers s t)
    (hl : Counts (C ud ∧ u'.pcb = none) u' (view s ud)) : Counted (Still C t) t :=
  h.update hu hs (fun _ _ => id) (fun d _ => ha.answers d) (ha.high h.high)
    (hl.congr (ha.answers ud))

structure Told (s t : System) (ud : Ud) (u : Userdata) : Prop where
  sets : ∃ u', Sets s.socks t.socks ud u' ∧ (u' = u ∨ u' = { u with pcb := none })
  same : SameAnswers s t

theorem Told.counted (h : Told s t ud u) (hu : s.socks.uds ud = some u) (hc : Counted C s) :
    Counted (Still C t) t := by
  obtain ⟨u', hs, rfl | rfl⟩ := h.sets
  · exact hc.turn hu hs h.same ((hc.each ud _ hu).mono And.left)
  · exact hc.turn hu hs h.same ((hc.each ud _ hu).lose.mono And.left)

end

section

variable {s t : System} {ud : Ud} {u : Userdata}

theorem told_of_view (hu : s.socks.uds ud = some u) (huds : t.socks.uds = s.socks.uds)
    (hnext : t.socks.nextUd = s.socks.nextUd) (hpcb : s.socks.nextPcb ≤ t.socks.nextPcb)
    (h : SameAnswers s t) : Told s t ud u :=
  ⟨⟨u, ⟨huds.trans (sets_self hu).uds, hnext, hpcb⟩, .inl rfl⟩, h⟩

theorem Told.congr {r : System} (h : Told s t ud u) (huds : r.socks.uds = t.socks.uds)
    (hnext : r.socks.nextUd = t.socks.nextUd) (hpcb : t.socks.nextPcb ≤ r.socks.nextPcb)
    (hr : SameAnswers t r) : Told s r ud u := by
  obtain ⟨u', hs, hu'⟩ := h.sets
  exact ⟨⟨u', ⟨huds.trans hs.uds, hnext.trans hs.nextUd, Nat.le_trans hs.nextPcb hpcb⟩, hu'⟩,
    h.same.trans hr⟩

theorem told_refl (hu : s.socks.uds ud = some u) : Told s s ud u :=
  told_of_view hu rfl rfl (Nat.le_refl _) (sameAnswers_of_view rfl rfl)

theorem raise_told (hu : s.socks.uds ud = some u) (text : String) : Told s (s.raise text) ud u :=
  told_of_view hu rfl rfl (Nat.le_refl _) (sameAnswers_of_view rfl rfl)

theorem netErrCb_told (hu : s.socks.uds ud = some u) (err : Err) (posted : Bool) :
    Told s (netErrCb s ud u err posted) ud u := by
  unfold netErrCb
  split
  · exact told_refl hu
  · have hset : SameAnswers s (s.setUd ud { u with pcb := none }) := sameAnswers_of_view rfl rfl
    refine ⟨⟨{ u with pcb := none }, ?_, .inr rfl⟩, hset.trans (postMedium_sameAnswers rfl posted)⟩
    rw [postMedium_socks]
    exact sets_setUd

theorem netConnectedCb_told (hu : s.socks.uds ud = some u) (tpcb : PcbId) (err : Err)
    (posted : Bool) : Told s (netConnectedCb s tpcb ud u err posted) ud u := by
  unfold netConnectedCb
  split
  · exact told_refl hu
  split
  · exact netErrCb_told hu err posted
  · exact told_of_view hu (by simp) (by simp) (by simp) (postMedium_sameAnswers rfl posted)

theorem netUdpRecvCb_told (hu : s.socks.uds ud = some u) (p : Pbuf) (addr : Addr) (port : Nat)
    (posted : Bool) : Told s (netUdpRecvCb s ud u p addr port posted) ud u := by
  have hpbuf : SameAnswers s { s with nextPbuf := s.nextPbuf + 1 } := sameAnswers_of_view rfl rfl
  unfold netUdpRecvCb
  dsimp only
  split
  · exact told_of_view hu rfl rfl (Nat.le_refl _) (sameAnswers_of_view rfl rfl)
  · exact told_of_view hu (by simp) (by simp) (by simp)
      (hpbuf.trans (postHigh_sameAnswers rfl posted))

theorem netTcpRecvCb_told (hu : s.socks.uds ud = some u) (tpcb : PcbId) (p : Option Pbuf)
    (err : Err) (posted : Bool) : Told s (netTcpRecvCb s tpcb ud u p err posted) ud u := by
  unfold netTcpRecvCb
  split
  · exact told_refl hu
  cases p with
  | none =>
    obtain ⟨pcbs, hclose⟩ := tcpClose_same (s := (netErrCb s ud u err posted).socks) tpcb
    dsimp only
    rw [hclose]
    exact (netErrCb_told hu err posted).congr rfl rfl (Nat.le_refl _) (sameAnswers_of_view rfl rfl)
  | some p =>
    have hpbuf : SameAnswers s { s with nextPbuf := s.nextPbuf + 1 } :=
      sameAnswers_of_view rfl rfl
    have hpost := hpbuf.trans (postHigh_sameAnswers (e := .recvData ud p.first none) rfl posted)
    dsimp only [tcpRecvData]
    split
    · exact told_of_view hu (by simp) (by simp) (by simp)
        (hpost.trans (sameAnswers_of_view rfl rfl))
    · exact told_of_view hu (by simp) (by simp) (by simp)
        (hpost.trans (sameAnswers_of_view rfl rfl))

theorem netSentCb_told (hu : s.socks.uds ud = some u) (posted : Bool) :
    Told s (netSentCb s ud u posted) ud u := by
  unfold netSentCb
  split
  · exact told_refl hu
  split
  · exact told_refl hu
  · exact told_of_view hu (by simp) (by simp) (by simp) (postMedium_sameAnswers rfl posted)

theorem netAcceptCb_told (hu : s.socks.uds ud = some u) (posted : Bool) :
    Told s (netAcceptCb s ud u posted) ud u := by
  have h : Told s { s with socks := s.socks.newPcb ⟨.tcp, some ud, false, false, 0⟩ } ud u :=
    told_of_view hu rfl rfl (Nat.le_succ _) (sameAnswers_of_view rfl rfl)
  unfold netAcceptCb
  dsimp only
  split
  · exact h
  split
  · exact h.congr (by simp) (by simp) (by simp)
      ((postMedium_sameAnswers rfl posted).trans (sameAnswers_of_view rfl rfl))
  · exact h

theorem callback_told (hu : s.socks.uds ud = some u) (p : PcbId) (c : Callback) :
    Told s (callback s p ud u c) ud u := by
  cases c with
  | err err posted =>
    exact (netErrCb_told hu err posted).congr rfl rfl (Nat.le_refl _) (sameAnswers_of_view rfl rfl)
  | connected err posted => exact netConnectedCb_told hu p err posted
  | tcpRecv pb err posted => exact netTcpRecvCb_told hu p pb err posted
  | udpRecv pb addr port posted => exact netUdpRecvCb_told hu pb addr port posted
  | sent posted => exact netSentCb_told hu posted
  | accept posted => exact netAcceptCb_told hu posted

end

section

variable {C : Ud → Prop} {s t : System} {ud : Ud} {u u' : Userdata}

theorem netDnsCb_answers (origin : Option PcbId) (ipaddr : Option Addr) (posted : Bool) (d : Ud) :
    (view (netDnsCb s ud origin ipaddr posted) d).answers =
      (view s d).answers + if d = ud ∧ posted = true then 1 else 0 := by
  rw [view_netDnsCb]
  by_cases hd : d = ud
  · cases posted
    · simp [hd]
    · simp [hd, View.answers, View.inDns, Event.isDns]
      omega
  · simp [hd]

theorem netDnsCb_high (origin : Option PcbId) (ipaddr : Option Addr) (posted : Bool) :
    (netDnsCb s ud origin ipaddr posted).high = s.high := by
  cases posted <;> rfl

theorem Counted.lookup (h : Counted C s) (hu : s.socks.uds ud = some u) (n : String)
    (origin : Option PcbId) {x : Sockets} (hx : Sets s.socks x ud u') (ht : u'.type = u.type)
    (hs : u.type ≠ .tcpServer) (hw : u'.waitDns = u.waitDns + 1) (hr : u'.selfRef = true) :
    Counted (Still C ({ s with socks := x }.lookup ⟨n, .sock ud, origin⟩))
        ({ s with socks := x }.lookup ⟨n, .sock ud, origin⟩) ∧
      ∀ ipaddr, Counted (Still C (netDnsCb { s with socks := x } ud origin ipaddr true))
        (netDnsCb { s with socks := x } ud origin ipaddr true) := by
  have hsame : ∀ d, view { s with socks := x } d = view s d := fun _ => rfl
  have hwait : ∀ v : View, v.answers = (view s ud).answers + 1 →
      Counts (C ud ∧ u'.pcb = none) u' v := fun v hv => (h.each ud u hu).wait ht hs hw hr hv
  refine ⟨h.update hu hx (fun _ _ => id) (fun d hd => ?_) h.high (hwait _ ?_),
    fun ipaddr => h.update hu (by simpa using hx) (fun _ _ => id) (fun d hd => ?_) ?_
      (hwait _ ?_)⟩
  · rw [view_lookup, if_neg hd, hsame]
  · rw [view_lookup, if_pos rfl, hsame]
    simp only [View.answers, View.inDns]
    omega
  · rw [netDnsCb_answers, if_neg (fun hc => hd hc.1), hsame, Nat.add_zero]
  · rw [netDnsCb_high]
    exact h.high
  · rw [netDnsCb_answers, if_pos ⟨rfl, rfl⟩, hsame]

theorem abortConnect_same (p : PcbId) (a : Answer) : SameAnswers s (abortConnect s ud u p a) := by
  have hset : SameAnswers s (s.setUd ud u) := sameAnswers_of_view rfl rfl
  have hu : (s.setUd ud u).socks.uds ud = some u := Function.update_self ..
  exact (hset.trans (netErrCb_told hu .abrt a.posted).same).trans (sameAnswers_of_view rfl rfl)

theorem abortConnect_told {s₁ : System} {v : Userdata} (hs : Sets s.socks s₁.socks ud u')
    (hsame : SameAnswers s s₁) (hv : { v with pcb := none } = u) (p : PcbId) (a : Answer) :
    Told s (abortConnect s₁ ud v p a) ud u := by
  have hx := hs.trans (abortConnect_sets (u := v) p a)
  rw [hv] at hx
  exact ⟨⟨u, hx, .inl rfl⟩, hsame.trans (abortConnect_same p a)⟩

theorem netConnect_counted (h : Counted C s) (hu : s.socks.uds ud = some u) (port : Int)
    (domain : Option String) (a : Answer)
    (hk : ¬ losesAnswer s (.api ud (.connect port domain a))) :
    Counted (Still C (netConnect s ud u port domain a)) (netConnect s ud u port domain a) := by
  have hraise : ∀ text, Counted (Still C (s.raise text)) (s.raise text) := fun text =>
    (raise_told hu text).counted hu h
  unfold netConnect
  dsimp only
  split
  · exact hraise _
  split
  · exact hraise _
  split
  · exact hraise _
  split
  · exact hraise _
  rename_i ht hp hport hpcb
  simp only [ne_eq, not_not] at ht hp
  have hx : ∀ b v, Sets s.socks ((s.socks.newPcb b).setUd ud v) ud v :=
    fun _ _ => ⟨rfl, rfl, Nat.le_succ _⟩
  have hwait := fun n origin b => h.lookup hu n origin (hx b { u with
    pcb := some s.socks.nextPcb, waitDns := u.waitDns + 1, selfRef := true })
    rfl (by simp [ht]) rfl rfl
  split
  · rename_i herr
    have hposted : a.posted = true := by
      by_contra hf
      exact hk ⟨⟨herr, by simpa using hf⟩, u, hu, ht, hp, hport, by simpa using hpcb⟩
    rw [hposted]
    exact (hwait "" _ _).2 _
  split
  · refine (abortConnect_told (hx _ _) ?_ ?_ _ a).counted hu h
    · exact sameAnswers_of_view rfl rfl
    · simp [← hp]
  · exact (hwait _ _ _).1

theorem netDns_counted (h : Counted C s) (hu : s.socks.uds ud = some u) (domain : String)
    (fn : Option Fn) (a : Answer) (hk : ¬ losesAnswer s (.api ud (.dns domain fn a))) :
    Counted (Still C (netDns s ud u domain fn a)) (netDns s ud u domain fn a) := by
  unfold netDns
  dsimp only
  split
  · exact (raise_told hu _).counted hu h
  rename_i ht
  split
  · have hm : Gentle u { u with cbDns := fn.or u.cbDns } :=
      ⟨⟨rfl, rfl, id, fun _ => .inl rfl⟩, id, .inl⟩
    exact h.turn hu ⟨rfl, rfl, Nat.le_refl _⟩ (sameAnswers_of_view rfl rfl)
      ((h.each ud u hu).gentle hm)
  rename_i hcb
  have hwait := fun n origin => h.lookup hu n origin (sets_setUd (u := { u with
    cbDns := fn.or u.cbDns, waitDns := u.waitDns + 1, selfRef := true })) rfl ht rfl rfl
  split
  · rename_i herr
    have hposted : a.posted = true := by
      by_contra hf
      exact hk ⟨⟨herr, by simpa using hf⟩, u, hu, ht, hcb⟩
    rw [hposted]
    exact (hwait "" _).2 _
  split
  · have hset : ∀ v v', Sets s.socks ((s.socks.setUd ud v).setUd ud v') ud v' :=
      fun _ _ => sets_setUd.trans sets_setUd
    refine h.turn hu (Sets.checkerr (hset _ _) a.err) (sameAnswers_of_view rfl rfl)
      ((h.each ud u hu).gentle ⟨⟨rfl, by simp, by simp, fun _ => .inl rfl⟩, id, ?_⟩)
    intro hr
    exact .inl (by simpa using hr)
  · exact (hwait _ _).1

theorem netClose_counted (h : Counted C s) (hu : s.socks.uds ud = some u) (closed : Bool) :
    Counted (Still (fun d => closes s (.api ud (.close closed)) = some d ∨ C d)
        { s with socks := netClose s.socks ud u closed })
      { s with socks := netClose s.socks ud u closed } := by
  have hc := h.each ud u hu
  obtain ⟨u', hx, hu'⟩ := netClose_sets hu closed
  refine h.update hu hx (fun d hd hC => ?_) (fun _ _ => rfl) h.high ?_
  · refine hC.resolve_left fun he => hd ?_
    simp only [closes] at he
    split at he
    · exact (Option.some.inj he).symm
    · cases he
  change Counts _ u' (view s ud)
  rw [hu']
  split
  · rename_i hp
    have hnot : closes s (.api ud (.close closed)) = none := by simp [closes, hu, hp]
    rw [hnot]
    exact hc.mono fun hC => hC.1.resolve_left (by simp)
  · split
    · rename_i hw
      have hzero : u.waitDns = 0 := hw.elim hc.server id
      exact ⟨hc.counted, fun hn => absurd hzero hn, hc.server, fun _ => ⟨rfl, fun _ => rfl⟩⟩
    · rename_i hw
      exact ⟨hc.counted, hc.anchored, hc.server,
        fun _ => ⟨rfl, fun hz => absurd (.inr hz) hw⟩⟩

theorem apiCall_counted (h : Counted C s) (hu : s.socks.uds ud = some u) (c : ApiCall)
    (hk : ¬ losesAnswer s (.api ud c)) :
    Counted (Still (fun d => closes s (.api ud c) = some d ∨ C d) (apiCall s ud u c))
      (apiCall s ud u c) := by
  have hstill : ∀ t, Counted (Still C t) t →
      Counted (Still (fun d => (none : Option Ud) = some d ∨ C d) t) t := fun t ht =>
    ht.mono fun d hd => ⟨hd.1.resolve_left (by simp), hd.2⟩
  have hgentle : ∀ {t u'}, Sets s.socks t.socks ud u' → Gentle u u' → SameAnswers s t →
      Counted (Still (fun d => (none : Option Ud) = some d ∨ C d) t) t := fun hx hm hs =>
    hstill _ (h.turn hu hx hs ((h.each ud u hu).gentle hm))
  cases c with
  | close closed => exact netClose_counted h hu closed
  | listen addr fn b =>
    obtain ⟨u', hx, hm⟩ := netListen_gentle hu addr fn b
    exact hgentle (t := { s with socks := _ }) hx hm (sameAnswers_of_view rfl rfl)
  | connect port domain a => exact hstill _ (netConnect_counted h hu port domain a hk)
  | on name arg =>
    obtain ⟨u', hx, hm⟩ := netOn_gentle hu name arg
    exact hgentle (t := { s with socks := _ }) hx hm (sameAnswers_of_view rfl rfl)
  | send port addr data fn a =>
    obtain ⟨ht, u', hx, hm⟩ := netSend_gentle hu port addr data fn a
    exact hgentle hx hm ht.sameAnswers
  | hold hold =>
    obtain ⟨u', hx, hm⟩ := netHold_gentle hu hold
    exact hgentle (t := { s with socks := _ }) hx hm (sameAnswers_of_view rfl rfl)
  | dns domain fn a => exact hstill _ (netDns_counted h hu domain fn a hk)

end

end Esp32Project.Net
