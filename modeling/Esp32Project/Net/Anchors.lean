import Mathlib.Data.List.Perm.Basic
import Esp32Project.Net.Changes
import Esp32Project.Net.View

/-!
The rules of every socket survive the calls of Lua and of lwIP. Events are
posted, and lookups started, only for sockets that are anchored.
-/

set_option autoImplicit false

namespace Esp32Project.Net

section

variable {s t : System} {ud d : Ud} {u u' : Userdata} {e : Event}

@[simp] theorem names_iff : e.names ud = true ↔ e.ud = some ud := by simp [Event.names]

theorem Inv.ok (h : Inv s) (hu : s.socks.uds ud = some u) : Ok u (view s ud) := by
  have hl := h.each ud
  rwa [hu] at hl

theorem Inv.present (h : Inv s) (hv : view s ud ≠ .idle) :
    ∃ u, s.socks.uds ud = some u ∧ u.selfRef = true := by
  have hl := h.each ud
  cases hu : s.socks.uds ud with
  | none =>
    rw [hu] at hl
    exact absurd hl hv
  | some u =>
    rw [hu] at hl
    exact ⟨u, rfl, hl.anchored hv⟩

theorem Inv.congr (h : Inv s) (huds : t.socks.uds = s.socks.uds)
    (hnext : t.socks.nextUd = s.socks.nextUd) (hview : view t = view s) : Inv t where
  each d := by
    rw [huds, hview]
    exact h.each d
  fresh d hd := by
    rw [huds]
    exact h.fresh d (hnext ▸ hd)

theorem Inv.update (h : Inv s) (hu : s.socks.uds ud = some u) (hs : Sets s.socks t.socks ud u')
    (hview : ∀ d, d ≠ ud → view t d = view s d) (hl : Ok u' (view t ud)) : Inv t where
  each d := by
    rw [hs.uds]
    by_cases hd : d = ud
    · subst hd
      simpa [Local] using hl
    · rw [Function.update_of_ne hd, hview d hd]
      exact h.each d
  fresh d hd := by
    have hne : d ≠ ud := by
      rintro rfl
      rw [h.fresh d (hs.nextUd ▸ hd)] at hu
      cases hu
    rw [hs.1, Function.update_of_ne hne]
    exact h.fresh d (hs.nextUd ▸ hd)

theorem view_congr (hl : t.lookups = s.lookups) (hm : t.medium = s.medium)
    (hh : t.high = s.high) (hf : t.frame = s.frame) : view t = view s := by
  funext d
  simp only [view, hl, hm, hh, hf]

theorem view_socks (x : Sockets) : view { s with socks := x } = view s := rfl

theorem view_callAny (c : Option LuaCall) : view (s.callAny c) = view s := by
  cases c <;> rfl

theorem Inv.mild (h : Inv s) (hu : s.socks.uds ud = some u) (hs : Sets s.socks t.socks ud u')
    (hm : Mild u u') (hview : view t = view s) : Inv t := by
  refine h.update hu hs (fun d _ => by rw [hview]) ?_
  rw [hview]
  exact (h.ok hu).mild hm

theorem view_postMedium (posted : Bool) :
    view (s.postMedium e posted) d =
      if posted = true ∧ e.ud = some d then
        { view s d with medium := (view s d).medium ++ [e] }
      else view s d := by
  cases posted
  · simp [System.postMedium]
  · by_cases hd : e.ud = some d <;>
      simp [System.postMedium, view, List.filter_append, hd, Event.names]

theorem view_postHigh (posted : Bool) :
    view (s.postHigh e posted) d =
      if posted = true ∧ e.ud = some d then { view s d with high := (view s d).high ++ [e] }
      else view s d := by
  cases posted
  · simp [System.postHigh]
  · by_cases hd : e.ud = some d <;>
      simp [System.postHigh, view, List.filter_append, hd, Event.names]

theorem Inv.postMedium (h : Inv s) (hu : s.socks.uds ud = some u) (he : e.ud = some ud)
    (posted : Bool) (hok : Ok u { view s ud with medium := (view s ud).medium ++ [e] }) :
    Inv (s.postMedium e posted) := by
  refine h.update hu (by simpa using sets_self hu) (fun d hd => ?_) ?_
  · rw [view_postMedium, if_neg]
    rintro ⟨-, hd'⟩
    exact hd (Option.some.inj (hd'.symm.trans he))
  · rw [view_postMedium]
    split
    · exact hok
    · exact h.ok hu

theorem Inv.postHigh (h : Inv s) (hu : s.socks.uds ud = some u) (he : e.ud = some ud)
    (hr : u.selfRef = true) (hd : e.isDns = false) (herr : e.isErr = false) (posted : Bool) :
    Inv (s.postHigh e posted) := by
  refine h.update hu (by simpa using sets_self hu) (fun d hd => ?_) ?_
  · rw [view_postHigh, if_neg]
    rintro ⟨-, hd'⟩
    exact hd (Option.some.inj (hd'.symm.trans he))
  · rw [view_postHigh]
    split
    · exact (h.ok hu).pushHigh hr hd herr
    · exact h.ok hu

end

section

variable {s : System} {ud : Ud} {u u' : Userdata}

theorem netErrCb_inv (h : Inv s) (hu : s.socks.uds ud = some u) (err : Err) (posted : Bool) :
    Inv (netErrCb s ud u err posted) := by
  unfold netErrCb
  split
  · exact h
  · rename_i hc
    simp only [ne_eq, not_or, not_not, Bool.not_eq_false] at hc
    have h' : Inv (s.setUd ud { u with pcb := none }) :=
      h.mild hu sets_setUd ⟨rfl, rfl, id, fun hp => absurd rfl hp⟩ rfl
    have hu' : (s.setUd ud { u with pcb := none }).socks.uds ud = some { u with pcb := none } := by
      simp [System.setUd, Sockets.setUd]
    exact h'.postMedium hu' rfl posted ((h'.ok hu').pushErr hc.2 rfl hc.1 rfl)

theorem netConnectedCb_inv (h : Inv s) (hu : s.socks.uds ud = some u) (tpcb : PcbId) (err : Err)
    (posted : Bool) : Inv (netConnectedCb s tpcb ud u err posted) := by
  unfold netConnectedCb
  split
  · exact h
  rename_i hp
  simp only [ne_eq, not_not] at hp
  split
  · exact netErrCb_inv h hu err posted
  · have hok := h.ok hu
    exact h.postMedium hu rfl posted (hok.pushMedium (hok.held (by simp [hp])) rfl rfl)

theorem netUdpRecvCb_inv (h : Inv s) (hu : s.socks.uds ud = some u) (p : Pbuf) (addr : Addr)
    (port : Nat) (posted : Bool) : Inv (netUdpRecvCb s ud u p addr port posted) := by
  unfold netUdpRecvCb
  dsimp only
  split
  · exact h.congr rfl rfl rfl
  · rename_i hc
    simp only [not_or, Bool.not_eq_false] at hc
    have h' : Inv { s with nextPbuf := s.nextPbuf + 1 } := h.congr rfl rfl rfl
    exact h'.postHigh hu rfl hc.2.2 rfl rfl posted

theorem netTcpRecvCb_inv (h : Inv s) (hu : s.socks.uds ud = some u) (tpcb : PcbId)
    (p : Option Pbuf) (err : Err) (posted : Bool) :
    Inv (netTcpRecvCb s tpcb ud u p err posted) := by
  unfold netTcpRecvCb
  split
  · exact h
  rename_i hc
  simp only [not_or, Bool.not_eq_false] at hc
  cases p with
  | none =>
    obtain ⟨pcbs, hclose⟩ := tcpClose_same (s := (netErrCb s ud u err posted).socks) tpcb
    dsimp only
    rw [hclose]
    exact (netErrCb_inv h hu err posted).congr rfl rfl rfl
  | some p =>
    have h' : Inv { s with nextPbuf := s.nextPbuf + 1 } := h.congr rfl rfl rfl
    have h'' := h'.postHigh (e := .recvData ud p.first none) hu rfl hc.2.2 rfl rfl posted
    dsimp only [tcpRecvData]
    split
    · exact h''.congr rfl rfl rfl
    · exact h''.congr rfl rfl rfl

theorem netSentCb_inv (h : Inv s) (hu : s.socks.uds ud = some u) (posted : Bool) :
    Inv (netSentCb s ud u posted) := by
  unfold netSentCb
  split
  · exact h
  rename_i hc
  simp only [not_or, Bool.not_eq_false] at hc
  split
  · exact h
  · exact h.postMedium hu rfl posted ((h.ok hu).pushMedium hc.2.2 rfl rfl)

theorem netAcceptCb_inv (h : Inv s) (hu : s.socks.uds ud = some u) (posted : Bool) :
    Inv (netAcceptCb s ud u posted) := by
  have h' : Inv { s with socks := s.socks.newPcb ⟨.tcp, some ud, false, false, 0⟩ } :=
    h.congr rfl rfl rfl
  unfold netAcceptCb
  dsimp only
  split
  · exact h'
  rename_i hc
  simp only [not_or, Bool.not_eq_false] at hc
  split
  · have h'' := h'.postMedium (e := .sentData ud (some s.socks.nextPcb)) hu rfl posted
      ((h'.ok hu).pushMedium hc.2.2.1 rfl rfl)
    exact h''.congr rfl rfl rfl
  · exact h'

theorem view_netDnsCb (origin : Option PcbId) (ipaddr : Option Addr) (posted : Bool) (d : Ud) :
    view (netDnsCb s ud origin ipaddr posted) d =
      if d = ud then
        { view s d with
          medium := if posted then
              (view s d).medium ++ [.dnsFound ud (ipaddr.getD ipAddrAny) origin]
            else (view s d).medium }
      else view s d := by
  have hview : view { s with log.answers := s.log.answers ++ [(origin, ipaddr.getD ipAddrAny)] } d =
      view s d := rfl
  rw [netDnsCb, view_postMedium, hview]
  by_cases hd : d = ud
  · subst hd
    cases posted <;> simp [Event.ud]
  · have hne : ud ≠ d := fun he => hd he.symm
    simp [Event.ud, hd, hne]

theorem view_lookup (n : String) (origin : Option PcbId) (d : Ud) :
    view (s.lookup ⟨n, .sock ud, origin⟩) d =
      if d = ud then { view s d with lookups := (view s d).lookups + 1 } else view s d := by
  by_cases hd : d = ud
  · simp [System.lookup, view, Lookup.names, hd, List.countP_append]
  · have hne : ud ≠ d := fun he => hd he.symm
    simp [System.lookup, view, Lookup.names, hd, hne, List.countP_append]

theorem Inv.lookup (h : Inv s) (hu : s.socks.uds ud = some u) {x : Sockets} {n : String}
    {origin : Option PcbId} (hx : Sets s.socks x ud u')
    (hok : Ok u' { view s ud with lookups := (view s ud).lookups + 1 }) :
    Inv ({ s with socks := x }.lookup ⟨n, .sock ud, origin⟩) ∧
      ∀ ipaddr posted, Inv (netDnsCb { s with socks := x } ud origin ipaddr posted) := by
  have hsame : ∀ d, view { s with socks := x } d = view s d := fun _ => rfl
  refine ⟨h.update hu hx (fun d hd => by rw [view_lookup, if_neg hd, hsame])
      (by rw [view_lookup, if_pos rfl, hsame]; exact hok),
    fun ipaddr posted => h.update hu (by simpa using hx) (fun d hd => ?_) ?_⟩
  · rw [view_netDnsCb, if_neg hd, hsame]
  · rw [view_netDnsCb, if_pos rfl, hsame]
    exact hok.answer rfl rfl posted

end

section

variable {s t : System} {ud : Ud} {u u' : Userdata}

theorem abortConnect_sets (p : PcbId) (a : Answer) :
    Sets s.socks (abortConnect s ud u p a).socks ud { u with pcb := none } := by
  have hset : Sets s.socks (s.socks.setUd ud u) ud u := sets_setUd
  unfold abortConnect netErrCb
  dsimp only
  refine Sets.checkerr ?_ a.err
  split
  · exact hset.trans ⟨rfl, rfl, Nat.le_refl _⟩
  · refine hset.trans ⟨?_, ?_, ?_⟩ <;>
      simp [System.setUd, Sockets.setUd, Sockets.setPcb]

/-- A socket that was anchored before gets an ERR event. -/
theorem abortConnect_view (p : PcbId) (a : Answer) (d : Ud) :
    view (abortConnect s ud u p a) d =
      if a.posted = true ∧ u.type = .tcpClient ∧ u.selfRef = true ∧ d = ud then
        { view s d with medium := (view s d).medium ++ [.err ud .abrt] }
      else view s d := by
  have hview : view (abortConnect s ud u p a) d =
      view (netErrCb (s.setUd ud u) ud u .abrt a.posted) d := rfl
  have hsame : ∀ v, view ((s.setUd ud u).setUd ud v) d = view s d := fun _ => rfl
  rw [hview, netErrCb]
  split
  · rename_i hc
    rw [if_neg]
    · rfl
    · rintro ⟨-, ht, hr, -⟩
      simp [ht, hr] at hc
  · rename_i hc
    simp only [ne_eq, not_or, not_not, Bool.not_eq_false] at hc
    rw [view_postMedium, hsame]
    by_cases hd : d = ud
    · simp [hd, hc, Event.ud]
    · have hne : ud ≠ d := fun he => hd he.symm
      simp [hd, hne, Event.ud]

theorem abortConnect_inv {s₁ : System} {v : Userdata} (h : Inv s) (hu : s.socks.uds ud = some u)
    (hp : u.pcb = none) (ht : u.type = .tcpClient) (hs : Sets s.socks s₁.socks ud u')
    (hview : view s₁ = view s) (hv : { v with pcb := none } = u) (p : PcbId) (a : Answer) :
    Inv (abortConnect s₁ ud v p a) := by
  have hx := hs.trans (abortConnect_sets (u := v) p a)
  rw [hv] at hx
  refine h.update hu hx (fun d hd => ?_) ?_
  · rw [abortConnect_view, if_neg (fun hc => hd hc.2.2.2), hview]
  · rw [abortConnect_view, hview]
    split
    · rename_i hc
      have hr : u.selfRef = v.selfRef := by rw [← hv]
      exact (h.ok hu).pushErr (hr.trans hc.2.2.1) hp ht rfl
    · exact h.ok hu

theorem netConnect_inv (h : Inv s) (hu : s.socks.uds ud = some u) (port : Int)
    (domain : Option String) (a : Answer) : Inv (netConnect s ud u port domain a) := by
  unfold netConnect
  dsimp only
  split
  · exact h.congr rfl rfl rfl
  split
  · exact h.congr rfl rfl rfl
  split
  · exact h.congr rfl rfl rfl
  split
  · exact h.congr rfl rfl rfl
  rename_i ht hp _ _
  simp only [ne_eq, not_not] at ht hp
  have hx : ∀ b v, Sets s.socks ((s.socks.newPcb b).setUd ud v) ud v :=
    fun _ _ => ⟨rfl, rfl, Nat.le_succ _⟩
  have hok := (h.ok hu).wait { u with
    pcb := some s.socks.nextPcb, waitDns := u.waitDns + 1, selfRef := true }
    rfl (by simp [ht]) rfl rfl
  split
  · exact (h.lookup (n := "") hu (hx _ _) hok).2 _ _
  split
  · refine abortConnect_inv h hu hp ht (hx _ _) ?_ ?_ _ _
    · exact view_congr rfl rfl rfl rfl
    · simp [← hp]
  · exact (h.lookup hu (hx _ _) hok).1

theorem netDns_inv (h : Inv s) (hu : s.socks.uds ud = some u) (domain : String) (fn : Option Fn)
    (a : Answer) : Inv (netDns s ud u domain fn a) := by
  unfold netDns
  dsimp only
  split
  · exact h.congr rfl rfl rfl
  rename_i ht
  split
  · have hm : Mild u { u with cbDns := fn.or u.cbDns } :=
      ⟨rfl, rfl, id, fun _ => .inl rfl⟩
    exact h.mild hu ⟨rfl, rfl, Nat.le_refl _⟩ hm rfl
  have hok := (h.ok hu).wait { u with
    cbDns := fn.or u.cbDns, waitDns := u.waitDns + 1, selfRef := true } rfl ht rfl rfl
  split
  · exact (h.lookup (n := "") hu sets_setUd hok).2 _ _
  split
  · have hset : ∀ v v', Sets s.socks ((s.socks.setUd ud v).setUd ud v') ud v' :=
      fun _ _ => sets_setUd.trans sets_setUd
    exact h.mild hu (Sets.checkerr (hset _ _) a.err)
      ⟨rfl, by simp, by simp, fun _ => .inl rfl⟩ rfl
  · exact (h.lookup hu sets_setUd hok).1

end

section

variable {s t : System} {ud : Ud} {u : Userdata} {e : Event}

theorem view_eraseIdx {i : Nat} {l : Lookup} (hl : s.lookups[i]? = some l) (d : Ud) :
    (view s d).lookups =
      (view { s with lookups := s.lookups.eraseIdx i } d).lookups +
        if l.arg = .sock d then 1 else 0 := by
  obtain ⟨hi, rfl⟩ := List.getElem?_eq_some_iff.mp hl
  have hperm := List.getElem_cons_eraseIdx_perm hi
  simp only [view, ← hperm.countP_eq, List.countP_cons, Lookup.names, decide_eq_true_eq]

theorem dnsDone_inv (h : Inv s) {i : Nat} {l : Lookup} (hl : s.lookups[i]? = some l)
    (ipaddr : Option Addr) (posted : Bool) :
    Inv (dnsDone { s with lookups := s.lookups.eraseIdx i } l ipaddr posted) := by
  have hcount := view_eraseIdx hl
  unfold dnsDone
  cases harg : l.arg with
  | sock ud =>
    have hone := hcount ud
    rw [harg, if_pos rfl] at hone
    have hbusy : view s ud ≠ .idle := fun hv => by simp [hv, View.idle] at hone
    obtain ⟨u, hu, -⟩ := h.present hbusy
    refine h.update hu (by simpa using sets_self hu) (fun d hd => ?_) ?_
    · have hsame := hcount d
      rw [harg, if_neg (fun he => hd (LookupArg.sock.inj he).symm)] at hsame
      rw [view_netDnsCb, if_neg hd]
      simp only [view] at hsame ⊢
      rw [hsame, Nat.add_zero]
    · rw [view_netDnsCb, if_pos rfl]
      have hok := h.ok hu
      have hview : view s ud =
          { view s ud with
            lookups := (view { s with lookups := s.lookups.eraseIdx i } ud).lookups + 1 } := by
        rw [← hone]
      rw [hview] at hok
      exact hok.answer rfl rfl posted
  | record record cb =>
    have hsame : view { s with lookups := s.lookups.eraseIdx i } = view s := by
      funext d
      have hd := hcount d
      rw [harg, if_neg (by simp), Nat.add_zero] at hd
      simp only [view] at hd ⊢
      rw [hd]
    have h' : Inv { s with lookups := s.lookups.eraseIdx i } := h.congr rfl rfl hsame
    simp only [netDnsStaticCb]
    split
    · refine h'.congr (by simp) (by simp) ?_
      funext d
      simp [view_postMedium, Event.ud]
    · exact h'.congr rfl rfl rfl

theorem netDnsStatic_inv (h : Inv s) (domain : String) (fn : Except String Fn) (alloc : Bool)
    (a : Answer) : Inv (netDnsStatic s domain fn alloc a) := by
  unfold netDnsStatic
  split
  · exact h.congr rfl rfl rfl
  cases fn with
  | error got => exact h.congr rfl rfl rfl
  | ok cb =>
    dsimp only
    split
    · unfold netDnsStaticCb
      split
      · refine h.congr (by simp) (by simp) ?_
        funext d
        rw [view_postMedium, if_neg (by simp [Event.ud])]
        rfl
      · exact h.congr rfl rfl rfl
    split
    · refine h.congr rfl rfl ?_
      funext d
      simp [System.lookup, view, Lookup.names]
    · exact h.congr (by simp [System.checkerr]) (by simp [System.checkerr]) rfl

theorem netCreate_inv (h : Inv s) (type : NetType) (junk : Option Fn) :
    Inv { s with socks := netCreate s.socks type junk } where
  each d := by
    have hd := h.each d
    rw [view_socks]
    simp only [netCreate, Sockets.setUd]
    by_cases hn : d = s.socks.nextUd
    · subst hn
      rw [h.fresh _ le_rfl] at hd
      have hv : view s s.socks.nextUd = .idle := hd
      rw [hv, Function.update_self]
      exact Ok.start (fun hp => absurd rfl hp) rfl
    · rwa [Function.update_of_ne hn]
  fresh d hd := by
    have hlt : s.socks.nextUd + 1 ≤ d := hd
    simp only [netCreate, Sockets.setUd]
    rw [Function.update_of_ne (Nat.ne_of_gt hlt)]
    exact h.fresh d (Nat.le_of_succ_le hlt)

theorem netDelete_inv (h : Inv s) (hu : s.socks.uds ud = some u) (hr : u.selfRef = false) :
    Inv { s with socks := netDelete s.socks ud u } := by
  obtain ⟨pcbs, hdel⟩ := netDelete_same s.socks ud u
  rw [hdel]
  refine ⟨fun d => ?_, fun d hd => ?_⟩
  · have hd := h.each d
    rw [view_socks]
    by_cases hn : d = ud
    · subst hn
      simp only [Function.update_self]
      by_contra hv
      simp [(h.ok hu).anchored hv] at hr
    · simpa [hn] using hd
  · by_cases hn : d = ud
    · simp [hn]
    · simpa [hn] using h.fresh d hd

theorem callback_inv (h : Inv s) (hu : s.socks.uds ud = some u) (p : PcbId) (c : Callback) :
    Inv (callback s p ud u c) := by
  cases c with
  | err err posted => exact (netErrCb_inv h hu err posted).congr rfl rfl rfl
  | connected err posted => exact netConnectedCb_inv h hu p err posted
  | tcpRecv pb err posted => exact netTcpRecvCb_inv h hu p pb err posted
  | udpRecv pb addr port posted => exact netUdpRecvCb_inv h hu pb addr port posted
  | sent posted => exact netSentCb_inv h hu posted
  | accept posted => exact netAcceptCb_inv h hu posted

theorem netCreateUDPSocket_inv (h : Inv s) :
    Inv { s with socks := netCreateUDPSocket s.socks } := netCreate_inv h _ _

theorem netCreateServer_inv (h : Inv s) (type : Option Int) (junk : Option Fn) :
    Inv { s with socks := netCreateServer s.socks type junk } := by
  unfold netCreateServer
  dsimp only
  split
  · exact netCreateUDPSocket_inv h
  split
  · exact h.congr rfl rfl rfl
  · exact netCreate_inv h _ _

theorem netCreateConnection_inv (h : Inv s) (type secure : Option Int) :
    Inv { s with socks := netCreateConnection s.socks type secure } := by
  unfold netCreateConnection
  dsimp only
  split
  · exact netCreateUDPSocket_inv h
  split
  · exact h.congr rfl rfl rfl
  split
  · exact h.congr rfl rfl rfl
  · exact netCreate_inv h _ _

end

end Esp32Project.Net
