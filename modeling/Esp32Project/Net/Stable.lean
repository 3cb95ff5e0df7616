import Esp32Project.Net.Changes

/-!
Rules about runs that most steps respect. A property is stable if it survives
the changes that the calls of Lua and lwIP are made of; only the handling of
events is left to each rule.
-/

set_option autoImplicit false

namespace Esp32Project.Net

/-- No userdata changes its type, and none comes back. -/
structure Keeps (s t : Sockets) : Prop where
  nextUd : s.nextUd ≤ t.nextUd
  nextPcb : s.nextPcb ≤ t.nextPcb
  each : ∀ d u', t.uds d = some u' →
    (∃ u, s.uds d = some u ∧ u'.type = u.type) ∨ s.nextUd ≤ d ∧ d < t.nextUd

/-- Events that bring neither an address nor data nor a connection. -/
def Event.plain : Event → Bool
  | .dnsStatic .. | .connected _ | .sentData .. | .err .. => true
  | _ => false

/-- A call that does not pass data on as `lrecv_cb` does for TCP. -/
def LuaCall.plain (c : LuaCall) : Prop := ∀ x b, c.args ≠ [x, .str b]

/-- The origin of a lookup that a call starts: `connect` makes a control block. -/
def Starts (s t : Sockets) (origin : Option PcbId) : Prop :=
  Keeps s t ∧ ∀ p ∈ origin, p = s.nextPcb ∧ s.nextPcb < t.nextPcb

structure Stable (P : System → Prop) : Prop where
  socks : ∀ {s : System} {x : Sockets}, Keeps s.socks x → P s → P { s with socks := x }
  post : ∀ {s : System} {e : Event}, e.plain = true → P s →
    P { s with medium := s.medium ++ [e] }
  call : ∀ {s : System} {c : LuaCall}, c.plain → P s → P (s.call c)
  record : ∀ {s : System} {n : Nat} {freed released : List Nat}, P s →
    P { s with nextRecord := n, log := { s.log with recordFreed := freed, released } }
  lookup : ∀ {s : System} {x : Sockets} {l : Lookup}, Starts s.socks x l.origin → P s →
    P ({ s with socks := x }.lookup l)
  answer : ∀ {s : System} {x : Sockets} {ud : Ud} {origin : Option PcbId} {a : Option Addr}
    {posted : Bool}, Starts s.socks x origin → P s →
    P (netDnsCb { s with socks := x } ud origin a posted)
  done : ∀ {s : System} {i : Nat} {l : Lookup} {ud : Ud} {a : Option Addr} {posted : Bool},
    s.lookups[i]? = some l → P s →
    P (netDnsCb { s with lookups := s.lookups.eraseIdx i } ud l.origin a posted)
  forget : ∀ {s : System} {i : Nat}, P s → P { s with lookups := s.lookups.eraseIdx i }
  tcpData : ∀ {s : System} {ud : Ud} {u : Userdata} {p : Pbuf} {posted : Bool},
    s.socks.uds ud = some u → u.type = .tcpClient → P s → P (tcpRecvData s ud p posted)
  udpData : ∀ {s : System} {ud : Ud} {u : Userdata} {p : Pbuf} {addr : Addr} {port : Nat}
    {posted : Bool}, s.socks.uds ud = some u → P s → P (netUdpRecvCb s ud u p addr port posted)
  accept : ∀ {s : System} {a : List Accepted}, P s → P { s with log.accepted := a }

section

variable {s t r : Sockets} {ud : Ud} {u u' : Userdata}

theorem Keeps.refl : Keeps s s :=
  ⟨Nat.le_refl _, Nat.le_refl _, fun _ u' h => .inl ⟨u', h, rfl⟩⟩

theorem Keeps.trans (h : Keeps s t) (h' : Keeps t r) : Keeps s r where
  nextUd := Nat.le_trans h.nextUd h'.nextUd
  nextPcb := Nat.le_trans h.nextPcb h'.nextPcb
  each d u' hu' := by
    rcases h'.each d u' hu' with ⟨u, hu, ht⟩ | ⟨hl, hr⟩
    · rcases h.each d u hu with ⟨v, hv, ht'⟩ | ⟨hl, hr⟩
      · exact .inl ⟨v, hv, ht.trans ht'⟩
      · exact .inr ⟨hl, Nat.lt_of_lt_of_le hr h'.nextUd⟩
    · exact .inr ⟨Nat.le_trans h.nextUd hl, hr⟩

theorem Sets.keeps (h : Sets s t ud u') (hu : s.uds ud = some u) (ht : u'.type = u.type) :
    Keeps s t where
  nextUd := Nat.le_of_eq h.nextUd.symm
  nextPcb := h.nextPcb
  each d v hv := by
    rw [h.uds] at hv
    by_cases hd : d = ud
    · subst hd
      rw [Function.update_self] at hv
      exact .inl ⟨u, hu, Option.some.inj hv ▸ ht⟩
    · rw [Function.update_of_ne hd] at hv
      exact .inl ⟨v, hv, rfl⟩

theorem keeps_of_uds (hu : t.uds = s.uds) (hn : t.nextUd = s.nextUd)
    (hp : s.nextPcb ≤ t.nextPcb) : Keeps s t :=
  ⟨Nat.le_of_eq hn.symm, hp, fun _ u' h => .inl ⟨u', hu ▸ h, rfl⟩⟩

theorem netCreate_keeps (type : NetType) (junk : Option Fn) : Keeps s (netCreate s type junk) where
  nextUd := Nat.le_succ _
  nextPcb := Nat.le_refl _
  each d v hv := by
    by_cases hd : d = s.nextUd
    · subst hd
      exact .inr ⟨Nat.le_refl _, Nat.lt_succ_self _⟩
    · simp only [netCreate, Sockets.setUd] at hv
      rw [Function.update_of_ne hd] at hv
      exact .inl ⟨v, hv, rfl⟩

theorem netCreateServer_keeps (type : Option Int) (junk : Option Fn) :
    Keeps s (netCreateServer s type junk) := by
  unfold netCreateServer netCreateUDPSocket
  dsimp only
  split
  · exact netCreate_keeps _ _
  split
  · exact keeps_of_uds rfl rfl (Nat.le_refl _)
  · exact netCreate_keeps _ _

theorem netCreateConnection_keeps (type secure : Option Int) :
    Keeps s (netCreateConnection s type secure) := by
  unfold netCreateConnection netCreateUDPSocket
  dsimp only
  split
  · exact netCreate_keeps _ _
  split
  · exact keeps_of_uds rfl rfl (Nat.le_refl _)
  split
  · exact keeps_of_uds rfl rfl (Nat.le_refl _)
  · exact netCreate_keeps _ _

theorem netDelete_keeps : Keeps s (netDelete s ud u) := by
  obtain ⟨pcbs, h⟩ := netDelete_same s ud u
  rw [h]
  refine ⟨Nat.le_refl _, Nat.le_refl _, fun d v hv => ?_⟩
  by_cases hd : d = ud
  · simp [hd] at hv
  · exact .inl ⟨v, by simpa [hd] using hv, rfl⟩

theorem netClose_keeps (hu : s.uds ud = some u) (closed : Bool) :
    Keeps s (netClose s ud u closed) := by
  obtain ⟨u', hx, rfl⟩ := netClose_sets hu closed
  refine hx.keeps hu ?_
  split
  · rfl
  · split <;> rfl

end

namespace Stable

variable {P : System → Prop} {s t : System} {ud : Ud} {u u' : Userdata}

theorem setUd (hP : Stable P) (h : P s) (u' : Userdata) (hu : s.socks.uds ud = some u)
    (ht : u'.type = u.type) :
    P (s.setUd ud u') :=
  hP.socks (sets_setUd.keeps hu ht) h

theorem raise (hP : Stable P) (h : P s) (text : String) : P (s.raise text) :=
  hP.socks (keeps_of_uds rfl rfl (Nat.le_refl _)) h

theorem checkerr (hP : Stable P) (h : P s) (err : Err) : P (s.checkerr err) :=
  hP.socks (keeps_of_uds (by simp) (by simp) (by simp)) h

theorem newPcb (hP : Stable P) (h : P s) (b : Pcb) : P { s with socks := s.socks.newPcb b } :=
  hP.socks (keeps_of_uds rfl rfl (Nat.le_succ _)) h

theorem setPcb (hP : Stable P) (h : P s) (p : PcbId) (b : Option Pcb) :
    P { s with socks := s.socks.setPcb p b } :=
  hP.socks (keeps_of_uds rfl rfl (Nat.le_refl _)) h

theorem postMedium (hP : Stable P) (h : P s) {e : Event} (he : e.plain = true) (posted : Bool) :
    P (s.postMedium e posted) := by
  cases posted
  · exact h
  · exact hP.post he h

theorem callAny (hP : Stable P) (h : P s) {c : Option LuaCall} (hc : ∀ c' ∈ c, c'.plain) :
    P (s.callAny c) := by
  cases c with
  | none => exact h
  | some c => exact hP.call (hc c rfl) h

theorem netErrCb (hP : Stable P) (h : P s) (hu : s.socks.uds ud = some u) (err : Err)
    (posted : Bool) : P (netErrCb s ud u err posted) := by
  unfold Net.netErrCb
  split
  · exact h
  · have h' := hP.setUd h { u with pcb := none } hu rfl
    exact hP.postMedium h' (e := .err ud err) rfl posted

theorem netConnectedCb (hP : Stable P) (h : P s) (hu : s.socks.uds ud = some u) (tpcb : PcbId)
    (err : Err) (posted : Bool) : P (netConnectedCb s tpcb ud u err posted) := by
  unfold Net.netConnectedCb
  split
  · exact h
  split
  · exact hP.netErrCb h hu err posted
  · exact hP.postMedium h rfl posted

theorem netSentCb (hP : Stable P) (h : P s) (posted : Bool) : P (netSentCb s ud u posted) := by
  unfold Net.netSentCb
  split
  · exact h
  split
  · exact h
  · exact hP.postMedium h rfl posted

theorem netTcpRecvCb (hP : Stable P) (h : P s) (hu : s.socks.uds ud = some u) (tpcb : PcbId)
    (p : Option Pbuf) (err : Err) (posted : Bool) : P (netTcpRecvCb s tpcb ud u p err posted) := by
  unfold Net.netTcpRecvCb
  split
  · exact h
  rename_i hc
  simp only [ne_eq, not_or, not_not] at hc
  cases p with
  | none =>
    obtain ⟨pcbs, hclose⟩ := tcpClose_same (s := (Net.netErrCb s ud u err posted).socks) tpcb
    dsimp only
    rw [hclose]
    exact hP.socks (keeps_of_uds rfl rfl (Nat.le_refl _)) (hP.netErrCb h hu err posted)
  | some p => exact hP.tcpData hu hc.2.1 h

theorem netAcceptCb (hP : Stable P) (h : P s) (posted : Bool) :
    P (netAcceptCb s ud u posted) := by
  have h' := hP.newPcb h ⟨.tcp, some ud, false, false, 0⟩
  unfold Net.netAcceptCb
  dsimp only
  split
  · exact h'
  split
  · exact hP.accept (hP.postMedium h' rfl posted)
  · exact h'

theorem abortConnect (hP : Stable P) (h : P s) (hu : s.socks.uds ud = some u') (p : PcbId)
    (ht : u.type = u'.type) (a : Answer) : P (abortConnect s ud u p a) := by
  have hu₁ : (s.setUd ud u).socks.uds ud = some u := Function.update_self ..
  have h₂ := hP.netErrCb (hP.setUd h _ hu ht) hu₁ .abrt a.posted
  obtain ⟨v, hv, hvt⟩ :
      ∃ v, (Net.netErrCb (s.setUd ud u) ud u .abrt a.posted).socks.uds ud = some v ∧
        v.type = u.type := by
    unfold Net.netErrCb
    split
    · exact ⟨u, hu₁, rfl⟩
    · rw [postMedium_socks]
      exact ⟨{ u with pcb := none }, Function.update_self .., rfl⟩
  have h₃ := hP.setUd (hP.setPcb h₂ p none) { u with pcb := none } hv hvt.symm
  exact hP.checkerr h₃ a.err

theorem netConnect (hP : Stable P) (h : P s) (hu : s.socks.uds ud = some u) (port : Int)
    (domain : Option String) (a : Answer) : P (netConnect s ud u port domain a) := by
  unfold Net.netConnect
  dsimp only
  split
  · exact hP.raise h _
  split
  · exact hP.raise h _
  split
  · exact hP.raise h _
  split
  · exact hP.raise h _
  have hkeeps : ∀ b v, v.type = u.type → Keeps s.socks ((s.socks.newPcb b).setUd ud v) :=
    fun b v ht => Sets.keeps (t := (s.socks.newPcb b).setUd ud v)
      ⟨rfl, rfl, Nat.le_succ _⟩ hu ht
  have hstarts : ∀ b v, v.type = u.type →
      Starts s.socks ((s.socks.newPcb b).setUd ud v) (some s.socks.nextPcb) :=
    fun b v ht => ⟨hkeeps b v ht, fun p hp => ⟨(Option.some.inj hp).symm, Nat.lt_succ_self _⟩⟩
  split
  · exact hP.answer (s := s) (hstarts _ _ (by rfl)) h
  split
  · exact hP.abortConnect (hP.socks (s := s) (hkeeps _ _ (by rfl)) h)
      (Function.update_self ..) _ (by rfl) a
  · exact hP.lookup (s := s) (hstarts _ _ (by rfl)) h

theorem netDns (hP : Stable P) (h : P s) (hu : s.socks.uds ud = some u) (domain : String)
    (fn : Option Fn) (a : Answer) : P (netDns s ud u domain fn a) := by
  unfold Net.netDns
  dsimp only
  split
  · exact hP.raise h _
  split
  · exact hP.raise (hP.setUd h { u with cbDns := fn.or u.cbDns } hu rfl) _
  have hkeeps : ∀ v, v.type = u.type → Keeps s.socks (s.socks.setUd ud v) :=
    fun v ht => sets_setUd.keeps hu ht
  have hstarts : ∀ v, v.type = u.type → Starts s.socks (s.socks.setUd ud v) none :=
    fun v ht => ⟨hkeeps v ht, fun p hp => by cases hp⟩
  split
  · exact hP.answer (s := s) (hstarts _ (by rfl)) h
  split
  · exact hP.checkerr (hP.setUd (hP.socks (s := s) (hkeeps _ (by rfl)) h) _
      (Function.update_self ..) (by rfl)) a.err
  · exact hP.lookup (s := s) (hstarts _ (by rfl)) h

theorem sendData (hP : Stable P) (h : P s) (a : Sending) : P (sendData s ud u a) := by
  unfold Net.sendData
  split
  · exact hP.raise h _
  split
  · split
    · exact hP.raise h _
    · refine hP.checkerr (hP.callAny h fun c hc => ?_) a.err
      obtain ⟨f, -, rfl⟩ := Option.map_eq_some_iff.mp hc
      simp [LuaCall.plain]
  · exact hP.checkerr h a.err

theorem netSend (hP : Stable P) (h : P s) (hu : s.socks.uds ud = some u) (port : Int)
    (addr : Option Addr) (data : List UInt8) (fn : Option Fn) (a : Sending) :
    P (netSend s ud u port addr data fn a) := by
  unfold Net.netSend
  split
  · exact hP.raise h _
  split
  · exact hP.raise h _
  split
  · exact hP.raise h _
  split
  · exact hP.raise h _
  dsimp only
  have hbind := hP.setUd h { u with cbSent := fn.or u.cbSent } hu rfl
  generalize ({ u with cbSent := fn.or u.cbSent } : Userdata) = v at hbind ⊢
  obtain ⟨u', hset, hm⟩ := bindUdp_gentle (s.setUd ud v).socks ud v
    (by simp [System.setUd, Sockets.setUd]) a.binding
  have hx := hP.socks (hset.keeps (by simp [System.setUd, Sockets.setUd]) hm.type) hbind
  cases (bindUdp (s.setUd ud v).socks ud v a.binding).2 with
  | none => exact hx
  | some w => exact hP.sendData hx a

theorem netDnsStaticCb (hP : Stable P) (h : P s) (record : Nat) (cb : Fn) (ipaddr : Option Addr)
    (posted : Bool) : P (netDnsStaticCb s record cb ipaddr posted) := by
  unfold Net.netDnsStaticCb
  split
  · exact hP.postMedium h rfl posted
  · exact hP.record h

theorem netDnsStatic (hP : Stable P) (h : P s) (domain : String) (fn : Except String Fn)
    (alloc : Bool) (a : Answer) : P (netDnsStatic s domain fn alloc a) := by
  unfold Net.netDnsStatic
  split
  · exact hP.raise h _
  have h' : P { s with nextRecord := s.nextRecord + 1 } := hP.record h
  cases fn with
  | error got => exact hP.raise h' _
  | ok cb =>
    dsimp only
    split
    · exact hP.netDnsStaticCb h' _ _ _ _
    split
    · exact hP.lookup (s := { s with nextRecord := s.nextRecord + 1 }) (x := s.socks)
        (l := ⟨domain, .record s.nextRecord cb, none⟩) ⟨.refl, fun p hp => by cases hp⟩ h'
    · exact hP.checkerr h' a.err

theorem ldnsstaticCb (hP : Stable P) (h : P s) (record : Nat) (cb : Fn) (addr : Addr) :
    P (ldnsstaticCb s record cb addr) := by
  have h₁ : P { s with log.released := s.log.released ++ [record] } := hP.record h
  have h₂ := hP.call (c := ⟨cb, none, [ipVal addr]⟩) (by simp [LuaCall.plain]) h₁
  exact hP.record h₂

theorem apiCall (hP : Stable P) (h : P s) (hu : s.socks.uds ud = some u) (c : ApiCall) :
    P (apiCall s ud u c) := by
  cases c with
  | listen addr fn b =>
    obtain ⟨u', hx, hm⟩ := netListen_gentle hu addr fn b
    exact hP.socks (hx.keeps hu hm.type) h
  | connect port domain a => exact hP.netConnect h hu port domain a
  | on name arg =>
    obtain ⟨u', hx, hm⟩ := netOn_gentle hu name arg
    exact hP.socks (hx.keeps hu hm.type) h
  | send port addr data fn a => exact hP.netSend h hu port addr data fn a
  | hold hold =>
    obtain ⟨u', hx, hm⟩ := netHold_gentle hu hold
    exact hP.socks (hx.keeps hu hm.type) h
  | dns domain fn a => exact hP.netDns h hu domain fn a
  | close closed => exact hP.socks (netClose_keeps hu closed) h

theorem callback (hP : Stable P) (h : P s) (hu : s.socks.uds ud = some u) (p : PcbId)
    (c : Callback) : P (callback s p ud u c) := by
  cases c with
  | err err posted => exact hP.setPcb (hP.netErrCb h hu err posted) p none
  | connected err posted => exact hP.netConnectedCb h hu p err posted
  | tcpRecv pb err posted => exact hP.netTcpRecvCb h hu p pb err posted
  | udpRecv pb addr port posted => exact hP.udpData hu h
  | sent posted => exact hP.netSentCb h posted
  | accept posted => exact hP.netAcceptCb h posted

theorem dnsDone (hP : Stable P) (h : P s) {i : Nat} {l : Lookup} (hl : s.lookups[i]? = some l)
    (ipaddr : Option Addr) (posted : Bool) :
    P (dnsDone { s with lookups := s.lookups.eraseIdx i } l ipaddr posted) := by
  unfold Net.dnsDone
  split
  · exact hP.done hl h
  · exact hP.netDnsStaticCb (hP.forget h) _ _ _ _

theorem step (hP : Stable P) (h : P s) {a : Label} (hs : step s a = some t)
    (hhandle : ∀ c, a = .handle c → P t) (hresume : ∀ c, a = .resume c → P t) : P t := by
  cases a with
  | createUDPSocket =>
    cases hs
    exact hP.socks (netCreate_keeps _ _) h
  | createServer type junk =>
    cases hs
    exact hP.socks (netCreateServer_keeps type junk) h
  | createConnection type secure =>
    cases hs
    exact hP.socks (netCreateConnection_keeps type secure) h
  | api ud c =>
    obtain ⟨u, hu, rfl⟩ := Option.map_eq_some_iff.mp hs
    exact hP.apiCall h hu c
  | resolve domain fn alloc a =>
    cases hs
    exact hP.netDnsStatic h domain fn alloc a
  | gc ud =>
    obtain ⟨u, hu, hs⟩ := Option.bind_eq_some_iff.mp hs
    split at hs
    · cases hs
    · cases hs
      exact hP.socks netDelete_keeps h
  | lwip p c =>
    obtain ⟨b, -, hs⟩ := Option.bind_eq_some_iff.mp hs
    split at hs
    · split at hs
      · cases hs
        exact h
      · obtain ⟨u, hu, rfl⟩ := Option.map_eq_some_iff.mp hs
        exact hP.callback h hu p c
    · cases hs
  | dnsDone i ipaddr posted =>
    obtain ⟨l, hl, rfl⟩ := Option.map_eq_some_iff.mp hs
    exact hP.dnsDone h hl ipaddr posted
  | handle c => exact hhandle c rfl
  | resume c => exact hresume c rfl

/-- Handling an event that is off its queue: what is left are data, connections,
and the two handlers with code behind their Lua call. -/
theorem handled (hP : Stable P) (h : P s) {e : Event} {connected : Bool}
    (hs : handleNetEvent s connected e = some t)
    (hdata : ∀ ud payload src, e = .recvData ud payload src → P t)
    (haccept : ∀ ud newpcb, e = .accept ud newpcb → P t)
    (hframe : ∀ c, suspending s e = some c → t = { s.call c with frame := some e } → P t)
    (hend : suspending s e = none → handlerEnd s connected e = some t → P t) : P t := by
  have hsusp : StopsOrEnds s connected e t → P t := by
    rintro (⟨c, hc, ht⟩ | ⟨hc, ht⟩)
    · exact hframe c hc ht
    · exact hend hc ht
  cases e with
  | dnsFound ud addr origin => exact hsusp (handleNetEvent_dnsFound hs)
  | err ud err => exact hsusp (handleNetEvent_err hs)
  | dnsStatic record cb addr =>
    cases hs
    exact hP.ldnsstaticCb h record cb addr
  | connected ud =>
    obtain ⟨u, -, rfl⟩ := Option.map_eq_some_iff.mp hs
    refine hP.callAny h fun c hc => ?_
    unfold lconnectedCb at hc
    split at hc
    · obtain ⟨f, -, rfl⟩ := Option.map_eq_some_iff.mp hc
      simp [LuaCall.plain]
    · cases hc
  | accept ud newpcb => exact haccept ud newpcb rfl
  | recvData ud payload src => exact hdata ud payload src rfl
  | sentData ud newpcb =>
    obtain ⟨u, -, rfl⟩ := Option.map_eq_some_iff.mp hs
    refine hP.callAny h fun c hc => ?_
    obtain ⟨f, -, rfl⟩ := Option.map_eq_some_iff.mp hc
    simp [LuaCall.plain]

end Stable

section

variable {s t : System} {ud : Ud} {u : Userdata} {e : Event}

def connectsTo (s : Sockets) (ud : Ud) : Option PcbId :=
  (s.uds ud).bind fun u =>
    if u.type = .tcpClient then u.pcb.filter fun p => (s.pcbs p).any Pcb.closed else none

def newConnect (s : System) : Event → Option Connect
  | .dnsFound ud addr origin => (connectsTo s.socks ud).map fun p => ⟨p, addr, origin⟩
  | _ => none

theorem handlerEnd_connects {connected : Bool} (hs : handlerEnd s connected e = some t) :
    ∃ x, Keeps s.socks x ∧ t = { s with
      socks := x
      log := { s.log with connects := s.log.connects ++ (newConnect s e).toList } } := by
  cases e with
  | dnsFound ud addr origin =>
    obtain ⟨u, hu, hs⟩ := Option.bind_eq_some_iff.mp hs
    have hkeeps : ∀ v : Userdata, v.type = u.type → Keeps s.socks (s.socks.setUd ud v) :=
      fun v ht => sets_setUd.keeps hu ht
    unfold ldnsfoundEnd at hs
    dsimp only at hs
    split at hs
    · rename_i p hp
      split at hs
      · rename_i ht
        obtain ⟨b, hb, rfl⟩ := Option.map_eq_some_iff.mp hs
        split
        · rename_i hc
          have hnew : newConnect s (.dnsFound ud addr origin) = some ⟨p, addr, origin⟩ := by
            simp [newConnect, connectsTo, hu, ht, hp, hb, hc]
          refine ⟨(s.socks.setUd ud { u with waitDns := u.waitDns - 1 }).setPcb p
            (some { b with closed := !connected }), (hkeeps _ (by rfl)).trans
            (keeps_of_uds rfl rfl (Nat.le_refl _)), ?_⟩
          rw [hnew]
          rfl
        · rename_i hc
          have hnew : newConnect s (.dnsFound ud addr origin) = none := by
            simp [newConnect, connectsTo, hu, ht, hp, hb, hc]
          refine ⟨_, hkeeps { u with waitDns := u.waitDns - 1 } rfl, ?_⟩
          simp [hnew, System.setUd]
      · rename_i ht
        cases hs
        have hnew : newConnect s (.dnsFound ud addr origin) = none := by
          simp [newConnect, connectsTo, hu, ht]
        refine ⟨_, hkeeps { u with waitDns := u.waitDns - 1 } rfl, ?_⟩
        simp [hnew, System.setUd]
    · rename_i hp
      have hnew : newConnect s (.dnsFound ud addr origin) = none := by
        simp [newConnect, connectsTo, hu, hp]
      split at hs
      · cases hs
        refine ⟨_, hkeeps { u with waitDns := u.waitDns - 1, selfRef := false } rfl, ?_⟩
        simp [hnew, System.setUd]
      · cases hs
        refine ⟨_, hkeeps { u with waitDns := u.waitDns - 1 } rfl, ?_⟩
        simp [hnew, System.setUd]
  | err ud err =>
    obtain ⟨u, hu, rfl⟩ := Option.map_eq_some_iff.mp hs
    unfold lerrEnd
    split
    · have hkeeps : Keeps s.socks (s.socks.setUd ud { u with selfRef := false }) :=
        sets_setUd.keeps hu rfl
      exact ⟨_, hkeeps, by simp [newConnect, System.setUd]⟩
    · exact ⟨s.socks, .refl, by simp [newConnect]⟩
  | _ => cases hs

theorem suspending_plain {c : LuaCall} (hc : suspending s e = some c) : c.plain := by
  cases e with
  | dnsFound ud addr origin =>
    obtain ⟨u, -, hc⟩ := Option.bind_eq_some_iff.mp hc
    unfold ldnsfoundCb at hc
    split at hc
    · obtain ⟨f, -, rfl⟩ := Option.map_eq_some_iff.mp hc
      intro x b
      unfold ipVal
      split <;> simp
    · cases hc
  | err ud err =>
    obtain ⟨u, -, hc⟩ := Option.bind_eq_some_iff.mp hc
    obtain ⟨f, -, rfl⟩ := Option.map_eq_some_iff.mp hc
    simp [LuaCall.plain]
  | _ => cases hc

theorem lacceptCb_bound {newpcb : PcbId} (hs : lacceptCb s ud u newpcb = some t) :
    ∃ x b c, Keeps s.socks x ∧ LuaCall.plain c ∧
      t = ({ s with socks := x, log := { s.log with bound := b } } : System).call c := by
  unfold lacceptCb at hs
  split at hs
  · rename_i f b _ _
    obtain ⟨n, hn, rfl⟩ := Option.map_eq_some_iff.mp hs
    refine ⟨_, _, ⟨f, some ud, [.sock s.socks.nextUd]⟩, ?_, by simp [LuaCall.plain], rfl⟩
    have hnew := netCreate_keeps (s := s.socks) .tcpClient none
    exact (hnew.trans (sets_setUd.keeps hn (by rfl))).trans (keeps_of_uds rfl rfl (Nat.le_refl _))
  · cases hs

end

end Esp32Project.Net
