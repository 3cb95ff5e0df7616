import Mathlib.Data.List.Basic
import Esp32Project.Net.Sockets

/-!
The traffic between the Lua task and lwIP: lookups under way, the event queues
of task.c, lwIP's callbacks, and the handlers of the events. The label of a
step says what lwIP, the allocator and the queues answer. The origin of a
lookup, and of the event that answers it, is the control block whose connect
call started it; the code does not keep it.
-/

set_option autoImplicit false

namespace Esp32Project.Net

/-- `lnet_event`. `net_tcp_recv_cb` gives no source address. A `sentData` event
carries a control block if `post_net_accept` made it. -/
inductive Event where
  | dnsFound (ud : Ud) (addr : Addr) (origin : Option PcbId)
  | dnsStatic (record : Nat) (cb : Fn) (addr : Addr)
  | connected (ud : Ud)
  | accept (ud : Ud) (newpcb : PcbId)
  | recvData (ud : Ud) (payload : List UInt8) (src : Option (Addr × Nat))
  | sentData (ud : Ud) (newpcb : Option PcbId)
  | err (ud : Ud) (err : Err)
  deriving DecidableEq, Repr

def Event.ud : Event → Option Ud
  | .dnsFound ud _ _ => some ud
  | .dnsStatic _ _ _ => none
  | .connected ud => some ud
  | .accept ud _ => some ud
  | .recvData ud _ _ => some ud
  | .sentData ud _ => some ud
  | .err ud _ => some ud

inductive LookupArg where
  | sock (ud : Ud)
  | record (record : Nat) (cb : Fn)
  deriving DecidableEq, Repr

structure Lookup where
  name : String
  arg : LookupArg
  origin : Option PcbId
  deriving DecidableEq, Repr

inductive LuaVal where
  | nil
  | sock (ud : Ud)
  | ip (addr : Addr)
  | str (bytes : List UInt8)
  | int (n : Nat)
  | err (err : Err)
  deriving DecidableEq, Repr

/-- A `lua_call`: the function, the socket whose event or call it comes from,
and the arguments. -/
structure LuaCall where
  fn : Fn
  ud : Option Ud
  args : List LuaVal
  deriving DecidableEq, Repr

/-- A pbuf chain: the bytes of its first segment and of the others. -/
structure Pbuf where
  first : List UInt8
  rest : List (List UInt8)
  deriving DecidableEq, Repr

structure Connect where
  pcb : PcbId
  ip : Addr
  origin : Option PcbId
  deriving DecidableEq, Repr

/-- A pbuf for which `net_tcp_recv_cb` returned ERR_OK. -/
structure Taken where
  ud : Ud
  id : Nat
  pbuf : Pbuf
  posted : Bool
  deriving DecidableEq, Repr

/-- A connection for which `net_accept_cb` returned ERR_OK. -/
structure Accepted where
  server : Ud
  newpcb : PcbId
  deriving DecidableEq, Repr

/-- What happened so far: Lua calls, `tcp_connect` calls, the answers to
lookups, pbufs taken, freed and acknowledged, received data for which no
callback was registered, accepted connections, the sockets that `laccept_cb`
made, and the freed records and released callbacks of `net.dns.resolve`. -/
structure Log where
  calls : List LuaCall
  connects : List Connect
  answers : List (Option PcbId × Addr)
  taken : List Taken
  pbufFreed : List Nat
  recved : List (Ud × Nat)
  unheard : List (Ud × List UInt8)
  accepted : List Accepted
  bound : List (Ud × PcbId)
  recordFreed : List Nat
  released : List Nat

/-- The two queues hold what `task_post_medium` and `task_post_high` put there.
`frame` is the event whose handler is in its Lua call and has code behind it. -/
structure System where
  socks : Sockets
  lookups : List Lookup
  medium : List Event
  high : List Event
  frame : Option Event
  nextPbuf : Nat
  nextRecord : Nat
  log : Log

namespace System

def init : System :=
  ⟨.init, [], [], [], none, 0, 0, ⟨[], [], [], [], [], [], [], [], [], [], []⟩⟩

def setUd (s : System) (ud : Ud) (u : Userdata) : System := { s with socks := s.socks.setUd ud u }

def raise (s : System) (text : String) : System := { s with socks := s.socks.raise text }

def checkerr (s : System) (err : Err) : System := { s with socks := s.socks.checkerr err }

/-- `malloc` of the record and `task_post_medium`; `posted` is whether both succeed. -/
def postMedium (s : System) (e : Event) (posted : Bool) : System :=
  if posted then { s with medium := s.medium ++ [e] } else s

def postHigh (s : System) (e : Event) (posted : Bool) : System :=
  if posted then { s with high := s.high ++ [e] } else s

def lookup (s : System) (l : Lookup) : System := { s with lookups := s.lookups ++ [l] }

def call (s : System) (c : LuaCall) : System := { s with log.calls := s.log.calls ++ [c] }

def callAny (s : System) (c : Option LuaCall) : System := (c.map s.call).getD s

end System

def netErrCb (s : System) (ud : Ud) (u : Userdata) (err : Err) (posted : Bool) : System :=
  if u.type ≠ .tcpClient ∨ u.selfRef = false then s
  else (s.setUd ud { u with pcb := none }).postMedium (.err ud err) posted

def netConnectedCb (s : System) (tpcb : PcbId) (ud : Ud) (u : Userdata) (err : Err)
    (posted : Bool) : System :=
  if u.pcb ≠ some tpcb then s
  else if err ≠ .ok then netErrCb s ud u err posted
  else s.postMedium (.connected ud) posted

/-- `net_dns_cb`, with `none` for a host that was not found. It does not look
into the userdata. -/
def netDnsCb (s : System) (ud : Ud) (origin : Option PcbId) (ipaddr : Option Addr)
    (posted : Bool) : System :=
  let addr := ipaddr.getD ipAddrAny
  { s with log.answers := s.log.answers ++ [(origin, addr)] }.postMedium
    (.dnsFound ud addr origin) posted

def netUdpRecvCb (s : System) (ud : Ud) (u : Userdata) (p : Pbuf) (addr : Addr) (port : Nat)
    (posted : Bool) : System :=
  let id := s.nextPbuf
  let s := { s with nextPbuf := id + 1 }
  if u.pcb = none ∨ u.type ≠ .udpSocket ∨ u.selfRef = false then
    { s with log.pbufFreed := s.log.pbufFreed ++ [id] }
  else s.postHigh (.recvData ud p.first (some (addr, port))) posted

/-- `net_tcp_recv_cb` with a pbuf. The event has `p->len` bytes, and so many
are acknowledged. -/
def tcpRecvData (s : System) (ud : Ud) (p : Pbuf) (posted : Bool) : System :=
  let id := s.nextPbuf
  let s := { s with nextPbuf := id + 1 }
  let s := s.postHigh (.recvData ud p.first none) posted
  let s := if posted then { s with log.recved := s.log.recved ++ [(ud, p.first.length)] } else s
  { s with log.taken := s.log.taken ++ [⟨ud, id, p, posted⟩] }

/-- `net_tcp_recv_cb`, with `none` when the other side has closed. -/
def netTcpRecvCb (s : System) (tpcb : PcbId) (ud : Ud) (u : Userdata) (p : Option Pbuf) (err : Err)
    (posted : Bool) : System :=
  if u.pcb = none ∨ u.type ≠ .tcpClient ∨ u.selfRef = false then s
  else
    match p with
    | none =>
      let s := netErrCb s ud u err posted
      { s with socks := s.socks.tcpClose tpcb }
    | some p => tcpRecvData s ud p posted

def netSentCb (s : System) (ud : Ud) (u : Userdata) (posted : Bool) : System :=
  if u.pcb = none ∨ u.type ≠ .tcpClient ∨ u.selfRef = false then s
  else if u.cbSent = none then s
  else s.postMedium (.sentData ud none) posted

/-- `net_accept_cb`, with `post_net_accept`, whose event is tagged SENTDATA.
lwIP gives the new connection the callback argument of the listening one, and
takes it for aborted already when the callback returns ERR_ABRT. -/
def netAcceptCb (s : System) (ud : Ud) (u : Userdata) (posted : Bool) : System :=
  let newpcb := s.socks.nextPcb
  let s := { s with socks := s.socks.newPcb ⟨.tcp, some ud, false, false, 0⟩ }
  if u.type ≠ .tcpServer ∨ u.pcb = none ∨ u.selfRef = false ∨ u.cbAccept = none then s
  else if posted then
    { s.postMedium (.sentData ud (some newpcb)) posted with
      log.accepted := s.log.accepted ++ [⟨ud, newpcb⟩] }
  else s

/-- What lwIP answers to `net_connect` and `net_dns`: whether `tcp_new` has
memory, and the result and address of `dns_gethostbyname`. `posted` is for the
event of an immediate answer or of the abort. -/
structure Answer where
  pcb : Bool
  err : Err
  addr : Addr
  posted : Bool
  deriving DecidableEq, Repr

/-- `net_connect` when no lookup could be started. -/
def abortConnect (s : System) (ud : Ud) (u : Userdata) (p : PcbId) (a : Answer) : System :=
  -- `tcp_abort` calls `net_err_cb`
  let s := netErrCb (s.setUd ud u) ud u .abrt a.posted
  let s := { s with socks := s.socks.setPcb p none }
  (s.setUd ud { u with pcb := none }).checkerr a.err

def netConnect (s : System) (ud : Ud) (u : Userdata) (port : Int) (domain : Option String)
    (a : Answer) : System :=
  let port := (port % 65536).toNat
  let domain := domain.getD "127.0.0.1"
  if u.type ≠ .tcpClient then s.raise "invalid user data"
  else if u.pcb ≠ none then s.raise "already connected"
  else if port = 0 then s.raise "specify port"
  else if !a.pcb then s.raise "cannot allocate PCB"
  else
    let p := s.socks.nextPcb
    let s := { s with socks := s.socks.newPcb ⟨.tcp, some ud, true, true, port⟩ }
    let unref := !u.selfRef
    let u := { u with pcb := some p, waitDns := u.waitDns + 1, selfRef := true }
    let s := s.setUd ud u
    if a.err = .ok then netDnsCb s ud (some p) (some a.addr) a.posted
    else if a.err ≠ .inProgress then
      abortConnect s ud { u with waitDns := u.waitDns - 1, selfRef := !unref } p a
    else s.lookup ⟨domain, .sock ud, some p⟩

def netDns (s : System) (ud : Ud) (u : Userdata) (domain : String) (fn : Option Fn)
    (a : Answer) : System :=
  if u.type = .tcpServer then s.raise "invalid user data"
  else
    let u := { u with cbDns := fn.or u.cbDns }
    if u.cbDns = none then (s.setUd ud u).raise "no callback specified"
    else
      let unref := !u.selfRef
      let u := { u with waitDns := u.waitDns + 1, selfRef := true }
      let s := s.setUd ud u
      if a.err = .ok then netDnsCb s ud none (some a.addr) a.posted
      else if a.err ≠ .inProgress then
        (s.setUd ud { u with waitDns := u.waitDns - 1, selfRef := !unref }).checkerr a.err
      else s.lookup ⟨domain, .sock ud, none⟩

/-- What lwIP answers to `net_send`: the binding of a UDP socket, whether
`pbuf_alloc` has memory, and the result of `udp_sendto` or `tcp_write`. -/
structure Sending where
  binding : Binding
  pbuf : Bool
  err : Err
  deriving DecidableEq, Repr

/-- The part of `net_send` that gives a UDP socket its control block. Without a
userdata the call has ended with an error. -/
def bindUdp (s : Sockets) (ud : Ud) (u : Userdata) (b : Binding) : Sockets × Option Userdata :=
  if u.type = .udpSocket ∧ u.pcb = none then
    if !b.pcb then (s.raise "cannot allocate PCB", none)
    else
      let p := s.nextPcb
      let s := s.newPcb ⟨.udp, some ud, false, false, 0⟩
      if b.bind ≠ .ok then ((s.setPcb p none).checkerr b.bind, none)
      else
        let u := { u with pcb := some p, selfRef := true }
        (s.setUd ud u, some u)
  else (s, some u)

def sendData (s : System) (ud : Ud) (u : Userdata) (a : Sending) : System :=
  if u.pcb = none ∨ u.selfRef = false then s.raise "not connected"
  else if u.type = .udpSocket then
    if !a.pbuf then s.raise "cannot allocate message buffer"
    else (s.callAny (u.cbSent.map fun f => ⟨f, some ud, [.sock ud]⟩)).checkerr a.err
  else s.checkerr a.err

/-- `net_send`. A UDP socket has a port and what `ipaddr_aton` makes of the
address. -/
def netSend (s : System) (ud : Ud) (u : Userdata) (port : Int) (addr : Option Addr)
    (data : List UInt8) (fn : Option Fn) (a : Sending) : System :=
  if u.type = .tcpServer then s.raise "invalid user data"
  else if u.type = .udpSocket ∧ port % 65536 = 0 then s.raise "need port"
  else if u.type = .udpSocket ∧ addr = none then s.raise "invalid IP address"
  else if data = [] then s.raise "no data to send"
  else
    let u := { u with cbSent := fn.or u.cbSent }
    let s := s.setUd ud u
    let (socks, bound) := bindUdp s.socks ud u a.binding
    let s := { s with socks }
    (bound.map fun u => sendData s ud u a).getD s

def netDnsStaticCb (s : System) (record : Nat) (cb : Fn) (ipaddr : Option Addr)
    (posted : Bool) : System :=
  if posted then s.postMedium (.dnsStatic record cb (ipaddr.getD ipAddrAny)) posted
  else { s with log.recordFreed := s.log.recordFreed ++ [record] }

/-- `net_dns_static`; `alloc` is whether `malloc` has memory, and `fn` is the
function given or the name of another type. Raising an error leaves the code
behind it undone. -/
def netDnsStatic (s : System) (domain : String) (fn : Except String Fn) (alloc : Bool)
    (a : Answer) : System :=
  if !alloc then s.raise "out of memory"
  else
    let record := s.nextRecord
    let s := { s with nextRecord := record + 1 }
    match fn with
    | .error got => s.raise ("function or lightfunction expected, got " ++ got)
    | .ok cb =>
      if a.err = .ok then netDnsStaticCb s record cb (some a.addr) a.posted
      else if a.err = .inProgress then s.lookup ⟨domain, .record record cb, none⟩
      else s.checkerr a.err

/-- `self_ref` as the handlers push it. -/
def selfVal (ud : Ud) (u : Userdata) : LuaVal := if u.selfRef then .sock ud else .nil

def ipVal (addr : Addr) : LuaVal := if addr = ipAddrAny then .nil else .ip addr

/-- `ldnsfound_cb`: its Lua call. -/
def ldnsfoundCb (ud : Ud) (u : Userdata) (addr : Addr) : Option LuaCall :=
  if u.selfRef then u.cbDns.map fun f => ⟨f, some ud, [selfVal ud u, ipVal addr]⟩ else none

/-- `ldnsfound_cb` from the Lua call on. `connected` is whether `tcp_connect`
succeeds and the control block is no longer CLOSED. -/
def ldnsfoundEnd (s : System) (ud : Ud) (u : Userdata) (addr : Addr) (origin : Option PcbId)
    (connected : Bool) : Option System :=
  let u := { u with waitDns := u.waitDns - 1 }
  let t := s.setUd ud u
  match u.pcb with
  | some p =>
    if u.type = .tcpClient then
      (s.socks.pcbs p).map fun b =>
        if b.closed then
          { t with
            socks := t.socks.setPcb p (some { b with closed := !connected })
            log.connects := t.log.connects ++ [⟨p, addr, origin⟩] }
        else t
    else some t
  | none => if u.waitDns = 0 then some (s.setUd ud { u with selfRef := false }) else some t

def lconnectedCb (ud : Ud) (u : Userdata) : Option LuaCall :=
  if u.selfRef then u.cbConnect.map fun f => ⟨f, some ud, [selfVal ud u]⟩ else none

/-- `laccept_cb`. Calling nil is an error that nothing catches. -/
def lacceptCb (s : System) (ud : Ud) (u : Userdata) (newpcb : PcbId) : Option System :=
  match u.cbAccept, s.socks.pcbs newpcb with
  | some f, some b =>
    let nud := s.socks.nextUd
    let socks := netCreate s.socks .tcpClient none
    (socks.uds nud).map fun n =>
      let socks := socks.setUd nud { n with selfRef := true, pcb := some newpcb }
      { s with
        socks := socks.setPcb newpcb (some { b with arg := some nud, hooked := true })
        log.bound := s.log.bound ++ [(nud, newpcb)] }.call ⟨f, some ud, [.sock nud]⟩
  | _, _ => none

def lrecvCb (ud : Ud) (u : Userdata) (payload : List UInt8) (src : Option (Addr × Nat)) :
    Option LuaCall :=
  let (ip, port) := src.getD (ipAddrAny, 0)
  let udp := if u.type = .udpSocket then [.int port, .ip ip] else []
  u.cbReceive.map fun f => ⟨f, some ud, [selfVal ud u, .str payload] ++ udp⟩

def lsentCb (ud : Ud) (u : Userdata) : Option LuaCall :=
  u.cbSent.map fun f => ⟨f, some ud, [selfVal ud u]⟩

/-- `lerr_cb`: its Lua call. -/
def lerrCb (ud : Ud) (u : Userdata) (err : Err) : Option LuaCall :=
  let ref := if err ≠ .ok ∧ u.cbReconnect ≠ none then u.cbReconnect else u.cbDisconnect
  ref.map fun f => ⟨f, some ud, [selfVal ud u, .err err]⟩

/-- `lerr_cb` from the Lua call on. -/
def lerrEnd (s : System) (ud : Ud) (u : Userdata) : System :=
  if u.waitDns = 0 then s.setUd ud { u with selfRef := false } else s

/-- `ldnsstatic_cb`, and the `free` behind it. -/
def ldnsstaticCb (s : System) (record : Nat) (cb : Fn) (addr : Addr) : System :=
  let s := { s with log.released := s.log.released ++ [record] }
  let s := s.call ⟨cb, none, [ipVal addr]⟩
  { s with log.recordFreed := s.log.recordFreed ++ [record] }

/-- `next_event` of task.c: the queue of the highest priority comes first. -/
def nextEvent (s : System) : Option (Event × System) :=
  match s.high, s.medium with
  | e :: es, _ => some (e, { s with high := es })
  | [], e :: es => some (e, { s with medium := es })
  | [], [] => none

/-- The Lua call of a handler that has code behind it. -/
def suspending (s : System) : Event → Option LuaCall
  | .dnsFound ud addr _ => (s.socks.uds ud).bind fun u => ldnsfoundCb ud u addr
  | .err ud err => (s.socks.uds ud).bind fun u => lerrCb ud u err
  | _ => none

/-- The code behind the Lua call; no other handler has any. -/
def handlerEnd (s : System) (connected : Bool) : Event → Option System
  | .dnsFound ud addr origin =>
    (s.socks.uds ud).bind fun u => ldnsfoundEnd s ud u addr origin connected
  | .err ud _ => (s.socks.uds ud).map fun u => lerrEnd s ud u
  | _ => none

/-- `handle_net_event`. The memory of a collected userdata is not there any more. -/
def handleNetEvent (s : System) (connected : Bool) (e : Event) : Option System :=
  match e with
  | .dnsStatic record cb addr => some (ldnsstaticCb s record cb addr)
  | .connected ud => (s.socks.uds ud).map fun u => s.callAny (lconnectedCb ud u)
  | .accept ud newpcb => (s.socks.uds ud).bind fun u => lacceptCb s ud u newpcb
  | .recvData ud payload src =>
    (s.socks.uds ud).map fun u =>
      match lrecvCb ud u payload src with
      | some c => s.call c
      | none => { s with log.unheard := s.log.unheard ++ [(ud, payload)] }
  | .sentData ud _ => (s.socks.uds ud).map fun u => s.callAny (lsentCb ud u)
  | .dnsFound .. | .err .. =>
    match suspending s e with
    | some c => some { s.call c with frame := some e }
    | none => handlerEnd s connected e

inductive ApiCall where
  | listen (addr : Option Addr) (fn : Option Fn) (b : Binding)
  | connect (port : Int) (domain : Option String) (a : Answer)
  | on (name : OnName) (arg : OnArg)
  | send (port : Int) (addr : Option Addr) (data : List UInt8) (fn : Option Fn) (a : Sending)
  | hold (hold : Bool)
  | dns (domain : String) (fn : Option Fn) (a : Answer)
  | close (closed : Bool)

def apiCall (s : System) (ud : Ud) (u : Userdata) : ApiCall → System
  | .listen addr fn b => { s with socks := netListen s.socks ud u addr fn b }
  | .connect port domain a => netConnect s ud u port domain a
  | .on name arg => { s with socks := netOn s.socks ud u name arg }
  | .send port addr data fn a => netSend s ud u port addr data fn a
  | .hold hold => { s with socks := netHold s.socks ud u hold }
  | .dns domain fn a => netDns s ud u domain fn a
  | .close closed => { s with socks := netClose s.socks ud u closed }

/-- What lwIP calls back for a control block. -/
inductive Callback where
  | err (err : Err) (posted : Bool)
  | connected (err : Err) (posted : Bool)
  | tcpRecv (p : Option Pbuf) (err : Err) (posted : Bool)
  | udpRecv (p : Pbuf) (addr : Addr) (port : Nat) (posted : Bool)
  | sent (posted : Bool)
  | accept (posted : Bool)

/-- lwIP has this callback for the control block. A CLOSED one is in none of
the lists that lwIP works on. -/
def Callback.registered (b : Pcb) : Callback → Bool
  | .udpRecv .. => b.kind = .udp
  | .accept _ => b.kind = .listen
  | _ => b.kind = .tcp && b.hooked && !b.closed

/-- After `net_err_cb` lwIP frees the control block. -/
def callback (s : System) (p : PcbId) (ud : Ud) (u : Userdata) : Callback → System
  | .err err posted =>
    let s := netErrCb s ud u err posted
    { s with socks := s.socks.setPcb p none }
  | .connected err posted => netConnectedCb s p ud u err posted
  | .tcpRecv pb err posted => netTcpRecvCb s p ud u pb err posted
  | .udpRecv pb addr port posted => netUdpRecvCb s ud u pb addr port posted
  | .sent posted => netSentCb s ud u posted
  | .accept posted => netAcceptCb s ud u posted

/-- A step of the Lua program, of lwIP, or of the Lua task. -/
inductive Label where
  | createUDPSocket
  | createServer (type : Option Int) (junk : Option Fn)
  | createConnection (type secure : Option Int)
  | api (ud : Ud) (c : ApiCall)
  | resolve (domain : String) (fn : Except String Fn) (alloc : Bool) (a : Answer)
  | gc (ud : Ud)
  | lwip (p : PcbId) (c : Callback)
  | dnsDone (i : Nat) (ipaddr : Option Addr) (posted : Bool)
  | handle (connected : Bool)
  | resume (connected : Bool)

def dnsDone (s : System) (l : Lookup) (ipaddr : Option Addr) (posted : Bool) : System :=
  match l.arg with
  | .sock ud => netDnsCb s ud l.origin ipaddr posted
  | .record record cb => netDnsStaticCb s record cb ipaddr posted

/-- Only a userdata that is not anchored can be collected. -/
def step (s : System) : Label → Option System
  | .createUDPSocket => some { s with socks := netCreateUDPSocket s.socks }
  | .createServer type junk => some { s with socks := netCreateServer s.socks type junk }
  | .createConnection type secure =>
    some { s with socks := netCreateConnection s.socks type secure }
  | .api ud c => (s.socks.uds ud).map fun u => apiCall s ud u c
  | .resolve domain fn alloc a => some (netDnsStatic s domain fn alloc a)
  | .gc ud => (s.socks.uds ud).bind fun u =>
    if u.selfRef then none else some { s with socks := netDelete s.socks ud u }
  | .lwip p c => (s.socks.pcbs p).bind fun b =>
    if c.registered b then
      match b.arg with
      | none => some s
      | some ud => (s.socks.uds ud).map fun u => callback s p ud u c
    else none
  | .dnsDone i ipaddr posted => s.lookups[i]?.map fun l =>
    dnsDone { s with lookups := s.lookups.eraseIdx i } l ipaddr posted
  | .handle connected =>
    if s.frame = none then (nextEvent s).bind fun (e, t) => handleNetEvent t connected e else none
  | .resume connected =>
    s.frame.bind fun e => handlerEnd { s with frame := none } connected e

end Esp32Project.Net
