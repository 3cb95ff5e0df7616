import Mathlib.Logic.Function.Basic

/-!
The sockets of net.c and the Lua calls that change only these and the lwIP
control blocks behind them. What lwIP answers is an argument of the call. A
registry reference is the function it stands for, `none` being LUA_NOREF.
-/

set_option autoImplicit false

namespace Esp32Project.Net

abbrev Ud := Nat
abbrev PcbId := Nat
abbrev Fn := Nat
abbrev Addr := Nat

/-- `ip_addr_any`, which also stands for a host that was not found. -/
def ipAddrAny : Addr := 0

inductive Err where
  | ok | mem | buf | timeout | rte | inProgress | val | wouldBlock | abrt | rst | clsd | conn
  | arg | use | netif | isConn | other
  deriving DecidableEq, Repr

/-- `lwip_lua_checkerr`: the text it raises. -/
def lwipLuaCheckerr : Err → Option String
  | .ok => none
  | .mem => some "out of memory"
  | .buf => some "buffer error"
  | .timeout => some "timeout"
  | .rte => some "routing problem"
  | .inProgress => some "in progress"
  | .val => some "illegal value"
  | .wouldBlock => some "would block"
  | .abrt => some "connection aborted"
  | .rst => some "connection reset"
  | .clsd => some "connection closed"
  | .conn => some "not connected"
  | .arg => some "illegal argument"
  | .use => some "address in use"
  | .netif => some "netif error"
  | .isConn => some "already connected"
  | .other => some "unknown error"

inductive NetType where
  | tcpServer
  | tcpClient
  | udpSocket
  deriving DecidableEq, Repr

def typeTcp : Int := 1
def typeUdp : Int := 2

/-- `lnet_userdata`. The server's half of the union is `cbAccept`, and the
other callbacks and `waitDns` are the clients' half. -/
structure Userdata where
  type : NetType
  selfRef : Bool
  pcb : Option PcbId
  cbAccept : Option Fn
  waitDns : Int
  cbDns : Option Fn
  cbReceive : Option Fn
  cbSent : Option Fn
  hold : Bool
  cbConnect : Option Fn
  cbDisconnect : Option Fn
  cbReconnect : Option Fn
  deriving DecidableEq, Repr

inductive PcbKind where
  | tcp
  | listen
  | udp
  deriving DecidableEq, Repr

/-- A control block of lwIP: the callback argument, whether `tcp_err`,
`tcp_recv` and `tcp_sent` were called for it, and whether it is CLOSED, as
`tcp_new` makes it. -/
structure Pcb where
  kind : PcbKind
  arg : Option Ud
  hooked : Bool
  closed : Bool
  remotePort : Nat
  deriving DecidableEq, Repr

/-- The userdata and control blocks there are, and the errors raised so far. -/
structure Sockets where
  uds : Ud → Option Userdata
  pcbs : PcbId → Option Pcb
  nextUd : Ud
  nextPcb : PcbId
  raised : List String

namespace Sockets

def init : Sockets := ⟨fun _ => none, fun _ => none, 0, 0, []⟩

/-- `luaL_error`: the call ends here. -/
def raise (s : Sockets) (text : String) : Sockets := { s with raised := s.raised ++ [text] }

def checkerr (s : Sockets) (err : Err) : Sockets := ((lwipLuaCheckerr err).map s.raise).getD s

def setUd (s : Sockets) (ud : Ud) (u : Userdata) : Sockets :=
  { s with uds := Function.update s.uds ud (some u) }

def setPcb (s : Sockets) (p : PcbId) (b : Option Pcb) : Sockets :=
  { s with pcbs := Function.update s.pcbs p b }

def newPcb (s : Sockets) (b : Pcb) : Sockets :=
  { s.setPcb s.nextPcb (some b) with nextPcb := s.nextPcb + 1 }

/-- `tcp_close`: a connection lives on in lwIP until it has shut down. -/
def tcpClose (s : Sockets) (p : PcbId) : Sockets :=
  match s.pcbs p with
  | some b => if b.kind = .listen ∨ b.closed = true then s.setPcb p none else s
  | none => s

end Sockets

/-- `net_create`. The userdata is `s.nextUd`. The memory behind the server's
half is not initialised; `junk` is what lies at `cb_sent_ref`. -/
def netCreate (s : Sockets) (type : NetType) (junk : Option Fn) : Sockets :=
  let u : Userdata :=
    { type, selfRef := false, pcb := none, cbAccept := none, waitDns := 0, cbDns := none,
      cbReceive := none, cbSent := if type = .tcpServer then junk else none, hold := false,
      cbConnect := none, cbDisconnect := none, cbReconnect := none }
  { s.setUd s.nextUd u with nextUd := s.nextUd + 1 }

def netCreateUDPSocket (s : Sockets) : Sockets := netCreate s .udpSocket none

/-- `net_createServer`. The timeout is not used. -/
def netCreateServer (s : Sockets) (type : Option Int) (junk : Option Fn) : Sockets :=
  let type := type.getD typeTcp
  if type = typeUdp then netCreateUDPSocket s
  else if type ≠ typeTcp then s.raise "invalid type"
  else netCreate s .tcpServer junk

/-- `net_createConnection`, built without CLIENT_SSL_ENABLE. -/
def netCreateConnection (s : Sockets) (type secure : Option Int) : Sockets :=
  let type := type.getD typeTcp
  let secure := secure.getD 0
  if type = typeUdp then netCreateUDPSocket s
  else if type ≠ typeTcp then s.raise "invalid type"
  else if secure ≠ 0 then s.raise "secure connections not enabled"
  else netCreate s .tcpClient none

/-- What lwIP answers to `net_listen` and to the binding in `net_send`: whether
`tcp_new` or `udp_new` has memory, the result of `tcp_bind` or `udp_bind`, and
whether `tcp_listen` has memory. -/
structure Binding where
  pcb : Bool
  bind : Err
  listen : Bool
  deriving DecidableEq, Repr

/-- `net_listen`. `addr` is what `ipaddr_aton` makes of the address given. -/
def netListen (s : Sockets) (ud : Ud) (u : Userdata) (addr : Option Addr) (fn : Option Fn)
    (b : Binding) : Sockets :=
  if u.type = .tcpClient then s.raise "invalid user data"
  else if u.pcb ≠ none then s.raise "already listening"
  else if addr = none then s.raise "invalid IP address"
  else if u.type = .tcpServer ∧ fn = none then s.raise "need callback"
  else
    let u := if u.type = .tcpServer then { u with cbAccept := fn } else u
    if !b.pcb then (s.setUd ud u).raise "cannot allocate PCB"
    else
      let p := s.nextPcb
      let kind := if u.type = .tcpServer then PcbKind.listen else .udp
      let s := s.newPcb ⟨kind, some ud, false, false, 0⟩
      let err := if u.type = .tcpServer ∧ b.bind = .ok ∧ !b.listen then Err.mem else b.bind
      if err ≠ .ok then ((s.setPcb p none).setUd ud u).checkerr err
      else s.setUd ud { u with pcb := some p, selfRef := true }

inductive OnName where
  | connection | disconnection | reconnection | dns | receive | sent | unknown
  deriving DecidableEq, Repr

/-- The third argument of `net_on`: a function, nil, or anything else. -/
inductive OnArg where
  | fn : Fn → OnArg
  | nil
  | invalid
  deriving DecidableEq, Repr

/-- The reference that a name stands for, as `refptr` in `net_on`. -/
def setCallback (u : Userdata) (name : OnName) (fn : Option Fn) : Option Userdata :=
  match name with
  | .connection => if u.type = .tcpClient then some { u with cbConnect := fn } else none
  | .disconnection => if u.type = .tcpClient then some { u with cbDisconnect := fn } else none
  | .reconnection => if u.type = .tcpClient then some { u with cbReconnect := fn } else none
  | .dns => some { u with cbDns := fn }
  | .receive => some { u with cbReceive := fn }
  | .sent => some { u with cbSent := fn }
  | .unknown => none

def netOn (s : Sockets) (ud : Ud) (u : Userdata) (name : OnName) (arg : OnArg) : Sockets :=
  if u.type = .tcpServer then s.raise "invalid user data"
  else
    let fn := match arg with
      | .fn f => some f
      | _ => none
    match setCallback u name fn with
    | none => s.raise "invalid callback name"
    | some u' =>
      if arg = .invalid then s.raise "invalid callback function" else s.setUd ud u'

/-- `net_hold` and `net_unhold`. -/
def netHold (s : Sockets) (ud : Ud) (u : Userdata) (hold : Bool) : Sockets :=
  if u.type ≠ .tcpClient then s.raise "invalid user data" else s.setUd ud { u with hold }

/-- The control block in `net_close`; `closed` is whether `tcp_close` succeeds.
If not, it is aborted, with its argument cleared, so that `net_err_cb` returns
at once. -/
def closePcb (s : Sockets) (type : NetType) (p : PcbId) (closed : Bool) : Sockets :=
  match type with
  | .tcpClient => if closed then s.tcpClose p else s.setPcb p none
  | .tcpServer => s.tcpClose p
  | .udpSocket => s.setPcb p none

def netClose (s : Sockets) (ud : Ud) (u : Userdata) (closed : Bool) : Sockets :=
  match u.pcb with
  | none => s.raise "not connected"
  | some p =>
    let s := closePcb s u.type p closed
    let u : Userdata := { u with pcb := none }
    if u.type = .tcpServer ∨ (u.pcb = none ∧ u.waitDns = 0) then
      s.setUd ud { u with selfRef := false }
    else s.setUd ud u

/-- `net_delete`, the `__gc` of a socket, after which its memory is freed. A
client's control block is aborted as in `net_close`. -/
def netDelete (s : Sockets) (ud : Ud) (u : Userdata) : Sockets :=
  let s := (u.pcb.map fun p => closePcb s u.type p false).getD s
  { s with uds := Function.update s.uds ud none }

end Esp32Project.Net
