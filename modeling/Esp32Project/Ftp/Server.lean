import Esp32Project.Ftp.Lexer
import Mathlib.Algebra.Group.Int.Defs
import Mathlib.Algebra.Group.Nat.Defs

/-!
The state of the FTP server: the control connection, the data connection, the
open file and the buffer that transfers share with RNFR. What the network, the
clock and the card answer during a call of `handleFTP` is its input.
-/

set_option autoImplicit false

namespace Esp32Project.Ftp

def ftpTimeOut : Nat := 5
def ftpDataPortPasv : UInt16 := 50009

abbrev Conn := Nat

inductive Mode where
  | read
  | write
  deriving DecidableEq, Repr

structure Address where
  ip : Vector UInt8 4
  port : UInt16
  deriving DecidableEq, Repr

/-- What leaves or enters the server. -/
inductive Event where
  | accepted (c : Conn)
  | received (c : Conn) (b : UInt8)
  | replied (c : Conn) (text : List UInt8)
  /-- `processCommand` runs -/
  | command (c : Option Conn) (name : List UInt8) (parameters : Option (List UInt8))
  /-- RNFR is answered with 350 -/
  | renameFrom (c : Option Conn) (path : List UInt8)
  | rename (c : Option Conn) (source target : List UInt8)
  | removed (path : List UInt8)
  | opened (file : Nat) (path : List UInt8) (mode : Mode)
  | closed (file : Nat)
  /-- a data connection, and whom it is with -/
  | dataAccepted (d : Nat) (peer : Address)
  | dataStopped (d : Nat)
  | dataLine (text : List UInt8)
  /-- a slice of a transfer: bytes read, bytes that the sink took -/
  | moved (read taken : Nat)
  deriving DecidableEq, Repr

structure Entry where
  name : List UInt8
  size : Nat
  isDirectory : Bool

/-- The answers that one call of `handleFTP` gets. -/
structure Input where
  /-- the clock at the first check, in milliseconds -/
  now : Nat
  /-- the clock at the later readings -/
  later : Nat
  /-- `ftpServer.hasClient()` -/
  pending : Bool
  connected : Bool
  byte : Option UInt8
  /-- `data.connected()` asked by a command -/
  dataConnected : Bool
  /-- a client of the data server, and whether it is still connected when asked -/
  dataPending : Option Bool
  /-- where that client is -/
  dataPeer : Address
  /-- `data.connected()` asked by a transfer -/
  dataOpen : Bool
  localIp : Vector UInt8 4
  found : List UInt8 → Bool
  size : List UInt8 → Mode → Option Nat
  entries : Option (List Entry)
  removes : Bool
  renames : Bool
  /-- what `readBytes` delivers to a transfer -/
  source : List UInt8
  /-- what the sink of a transfer takes -/
  taken : Nat

structure Server where
  client : Option Conn
  data : Option Nat
  file : Option Nat
  dataIp : Vector UInt8 4
  dataPassiveConn : Bool
  dataPort : UInt16
  buf : List UInt8
  lexer : Lexer
  cwdName : CString ftpCwdSize
  rnfrCmd : Bool
  cmdStatus : Nat
  transferStatus : Nat
  millisTimeOut : UInt32
  millisDelay : UInt32
  millisEndConnection : UInt32
  millisBeginTrans : UInt32
  bytesTransfered : UInt32
  ftpUser : List UInt8
  ftpPass : List UInt8
  nextConn : Nat
  nextData : Nat
  nextFile : Nat
  log : List Event

def millis (t : Nat) : UInt32 := UInt32.ofNat t

/-- `(int32_t)(deadline - now) > 0` -/
def ahead (deadline now : UInt32) : Bool := 0 < Int.bmod (deadline - now).toNat (2 ^ 32)

def rootDir : CString ftpCwdSize := ⟨[slash], by decide⟩

def Server.emit (s : Server) (e : Event) : Server := { s with log := s.log ++ [e] }

/-- `client.println`; a stopped client prints nothing. -/
def Server.println (s : Server) (text : List UInt8) : Server :=
  match s.client with
  | some c => s.emit (.replied c text)
  | none => s

def Server.say (s : Server) (text : String) : Server := s.println (ascii text)

/-- `client.connected()`: a connection seen closed stays closed. -/
def Server.checkClient (s : Server) (connected : Bool) : Server :=
  if connected then s else { s with client := none }

def Server.checkData (s : Server) (connected : Bool) : Server :=
  if connected then s else { s with data := none }

def Server.dataStop (s : Server) : Server :=
  match s.data with
  | some d => { s with data := none }.emit (.dataStopped d)
  | none => s

def Server.fileClose (s : Server) : Server :=
  match s.file with
  | some f => { s with file := none }.emit (.closed f)
  | none => s

/-- `file = SD.open(path, mode)` -/
def Server.fileOpen (s : Server) (i : Input) (path : List UInt8) (mode : Mode) : Server :=
  match i.size path mode with
  | some _ => { s with file := some s.nextFile, nextFile := s.nextFile + 1 }.emit
      (.opened s.nextFile path mode)
  | none => { s with file := none }

def iniVariables (s : Server) : Server :=
  { s with
    dataPort := ftpDataPortPasv
    dataPassiveConn := true
    cwdName := rootDir
    rnfrCmd := false
    transferStatus := 0 }

def start (uname pword : List UInt8) : Server :=
  iniVariables
    { client := none
      data := none
      file := none
      dataIp := Vector.replicate 4 0
      dataPassiveConn := false
      dataPort := 0
      buf := List.replicate ftpBufSize 0
      lexer := ⟨Vector.replicate ftpCmdSize 0, noCommand, none, 0⟩
      cwdName := ⟨[], by decide⟩
      rnfrCmd := false
      cmdStatus := 0
      transferStatus := 0
      millisTimeOut := UInt32.ofNat (ftpTimeOut * 60 * 1000)
      millisDelay := 0
      millisEndConnection := 0
      millisBeginTrans := 0
      bytesTransfered := 0
      ftpUser := uname
      ftpPass := pword
      nextConn := 0
      nextData := 0
      nextFile := 0
      log := [] }

def abortTransfer (s : Server) : Server :=
  let s := if s.transferStatus > 0 then s.fileClose.dataStop.say "426 Transfer aborted" else s
  { s with transferStatus := 0 }

def disconnectClient (s : Server) : Server :=
  { (abortTransfer s).say "221 Goodbye" with client := none }

def clientConnected (s : Server) : Server :=
  let s := s.say "220--- Welcome to FTP for ESP32 ---"
  let s := s.say "220---   By David Paiva   ---"
  let s := s.say "220 --   Version FTP-2016-01-14   --"
  { s with lexer := s.lexer.restart }

/-- `client.stop()` and the new client in its place. -/
def acceptClient (s : Server) : Server :=
  { s with client := some s.nextConn, nextConn := s.nextConn + 1 }.emit (.accepted s.nextConn)

def decimal (n : Nat) : List UInt8 := ascii (toString n)

def closeTransfer (i : Input) (s : Server) : Server :=
  let deltaT := millis i.later - s.millisBeginTrans
  let s :=
    if deltaT > 0 ∧ s.bytesTransfered > 0 then
      (s.say "226-File successfully transferred").println
        (ascii "226 " ++ decimal deltaT.toNat ++ ascii " ms, " ++
          decimal (s.bytesTransfered / deltaT).toNat ++ ascii " kbytes/s")
    else s.say "226 File successfully transferred"
  s.fileClose.dataStop

def overwrite (buf bytes : List UInt8) : List UInt8 := bytes ++ buf.drop bytes.length

def moveSlice (i : Input) (s : Server) (bytes : List UInt8) : Server :=
  { s with
    buf := overwrite s.buf bytes
    bytesTransfered := s.bytesTransfered + UInt32.ofNat bytes.length }.emit
      (.moved bytes.length i.taken)

def doRetrieve (i : Input) (s : Server) : Server × Bool :=
  let bytes := if s.file.isSome then i.source.take ftpBufSize else []
  if bytes.length > 0 then (moveSlice i s bytes, true) else (closeTransfer i s, false)

def doStore (i : Input) (s : Server) : Server × Bool :=
  let s := s.checkData i.dataOpen
  if s.data.isSome then
    let bytes := i.source.take ftpBufSize
    (if bytes.length > 0 then moveSlice i s bytes else s, true)
  else (closeTransfer i s, false)

def fullName (cwd param : List UInt8) : Except Fault (List UInt8) :=
  if param.head? = some slash then .ok param
  -- the last character of an empty string is read
  else if cwd = [] then .error .bounds
  else .ok (cwd ++ (if cwd.getLast? = some slash then [] else [slash]) ++ param)

/-- `makePath` into an array of `cap` characters: what it writes there, and its
result. -/
def makePath (cap : Nat) (cwd param : List UInt8) : Except Fault (List UInt8 × Bool) :=
  if param = [slash] ∨ param = [] then .ok ([slash, 0], true)
  else do
    let full ← fullName cwd param
    if cap ≤ full.length then .error .bounds
    else if full.getLast? = some slash ∧ full.length > 2 then
      return (full.dropLast ++ [0, 0], full.length - 1 < ftpCwdSize)
    else return (full ++ [0], full.length < ftpCwdSize)

end Esp32Project.Ftp
