import Esp32Project.Ftp.Server

/-!
The commands of a session and one call of `handleFTP`.
-/

set_option autoImplicit false

namespace Esp32Project.Ftp

/-- A string function gets `parameters`. -/
def given : Option (List UInt8) → Except Fault (List UInt8)
  | some p => .ok p
  | none => .error .null

def text (parameters : Option (List UInt8)) : List UInt8 := parameters.getD []

def tooLong : String := "500 Command line too long"

/-- `makePath( path )` in an array of its own; none when it does not succeed. -/
def localPath (s : Server) (param : List UInt8) :
    Except Fault (Server × Option (List UInt8)) := do
  let (written, ok) ← makePath ftpCwdSize s.cwdName.text param
  if ok then return (s, some (cString written)) else return (s.say tooLong, none)

def withFile (s : Server) (parameters : Option (List UInt8))
    (run : Server → List UInt8 → List UInt8 → Server) : Except Fault Server := do
  let p ← given parameters
  if p.length = 0 then return s.say "501 No file name"
  let (s, path) ← localPath s p
  match path with
  | some path => return run s p path
  | none => return s

def dataConnect (i : Input) (s : Server) : Server × Bool :=
  let s := s.checkData i.dataConnected
  let s :=
    if s.data.isSome then s
    else
      match i.dataPending with
      | some open_ =>
        { s with data := if open_ then some s.nextData else none, nextData := s.nextData + 1 }.emit
          (.dataAccepted s.nextData i.dataPeer)
      | none => s
  (s, s.data.isSome)

def cwd (s : Server) (parameters : Option (List UInt8)) : Except Fault Server := do
  let p ← given parameters
  if p = ascii "." then
    return s.println (ascii "257 \"" ++ s.cwdName.text ++ ascii "\" is your current directory")
  let cwdName ← strcpy ftpCwdSize p
  let s := { s with cwdName }
  return s.println (ascii "250 Ok. Current directory is " ++ s.cwdName.text)

def mode (s : Server) (parameters : Option (List UInt8)) : Except Fault Server := do
  let p ← given parameters
  if p = ascii "S" then return s.say "200 S Ok"
  return s.say "504 Only S(tream) is suported"

def pasv (i : Input) (s : Server) : Server :=
  let s := (s.checkData i.dataConnected).dataStop
  let s := { s with dataIp := i.localIp, dataPort := ftpDataPortPasv, dataPassiveConn := true }
  let ip := s.dataIp.toList.flatMap fun b => decimal b.toNat ++ ascii ","
  s.println (ascii "227 Entering Passive Mode (" ++ ip ++ decimal (s.dataPort >>> 8).toNat ++
    ascii "," ++ decimal (s.dataPort &&& 255).toNat ++ ascii ").")

def comma : UInt8 := 44

def strchrComma (p : List UInt8) : Option (List UInt8) :=
  if comma ∈ p then some (p.dropWhile (· != comma)) else none

def isSpace (c : UInt8) : Bool := c = blank || (9 ≤ c && c ≤ 13)

def isDigit (c : UInt8) : Bool := 48 ≤ c && c ≤ 57

def atoi (p : List UInt8) : Int :=
  let p := p.dropWhile isSpace
  let number (p : List UInt8) : Int :=
    (p.takeWhile isDigit).foldl (fun n c => 10 * n + ((c - 48).toNat : Int)) 0
  match p with
  | 45 :: p => - number p
  | 43 :: p => number p
  | p => number p

/-- `++ p`, of a pointer that the next function reads. -/
def next : Option (List UInt8) → Except Fault (List UInt8)
  | some p => .ok p.tail
  | none => .error .null

def byteOf (n : Int) : UInt8 := UInt8.ofNat (n % 2 ^ 8).toNat

def wordOf (n : Int) : UInt16 := UInt16.ofNat (n % 2 ^ 16).toNat

def port (i : Input) (s : Server) (parameters : Option (List UInt8)) : Except Fault Server := do
  let s := (s.checkData i.dataConnected).dataStop
  let p₀ ← given parameters
  let p₁ ← next (strchrComma p₀)
  let p₂ ← next (strchrComma p₁)
  let p₃ ← next (strchrComma p₂)
  let p₄ ← next (strchrComma p₃)
  let p₅ ← next (strchrComma p₄)
  let dataIp := #v[byteOf (atoi p₀), byteOf (atoi p₁), byteOf (atoi p₂), byteOf (atoi p₃)]
  let dataPort := wordOf (256 * atoi p₄) + wordOf (atoi p₅)
  -- the pointer has been advanced before the test for NULL, which never holds
  return { s with dataIp, dataPort, dataPassiveConn := false }.say "200 PORT command successful"

def stru (s : Server) (parameters : Option (List UInt8)) : Except Fault Server := do
  let p ← given parameters
  if p = ascii "F" then return s.say "200 F Ok"
  return s.say "504 Only F(ile) is suported"

def type (s : Server) (parameters : Option (List UInt8)) : Except Fault Server := do
  let p ← given parameters
  if p = ascii "A" then return s.say "200 TYPE is now ASII"
  if p = ascii "I" then return s.say "200 TYPE is now 8-bit binary"
  return s.say "504 Unknow TYPE"

def dele (i : Input) (s : Server) (parameters : Option (List UInt8)) : Except Fault Server :=
  withFile s parameters fun s p path =>
    if !i.found path then s.println (ascii "550 File " ++ p ++ ascii " not found")
    else if i.removes then (s.emit (.removed path)).println (ascii "250 Deleted " ++ p)
    else s.println (ascii "450 Can't delete " ++ p)

/-- LIST, MLSD and NLST: what they answer without a data connection, without a
directory, and to each entry. -/
def listing (i : Input) (s : Server) (unconnected : String) (missing : Option (List UInt8))
    (line : Entry → List UInt8) (options : List String) : Server :=
  let (s, connected) := dataConnect i s
  if !connected then s.say unconnected
  else
    let s := s.say "150 Accepted data connection"
    let s :=
      match missing with
      | some text => s.println text
      | none =>
        let entries := i.entries.getD []
        let s := entries.foldl (fun (s : Server) e => s.emit (.dataLine (line e))) s
        let s := options.foldl Server.say s
        s.println (ascii "226 " ++ decimal entries.length ++ ascii " matches total")
    s.dataStop

def list (i : Input) (s : Server) : Server :=
  listing i s "425 No data connection"
    (if i.entries.isNone then some (ascii "550 Can't open directory " ++ s.cwdName.text) else none)
    (fun e =>
      if e.isDirectory then ascii "01-01-2000  00:00AM <DIR> " ++ e.name.drop 1
      else ascii "01-01-2000  00:00AM " ++ decimal e.size ++ ascii " " ++ e.name.drop 1)
    []

def mlsd (i : Input) (s : Server) : Server :=
  listing i s "425 No data connection MLSD"
    (if i.entries.isNone then some (ascii "550 Can't open directory " ++ s.cwdName.text) else none)
    (fun e =>
      let fn := e.name.drop s.cwdName.text.length
      let fn := if fn.head? = some slash then fn.drop 1 else fn
      ascii (if e.isDirectory then "Type=dir;Size=" else "Type=file;Size=") ++ decimal e.size ++
        ascii ";modify=20000101000000; " ++ fn)
    ["226-options: -a -l"]

def nlst (i : Input) (s : Server) (parameters : Option (List UInt8)) : Server :=
  listing i s "425 No data connection"
    (if !i.found s.cwdName.text then
      some (ascii "550 Can't open directory " ++ text parameters) else none)
    Entry.name []

def retr (i : Input) (s : Server) (parameters : Option (List UInt8)) : Except Fault Server :=
  withFile s parameters fun s p path =>
    let s := s.fileOpen i path .read
    if s.file.isNone then s.println (ascii "550 File " ++ p ++ ascii " not found")
    -- the test for 450 is the one for 550 again
    else
      let (s, connected) := dataConnect i s
      if !connected then s.say "425 No data connection"
      else
        let s := s.println (ascii "150-Connected to port " ++ decimal s.dataPort.toNat)
        let s := s.println (ascii "150 " ++ decimal ((i.size path .read).getD 0) ++
          ascii " bytes to download")
        { s with
          millisBeginTrans := millis i.later
          bytesTransfered := 0
          transferStatus := 1 }

def stor (i : Input) (s : Server) (parameters : Option (List UInt8)) : Except Fault Server :=
  withFile s parameters fun s p path =>
    let s := s.fileOpen i path .write
    if s.file.isNone then s.println (ascii "451 Can't open/create " ++ p)
    else
      let (s, connected) := dataConnect i s
      if !connected then (s.say "425 No data connection").fileClose
      else
        let s := s.println (ascii "150 Connected to port " ++ decimal s.dataPort.toNat)
        { s with
          millisBeginTrans := millis i.later
          bytesTransfered := 0
          transferStatus := 2 }

def rnfr (i : Input) (s : Server) (parameters : Option (List UInt8)) : Except Fault Server := do
  let s := { s with buf := overwrite s.buf [0] }
  let p ← given parameters
  if p.length = 0 then return s.say "501 No file name"
  let (written, ok) ← makePath ftpBufSize s.cwdName.text p
  let s := { s with buf := overwrite s.buf written }
  if !ok then return s.say tooLong
  let source := cString s.buf
  if !i.found source then return s.println (ascii "550 File " ++ p ++ ascii " not found")
  let s := s.say "350 RNFR accepted - file exists, ready for destination"
  return { s with rnfrCmd := true }.emit (.renameFrom s.client source)

/-- `strlen( buf )` runs into what lies behind an unterminated buffer. -/
def bufString (s : Server) : Except Fault (List UInt8) :=
  if 0 ∈ s.buf then .ok (cString s.buf) else .error .bounds

def rnto (i : Input) (s : Server) (parameters : Option (List UInt8)) : Except Fault Server := do
  let source ← bufString s
  if source.length = 0 ∨ !s.rnfrCmd then
    return { s.say "503 Need RNFR before RNTO" with rnfrCmd := false }
  let s ← withFile s parameters fun s p path =>
    if i.found path then s.println (ascii "553 " ++ p ++ ascii " already exists")
    else
      let s := s.emit (.rename s.client source path)
      if i.renames then s.say "250 File successfully renamed or moved"
      else s.say "451 Rename/move failure"
  return { s with rnfrCmd := false }

def size (i : Input) (s : Server) (parameters : Option (List UInt8)) : Except Fault Server :=
  withFile s parameters fun s p path =>
    let s := s.fileOpen i path .read
    if s.file.isNone then s.println (ascii "450 Can't open " ++ p)
    else (s.println (ascii "213 " ++ decimal ((i.size path .read).getD 0))).fileClose

inductive Verb where
  | cdup | cwd | pwd | quit | mode | pasv | port | stru | type | abor | dele | list | mlsd | nlst
  | noop | retr | stor | mkd | rmd | rnfr | rnto | feat | mdtm | size | site
  deriving DecidableEq, Repr

def Verb.name : Verb → List UInt8
  | .cdup => ascii "CDUP"
  | .cwd => ascii "CWD"
  | .pwd => ascii "PWD"
  | .quit => ascii "QUIT"
  | .mode => ascii "MODE"
  | .pasv => ascii "PASV"
  | .port => ascii "PORT"
  | .stru => ascii "STRU"
  | .type => ascii "TYPE"
  | .abor => ascii "ABOR"
  | .dele => ascii "DELE"
  | .list => ascii "LIST"
  | .mlsd => ascii "MLSD"
  | .nlst => ascii "NLST"
  | .noop => ascii "NOOP"
  | .retr => ascii "RETR"
  | .stor => ascii "STOR"
  | .mkd => ascii "MKD"
  | .rmd => ascii "RMD"
  | .rnfr => ascii "RNFR"
  | .rnto => ascii "RNTO"
  | .feat => ascii "FEAT"
  | .mdtm => ascii "MDTM"
  | .size => ascii "SIZE"
  | .site => ascii "SITE"

/-- The commands in the order in which `processCommand` compares them. -/
def Verb.all : List Verb :=
  [.cdup, .cwd, .pwd, .quit, .mode, .pasv, .port, .stru, .type, .abor, .dele, .list, .mlsd, .nlst,
    .noop, .retr, .stor, .mkd, .rmd, .rnfr, .rnto, .feat, .mdtm, .size, .site]

def verbOf (command : List UInt8) : Option Verb := Verb.all.find? fun v => v.name = command

def runVerb (i : Input) (s : Server) (parameters : Option (List UInt8)) :
    Verb → Except Fault Server
  | .cdup => .ok (s.println (ascii "250 Ok. Current directory is " ++ s.cwdName.text))
  | .cwd => cwd s parameters
  | .pwd => .ok (s.println (ascii "257 \"" ++ s.cwdName.text ++
      ascii "\" is your current directory"))
  | .quit => .ok (disconnectClient s)
  | .mode => mode s parameters
  | .pasv => .ok (pasv i s)
  | .port => port i s parameters
  | .stru => stru s parameters
  | .type => type s parameters
  | .abor => .ok ((abortTransfer s).say "226 Data connection closed")
  | .dele => dele i s parameters
  | .list => .ok (list i s)
  | .mlsd => .ok (mlsd i s)
  | .nlst => .ok (nlst i s parameters)
  | .noop => .ok (s.say "200 Zzz...")
  | .retr => retr i s parameters
  | .stor => stor i s parameters
  | .mkd => .ok (s.println (ascii "550 Can't create \"" ++ text parameters))
  | .rmd => .ok (s.println (ascii "501 Can't delete \"" ++ text parameters))
  | .rnfr => rnfr i s parameters
  | .rnto => rnto i s parameters
  | .feat => .ok (((s.say "211-Extensions suported:").say " MLSD").say "211 End.")
  | .mdtm => .ok (s.say "550 Unable to retrieve time")
  | .size => size i s parameters
  | .site => .ok (s.println (ascii "500 Unknow SITE command " ++ text parameters))

/-- False ends the session. -/
def runCommand (i : Input) (s : Server) (command : List UInt8)
    (parameters : Option (List UInt8)) : Except Fault (Server × Bool) :=
  match verbOf command with
  | some v => (runVerb i s parameters v).map (·, v != .quit)
  | none => .ok (s.say "500 Unknow command", true)

def processCommand (i : Input) (s : Server) : Except Fault (Server × Bool) :=
  let command := s.lexer.command.text
  let parameters := s.lexer.params
  runCommand i (s.emit (.command s.client command parameters)) command parameters

def userIdentity (i : Input) (s : Server) : Except Fault (Server × Bool) := do
  let s := if s.lexer.command.text = ascii "USER" then s else s.say "500 Syntax error"
  let p ← given s.lexer.params
  if p = cString s.ftpUser then
    return ({ s.say "331 OK. Password required" with cwdName := rootDir }, true)
  return ({ s.say "530 user not found" with millisDelay := millis i.later + 100 }, false)

def userPassword (i : Input) (s : Server) : Except Fault (Server × Bool) := do
  let failed (s : Server) := ({ s with millisDelay := millis i.later + 100 }, false)
  if s.lexer.command.text = ascii "PASS" then
    let p ← given s.lexer.params
    if p = cString s.ftpPass then return (s.say "230 OK.", true)
    return failed (s.say "530 ")
  return failed (s.say "500 Syntax error")

def receive (i : Input) (s : Server) : Except Fault (Server × Int) := do
  let byte := s.client.bind fun c => i.byte.map fun b => (c, b)
  let s := byte.elim s fun (c, b) => s.emit (.received c b)
  let (lexer, rc, replies) ← readChar s.lexer (byte.map Prod.snd)
  return (replies.foldl Server.println { s with lexer }, rc)

def lineReceived (i : Input) (s : Server) : Except Fault Server := do
  if s.cmdStatus = 3 then
    let (s, ok) ← userIdentity i s
    return { s with cmdStatus := if ok then 4 else 0 }
  else if s.cmdStatus = 4 then
    let (s, ok) ← userPassword i s
    if ok then
      return { s with cmdStatus := 5, millisEndConnection := millis i.later + s.millisTimeOut }
    return { s with cmdStatus := 0 }
  else if s.cmdStatus = 5 then
    let (s, ok) ← processCommand i s
    if ok then return { s with millisEndConnection := millis i.later + s.millisTimeOut }
    return { s with cmdStatus := 0 }
  else return s

/-- The part of `handleFTP` that depends on cmdStatus. -/
def session (i : Input) (s : Server) : Except Fault Server := do
  if s.cmdStatus = 0 then
    let s := s.checkClient i.connected
    let s := if s.client.isSome then disconnectClient s else s
    return { s with cmdStatus := 1 }
  else if s.cmdStatus = 1 then
    return { iniVariables (abortTransfer s) with cmdStatus := 2 }
  else if s.cmdStatus = 2 then
    let s := s.checkClient i.connected
    if s.client.isSome then
      return { clientConnected s with
        millisEndConnection := millis i.later + 10 * 1000, cmdStatus := 3 }
    return s
  else
    let (s, rc) ← receive i s
    if rc > 0 then lineReceived i s
    else
      let s := s.checkClient i.connected
      return if s.client.isSome then s else { s with cmdStatus := 1 }

/-- The part of `handleFTP` that moves a slice of a transfer or ends the session. -/
def transfer (i : Input) (s : Server) : Server :=
  if s.transferStatus = 1 then
    let (s, more) := doRetrieve i s
    if more then s else { s with transferStatus := 0 }
  else if s.transferStatus = 2 then
    let (s, more) := doStore i s
    if more then s else { s with transferStatus := 0 }
  else if s.cmdStatus > 2 ∧ !ahead s.millisEndConnection (millis i.later) then
    { s.say "530 Timeout" with millisDelay := millis i.later + 200, cmdStatus := 0 }
  else s

def arrived (i : Input) (s : Server) : Server := if i.pending then acceptClient s else s

def handleFTP (i : Input) (s : Server) : Except Fault Server := do
  if ahead s.millisDelay (millis i.now) then return s
  let s ← session i (arrived i s)
  return transfer i s

end Esp32Project.Ftp
