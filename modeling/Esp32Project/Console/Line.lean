import Esp32Project.Console.Ring

/-!
The console of lua.c: the line editor `readline`, which drains the receive
buffer, and `dojob`, which hands the line to the Lua loader. Whether a chunk is
an incomplete statement is for the Lua parser to say, and a parameter. The
receive buffer is that of the ESP32; what the ESP8266 does is told from the
bytes on that its own buffer gives to `readline`.
-/

set_option autoImplicit false

namespace Esp32Project.Console

def luaMaxInput : Nat := 256

def cr : UInt8 := 13
def lf : UInt8 := 10

/-- The two ports of lua.c; they differ in what `dojob` does with a line. -/
inductive Port where
  | esp32
  | esp8266
  deriving DecidableEq, Repr

inductive Tx where
  | echo : UInt8 → Tx
  | erase
  | newline
  | prompt : (firstline : Bool) → Tx
  deriving DecidableEq, Repr

/-- The loader's side: the lines `dojob` passed on, the chunks the loader was
given, and the chunk on the Lua stack while `firstline` is 0. -/
structure Loader where
  firstline : Bool
  stack : List UInt8
  lines : List (List UInt8)
  chunks : List (List UInt8)
  deriving DecidableEq, Repr

/-- `gLoad` with its line buffer, and `last_nl_char`. The prompt `prmt` is the
one for first lines or the one for the others. -/
structure Load where
  line : Nat → UInt8
  linePosition : Nat
  done : Bool
  lastNlChar : UInt8
  prmt : Bool
  loader : Loader
  tx : List Tx

/-- After `lua_main`. -/
def Load.init : Load := ⟨fun _ => 0, 0, false, 0, true, ⟨true, [], [], []⟩, [.prompt true]⟩

def Load.send (l : Load) (t : Tx) : Load := { l with tx := l.tx ++ [t] }

def secondOfPair (last ch : UInt8) : Bool := (ch == cr && last == lf) || (ch == lf && last == cr)

def isErase (ch : UInt8) : Bool := ch == 0x7f || ch == 0x08

def isNewline (ch : UInt8) : Bool := ch == cr || ch == lf

/-- The loop body of `readline`; the flag is `need_dojob`. -/
def readChar (s : Load × Bool) (ch : UInt8) : Load × Bool :=
  let tmpLastNlChar := s.1.lastNlChar
  let l : Load := { s.1 with lastNlChar := 0 }
  if secondOfPair tmpLastNlChar ch then (l, s.2)
  else if isErase ch then
    let l :=
      if 0 < l.linePosition then { l.send .erase with linePosition := l.linePosition - 1 } else l
    ({ l with line := Function.update l.line l.linePosition 0 }, s.2)
  else if isNewline ch then
    let l : Load := { l.send .newline with
      lastNlChar := ch
      line := Function.update l.line l.linePosition 0 }
    if l.linePosition = 0 then (l.send (.prompt l.prmt), s.2) else ({ l with done := true }, true)
  else
    let l := l.send (.echo ch)
    let l := if luaMaxInput ≤ l.linePosition + 1 then { l with linePosition := 0 } else l
    ({ l with
      line := Function.update l.line l.linePosition ch
      linePosition := l.linePosition + 1 }, s.2)

/-- `readline`: as long as `uart_getc` has a byte. Nothing is received
meanwhile, so the buffer bounds the rounds. -/
def readline (rxBuffSize : Nat) : Nat → RcvMsgBuff → Load × Bool →
    Option (RcvMsgBuff × Load × Bool)
  | 0, _, _ => none
  | fuel+1, r, s =>
    match uartGetc rxBuffSize r with
    | none => some (r, s)
    | some (ch, r) => readline rxBuffSize fuel r (readChar s ch)

def cString (line : Nat → UInt8) : List UInt8 :=
  ((List.range luaMaxInput).map line).takeWhile (· ≠ 0)

/-- A line goes to the loader. On the ESP32 it continues the chunk on the
stack, and the chunk stays there as long as it is incomplete. -/
def loadLine (port : Port) (incomplete : List UInt8 → Bool) (ld : Loader) (b : List UInt8) :
    Loader :=
  match port with
  | .esp32 =>
    let s :=
      if ld.firstline ∧ b.head? = some 0x3d then
        [0x72, 0x65, 0x74, 0x75, 0x72, 0x6e, 0x20] ++ b.tail
      else b
    let chunk := if ld.firstline then s else ld.stack ++ [lf] ++ s
    if incomplete chunk then ⟨false, chunk, ld.lines ++ [b], ld.chunks ++ [chunk]⟩
    else ⟨true, [], ld.lines ++ [b], ld.chunks ++ [chunk]⟩
  | .esp8266 => ⟨false, ld.stack, ld.lines ++ [b], ld.chunks ++ [b]⟩

def dojob (port : Port) (incomplete : List UInt8 → Bool) (l : Load) : Load :=
  let l :=
    if l.done then
      let b := cString l.line
      let b := if b.getLast? = some lf then b.dropLast else b
      let ld := loadLine port incomplete l.loader b
      { l with
        loader := ld
        prmt := match port with
          | .esp32 => ld.firstline
          | .esp8266 => true }
    else l
  Load.send { l with done := false, linePosition := 0, line := fun _ => 0 } (.prompt l.prmt)

/-- `lua_handle_input(false)`, on the bytes that `readline` gets before `uart_getc` has no more. -/
def luaHandleInput (port : Port) (incomplete : List UInt8 → Bool) (l : Load)
    (bytes : List UInt8) : Load :=
  let (l, needDojob) := bytes.foldl readChar (l, false)
  if needDojob then dojob port incomplete l else l

/-- One UART_DATA event of `uart_event_task`, with the bytes read. -/
def uartEvent (incomplete : List UInt8 → Bool) (rxBuffSize : Nat) (s : RcvMsgBuff × Load)
    (bytes : List UInt8) : Option (RcvMsgBuff × Load) :=
  if bytes.length = 0 then some s
  else
    (readline rxBuffSize (rxBuffSize + 1) (bytes.foldl (rcvChar rxBuffSize) s.1) (s.2, false)).map
      fun (r, l, needDojob) => (r, if needDojob then dojob .esp32 incomplete l else l)

def consoleRun (incomplete : List UInt8 → Bool) (rxBuffSize : Nat) :
    RcvMsgBuff × Load → List (List UInt8) → Option (RcvMsgBuff × Load)
  | s, [] => some s
  | s, e :: es => (uartEvent incomplete rxBuffSize s e).bind (consoleRun incomplete rxBuffSize · es)

end Esp32Project.Console
