import Esp32Project.Lib.CString
import Esp32Project.Lib.Search
import Mathlib.Algebra.Group.Int.Defs

/-!
The client of the TCP update (ota.c): what `ota_task` makes of the data of one
`netconn_recv`. A percentage that is only printed is left out, but not the
division in it.
-/

set_option autoImplicit false

namespace Esp32Project.Ota
open Esp32Project.Lib

inductive Fault where
  | bounds
  | conversion
  | division
  deriving DecidableEq, Repr

def packageSize : Nat := 512
def recvBuffSize : Nat := 768

def bytes (s : String) : List UInt8 := s.toList.map Char.toUInt8

def keyTotal : List UInt8 := bytes "total: "
def keyLength : List UInt8 := bytes "length: "
def headerEnd : List UInt8 := bytes "\r\n\r\n"
def reqData : List UInt8 := bytes "req0\r\n\r\n"
def reqResend : List UInt8 := bytes "req1\r\n\r\n"

def cr : UInt8 := 13
def lf : UInt8 := 10

/-- `strstr` in a buffer; without a NUL the search runs off its end. -/
def strstr (buff key : List UInt8) : Except Fault (Option Nat) :=
  match search key (cString buff) with
  | some p => .ok (some p)
  | none => if 0 ∈ buff then .ok none else .error .bounds

/-- The sum in `str2num`, from `res` on; a double beyond int is not converted. -/
def str2numFrom (res : Int) : List UInt8 → Except Fault Int
  | [] => .ok res
  | c :: str =>
    let res := res + 10 ^ str.length * ((c.toNat : Int) - 48)
    if -2 ^ 31 ≤ res ∧ res < 2 ^ 31 then str2numFrom res str else .error .conversion

def str2num (str : List UInt8) : Except Fault Int := str2numFrom 0 str

/-- `get_length` copies the characters up to the end of the line, behind NULs
too, into an array of 16. -/
def getLength (start : List UInt8) : Except Fault Int :=
  let buff := start.takeWhile fun c => c != cr && c != lf
  if buff.length ≤ 16 ∧ buff.length < start.length then str2num buff else .error .bounds

structure Client where
  totalLen : Int
  recvCount : Int
  resend : Bool
  /-- what `esp_ota_write` was given since `esp_ota_begin` -/
  written : List UInt8
  deriving DecidableEq, Repr

/-- The pbufs of a netbuf in `recv_buff`, which was cleared. -/
def fill (payloads : List (List UInt8)) : List UInt8 :=
  (payloads.flatten ++ List.replicate recvBuffSize 0).take recvBuffSize

/-- The first package tells the size of the image; none when the loop is left. -/
def findTotal (c : Client) (recvBuff : List UInt8) : Except Fault (Option Client) :=
  if c.totalLen = 0 then do
    match ← strstr recvBuff keyTotal with
    | some p => return some { c with totalLen := ← getLength (recvBuff.drop (p + keyTotal.length)) }
    | none => return none
  else return some c

def packData (recvBuff : List UInt8) (dataStart : Nat) (packLen : Int) :
    Except Fault (List UInt8) :=
  if 0 ≤ packLen ∧ dataStart + packLen ≤ recvBuffSize then
    .ok ((recvBuff.drop dataStart).take packLen.toNat)
  else .error .bounds

/-- `esp_ota_write` and what follows it; true leaves the loop. -/
def writeData (c : Client) (data : List UInt8) (writeOk : Bool) :
    Except Fault (Client × Bool) :=
  let c := { c with written := c.written ++ data }
  if !writeOk then .ok ({ c with resend := true }, true)
  else
    let c := { c with recvCount := c.recvCount + data.length }
    if c.totalLen = 0 then .error .division
    else .ok (c, c.totalLen ≤ c.recvCount)

/-- The loop body behind a `netconn_recv` that gave a netbuf. True leaves the
loop, whose every exit leads to `esp_ota_end`. -/
def receive (c : Client) (payloads : List (List UInt8)) (writeOk : Bool) :
    Except Fault (Client × Bool) := do
  let recvBuff := fill payloads
  match ← findTotal c recvBuff with
  | none => return ({ c with resend := true }, true)
  | some c =>
    match ← strstr recvBuff keyLength with
    | none => return ({ c with resend := true }, true)
    | some p =>
      let packLen ← getLength (recvBuff.drop (p + keyLength.length))
      match ← strstr recvBuff headerEnd with
      -- nothing is written, and the next package is asked for
      | none => return (c, false)
      | some p =>
        let data ← packData recvBuff (p + headerEnd.length) packLen
        writeData c data writeOk

/-! The server (ota_server.py). -/

structure Server where
  /-- the position in the file -/
  fd : Nat
  lastPackage : Option (List UInt8)
  sendCount : Nat
  /-- the loop for this client runs -/
  serving : Bool
  deriving DecidableEq, Repr

def str (n : Nat) : List UInt8 := (Nat.toDigits 10 n).map Char.toUInt8

def package (fileSize : Nat) (dat : List UInt8) : List UInt8 :=
  bytes "total: " ++ str fileSize ++ bytes "\r\nlength: " ++ str dat.length ++
    bytes "\r\n\r\n" ++ dat

/-- What the server makes of the data of one `conn.recv`, and what it sends. -/
def Server.answer (image : List UInt8) (s : Server) (clientData : List UInt8) :
    Server × Option (List UInt8) :=
  if clientData = reqData then
    let dat := (image.drop s.fd).take packageSize
    let sendData := package image.length dat
    -- an empty file: the division raises, and the server sends this package for ever
    if image.length = 0 then ({ s with serving := false }, some sendData)
    else if image.length ≤ s.sendCount + dat.length then (⟨0, none, 0, false⟩, some sendData)
    else (⟨s.fd + dat.length, some sendData, s.sendCount + dat.length, true⟩, some sendData)
  else if clientData = reqResend then
    match s.lastPackage with
    | some package => (s, some package)
    -- the send of None raises for ever
    | none => ({ s with serving := false }, none)
  else (s, none)

end Esp32Project.Ota
