/-
The client library's side of the protocol, `libnv0/src/ipc.c`.

The static variables of the file are a state.  What the system answers is an input: the
descriptors a connection is given, what each `write` does, and for a poll how many bytes each
`read` in turn finds; when these are used up a `read` would block.  What is written is
returned, and what waits to be read is handed in and the rest of it returned.

The headers and the limits of a message are those of `graphics/server/ipc_server.h`, which
both sides include.
-/
import Nv0ken.Graphics.Server.IpcServer

namespace Nv0ken.Libnv0

open Wire Graphics

/-- `NV_MSG_CLIPBOARD_SET`. -/
def msgClipboardSet : Nat := 11

/-- `NV_MSG_CLIPBOARD_DATA`. -/
def msgClipboardData : Nat := 112

/-- `sizeof(clipboard_cache)`. -/
def cacheSize : Nat := 4096

/-- The static variables.  `windowMsgs` are the messages handed to `nv_window_dispatch`. -/
structure Library where
  ipcInFd : Int := -1
  ipcOutFd : Int := -1
  clipboardCache : List UInt8 := []
  windowMsgs : List IpcMessage := []
  deriving DecidableEq, Repr

/-! ### Sending -/

/-- What a `write` does: it takes bytes, is interrupted, or fails. -/
inductive WriteResult
  | wrote (n : Nat)
  | interrupted
  | failed
  deriving DecidableEq, Repr

/-- The result, the bytes that were taken and the answers that are left.  `none` is a loop
that has used them up and is still going. -/
def writeAll : List WriteResult → List UInt8 → Option (Int × List UInt8 × List WriteResult)
  | writes, [] => some (0, [], writes)
  | [], _ :: _ => none
  | .interrupted :: writes, b :: bytes => writeAll writes (b :: bytes)
  | .failed :: writes, _ :: _ => some (-1, [], writes)
  | .wrote n :: writes, b :: bytes =>
    (writeAll writes ((b :: bytes).drop n)).map fun (ret, out, left) =>
      (ret, (b :: bytes).take n ++ out, left)

/-- `opened` are the two descriptors at the end, or `none` if an earlier step failed. -/
def nvIpcConnect (lib : Library) (opened : Option (Int × Int)) : Int × Library :=
  if lib.ipcInFd ≥ 0 then (0, lib)
  else
    match opened with
    | none => (-1, lib)
    | some (inFd, outFd) =>
      if inFd < 0 then (-1, { lib with ipcInFd := inFd, ipcOutFd := -1 })
      else (0, { lib with ipcInFd := inFd, ipcOutFd := outFd })

/-- What the system answers while a message is sent. -/
structure SendInput where
  opened : Option (Int × Int) := none
  writes : List WriteResult

/-- The result of a call that sends, and the bytes it wrote. -/
structure Sent where
  ret : Int
  lib : Library
  out : List UInt8
  deriving DecidableEq, Repr

def nvIpcSend (lib : Library) (input : SendInput) (type : Nat) (payload : List UInt8) :
    Option Sent :=
  let (connected, lib) := nvIpcConnect lib input.opened
  if connected < 0 then some { ret := -1, lib, out := [] }
  else do
    let (ret, header, writes) ← writeAll input.writes (leBytes 4 type ++ leBytes 4 payload.length)
    if ret < 0 then some { ret := -1, lib, out := header }
    else
      let (ret, body, _) ← writeAll writes payload
      some { ret, lib, out := header ++ body }

/-- The string at a pointer: the bytes in front of the first 0. -/
def cString (text : List UInt8) : List UInt8 := text.takeWhile (· ≠ 0)

/-- `memory` tells whether the allocator grants the payload. -/
def nvClipboardSet (lib : Library) (input : SendInput) (text : Option (List UInt8))
    (memory : Bool) : Option Sent :=
  let text := cString (text.getD [])
  let len := if text.length ≥ cacheSize then cacheSize - 1 else text.length
  let lib := { lib with clipboardCache := text.take len }
  if !memory then some { ret := -1, lib, out := [] }
  else nvIpcSend lib input msgClipboardSet (leBytes 4 len ++ text.take len)

/-! ### Receiving -/

def dispatchMessage (lib : Library) (m : IpcMessage) : Library :=
  if m.type = msgClipboardData ∧ m.len ≥ 4 then
    let announced := leValue (m.payload.take 4)
    let textLen := if announced ≥ cacheSize then cacheSize - 1 else announced
    if m.len ≥ 4 + textLen then
      { lib with clipboardCache := (m.payload.drop 4).take textLen }
    else lib
  else { lib with windowMsgs := lib.windowMsgs ++ [m] }

/-- Which of the two reads of the loop comes next. -/
inductive Reading
  | header
  | payload (hdr : IpcHeader) (done : List UInt8)

/-- The result of a poll, the messages it handed to `dispatch_message` and what it has not
read. -/
structure ClientPoll where
  ret : Int
  dispatched : List IpcMessage
  unread : List UInt8
  deriving DecidableEq, Repr

/-- A message dispatched before the rest of a poll. -/
def ClientPoll.after (p : ClientPoll) (m : IpcMessage) : ClientPoll :=
  { p with dispatched := m :: p.dispatched }

/-- The two loops of `nv_ipc_poll`, read by read. -/
def pollLoop : List Nat → Reading → List UInt8 → ClientPoll
  | [], .header, unread => { ret := 0, dispatched := [], unread }
  | [], .payload _ _, unread => { ret := -1, dispatched := [], unread }
  | n :: pieces, .header, unread =>
    let bytes := unread.take (min n headerSize)
    let rest := unread.drop (min n headerSize)
    if bytes = [] then { ret := 0, dispatched := [], unread := rest }
    else
      let hdr := ipcHeader bytes
      if bytes.length ≠ headerSize ∨ hdr.length > ipcRecvBuf then
        { ret := -1, dispatched := [], unread := rest }
      else if 0 < hdr.length then pollLoop pieces (.payload hdr []) rest
      else
        (pollLoop pieces .header rest).after { type := hdr.type, len := hdr.length, payload := [] }
  | n :: pieces, .payload hdr done, unread =>
    let asked := hdr.length - done.length
    let bytes := unread.take (min n asked)
    let rest := unread.drop (min n asked)
    if bytes = [] then { ret := -1, dispatched := [], unread := rest }
    else if (done ++ bytes).length < hdr.length then
      pollLoop pieces (.payload hdr (done ++ bytes)) rest
    else
      (pollLoop pieces .header rest).after
        { type := hdr.type, len := hdr.length, payload := done ++ bytes }

def nvIpcPoll (lib : Library) (pieces : List Nat) (unread : List UInt8) : ClientPoll × Library :=
  if lib.ipcOutFd < 0 then ({ ret := 0, dispatched := [], unread }, lib)
  else
    let p := pollLoop pieces .header unread
    (p, p.dispatched.foldl dispatchMessage lib)

end Nv0ken.Libnv0
