/-
The display server's side of the protocol, `graphics/server/ipc_server.c`.

The bytes of `recv_buf` that count, the first `recv_len` of them, are a list.  What the
system answers is an input: for each poll, the descriptor opened for a client that
announces itself and what each `read` finds.

The receive loop is given a number of passes it may make.  It may leave the loop, make all
of its passes and still be in it, or compute a `total` below zero; then `memmove` is told to
copy from in front of the buffer, and nothing is said of what follows.
-/
import Nv0ken.Lib.Wire
import Nv0ken.Lib.Word

namespace Nv0ken.Graphics

open Word Wire

/-- `IPC_MAX_CLIENTS`. -/
def ipcMaxClients : Nat := 32

/-- `IPC_RECV_BUF`. -/
def ipcRecvBuf : Nat := 4096

/-- `sizeof(IpcHeader)`. -/
def headerSize : Nat := 8

structure IpcHeader where
  type : Nat
  length : Nat

/-- The header at the front of the buffer. -/
def ipcHeader (buf : List UInt8) : IpcHeader :=
  { type := leValue (buf.take 4), length := leValue ((buf.drop 4).take 4) }

/-- What is handed to `dispatch`.  `payload` are the bytes behind the pointer that have been
received, and at most `len` of them. -/
structure IpcMessage where
  type : Nat
  len : Nat
  payload : List UInt8
  deriving DecidableEq, Repr

/-! ### Dispatch -/

/-- The messages from client to server. -/
inductive MsgType
  | createWindow
  | destroyWindow
  | setTitle
  | resize
  | move
  | show
  | hide
  | invalidate
  | swapBuffer
  | setCursor
  | clipboardSet
  | clipboardGet
  deriving DecidableEq, Repr

/-- `NV_MSG_CREATE_WINDOW` to `NV_MSG_CLIPBOARD_GET`. -/
def msgType : Nat → Option MsgType
  | 1 => some .createWindow
  | 2 => some .destroyWindow
  | 3 => some .setTitle
  | 4 => some .resize
  | 5 => some .move
  | 6 => some .show
  | 7 => some .hide
  | 8 => some .invalidate
  | 9 => some .swapBuffer
  | 10 => some .setCursor
  | 11 => some .clipboardSet
  | 12 => some .clipboardGet
  | _ => none

/-- `IpcCallbacks`: the handlers that are installed. -/
structure IpcCallbacks where
  onCreateWindow : Bool := false
  onDestroyWindow : Bool := false
  onSwapBuffer : Bool := false
  onSetTitle : Bool := false
  onResize : Bool := false
  onMove : Bool := false
  onShowHide : Bool := false
  onInvalidate : Bool := false
  onClipboardSet : Bool := false

/-- What a message makes the server do: call a handler, with the bytes of the structure or
with the window it names, or answer the client. -/
inductive IpcCall
  | onCreateWindow (msg : List UInt8)
  | onDestroyWindow (wid : Nat)
  | onSwapBuffer (msg : List UInt8)
  | onSetTitle (msg : List UInt8)
  | onResize (msg : List UInt8)
  | onMove (msg : List UInt8)
  | onShowHide (wid : Nat) (shown : Bool)
  | onInvalidate (wid : Nat)
  | onClipboardSet (text : List UInt8) (len : Int)
  | sendClipboardData
  | sendError (wid : Nat) (errno : Int) (message : String)
  deriving DecidableEq, Repr

/-- A handler that reads the first `size` bytes of the payload. -/
def callWith (installed : Bool) (size : Nat) (call : List UInt8 → IpcCall) (m : IpcMessage) :
    Option IpcCall :=
  if m.len ≥ size ∧ installed then some (call (m.payload.take size)) else none

def dispatch (cbs : IpcCallbacks) (m : IpcMessage) : Option IpcCall :=
  match msgType m.type with
  | some .createWindow => callWith cbs.onCreateWindow 148 .onCreateWindow m
  | some .destroyWindow => callWith cbs.onDestroyWindow 4 (fun b => .onDestroyWindow (leValue b)) m
  | some .setTitle => callWith cbs.onSetTitle 132 .onSetTitle m
  | some .resize => callWith cbs.onResize 12 .onResize m
  | some .move => callWith cbs.onMove 12 .onMove m
  | some .show => callWith cbs.onShowHide 4 (fun b => .onShowHide (leValue b) true) m
  | some .hide => callWith cbs.onShowHide 4 (fun b => .onShowHide (leValue b) false) m
  | some .invalidate => callWith cbs.onInvalidate 4 (fun b => .onInvalidate (leValue b)) m
  | some .swapBuffer => callWith cbs.onSwapBuffer 16 .onSwapBuffer m
  | some .clipboardSet =>
    if m.len ≥ 4 ∧ cbs.onClipboardSet then
      let textLen := leValue (m.payload.take 4)
      -- the sum is of 32-bit numbers
      if textLen > 0 ∧ m.len ≥ (4 + textLen) % 2 ^ 32 then
        some (.onClipboardSet ((m.payload.drop 4).take textLen) (toInt32 textLen))
      else none
    else none
  | some .clipboardGet => some .sendClipboardData
  -- `EINVAL`; a change of the cursor is not served
  | _ => some (.sendError 0 22 "unknown message type")

/-! ### The receive loop -/

/-- How the receive loop comes out: left with the bytes that wait for the rest of their
message, out of the buffer, or still going after all its passes. -/
inductive RecvEnd
  | waiting (rest : List UInt8)
  | outside
  | running
  deriving DecidableEq, Repr

/-- At most `passes` passes of the loop over the received bytes: the messages handed to
`dispatch`, and how it comes out. -/
def recvLoop : Nat → List UInt8 → List IpcMessage × RecvEnd
  | 0, _ => ([], .running)
  | passes + 1, buf =>
    if buf.length < headerSize then ([], .waiting buf)
    else
      let hdr := ipcHeader buf
      let total := int32 (headerSize + toInt32 hdr.length)
      if (buf.length : Int) < total then ([], .waiting buf)
      else
        let msg : IpcMessage :=
          { type := hdr.type, len := hdr.length, payload := (buf.drop headerSize).take hdr.length }
        if total < 0 then ([msg], .outside)
        else
          let r := recvLoop passes (buf.drop total.toNat)
          (msg :: r.1, r.2)

/-! ### The server -/

structure IpcClient where
  fd : Int
  active : Bool
  recvBuf : List UInt8
  deriving DecidableEq, Repr

/-- The descriptor is closed and the slot given up. -/
def IpcClient.closed (c : IpcClient) : IpcClient := { c with active := false, fd := -1 }

structure IpcServer where
  cbs : IpcCallbacks
  clients : List IpcClient := []
  running : Bool := false

/-- `memory` tells whether the allocator grants the object. -/
def ipcServerNew (callbacks : Option IpcCallbacks) (memory : Bool) : Option IpcServer :=
  if memory then some { cbs := callbacks.getD {} } else none

/-- `endpoint` tells whether the FIFO is there, `rendezvous` whether it can be opened. -/
def ipcServerStart (srv : IpcServer) (endpoint rendezvous : Bool) : Int × IpcServer :=
  if !endpoint then (-1, srv)
  else if !rendezvous then (-1, srv)
  else (0, { srv with running := true })

/-- What `read` finds: nothing for now, an error, or bytes, of which it returns no more than
it is asked for.  No bytes at all are the end of the file. -/
inductive ReadResult
  | again
  | failed
  | data (bytes : List UInt8)

/-- What the system answers during one poll. -/
structure PollInput where
  /-- The descriptor opened for the client that announces itself, if one does. -/
  announced : Option Int
  /-- What each descriptor has to read. -/
  reads : Int → ReadResult

/-- One call of `dispatch`, for the client in slot `client`. -/
structure Dispatched where
  client : Nat
  fd : Int
  msg : IpcMessage
  call : Option IpcCall

def acceptClient (srv : IpcServer) (announced : Option Int) : IpcServer :=
  if srv.clients.length ≥ ipcMaxClients then srv
  else
    match announced with
    | none => srv
    | some inFd =>
      if inFd < 0 then srv
      else { srv with clients := srv.clients ++ [{ fd := inFd, active := true, recvBuf := [] }] }

/-- The body of the loop over the clients.  The receive loop is given one pass more than the
buffer has bytes (`recvLoop_running`: it does not end after more of them either). -/
def pollClient (reads : Int → ReadResult) (c : IpcClient) : Option (IpcClient × List IpcMessage) :=
  if !c.active || c.fd < 0 then some (c, [])
  else
    match reads c.fd with
    | .again => some (c, [])
    | .failed => some (c.closed, [])
    | .data bytes =>
      let tmp := bytes.take (ipcRecvBuf - c.recvBuf.length)
      if tmp = [] then some (c.closed, [])
      else
        match recvLoop (ipcRecvBuf + 1) (c.recvBuf ++ tmp) with
        | (msgs, .waiting rest) => some ({ c with recvBuf := rest }, msgs)
        | _ => none

/-- The loop over the clients, from slot `i` on. -/
def pollClients (cbs : IpcCallbacks) (reads : Int → ReadResult) :
    Nat → List IpcClient → Option (List IpcClient × List Dispatched)
  | _, [] => some ([], [])
  | i, c :: cs =>
    match pollClient reads c, pollClients cbs reads (i + 1) cs with
    | some (c', msgs), some (cs', later) =>
      some (c' :: cs', msgs.map (fun m => ⟨i, c.fd, m, dispatch cbs m⟩) ++ later)
    | _, _ => none

/-- The result of a poll, and what was handed to `dispatch` during it. -/
structure Polled where
  ret : Int
  srv : IpcServer
  dispatched : List Dispatched

/-- `none` is a poll that does not come to its end. -/
def ipcServerPoll (srv : IpcServer) (input : PollInput) : Option Polled :=
  if !srv.running then some { ret := -1, srv := srv, dispatched := [] }
  else
    let srv := acceptClient srv input.announced
    match pollClients srv.cbs input.reads 0 srv.clients with
    | none => none
    | some (clients, dispatched) =>
      some { ret := 0, srv := { srv with clients := clients.filter (·.active) }, dispatched }

end Nv0ken.Graphics
