/-
Every message arrives, once and in order.

A connection is followed through the polls of a server that serves others as well.  Of a
list of clients only the one with its descriptor matters (`connection`), and what a poll
does with it does not depend on the rest (`pollClients_connection`).

The invariant is that the buffer holds the unfinished message at the end of what has been
read, and that the dispatcher has been handed the messages before it.  Reading on divides the
rest of the stream as if it had not been cut (`Frames.append`), so at the end the messages
are those of the whole stream (`Frames.unique`).  An unfinished message is shorter than the
buffer as long as every message fits it, so there is always room to read.
-/
import Nv0ken.Proofs.Graphics.Receive

namespace Nv0ken.Graphics

open Word Wire Framing Run List Option

/-! ### Messages on the wire -/

namespace IpcMessage

variable {m : IpcMessage} {srv : IpcServer} {s : Session}

/-- The header, and then the payload. -/
def encode (m : IpcMessage) : List UInt8 := leBytes 4 m.type ++ (leBytes 4 m.len ++ m.payload)

/-- A message that announces its own length, and fits the receive buffer with its header. -/
structure WellFormed (m : IpcMessage) : Prop where
  type_lt : m.type < 2 ^ 32
  len_eq : m.len = m.payload.length
  fits : headerSize + m.len ≤ ipcRecvBuf

theorem length_encode (m : IpcMessage) : m.encode.length = headerSize + m.payload.length := by
  simp only [encode, length_append, length_leBytes, headerSize]
  omega

theorem WellFormed.len_lt (h : m.WellFormed) : m.len < 2 ^ 32 := by
  have := h.fits
  unfold ipcRecvBuf at this
  omega

section

variable (htype : m.type < 2 ^ 32) (hlen : m.len < 2 ^ 32)
include htype hlen

theorem ipcHeader_encode : ipcHeader m.encode = { type := m.type, length := m.len } := by
  have hfirst : m.encode.take 4 = leBytes 4 m.type := take_left' (length_leBytes 4 _)
  have hrest : m.encode.drop 4 = leBytes 4 m.len ++ m.payload := drop_left' (length_leBytes 4 _)
  have hsecond : (leBytes 4 m.len ++ m.payload).take 4 = leBytes 4 m.len :=
    take_left' (length_leBytes 4 _)
  rw [ipcHeader, hfirst, hrest, hsecond, leValue_leBytes, leValue_leBytes,
    show 256 ^ 4 = 2 ^ 32 from rfl, Nat.mod_eq_of_lt htype, Nat.mod_eq_of_lt hlen]

theorem isFrame_encode (hpayload : m.len = m.payload.length) : ipcFraming.IsFrame m.encode := by
  show m.encode.length = headerSize + (ipcHeader m.encode).length
  rw [length_encode, ipcHeader_encode htype hlen, hpayload]

/-- What is sent is what is handed to the dispatcher. -/
theorem frameMsg_encode : frameMsg m.encode = m := by
  have hpayload : m.encode.drop headerSize = m.payload := by
    rw [encode, ← append_assoc]
    exact drop_left' (by simp [headerSize])
  rw [frameMsg, ipcHeader_encode htype hlen, hpayload]

end

end IpcMessage

/-! ### One connection among others -/

/-- The server, and everything handed to the dispatcher so far. -/
structure Session where
  srv : IpcServer
  log : List Dispatched

def serverStep (s : Session) (input : PollInput) : Option Session :=
  (ipcServerPoll s.srv input).map fun p => { srv := p.srv, log := s.log ++ p.dispatched }

/-- The clients with this descriptor. -/
def connection (fd : Int) (cs : List IpcClient) : List IpcClient := cs.filter (·.fd = fd)

/-- The messages handed to the dispatcher from this descriptor. -/
def msgsOf (fd : Int) (ds : List Dispatched) : List IpcMessage :=
  (ds.filter (·.fd = fd)).map (·.msg)

section Connection

variable {cbs : IpcCallbacks} {reads : Int → ReadResult} {i : Nat} {fd : Int} {c c' : IpcClient}
  {cs cs' : List IpcClient} {msgs : List IpcMessage} {ds : List Dispatched}

theorem connection_append (cs cs' : List IpcClient) :
    connection fd (cs ++ cs') = connection fd cs ++ connection fd cs' :=
  filter_append _ _

theorem connection_cons_own (h : c.fd = fd) (cs : List IpcClient) :
    connection fd (c :: cs) = c :: connection fd cs :=
  filter_cons_of_pos (decide_eq_true h)

theorem connection_cons_other (h : c.fd ≠ fd) (cs : List IpcClient) :
    connection fd (c :: cs) = connection fd cs :=
  filter_cons_of_neg (by simpa using h)

theorem msgsOf_append (ds ds' : List Dispatched) :
    msgsOf fd (ds ++ ds') = msgsOf fd ds ++ msgsOf fd ds' := by
  rw [msgsOf, filter_append, map_append]
  rfl

theorem msgsOf_own (msgs : List IpcMessage) :
    msgsOf fd (msgs.map fun m => ⟨i, fd, m, dispatch cbs m⟩) = msgs := by
  induction msgs with
  | nil => rfl
  | cons m msgs ih => simp_all [msgsOf]

theorem msgsOf_other (h : c.fd ≠ fd) (msgs : List IpcMessage) :
    msgsOf fd (msgs.map fun m => ⟨i, c.fd, m, dispatch cbs m⟩) = [] := by
  induction msgs with
  | nil => rfl
  | cons m msgs ih => simp_all [msgsOf]

/-- A client that is still there has kept its descriptor. -/
theorem pollClient_fd (h : pollClient reads c = some (c', msgs)) (hactive : c'.active) :
    c'.fd = c.fd := by
  obtain ⟨-, -, ⟨rfl, -⟩ | ⟨rfl, -⟩⟩ | ⟨-, rest, rfl, -⟩ := pollClient_cases h
  · rfl
  · cases hactive
  · rfl

theorem connection_other (h : pollClient reads c = some (c', msgs)) (hfd : c.fd ≠ fd) :
    connection fd ([c'].filter (·.active)) = [] := by
  cases hactive : c'.active with
  | false => simp [hactive, connection]
  | true => simp [hactive, connection, pollClient_fd h hactive, hfd]

section

variable (h : pollClients cbs reads i cs = some (cs', ds))
include h

/-- A poll of clients with other descriptors is not seen. -/
theorem pollClients_other (hfd : connection fd cs = []) :
    connection fd (cs'.filter (·.active)) = [] ∧ msgsOf fd ds = [] := by
  induction cs generalizing i cs' ds with
  | nil =>
    cases h
    exact ⟨rfl, rfl⟩
  | cons c cs ih =>
    obtain ⟨c', msgs, cs'', later, hc, hrest, rfl, rfl⟩ := pollClients_cons h
    rw [← singleton_append, connection_append, append_eq_nil_iff] at hfd
    have hne : c.fd ≠ fd := by simpa [connection] using hfd.1
    obtain ⟨hcs, hlater⟩ := ih hrest hfd.2
    rw [← singleton_append, filter_append, connection_append, connection_other hc hne,
      hcs, msgsOf_append, msgsOf_other hne, hlater]
    exact ⟨rfl, rfl⟩

/-- **What a poll does with a connection is what it does with its client.** -/
theorem pollClients_connection (hfd : connection fd cs = [c]) :
    ∃ c' msgs, pollClient reads c = some (c', msgs) ∧
      connection fd (cs'.filter (·.active)) = connection fd ([c'].filter (·.active)) ∧
      msgsOf fd ds = msgs := by
  induction cs generalizing i cs' ds with
  | nil => cases hfd
  | cons c₀ cs ih =>
    obtain ⟨c', msgs, cs'', later, hc, hrest, rfl, rfl⟩ := pollClients_cons h
    rw [← singleton_append, filter_append, connection_append, msgsOf_append]
    by_cases hne : c₀.fd = fd
    · rw [connection_cons_own hne] at hfd
      obtain ⟨rfl, hnil⟩ := cons.inj hfd
      obtain ⟨hcs, hlater⟩ := pollClients_other hrest hnil
      refine ⟨c', msgs, hc, ?_, ?_⟩
      · rw [hcs, append_nil]
      · rw [hlater, append_nil, hne, msgsOf_own]
    · rw [connection_cons_other hne] at hfd
      obtain ⟨d, msgs', hd, hdcs, hlater⟩ := ih hrest hfd
      refine ⟨d, msgs', hd, ?_, ?_⟩
      · rw [connection_other hc hne, hdcs, nil_append]
      · rw [msgsOf_other hne, hlater, nil_append]

end

theorem connection_accept {announced : Option Int} (h : announced ≠ some fd) :
    connection fd (acceptClient srv announced).clients = connection fd srv.clients := by
  unfold acceptClient
  split
  · rfl
  · split
    · rfl
    · rename_i inFd
      have hne : inFd ≠ fd := fun he => h (congrArg some he)
      split
      · rfl
      · show connection fd (srv.clients ++ [_]) = connection fd srv.clients
        simp [connection, hne]

theorem acceptClient_running (announced : Option Int) :
    (acceptClient srv announced).running = srv.running := by
  unfold acceptClient
  repeat' split
  all_goals rfl

end Connection

/-! ### A stream in pieces -/

/-- The bytes a read finds. -/
def ReadResult.bytes : ReadResult → List UInt8
  | .again => []
  | .failed => []
  | .data bytes => bytes

/-- The bytes found on a descriptor, poll by poll. -/
def stream (fd : Int) (inputs : List PollInput) : List UInt8 :=
  inputs.flatMap fun input => (input.reads fd).bytes

/-- The server runs, and one of its clients has this descriptor and waits with `buf` for the
rest of a message. -/
structure Connected (fd : Int) (srv : IpcServer) (buf : List UInt8) : Prop where
  running : srv.running = true
  range : InRange srv
  opened : 0 ≤ fd
  here : connection fd srv.clients = [{ fd := fd, active := true, recvBuf := buf }]
  unfinished : ipcFraming.Unfinished buf

/-- That client. -/
abbrev openClient (fd : Int) (buf : List UInt8) : IpcClient :=
  { fd := fd, active := true, recvBuf := buf }

/-- What a poll finds on the descriptor is a piece of a stream: nothing for now, or at least one
byte and no more than is asked for.  A new client gets a descriptor of its own, and the
others do not bring the server down. -/
structure Feeds (fd : Int) (srv : IpcServer) (input : PollInput) : Prop where
  piece : input.reads fd = .again ∨ ∃ bytes, input.reads fd = .data bytes ∧ bytes ≠ [] ∧
    ∀ c ∈ srv.clients, c.fd = fd → bytes.length ≤ ipcRecvBuf - c.recvBuf.length
  fresh : input.announced ≠ some fd
  others : ∀ c ∈ (acceptClient srv input.announced).clients, c.fd ≠ fd → HeaderFits input.reads c

section Stream

variable {fd : Int} {srv : IpcServer} {input : PollInput} {buf rest : List UInt8}
  {fs : List (List UInt8)}

section

variable (h : Connected fd srv buf)
include h

theorem Connected.mem : openClient fd buf ∈ srv.clients := by
  have hmem : openClient fd buf ∈ connection fd srv.clients := by
    rw [h.here]
    exact mem_singleton_self _
  exact mem_of_mem_filter hmem

theorem Connected.accepted (hfresh : input.announced ≠ some fd) :
    connection fd (acceptClient srv input.announced).clients =
      [openClient fd buf] :=
  (connection_accept hfresh).trans h.here

/-- The clients are the one with the descriptor and the others. -/
theorem Connected.forall_client (hfresh : input.announced ≠ some fd) {P : IpcClient → Prop}
    (hown : P (openClient fd buf))
    (hothers : ∀ c ∈ (acceptClient srv input.announced).clients, c.fd ≠ fd → P c) :
    ∀ c ∈ (acceptClient srv input.announced).clients, P c := by
  intro c hc
  by_cases hfd : c.fd = fd
  · have hmem : c ∈ connection fd (acceptClient srv input.announced).clients :=
      mem_filter.mpr ⟨hc, decide_eq_true hfd⟩
    rw [h.accepted hfresh] at hmem
    rw [mem_singleton.mp hmem]
    exact hown
  · exact hothers c hc hfd

/-- Of a piece that fits, everything is read. -/
theorem got_piece (hfeeds : Feeds fd srv input) :
    got input.reads (openClient fd buf) = (input.reads fd).bytes := by
  have hopen : ¬ ((!true || decide (fd < 0)) = true) := by
    have := h.opened
    simp only [Bool.not_true, Bool.false_or, decide_eq_true_eq]
    omega
  unfold got
  rw [if_neg hopen]
  obtain hagain | ⟨bytes, hdata, -, hroom⟩ := hfeeds.piece
  · simp only [hagain, ReadResult.bytes]
  · simp only [hdata, ReadResult.bytes]
    exact take_of_length_le (hroom _ h.mem rfl)

end

/-- A poll in which the connection is not given up: nothing is read from it only because
there is nothing for now. -/
structure KeepsOpen (fd : Int) (srv : IpcServer) (buf : List UInt8) (input : PollInput) : Prop where
  quiet : got input.reads { fd := fd, active := true, recvBuf := buf } = [] →
    input.reads fd = .again
  fresh : input.announced ≠ some fd
  others : ∀ c ∈ (acceptClient srv input.announced).clients, c.fd ≠ fd → HeaderFits input.reads c

theorem Feeds.keepsOpen (h : Connected fd srv buf) (hfeeds : Feeds fd srv input) :
    KeepsOpen fd srv buf input := by
  refine ⟨fun hnone => ?_, hfeeds.fresh, hfeeds.others⟩
  rw [got_piece h hfeeds] at hnone
  obtain hagain | ⟨bytes, hdata, hne, -⟩ := hfeeds.piece
  · exact hagain
  · rw [hdata] at hnone
    exact absurd hnone hne

section

variable (h : Connected fd srv buf) (hopen : KeepsOpen fd srv buf input)
  (hframes : ipcFraming.Frames (buf ++ got input.reads (openClient fd buf)) fs rest)
  (hfits : Fits rest)
include h hopen hframes hfits

/-- The client divides what it holds and what it reads. -/
theorem pollClient_open :
    pollClient input.reads (openClient fd buf) =
      some (openClient fd rest, fs.map frameMsg) := by
  by_cases hgot : got input.reads (openClient fd buf) = []
  · -- nothing is read, and nothing was finished before
    rw [hgot, append_nil] at hframes
    obtain ⟨rfl, rfl⟩ := hframes.unique (.done h.unfinished)
    have hfd : ¬ fd < 0 := Int.not_lt.mpr h.opened
    simp [pollClient, hopen.quiet hgot, hfd]
  · exact pollClient_frames (h.range _ h.mem) hgot hframes hfits

theorem headerFits_open :
    ∀ c ∈ (acceptClient srv input.announced).clients, HeaderFits input.reads c := by
  refine h.forall_client hopen.fresh ?_ hopen.others
  intro _ fs' rest' hframes'
  obtain ⟨-, rfl⟩ := hframes.unique hframes'
  exact hfits

end

/-- **One poll**: the messages that are complete now are handed over, and the connection
waits with the next one. -/
theorem serverStep_open (h : Connected fd s.srv buf) (hopen : KeepsOpen fd s.srv buf input)
    (hframes : ipcFraming.Frames
      (buf ++ got input.reads (openClient fd buf)) fs rest) (hfits : Fits rest) :
    ∃ s', serverStep s input = some s' ∧ Connected fd s'.srv rest ∧
      msgsOf fd s'.log = msgsOf fd s.log ++ fs.map frameMsg := by
  obtain ⟨cs', ds, hpoll, -⟩ := (pollClients_safe_iff (h.range.accept _)).mpr
    (headerFits_open h hopen hframes hfits)
  obtain ⟨c', msgs, hclient, hleft, hmsgs⟩ := pollClients_connection hpoll (h.accepted hopen.fresh)
  cases (pollClient_open h hopen hframes hfits).symm.trans hclient
  have hp := (poll_running h.running).mpr ⟨cs', ds, hpoll, rfl⟩
  refine ⟨_, congrArg (Option.map _) hp, ?_, ?_⟩
  · exact
      { running := (acceptClient_running _).trans h.running
        range := h.range.poll hp
        opened := h.opened
        here := hleft.trans (connection_cons_own rfl [])
        unfinished := hframes.unfinished }
  · rw [msgsOf_append, hmsgs]

theorem Connected.room (h : Connected fd srv buf) (hwithin : ipcFraming.Within ipcRecvBuf buf) :
    buf.length < ipcRecvBuf := by
  by_cases hhead : headerSize ≤ buf.length
  · exact Nat.lt_of_lt_of_le (h.unfinished hhead) (hwithin hhead)
  · unfold headerSize at hhead
    unfold ipcRecvBuf
    omega

/-- A state in which the connection is open and there is room to read. -/
def Open (fd : Int) (s : Session) : Prop :=
  ∃ buf, Connected fd s.srv buf ∧ buf.length < ipcRecvBuf

/-- **Any number of polls.**  The induction is on the polls, for any bytes that wait at the
beginning. -/
theorem run_feeds {inputs : List PollInput} (h : Connected fd s.srv buf)
    (hfeeds : Along serverStep (fun s => Feeds fd s.srv) s inputs)
    (hframes : ipcFraming.Frames (buf ++ stream fd inputs) fs [])
    (hfs : ∀ f ∈ fs, f.length ≤ ipcRecvBuf) :
    Throughout serverStep (Open fd) s inputs ∧
      ∃ s', run serverStep s inputs = some s' ∧
        msgsOf fd s'.log = msgsOf fd s.log ++ fs.map frameMsg := by
  have hnil : ipcFraming.Within ipcRecvBuf [] := fun hhead => absurd hhead (by decide)
  have hopen : Open fd s := ⟨buf, h, h.room (hframes.within hfs hnil).front⟩
  induction inputs generalizing s buf fs with
  | nil =>
    rw [stream, flatMap_nil, append_nil] at hframes
    obtain ⟨rfl, rfl⟩ := hframes.unique (.done h.unfinished)
    refine ⟨hopen, s, rfl, ?_⟩
    rw [map_nil, append_nil]
  | cons input inputs ih =>
    have hstream : stream fd (input :: inputs) = (input.reads fd).bytes ++ stream fd inputs := rfl
    -- divide what is there after this poll, and then what is still to come
    obtain ⟨gs, r, hnow⟩ := exists_frames ipcFraming (buf ++ (input.reads fd).bytes)
    obtain ⟨gs', r', hlater⟩ := exists_frames ipcFraming (r ++ stream fd inputs)
    rw [hstream, ← append_assoc] at hframes
    obtain ⟨rfl, rfl⟩ := hframes.unique (hnow.append hlater)
    rw [forall_mem_append] at hfs
    have hwithin : ipcFraming.Within ipcRecvBuf r := (hlater.within hfs.2 hnil).front
    have hfits : Fits r := fun hhead => Nat.le_trans (hwithin hhead) (by decide)
    obtain ⟨s', hstep, hconn, hlog⟩ :=
      serverStep_open h (hfeeds.1.keepsOpen h) ((got_piece h hfeeds.1).symm ▸ hnow) hfits
    obtain ⟨hthrough, s'', hrun, hlog'⟩ :=
      ih hconn (hfeeds.2 s' hstep) hlater hfs.2 ⟨r, hconn, hconn.room hwithin⟩
    refine ⟨⟨hopen, fun t ht => ?_⟩, s'', ?_, ?_⟩
    · obtain rfl := some.inj (hstep.symm.trans ht)
      exact hthrough
    · rw [run_cons, hstep]
      exact hrun
    · rw [hlog', hlog, map_append, append_assoc]

/-- **Every message arrives.**  However the bytes of well-formed messages are cut into reads, and
whatever else the server does between them, the dispatcher is handed exactly these messages, in
order; the connection stays open all the while, with room for the next read. -/
theorem delivers_exactly {inputs : List PollInput} {msgs : List IpcMessage}
    (hconn : Connected fd srv []) (hmsgs : ∀ m ∈ msgs, m.WellFormed)
    (hfeeds : Along serverStep (fun s => Feeds fd s.srv) { srv := srv, log := [] } inputs)
    (hstream : stream fd inputs = (msgs.map IpcMessage.encode).flatten) :
    Throughout serverStep (Open fd) { srv := srv, log := [] } inputs ∧
      ∃ s, run serverStep { srv := srv, log := [] } inputs = some s ∧ msgsOf fd s.log = msgs := by
  have hframes : ipcFraming.Frames ([] ++ stream fd inputs) (msgs.map IpcMessage.encode) [] := by
    rw [hstream]
    refine frames_flatten fun f hf => ?_
    obtain ⟨m, hm, rfl⟩ := mem_map.mp hf
    have hwf := hmsgs m hm
    exact IpcMessage.isFrame_encode hwf.type_lt hwf.len_lt hwf.len_eq
  have hlen : ∀ f ∈ msgs.map IpcMessage.encode, f.length ≤ ipcRecvBuf := by
    intro f hf
    obtain ⟨m, hm, rfl⟩ := mem_map.mp hf
    rw [IpcMessage.length_encode, ← (hmsgs m hm).len_eq]
    exact (hmsgs m hm).fits
  obtain ⟨hthrough, s, hrun, hlog⟩ := run_feeds hconn hfeeds hframes hlen
  refine ⟨hthrough, s, hrun, hlog.trans ?_⟩
  rw [List.map_map]
  have hsame : ∀ m ∈ msgs, (frameMsg ∘ IpcMessage.encode) m = id m := fun m hm =>
    IpcMessage.frameMsg_encode (hmsgs m hm).type_lt (hmsgs m hm).len_lt
  exact (map_congr_left hsame).trans (map_id msgs)

end Stream

/-- A server with one client, which holds `buf` of it. -/
def serving (buf : List UInt8) : IpcServer :=
  { cbs := {}, clients := [{ fd := 3, active := true, recvBuf := buf }], running := true }

theorem feeds_serving {buf bytes : List UInt8} (hne : bytes ≠ [])
    (hroom : bytes.length ≤ ipcRecvBuf - buf.length) : Feeds 3 (serving buf) (sends bytes) := by
  refine ⟨.inr ⟨bytes, rfl, hne, ?_⟩, (some_ne_none 3).symm, ?_⟩
  · intro c hc _
    rw [mem_singleton.mp hc]
    exact hroom
  · intro c hc hfd
    rw [mem_singleton.mp hc] at hfd
    exact absurd rfl hfd

/-- A message in two pieces, cut inside its header. -/
theorem delivers_two_pieces :
    ∃ s, run serverStep { srv := serving [], log := [] }
        [sends [7, 0, 0, 0, 4], sends [0, 0, 0, 1, 0, 0, 0]] = some s ∧
      msgsOf 3 s.log = [{ type := 7, len := 4, payload := [1, 0, 0, 0] }] := by
  have hconn : Connected 3 (serving []) [] :=
    { running := rfl
      range := fun c hc => by rw [mem_singleton.mp hc]; exact Nat.zero_le _
      opened := by decide
      here := rfl
      unfinished := ipcFraming.unfinished_nil }
  refine (delivers_exactly hconn ?_ ?_ rfl).2
  · intro m hm
    rw [mem_singleton.mp hm]
    exact ⟨by decide, rfl, by decide⟩
  · refine ⟨feeds_serving (cons_ne_nil _ _) (by decide), fun s hs => ?_⟩
    cases hs
    exact ⟨feeds_serving (cons_ne_nil _ _) (by decide), fun _ _ => trivial⟩

end Nv0ken.Graphics
