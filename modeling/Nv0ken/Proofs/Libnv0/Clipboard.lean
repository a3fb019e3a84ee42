/-
From one clipboard to the other.

`nv_clipboard_set` cuts the text to what its cache holds, 4095 bytes, and sends it with its
length in front.  The server takes a message only if it fits the receive buffer with its
header, so of a text it takes 4084 bytes at most, and its dispatcher does not call the handler
for a text of no bytes.  The three limits were chosen apart: `clipboard_arrives_iff` says for
which texts they agree.

The bytes pass from one side to the other through a `Link`.  A poll finds the front of what
has been written and not been read, cut anywhere, and reads as much of it as it has room for.
A message that fits is read to its end (`link_serves`).  One that does not fit fills the
buffer and is never complete, so the connection is given up or something stays unread
(`link_blocked`).
-/
import Nv0ken.Libnv0.Ipc
import Nv0ken.Proofs.Graphics.Delivery

namespace Nv0ken.Libnv0

open Word Wire Framing Run Graphics List Option

/-! ### What is sent -/

/-- A loop that does not fail has written everything. -/
theorem writeAll_cases {writes left : List WriteResult} {bytes out : List UInt8} {ret : Int}
    (h : writeAll writes bytes = some (ret, out, left)) : ret = -1 ∨ ret = 0 ∧ out = bytes := by
  induction writes generalizing bytes out with
  | nil =>
    cases bytes with
    | nil => cases h; exact .inr ⟨rfl, rfl⟩
    | cons b bytes => cases h
  | cons w writes ih =>
    cases bytes with
    | nil => cases w <;> (cases h; exact .inr ⟨rfl, rfl⟩)
    | cons b bytes =>
      cases w with
      | interrupted => exact ih h
      | failed => cases h; exact .inl rfl
      | wrote n =>
        rw [writeAll, map_eq_some_iff] at h
        obtain ⟨⟨ret', out', left'⟩, hrest, heq⟩ := h
        cases heq
        obtain hfailed | ⟨hok, rfl⟩ := ih hrest
        · exact .inl hfailed
        · exact .inr ⟨hok, take_append_drop n _⟩

/-- The message `nv_ipc_send` makes of a payload. -/
def message (type : Nat) (payload : List UInt8) : IpcMessage :=
  { type, len := payload.length, payload }

variable {lib : Library} {input : SendInput} {sent : Sent} {text : Option (List UInt8)}
  {memory : Bool} {m : IpcMessage}

theorem connect_cache (lib : Library) (opened : Option (Int × Int)) :
    (nvIpcConnect lib opened).2.clipboardCache = lib.clipboardCache := by
  unfold nvIpcConnect
  repeat' split
  all_goals rfl

theorem send_ok {type : Nat} {payload : List UInt8}
    (h : nvIpcSend lib input type payload = some sent) (hret : sent.ret = 0) :
    sent.out = (message type payload).encode ∧ sent.lib.clipboardCache = lib.clipboardCache := by
  unfold nvIpcSend at h
  have hcache := connect_cache lib input.opened
  simp only at h hcache
  split at h
  · cases h
    cases hret
  obtain ⟨⟨ret, header, writes⟩, hheader, h⟩ := bind_eq_some_iff.mp h
  split at h
  · cases h
    cases hret
  obtain ⟨⟨ret', body, left⟩, hbody, h⟩ := bind_eq_some_iff.mp h
  cases h
  have hret' : ret' = 0 := hret
  obtain hfailed | ⟨-, rfl⟩ := writeAll_cases hheader
  · omega
  obtain hfailed | ⟨-, rfl⟩ := writeAll_cases hbody
  · omega
  · exact ⟨append_assoc _ _ _, hcache⟩

/-- The text as it is stored and sent. -/
def storedText (text : Option (List UInt8)) : List UInt8 :=
  (cString (text.getD [])).take (cacheSize - 1)

/-- The message a text is sent in. -/
def clipboardMsg (t : List UInt8) : IpcMessage :=
  message msgClipboardSet (leBytes 4 t.length ++ t)

theorem clipboardMsg_type (t : List UInt8) : (clipboardMsg t).type < 2 ^ 32 := by
  show msgClipboardSet < 2 ^ 32
  decide

theorem clipboardMsg_len (t : List UInt8) : (clipboardMsg t).len = 4 + t.length := by
  simp [clipboardMsg, message]

theorem clipboardSet_ok (h : nvClipboardSet lib input text memory = some sent)
    (hret : sent.ret = 0) :
    sent.out = (clipboardMsg (storedText text)).encode ∧
      sent.lib.clipboardCache = storedText text := by
  have hlength : ∀ t : List UInt8,
      (if t.length ≥ cacheSize then cacheSize - 1 else t.length) =
        (t.take (cacheSize - 1)).length := by
    intro t
    rw [length_take]
    split <;> omega
  have htake : ∀ t : List UInt8,
      t.take (t.take (cacheSize - 1)).length = t.take (cacheSize - 1) := by
    intro t
    rw [length_take, take_eq_take_iff]
    omega
  unfold nvClipboardSet at h
  simp only [hlength, htake] at h
  split at h
  · cases h
    cases hret
  · obtain ⟨hout, hcache⟩ := send_ok h hret
    exact ⟨hout, hcache⟩

/-! ### The link -/

/-- The server, and what a client has written and the server has not read. -/
structure Link where
  session : Session
  unread : List UInt8

/-- The bytes a poll reads from the descriptor. -/
def taken (fd : Int) (srv : IpcServer) (input : PollInput) : List UInt8 :=
  (connection fd srv.clients).flatMap (got input.reads)

def linkStep (fd : Int) (l : Link) (input : PollInput) : Option Link :=
  (serverStep l.session input).map fun s =>
    { session := s, unread := l.unread.drop (taken fd l.session.srv input).length }

/-- A poll finds nothing for now, or the front of what has not been read.  A new client gets
a descriptor of its own, and the others do not bring the server down. -/
structure Offers (fd : Int) (l : Link) (input : PollInput) : Prop where
  piece : input.reads fd = .again ∨
    ∃ n, 0 < n ∧ l.unread ≠ [] ∧ input.reads fd = .data (l.unread.take n)
  fresh : input.announced ≠ some fd
  others : ∀ c ∈ (acceptClient l.session.srv input.announced).clients, c.fd ≠ fd →
    HeaderFits input.reads c

/-- The link is at rest: everything has been read, or nobody reads any more. -/
def Link.Settled (fd : Int) (l : Link) : Prop :=
  l.unread = [] ∨ connection fd l.session.srv.clients = []

section Link

variable {fd : Int} {l : Link} {input : PollInput} {buf : List UInt8}

theorem taken_eq (h : Connected fd l.session.srv buf) (input : PollInput) :
    taken fd l.session.srv input = got input.reads (openClient fd buf) := by
  rw [taken, h.here, flatMap_singleton]

/-- What is read is the front of what was unread. -/
theorem got_prefix_unread (hoffers : Offers fd l input) (buf : List UInt8) :
    got input.reads (openClient fd buf) <+: l.unread := by
  unfold got
  split
  · exact nil_prefix
  · obtain hagain | ⟨n, -, -, hdata⟩ := hoffers.piece
    · simp only [hagain]
      exact nil_prefix
    · simp only [hdata]
      exact ( take_prefix _ _).trans ( take_prefix _ _)

/-- Where there is room, nothing is read only because there is nothing. -/
theorem again_of_got (hoffers : Offers fd l input) (h : Connected fd l.session.srv buf)
    (hroom : buf.length < ipcRecvBuf) (hgot : got input.reads (openClient fd buf) = []) :
    input.reads fd = .again := by
  have hopen : ¬ ((!true || decide (fd < 0)) = true) := by
    have := h.opened
    simp only [Bool.not_true, Bool.false_or, decide_eq_true_eq]
    omega
  obtain hagain | ⟨n, hn, hne, hdata⟩ := hoffers.piece
  · exact hagain
  · unfold got at hgot
    rw [if_neg hopen] at hgot
    simp only [hdata, take_eq_nil_iff] at hgot
    rcases hgot with hfull | hnone | hempty
    · omega
    · omega
    · exact absurd hempty hne

/-- All that is to be told of a link whose messages fit: those handed over, the one that has
begun to arrive and those to come are the messages that were sent. -/
def Serves (fd : Int) (msgs : List IpcMessage) (l : Link) : Prop :=
  ∃ buf fs, Connected fd l.session.srv buf ∧ ipcFraming.Frames (buf ++ l.unread) fs [] ∧
    (∀ f ∈ fs, f.length ≤ ipcRecvBuf) ∧ msgsOf fd l.session.log ++ fs.map frameMsg = msgs

theorem serves_step {msgs : List IpcMessage} (h : Serves fd msgs l) (hoffers : Offers fd l input) :
    ∃ l', linkStep fd l input = some l' ∧ Serves fd msgs l' := by
  obtain ⟨buf, fs, hconn, hframes, hfs, hmsgs⟩ := h
  have hnil : ipcFraming.Within ipcRecvBuf [] := fun hhead => absurd hhead (by decide)
  have hroom := hconn.room (hframes.within hfs hnil).front
  have hsplit := prefix_iff_eq_append.mp (got_prefix_unread hoffers buf)
  have htaken := taken_eq hconn input
  have hopen : KeepsOpen fd l.session.srv buf input :=
    ⟨again_of_got hoffers hconn hroom, hoffers.fresh, hoffers.others⟩
  generalize hb : got input.reads (openClient fd buf) = bytes at hsplit htaken
  -- divide what is there after this poll, and then what is still to come
  obtain ⟨gs, r, hnow⟩ := exists_frames ipcFraming (buf ++ bytes)
  obtain ⟨gs', r', hlater⟩ := exists_frames ipcFraming (r ++ l.unread.drop bytes.length)
  rw [← hsplit, ← append_assoc] at hframes
  obtain ⟨rfl, rfl⟩ := hframes.unique (hnow.append hlater)
  rw [forall_mem_append] at hfs
  have hwithin : ipcFraming.Within ipcRecvBuf r := (hlater.within hfs.2 hnil).front
  have hfits : Fits r := fun hhead => Nat.le_trans (hwithin hhead) (by decide)
  obtain ⟨s', hstep, hconn', hlog⟩ := serverStep_open hconn hopen (hb.symm ▸ hnow) hfits
  refine ⟨_, congrArg (Option.map _) hstep, r, gs', hconn', ?_, hfs.2, ?_⟩
  · rw [htaken]
    exact hlater
  · rw [hlog, append_assoc, ← map_append]
    exact hmsgs

/-- The client has been given up. -/
structure Gone (fd : Int) (srv : IpcServer) : Prop where
  running : srv.running = true
  range : InRange srv
  here : connection fd srv.clients = []

/-- A poll after which no client has the descriptor. -/
theorem gone_step (hrunning : l.session.srv.running = true) (hrange : InRange l.session.srv)
    (hfits : ∀ c ∈ (acceptClient l.session.srv input.announced).clients, HeaderFits input.reads c)
    (hgone : ∀ cs' ds, pollClients (acceptClient l.session.srv input.announced).cbs input.reads 0
        (acceptClient l.session.srv input.announced).clients = some (cs', ds) →
      connection fd (cs'.filter (·.active)) = []) :
    ∃ l', linkStep fd l input = some l' ∧ Gone fd l'.session.srv := by
  obtain ⟨cs', ds, hpoll, -⟩ := (pollClients_safe_iff (hrange.accept _)).mpr hfits
  have hp := (poll_running hrunning).mpr ⟨cs', ds, hpoll, rfl⟩
  exact ⟨_, congrArg (Option.map _) (congrArg (Option.map _) hp),
    (acceptClient_running _).trans hrunning, hrange.poll hp, hgone cs' ds hpoll⟩

theorem gone_stays (h : Gone fd l.session.srv) (hoffers : Offers fd l input) :
    ∃ l', linkStep fd l input = some l' ∧ Gone fd l'.session.srv := by
  have hhere := (connection_accept hoffers.fresh).trans h.here
  refine gone_step h.running h.range (fun c hc => hoffers.others c hc ?_)
    fun cs' ds hpoll => (pollClients_other hpoll hhere).1
  intro hfd
  have hmem : c ∈ connection fd (acceptClient l.session.srv input.announced).clients :=
    mem_filter.mpr ⟨hc, decide_eq_true hfd⟩
  rw [hhere] at hmem
  exact absurd hmem not_mem_nil

/-- Where something is there and there is no room for it, `read` is asked for no bytes, and
the client is taken for one that has left. -/
theorem gone_of_full (h : Connected fd l.session.srv buf) (hoffers : Offers fd l input)
    (hgot : got input.reads (openClient fd buf) = []) (hdata : input.reads fd ≠ .again) :
    ∃ l', linkStep fd l input = some l' ∧ Gone fd l'.session.srv := by
  refine gone_step h.running h.range (h.forall_client hoffers.fresh ?_ hoffers.others) ?_
  · exact fun hread => absurd hgot hread
  · intro cs' ds hpoll
    obtain ⟨c', msgs, hclient, hleft, -⟩ := pollClients_connection hpoll (h.accepted hoffers.fresh)
    obtain ⟨-, -, ⟨-, hwhy⟩ | ⟨rfl, -⟩⟩ | ⟨hread, -⟩ := pollClient_cases hclient
    · exact absurd (hwhy rfl h.opened) hdata
    · exact hleft
    · exact absurd hgot hread

/-- A link with a message too long for the buffer: a part of it has been read, or the client
has been given up. -/
def Blocked (fd : Int) (out : List UInt8) (l : Link) : Prop :=
  (∃ buf, Connected fd l.session.srv buf ∧ buf ++ l.unread = out) ∨ Gone fd l.session.srv

theorem blocked_step {out : List UInt8} (hframe : ipcFraming.IsFrame out)
    (hlong : ipcRecvBuf < out.length) (hint : out.length ≤ 2 ^ 31 - 1) (h : Blocked fd out l)
    (hoffers : Offers fd l input) : ∃ l', linkStep fd l input = some l' ∧ Blocked fd out l' := by
  obtain ⟨buf, hconn, hout⟩ | hgone := h
  · have hroom : (buf ++ got input.reads (openClient fd buf)).length
        ≤ ipcRecvBuf := length_got (hconn.range _ hconn.mem)
    have hsplit := prefix_iff_eq_append.mp (got_prefix_unread hoffers buf)
    by_cases hquiet : got input.reads (openClient fd buf) = [] →
        input.reads fd = .again
    · -- what has been read is the front of the message, and not all of it
      rw [← hsplit, ← append_assoc] at hout
      have hrest : l.unread.drop
          (got input.reads (openClient fd buf)).length ≠ [] := by
        intro hnone
        rw [hnone, append_nil] at hout
        rw [hout] at hroom
        omega
      have hwithin : ipcFraming.Within (2 ^ 31 - 1) out := fun _ => hframe ▸ hint
      rw [← hout] at hframe hwithin
      have hopen : KeepsOpen fd l.session.srv buf input := ⟨hquiet, hoffers.fresh, hoffers.others⟩
      obtain ⟨s', hstep, hconn', -⟩ :=
        serverStep_open hconn hopen (.done (hframe.unfinished_front hrest)) hwithin.front
      refine ⟨_, congrArg (Option.map _) hstep, .inl ⟨_, hconn', ?_⟩⟩
      rw [taken_eq hconn input]
      exact hout
    · obtain ⟨hgot, hdata⟩ := Classical.not_imp.mp hquiet
      obtain ⟨l', hstep, hgone⟩ := gone_of_full hconn hoffers hgot hdata
      exact ⟨l', hstep, .inr hgone⟩
  · obtain ⟨l', hstep, hgone'⟩ := gone_stays hgone hoffers
    exact ⟨l', hstep, .inr hgone'⟩

end Link

/-! ### What the server makes of it -/

/-- The calls that messages from this descriptor led to. -/
def callsOf (fd : Int) (ds : List Dispatched) : List IpcCall :=
  (ds.filter (·.fd = fd)).filterMap (·.call)

/-- Every call was made for the message it is logged with. -/
def Faithful (cbs : IpcCallbacks) (s : Session) : Prop :=
  s.srv.cbs = cbs ∧ ∀ d ∈ s.log, d.call = dispatch cbs d.msg

variable {cbs : IpcCallbacks}

theorem pollClients_calls {reads : Int → ReadResult} {i : Nat} {cs cs' : List IpcClient}
    {ds : List Dispatched} (h : pollClients cbs reads i cs = some (cs', ds)) :
    ∀ d ∈ ds, d.call = dispatch cbs d.msg := by
  induction cs generalizing i cs' ds with
  | nil =>
    cases h
    exact fun d hd => absurd hd not_mem_nil
  | cons c cs ih =>
    obtain ⟨c', msgs, cs'', later, -, hrest, -, rfl⟩ := pollClients_cons h
    rw [forall_mem_append, List.forall_mem_map]
    exact ⟨fun m _ => rfl, ih hrest⟩

theorem acceptClient_cbs (srv : IpcServer) (announced : Option Int) :
    (acceptClient srv announced).cbs = srv.cbs := by
  unfold acceptClient
  repeat' split
  all_goals rfl

theorem faithful_step {s s' : Session} {input : PollInput} (h : Faithful cbs s)
    (hstep : serverStep s input = some s') : Faithful cbs s' := by
  obtain ⟨p, hpoll, rfl⟩ := map_eq_some_iff.mp hstep
  obtain ⟨hcbs, hlog⟩ := h
  cases hrunning : s.srv.running with
  | false =>
    cases (poll_stopped hrunning).symm.trans hpoll
    refine ⟨hcbs, ?_⟩
    rw [append_nil]
    exact hlog
  | true =>
    obtain ⟨cs', ds, hclients, rfl⟩ := (poll_running hrunning).mp hpoll
    rw [acceptClient_cbs, hcbs] at hclients
    refine ⟨(acceptClient_cbs _ _).trans hcbs, ?_⟩
    rw [forall_mem_append]
    exact ⟨hlog, pollClients_calls hclients⟩

theorem faithful_run {fd : Int} {l l' : Link} {inputs : List PollInput} (h : Faithful cbs l.session)
    (hrun : run (linkStep fd) l inputs = some l') : Faithful cbs l'.session := by
  have hkept : Throughout (linkStep fd) (fun l => Faithful cbs l.session) l inputs := by
    refine along_throughout ?_ h (along_true l inputs)
    intro l input l' h _ hstep
    obtain ⟨s', hserver, rfl⟩ := map_eq_some_iff.mp hstep
    exact faithful_step h hserver
  exact hkept.last hrun

theorem callsOf_eq {s : Session} (h : Faithful cbs s) (fd : Int) :
    callsOf fd s.log = (msgsOf fd s.log).filterMap (dispatch cbs) := by
  rw [msgsOf, filterMap_map]
  exact filterMap_congr fun d hd => h.2 d (mem_of_mem_filter hd)

/-- The handler is called for every text but the empty one. -/
theorem dispatch_clipboard (hcbs : cbs.onClipboardSet = true) {t : List UInt8}
    (ht : t.length < cacheSize) :
    dispatch cbs (clipboardMsg t) =
      if 0 < t.length then some (.onClipboardSet t t.length) else none := by
  have hlt : t.length < 4096 := ht
  have htake : (leBytes 4 t.length ++ t).take 4 = leBytes 4 t.length :=
    take_left' (length_leBytes 4 _)
  have hdrop : (leBytes 4 t.length ++ t).drop 4 = t := drop_left' (length_leBytes 4 _)
  have hvalue : leValue (leBytes 4 t.length) = t.length := by
    rw [leValue_leBytes]
    exact Nat.mod_eq_of_lt (by omega)
  have hlen : (leBytes 4 t.length ++ t).length = 4 + t.length := by simp
  have hsum : (4 + t.length) % 2 ^ 32 = 4 + t.length := Nat.mod_eq_of_lt (by omega)
  have hint : toInt32 t.length = t.length := toInt32_of_lt (by omega)
  simp only [dispatch, clipboardMsg, message, msgClipboardSet, msgType, hlen, hcbs, htake, hdrop,
    hvalue, hsum,
    hint, take_length, and_true, ge_iff_le, Nat.le_add_right, if_true, Nat.le_refl, gt_iff_lt]

/-! ### The whole way -/

section Arrival

variable {fd : Int} {srv : IpcServer} {inputs : List PollInput}

/-- A message that fits is handed over, once everything has been read. -/
theorem message_served (hm : m.WellFormed) (hconn : Connected fd srv [])
    (hoffers : Along (linkStep fd) (Offers fd) ⟨⟨srv, []⟩, m.encode⟩ inputs) :
    ∃ l, run (linkStep fd) ⟨⟨srv, []⟩, m.encode⟩ inputs = some l ∧
      connection fd l.session.srv.clients ≠ [] ∧
      (l.Settled fd → msgsOf fd l.session.log = [m]) := by
  have hframe := IpcMessage.isFrame_encode hm.type_lt hm.len_lt hm.len_eq
  have hstart : Serves fd [m] ⟨⟨srv, []⟩, m.encode⟩ := by
    refine ⟨[], [m.encode], hconn, ?_, ?_, ?_⟩
    · have hframes : ipcFraming.Frames (m.encode ++ []) [m.encode] [] :=
        .frame hframe (.done ipcFraming.unfinished_nil)
      rwa [append_nil] at hframes
    · intro f hf
      rw [mem_singleton.mp hf, IpcMessage.length_encode, ← hm.len_eq]
      exact hm.fits
    · rw [map_singleton, IpcMessage.frameMsg_encode hm.type_lt hm.len_lt]
      rfl
  obtain ⟨l, hrun, buf, fs, hconn', hframes, -, hmsgs⟩ :=
    run_keeps (fun _ _ h hoffers => serves_step h hoffers) hstart hoffers
  have hhere : connection fd l.session.srv.clients ≠ [] := by
    rw [hconn'.here]
    exact cons_ne_nil _ _
  refine ⟨l, hrun, hhere, fun hsettled => ?_⟩
  have hread : l.unread = [] := hsettled.resolve_right hhere
  rw [hread, append_nil] at hframes
  obtain ⟨rfl, -⟩ := hframes.unique (.done hconn'.unfinished)
  rw [map_nil, append_nil] at hmsgs
  exact hmsgs

/-- A message that does not fit is not read to its end by a client that stays. -/
theorem message_blocked (htype : m.type < 2 ^ 32) (hlen : m.len = m.payload.length)
    (hlong : ipcRecvBuf < headerSize + m.len) (hint : headerSize + m.len ≤ 2 ^ 31 - 1)
    (hconn : Connected fd srv [])
    (hoffers : Along (linkStep fd) (Offers fd) ⟨⟨srv, []⟩, m.encode⟩ inputs) :
    ∃ l, run (linkStep fd) ⟨⟨srv, []⟩, m.encode⟩ inputs = some l ∧
      (l.Settled fd → connection fd l.session.srv.clients = []) := by
  have hframe := IpcMessage.isFrame_encode htype (by omega) hlen
  have hsize : m.encode.length = headerSize + m.len := by rw [IpcMessage.length_encode, hlen]
  rw [← hsize] at hlong hint
  obtain ⟨l, hrun, hend⟩ :=
    run_keeps (fun _ _ h hoffers => blocked_step hframe hlong hint h hoffers)
    (.inl ⟨[], hconn, rfl⟩) hoffers
  refine ⟨l, hrun, fun hsettled => ?_⟩
  obtain hread | hgone := hsettled
  · obtain ⟨buf, hconn', hout⟩ | hgone := hend
    · -- all of it would have to be in the buffer
      have hroom : buf.length ≤ ipcRecvBuf := hconn'.range _ hconn'.mem
      rw [hread, append_nil] at hout
      rw [hout] at hroom
      omega
    · exact hgone.here
  · exact hgone

/-- **A text arrives exactly when it has 1 to 4084 bytes.**  Once the server has read what it
will, it has called its handler once with the text the client stored, and still has the
client, for these texts and for no others. -/
theorem clipboard_arrives_iff (hsent : nvClipboardSet lib input text memory = some sent)
    (hret : sent.ret = 0) (hconn : Connected fd srv []) (hcbs : srv.cbs.onClipboardSet = true)
    (hoffers : Along (linkStep fd) (Offers fd) ⟨⟨srv, []⟩, sent.out⟩ inputs) :
    ∃ l, run (linkStep fd) ⟨⟨srv, []⟩, sent.out⟩ inputs = some l ∧
      (l.Settled fd →
        (callsOf fd l.session.log =
            [.onClipboardSet sent.lib.clipboardCache sent.lib.clipboardCache.length] ∧
          connection fd l.session.srv.clients ≠ [] ↔
        0 < (cString (text.getD [])).length ∧ (cString (text.getD [])).length ≤ 4084)) := by
  obtain ⟨hout, hcache⟩ := clipboardSet_ok hsent hret
  rw [hout] at hoffers ⊢
  rw [hcache]
  have hlen : (storedText text).length = min 4095 (cString (text.getD [])).length := length_take
  have hsize := clipboardMsg_len (storedText text)
  by_cases hshort : (cString (text.getD [])).length ≤ 4084
  · have hm : (clipboardMsg (storedText text)).WellFormed := by
      refine ⟨clipboardMsg_type _, rfl, ?_⟩
      rw [headerSize, ipcRecvBuf]
      omega
    obtain ⟨l, hrun, hhere, hmsgs⟩ := message_served hm hconn hoffers
    have hfaithful := faithful_run ⟨rfl, fun d hd => absurd hd not_mem_nil⟩ hrun
    refine ⟨l, hrun, fun hsettled => ?_⟩
    rw [callsOf_eq hfaithful, hmsgs hsettled, filterMap_cons, filterMap_nil,
      dispatch_clipboard hcbs (by rw [cacheSize]; omega)]
    by_cases hpos : 0 < (storedText text).length
    · rw [if_pos hpos]
      exact ⟨fun _ => ⟨by omega, hshort⟩, fun _ => ⟨rfl, hhere⟩⟩
    · -- the handler is not called for the empty text
      rw [if_neg hpos]
      constructor
      · intro h
        cases h.1
      · intro h
        omega
  · have hlong : ipcRecvBuf < headerSize + (clipboardMsg (storedText text)).len := by
      rw [headerSize, ipcRecvBuf]
      omega
    have hint : headerSize + (clipboardMsg (storedText text)).len ≤ 2 ^ 31 - 1 := by
      rw [headerSize]
      omega
    obtain ⟨l, hrun, hgone⟩ := message_blocked (clipboardMsg_type _) rfl hlong hint hconn hoffers
    refine ⟨l, hrun, fun hsettled => ?_⟩
    constructor
    · intro h
      exact absurd (hgone hsettled) h.2
    · intro h
      exact absurd h.2 hshort

end Arrival

/-- A server that takes clipboard texts, with one client. -/
def clipboardServer : IpcServer :=
  { cbs := { onClipboardSet := true }
    clients := [{ fd := 3, active := true, recvBuf := [] }]
    running := true }

theorem connected_clipboardServer : Connected 3 clipboardServer [] where
  running := rfl
  range := fun c hc => by rw [List.mem_singleton.mp hc]; exact Nat.zero_le _
  opened := by decide
  here := rfl
  unfinished := ipcFraming.unfinished_nil

/-- A client that is connected, when every `write` takes what it is given. -/
def setClipboard (text : List UInt8) : Option Sent :=
  nvClipboardSet { ipcInFd := 4 } { writes := [.wrote 8, .wrote 4099] } (some text) true

/-- The text `hi`, read in one poll. -/
theorem clipboard_arrives_hi :
    ∃ sent l, setClipboard [104, 105] = some sent ∧
      run (linkStep 3) ⟨⟨clipboardServer, []⟩, sent.out⟩ [sends sent.out] = some l ∧
      callsOf 3 l.session.log = [.onClipboardSet [104, 105] 2] := by
  have hsent : setClipboard [104, 105] = some
      { ret := 0
        lib := { ipcInFd := 4, clipboardCache := [104, 105] }
        out := [11, 0, 0, 0, 6, 0, 0, 0, 2, 0, 0, 0, 104, 105] } := rfl
  have hoffers : Along (linkStep 3) (Offers 3)
      ⟨⟨clipboardServer, []⟩, [11, 0, 0, 0, 6, 0, 0, 0, 2, 0, 0, 0, 104, 105]⟩
      [sends [11, 0, 0, 0, 6, 0, 0, 0, 2, 0, 0, 0, 104, 105]] := by
    refine ⟨⟨.inr ⟨14, by decide, cons_ne_nil _ _, rfl⟩, (some_ne_none 3).symm, ?_⟩,
      fun _ _ => trivial⟩
    intro c hc hfd
    rw [mem_singleton.mp hc] at hfd
    exact absurd rfl hfd
  obtain ⟨l, hrun, harrives⟩ :=
    clipboard_arrives_iff hsent rfl connected_clipboardServer rfl hoffers
  refine ⟨_, l, hsent, hrun, ?_⟩
  have hsettled : l.Settled 3 := by
    cases hrun
    exact .inl rfl
  exact ((harrives hsettled).mpr ⟨by decide, by decide⟩).1

/-- The empty text: the message is read, and the handler is not called. -/
theorem clipboard_empty_lost :
    ∃ sent l, setClipboard [] = some sent ∧ sent.ret = 0 ∧
      run (linkStep 3) ⟨⟨clipboardServer, []⟩, sent.out⟩ [sends sent.out] = some l ∧
      l.unread = [] ∧ callsOf 3 l.session.log = [] := by
  refine ⟨_, _, rfl, rfl, rfl, rfl, rfl⟩

end Nv0ken.Libnv0
