/-
When the client library keeps in step with the server.

`nv_ipc_poll` has nowhere to keep a part of a message: a header that comes in two pieces and a
payload of which nothing more is there are both failures, and the bytes read are lost.  So a
poll is good exactly when it finds every header it begins in one piece and then the whole
payload (`Whole`), and this is said of every sequence of polls in `polls_in_step_iff`.

The payload loop is followed by what it needs: `afterPayload` takes the pieces it uses away,
and `pollLoop_payload` says the loop does the same.
-/
import Nv0ken.Libnv0.Ipc
import Nv0ken.Proofs.Graphics.Delivery

namespace Nv0ken.Libnv0

open Wire Run Graphics List

/-! ### Whole messages -/

/-- A message a client may be sent. -/
structure Receivable (m : IpcMessage) : Prop where
  type_lt : m.type < 2 ^ 32
  len_eq : m.len = m.payload.length
  limit : m.len ≤ ipcRecvBuf

/-- The pieces that are left once `need` bytes have been read. -/
def afterPayload : Nat → List Nat → Option (List Nat)
  | 0, pieces => some pieces
  | _ + 1, [] => none
  | need + 1, n :: pieces => afterPayload (need + 1 - n) pieces

/-- The poll meets with no message of which it gets only a part. -/
def Whole : List IpcMessage → List Nat → Prop
  | [], _ => True
  | _ :: _, [] => True
  | m :: msgs, n :: pieces =>
    headerSize ≤ n ∧ ∃ left, afterPayload m.len pieces = some left ∧ Whole msgs left

/-- The bytes of messages one after another. -/
def encoded (msgs : List IpcMessage) : List UInt8 := (msgs.map IpcMessage.encode).flatten

theorem encoded_cons (m : IpcMessage) (msgs : List IpcMessage) :
    encoded (m :: msgs) = leBytes 4 m.type ++ leBytes 4 m.len ++ (m.payload ++ encoded msgs) := by
  simp [encoded, IpcMessage.encode]

theorem afterPayload_mem {need : Nat} {pieces left : List Nat}
    (h : afterPayload need pieces = some left) : ∀ n ∈ left, n ∈ pieces := by
  induction pieces generalizing need with
  | nil =>
    cases need with
    | zero =>
      cases h
      exact fun n hn => hn
    | succ need => cases h
  | cons k pieces ih =>
    cases need with
    | zero =>
      cases h
      exact fun n hn => hn
    | succ need => exact fun n hn => mem_cons_of_mem k (ih h n hn)

/-! ### One poll -/

section Poll

variable {pieces : List Nat}

/-- The payload loop uses up the pieces it needs, or fails. -/
theorem pollLoop_payload (hdr : IpcHeader) (hpieces : ∀ n ∈ pieces, 0 < n)
    (done payload rest : List UInt8)
    (hlen : hdr.length = done.length + payload.length) (hne : payload ≠ []) :
    (∀ left, afterPayload payload.length pieces = some left →
        pollLoop pieces (.payload hdr done) (payload ++ rest) =
          (pollLoop left .header rest).after
            { type := hdr.type, len := hdr.length, payload := done ++ payload }) ∧
      (afterPayload payload.length pieces = none →
        (pollLoop pieces (.payload hdr done) (payload ++ rest)).ret = -1) := by
  induction pieces generalizing done payload with
  | nil =>
    obtain ⟨b, payload, rfl⟩ := exists_cons_of_ne_nil hne
    refine ⟨fun left hleft => ?_, fun _ => rfl⟩
    cases hleft
  | cons n pieces ih =>
    rw [forall_mem_cons] at hpieces
    have hasked : hdr.length - done.length = payload.length := by omega
    have hafter : afterPayload payload.length (n :: pieces) =
        afterPayload (payload.length - n) pieces := by
      obtain ⟨b, payload, rfl⟩ := exists_cons_of_ne_nil hne
      rfl
    rw [hafter, pollLoop, hasked]
    by_cases hmore : n < payload.length
    · -- a part of what is needed: the loop goes on
      have htake : (payload ++ rest).take (min n payload.length) = payload.take n := by
        rw [Nat.min_eq_left (by omega), take_append_of_le_length (by omega)]
      have hdrop : (payload ++ rest).drop (min n payload.length) = payload.drop n ++ rest := by
        rw [Nat.min_eq_left (by omega), drop_append_of_le_length (by omega)]
      have hsome : payload.take n ≠ [] := by
        rw [Ne, take_eq_nil_iff]
        exact not_or.mpr ⟨by omega, hne⟩
      have hshort : (done ++ payload.take n).length < hdr.length := by
        rw [length_append, length_take]
        omega
      have hleft : (payload.drop n).length = payload.length - n := length_drop
      simp only [htake, hdrop, hsome, hshort, if_true, if_false]
      rw [← hleft]
      have hrest := ih hpieces.2 (done ++ payload.take n) (payload.drop n)
        (by rw [length_append, length_take]; omega)
        (by rw [Ne, drop_eq_nil_iff]; omega)
      rwa [append_assoc, take_append_drop] at hrest
    · have htake : (payload ++ rest).take (min n payload.length) = payload := by
        rw [Nat.min_eq_right (by omega), take_left]
      have hdrop : (payload ++ rest).drop (min n payload.length) = rest := by
        rw [Nat.min_eq_right (by omega), drop_left]
      have hfull : ¬ (done ++ payload).length < hdr.length := by
        rw [length_append]
        omega
      have hzero : payload.length - n = 0 := by omega
      simp only [htake, hdrop, hne, hfull, if_false, hzero, afterPayload]
      refine ⟨fun left hleft => ?_, fun hnone => ?_⟩
      · cases hleft
        rfl
      · cases hnone

variable {n : Nat} {m : IpcMessage} {msgs : List IpcMessage}

/-- A header in one piece is understood. -/
theorem pollLoop_header (hm : Receivable m) (hn : headerSize ≤ n) :
    pollLoop (n :: pieces) .header (encoded (m :: msgs)) =
      if 0 < m.len then
        pollLoop pieces (.payload { type := m.type, length := m.len } [])
          (m.payload ++ encoded msgs)
      else
        (pollLoop pieces .header (m.payload ++ encoded msgs)).after
          { type := m.type, len := m.len, payload := [] } := by
  have hsize : (leBytes 4 m.type ++ leBytes 4 m.len).length = headerSize := by
    simp [headerSize]
  have htake : (encoded (m :: msgs)).take (min n headerSize) =
      leBytes 4 m.type ++ leBytes 4 m.len := by
    rw [Nat.min_eq_right hn, encoded_cons, ← hsize, take_left]
  have hdrop : (encoded (m :: msgs)).drop (min n headerSize) = m.payload ++ encoded msgs := by
    rw [Nat.min_eq_right hn, encoded_cons, ← hsize, drop_left]
  have hlen : m.len < 2 ^ 32 := by
    have := hm.limit
    unfold ipcRecvBuf at this
    omega
  have hheader : ipcHeader (leBytes 4 m.type ++ leBytes 4 m.len) =
      { type := m.type, length := m.len } := by
    have h := IpcMessage.ipcHeader_encode (m := { m with payload := [] }) hm.type_lt hlen
    rwa [IpcMessage.encode, append_nil] at h
  have hne : leBytes 4 m.type ++ leBytes 4 m.len ≠ [] := by
    rw [← length_pos_iff, hsize]
    decide
  have hok : ¬ ((leBytes 4 m.type ++ leBytes 4 m.len).length ≠ headerSize ∨
      m.len > ipcRecvBuf) := by
    rw [not_or, not_not]
    exact ⟨hsize, Nat.not_lt.mpr hm.limit⟩
  rw [pollLoop]
  simp only [htake, hdrop, hheader, hne, hok, if_false]

/-- A header in two pieces is lost. -/
theorem pollLoop_torn (hpos : 0 < n) (hn : n < headerSize) :
    (pollLoop (n :: pieces) .header (encoded (m :: msgs))).ret = -1 := by
  have hlong : n ≤ (encoded (m :: msgs)).length := by
    rw [encoded_cons]
    simp only [length_append, length_leBytes]
    unfold headerSize at hn
    omega
  have hlen : ((encoded (m :: msgs)).take (min n headerSize)).length = n := by
    rw [Nat.min_eq_left (by omega), length_take_of_le hlong]
  have hne : (encoded (m :: msgs)).take (min n headerSize) ≠ [] := by
    rw [← length_pos_iff, hlen]
    exact hpos
  have hbad : ((encoded (m :: msgs)).take (min n headerSize)).length ≠ headerSize := by
    omega
  rw [pollLoop]
  simp only [hne, if_false]
  rw [if_pos (Or.inl hbad)]

/-- A message whose header comes in one piece is dispatched if its payload comes too, and
makes the poll fail otherwise. -/
theorem pollLoop_message (hm : Receivable m) (hpieces : ∀ k ∈ pieces, 0 < k)
    (hn : headerSize ≤ n) (msgs : List IpcMessage) :
    (∀ left, afterPayload m.len pieces = some left →
      pollLoop (n :: pieces) .header (encoded (m :: msgs)) =
        (pollLoop left .header (encoded msgs)).after m) ∧
    (afterPayload m.len pieces = none →
      (pollLoop (n :: pieces) .header (encoded (m :: msgs))).ret = -1) := by
  rw [pollLoop_header hm hn]
  have hlen := hm.len_eq
  by_cases hempty : m.payload = []
  · have hzero : m.len = 0 := by rw [hlen, hempty, length_nil]
    have hsame : ({ type := m.type, len := m.len, payload := [] } : IpcMessage) = m := by
      rw [← hempty]
    rw [if_neg (by omega), hzero, afterPayload, hempty, nil_append]
    refine ⟨fun left hleft => ?_, fun hnone => ?_⟩
    · cases hleft
      rw [← hzero, hsame]
    · cases hnone
  · have hpos := length_pos_of_ne_nil hempty
    rw [if_pos (by omega)]
    have hpayload := pollLoop_payload { type := m.type, length := m.len } hpieces []
      m.payload (encoded msgs) (by simpa using hlen) hempty
    rw [← hlen] at hpayload
    exact hpayload

/-- **A poll is in step with the messages exactly when it gets whole ones.** -/
theorem pollLoop_whole (hmsgs : ∀ m ∈ msgs, Receivable m) (hpieces : ∀ k ∈ pieces, 0 < k) :
    (Whole msgs pieces → ∃ done todo, msgs = done ++ todo ∧
      pollLoop pieces .header (encoded msgs) =
        { ret := 0, dispatched := done, unread := encoded todo }) ∧
    (¬ Whole msgs pieces → (pollLoop pieces .header (encoded msgs)).ret = -1) := by
  induction msgs generalizing pieces with
  | nil =>
    refine ⟨fun _ => ⟨[], [], rfl, ?_⟩, fun h => absurd trivial h⟩
    cases pieces with
    | nil => rfl
    | cons n pieces => simp [pollLoop, encoded]
  | cons m msgs ih =>
    cases pieces with
    | nil => exact ⟨fun _ => ⟨[], m :: msgs, rfl, rfl⟩, fun h => absurd trivial h⟩
    | cons n pieces =>
      rw [forall_mem_cons] at hmsgs hpieces
      by_cases hn : headerSize ≤ n
      · obtain ⟨hsome, hnone⟩ := pollLoop_message hmsgs.1 hpieces.2 hn msgs
        cases hafter : afterPayload m.len pieces with
        | none =>
          refine ⟨fun ⟨_, left, hleft, _⟩ => ?_, fun _ => hnone hafter⟩
          rw [hafter] at hleft
          cases hleft
        | some left =>
          have hleft : ∀ k ∈ left, 0 < k := fun k hk => hpieces.2 k (afterPayload_mem hafter k hk)
          obtain ⟨hgood, hbad⟩ := ih hmsgs.2 hleft
          rw [hsome left hafter]
          refine ⟨fun ⟨_, left', hleft', hwhole⟩ => ?_, fun hnot => hbad fun hwhole => ?_⟩
          · cases hafter.symm.trans hleft'
            obtain ⟨done, todo, rfl, hloop⟩ := hgood hwhole
            exact ⟨m :: done, todo, rfl, congrArg (·.after m) hloop⟩
          · exact hnot ⟨hn, left, hafter, hwhole⟩
      · exact ⟨fun h => absurd h.1 hn, fun _ => pollLoop_torn hpieces.1 (Nat.not_le.mp hn)⟩

end Poll

/-! ### Polls one after another -/

/-- The library, the result of its last poll, everything it has dispatched, and what waits to
be read. -/
structure Inbox where
  lib : Library
  ret : Int := 0
  dispatched : List IpcMessage := []
  unread : List UInt8

def inboxStep (s : Inbox) (pieces : List Nat) : Option Inbox :=
  let p := nvIpcPoll s.lib pieces s.unread
  some { lib := p.2, ret := p.1.ret, dispatched := s.dispatched ++ p.1.dispatched,
         unread := p.1.unread }

/-- The library has not failed, has dispatched the first of the messages, and will read the
others from the beginning. -/
def InStep (msgs : List IpcMessage) (s : Inbox) : Prop :=
  s.ret = 0 ∧ ∃ todo, msgs = s.dispatched ++ todo ∧ s.unread = encoded todo

section Polls

variable {msgs : List IpcMessage} {s s' : Inbox} {pieces : List Nat}

theorem dispatchMessage_outFd (lib : Library) (m : IpcMessage) :
    (dispatchMessage lib m).ipcOutFd = lib.ipcOutFd := by
  unfold dispatchMessage
  simp only
  repeat' split
  all_goals rfl

theorem foldl_outFd (ms : List IpcMessage) (lib : Library) :
    (ms.foldl dispatchMessage lib).ipcOutFd = lib.ipcOutFd := by
  induction ms generalizing lib with
  | nil => rfl
  | cons m ms ih => rw [foldl_cons, ih, dispatchMessage_outFd]

theorem poll_connected {lib : Library} (hfd : 0 ≤ lib.ipcOutFd) (unread : List UInt8) :
    nvIpcPoll lib pieces unread =
      (pollLoop pieces .header unread,
        (pollLoop pieces .header unread).dispatched.foldl dispatchMessage lib) := by
  rw [nvIpcPoll, if_neg (Int.not_lt.mpr hfd)]

theorem inboxStep_connected (hfd : 0 ≤ s.lib.ipcOutFd) (hstep : inboxStep s pieces = some s') :
    0 ≤ s'.lib.ipcOutFd := by
  cases hstep
  rw [poll_connected hfd, foldl_outFd]
  exact hfd

theorem inStep_step (hmsgs : ∀ m ∈ msgs, Receivable m) (hfd : 0 ≤ s.lib.ipcOutFd)
    (hpieces : ∀ n ∈ pieces, 0 < n) (h : InStep msgs s) (hstep : inboxStep s pieces = some s') :
    InStep msgs s' ↔ Whole (msgs.drop s.dispatched.length) pieces := by
  obtain ⟨-, todo, rfl, hunread⟩ := h
  rw [drop_left]
  rw [inboxStep, poll_connected hfd, hunread] at hstep
  obtain ⟨hgood, hbad⟩ := pollLoop_whole (fun m hm => hmsgs m (mem_append_right _ hm)) hpieces
  by_cases hwhole : Whole todo pieces
  · refine iff_of_true ?_ hwhole
    obtain ⟨done, rest, rfl, hloop⟩ := hgood hwhole
    rw [hloop] at hstep
    cases hstep
    exact ⟨rfl, rest, (append_assoc _ _ _).symm, rfl⟩
  · refine iff_of_false ?_ hwhole
    cases hstep
    intro h
    have hret := h.1.symm.trans (hbad hwhole)
    cases hret

/-- **The library keeps in step exactly when no poll gets a part of a message.**  As long as
every header a poll begins comes in one piece, and its payload without a read that would
block, the messages are dispatched in order and nothing is lost; at the first poll for which
this does not hold the library fails. -/
theorem polls_in_step_iff (hmsgs : ∀ m ∈ msgs, Receivable m) {lib : Library}
    (hfd : 0 ≤ lib.ipcOutFd) {polls : List (List Nat)}
    (hpieces : ∀ pieces ∈ polls, ∀ n ∈ pieces, 0 < n) :
    Throughout inboxStep (InStep msgs) { lib, unread := encoded msgs } polls ↔
      Along inboxStep (fun s pieces => Whole (msgs.drop s.dispatched.length) pieces)
        { lib, unread := encoded msgs } polls := by
  refine throughout_iff_along_under (I := fun s => 0 ≤ s.lib.ipcOutFd) ?_ ?_ ?_
    (along_of_forall (fun pieces h _ => hpieces pieces h) _) hfd ⟨rfl, msgs, rfl, rfl⟩
  · intro s pieces s' _ hfd _ _ hstep
    exact inboxStep_connected hfd hstep
  · intro s pieces _ _ hnone
    cases hnone
  · intro s pieces s' hpos hfd h hstep
    exact inStep_step hmsgs hfd hpos h hstep

/-- Two messages in two polls: the first header and its payload in two pieces, then a header
alone. -/
theorem polls_in_step_two :
    Throughout inboxStep
      (InStep [{ type := 101, len := 2, payload := [1, 2] },
        { type := 103, len := 0, payload := [] }])
      { lib := { ipcOutFd := 5 },
        unread := encoded
          [{ type := 101, len := 2, payload := [1, 2] }, { type := 103, len := 0, payload := [] }] }
      [[8, 1, 1], [4096]] := by
  refine (polls_in_step_iff ?_ (by decide) (by decide)).mpr ?_
  · intro m hm
    rcases mem_pair.mp hm with rfl | rfl <;> exact ⟨by decide, rfl, by decide⟩
  · refine ⟨⟨by decide, [], rfl, trivial⟩, fun s hs => ?_⟩
    cases hs
    exact ⟨⟨by decide, [], rfl, trivial⟩, fun _ _ => trivial⟩

/-- A header that comes in two pieces: the poll fails, and five bytes are lost. -/
theorem torn_header_fails :
    ∃ s, run inboxStep
        { lib := { ipcOutFd := 5 }, unread := encoded [{ type := 103, len := 0, payload := [] }] }
        [[5], [3]] = some s ∧
      ¬ InStep [{ type := 103, len := 0, payload := [] }] s := by
  refine ⟨_, rfl, ?_⟩
  intro h
  cases h.1

end Polls

end Nv0ken.Libnv0
