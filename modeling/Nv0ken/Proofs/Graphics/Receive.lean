/-
What a client may send without harming the server.

The bytes of a connection are messages in the sense of `Framing`: a header of eight bytes
that announces a payload.  The receive loop follows this division as long as `8 + length`
is computed without overflow (`recvLoop_frames`).  A message that has arrived in full is
at most as long as the buffer, so the sum can only overflow for the message at the end,
the one that is not finished.  There the loop does not wait: it hands to the dispatcher
a payload longer than everything received (`recvLoop_wraps`), and goes on from wherever the
sum points.

So whether a poll ends well is decided by the last header of each connection, and
`receives_safely_iff` says this of every run of the server.
-/
import Nv0ken.Graphics.Server.IpcServer
import Nv0ken.Lib.Run

namespace Nv0ken.Graphics

open Word Wire Framing Run List

/-! ### The messages of a connection -/

/-- The format: the second word of the header announces the payload. -/
def ipcFraming : Framing UInt8 where
  header := headerSize
  announced buf := (ipcHeader buf).length
  header_pos := by decide
  announced_append := by
    intro a b h
    have hlen : 8 ≤ a.length := h
    have hdrop : (a ++ b).drop 4 = a.drop 4 ++ b := List.drop_append_of_le_length (by omega)
    have htake : (a.drop 4 ++ b).take 4 = (a.drop 4).take 4 :=
      List.take_append_of_le_length (by rw [List.length_drop]; omega)
    simp only [ipcHeader, hdrop, htake]

/-- A whole message as it is handed to the dispatcher. -/
def frameMsg (f : List UInt8) : IpcMessage :=
  { type := (ipcHeader f).type, len := (ipcHeader f).length, payload := f.drop headerSize }

/-- All the bytes that are handed over have been received. -/
def IpcMessage.Received (m : IpcMessage) : Prop := m.payload.length = m.len

/-- Where the bytes begin with a header, `8 + length` is an `int`. -/
def Fits (bytes : List UInt8) : Prop := ipcFraming.Within (2 ^ 31 - 1) bytes

theorem frameMsg_received {f : List UInt8} (hf : ipcFraming.IsFrame f) : (frameMsg f).Received := by
  have hlen : f.length = headerSize + (ipcHeader f).length := hf
  show (f.drop headerSize).length = (ipcHeader f).length
  rw [length_drop, hlen, Nat.add_sub_cancel_left]

theorem ipcHeader_length_lt (buf : List UInt8) : (ipcHeader buf).length < 2 ^ 32 := by
  have hbytes : ((buf.drop 4).take 4).length ≤ 4 := length_take_le _ _
  calc leValue ((buf.drop 4).take 4)
      < 256 ^ ((buf.drop 4).take 4).length := leValue_lt _
    _ ≤ 256 ^ 4 := Nat.pow_le_pow_right (by decide) hbytes
    _ = 2 ^ 32 := by decide

/-! ### One pass of the loop -/

theorem total_of_fits {len : Nat} (h : headerSize + len ≤ 2 ^ 31 - 1) :
    int32 (headerSize + toInt32 len) = headerSize + len := by
  have hlen : len < 2 ^ 31 := by unfold headerSize at h; omega
  rw [toInt32_of_lt hlen]
  exact int32_of_range (by omega) (by omega)

/-- A length that does not fit makes the total less than a header. -/
theorem total_lt_header {len : Nat} (hlen : len < 2 ^ 32) (h : ¬ headerSize + len ≤ 2 ^ 31 - 1) :
    int32 (headerSize + toInt32 len) < headerSize := by
  unfold int32 toInt32
  rw [Int.bmod_def]
  split <;> split <;> omega

section Pass

variable {passes : Nat} {buf : List UInt8}

/-- The message the loop hands over when it does not wait. -/
def handed (buf : List UInt8) : IpcMessage :=
  { type := (ipcHeader buf).type
    len := (ipcHeader buf).length
    payload := (buf.drop headerSize).take (ipcHeader buf).length }

/-- `total` for the header at the front. -/
def totalOf (buf : List UInt8) : Int := int32 (headerSize + toInt32 (ipcHeader buf).length)

theorem recvLoop_waits (h : headerSize ≤ buf.length → (buf.length : Int) < totalOf buf) :
    recvLoop (passes + 1) buf = ([], .waiting buf) := by
  by_cases hhead : buf.length < headerSize
  · rw [recvLoop, if_pos hhead]
  · rw [recvLoop, if_neg hhead]
    exact if_pos (h (Nat.le_of_not_lt hhead))

theorem recvLoop_leaves (hhead : headerSize ≤ buf.length) (htotal : totalOf buf < 0) :
    recvLoop (passes + 1) buf = ([handed buf], .outside) := by
  have hwait : ¬ (buf.length : Int) < totalOf buf := by omega
  rw [recvLoop, if_neg (Nat.not_lt.mpr hhead)]
  exact (if_neg hwait).trans (if_pos htotal)

theorem recvLoop_goes_on (hhead : headerSize ≤ buf.length) (htotal : totalOf buf ≤ buf.length)
    (hpos : 0 ≤ totalOf buf) :
    recvLoop (passes + 1) buf =
      (handed buf :: (recvLoop passes (buf.drop (totalOf buf).toNat)).1,
        (recvLoop passes (buf.drop (totalOf buf).toNat)).2) := by
  rw [recvLoop, if_neg (Nat.not_lt.mpr hhead)]
  exact (if_neg (Int.not_lt.mpr htotal)).trans (if_neg (Int.not_lt.mpr hpos))

/-- What a pass can do: wait, leave the buffer, or hand over a message and go on. -/
theorem recvLoop_cases (buf : List UInt8) :
    (∀ n, recvLoop (n + 1) buf = ([], .waiting buf)) ∨
    (∀ n, recvLoop (n + 1) buf = ([handed buf], .outside)) ∨
    headerSize ≤ buf.length ∧ ∃ k, ∀ n, recvLoop (n + 1) buf =
      (handed buf :: (recvLoop n (buf.drop k)).1, (recvLoop n (buf.drop k)).2) := by
  by_cases hwait : headerSize ≤ buf.length → (buf.length : Int) < totalOf buf
  · exact .inl fun n => recvLoop_waits hwait
  rw [Classical.not_imp, Int.not_lt] at hwait
  obtain ⟨hhead, htotal⟩ := hwait
  by_cases hneg : totalOf buf < 0
  · exact .inr (.inl fun n => recvLoop_leaves hhead hneg)
  · exact .inr (.inr ⟨hhead, _, fun n => recvLoop_goes_on hhead htotal (Int.not_lt.mp hneg)⟩)

/-- **More passes do not help.**  A loop that is not over after one pass more than there are
bytes has come to a message of which it takes nothing away, and it stays there. -/
theorem recvLoop_running (hpasses : buf.length < passes)
    (h : (recvLoop passes buf).2 = .running) : ∀ n, (recvLoop n buf).2 = .running := by
  induction passes generalizing buf with
  | zero => omega
  | succ passes ih =>
    obtain hwait | hleave | ⟨hhead, k, hpass⟩ := recvLoop_cases buf
    · rw [hwait] at h
      cases h
    · rw [hleave] at h
      cases h
    rw [hpass] at h
    intro n
    induction n with
    | zero => rfl
    | succ n ihn =>
      rw [hpass]
      by_cases hzero : k = 0
      · -- nothing is taken away: the next pass starts where this one did
        rw [hzero]
        exact ihn
      · exact ih (by rw [length_drop]; unfold headerSize at hhead; omega) h n

/-- A payload whose end cannot be computed is longer than what has been received. -/
theorem handed_not_received (hbuf : buf.length ≤ ipcRecvBuf)
    (h : ¬ headerSize + (ipcHeader buf).length ≤ 2 ^ 31 - 1) : ¬ (handed buf).Received := by
  have hle : ((buf.drop headerSize).take (ipcHeader buf).length).length ≤ buf.length := by
    rw [length_take, length_drop]
    omega
  intro hreceived
  have heq : ((buf.drop headerSize).take (ipcHeader buf).length).length = (ipcHeader buf).length :=
    hreceived
  unfold headerSize at h
  unfold ipcRecvBuf at hbuf
  omega

/-- **The slip.**  At a header whose length does not fit the loop does not wait for the rest. -/
theorem recvLoop_wraps (hbuf : buf.length ≤ ipcRecvBuf) (h : ¬ Fits buf) :
    ∃ m ∈ (recvLoop (passes + 1) buf).1, ¬ m.Received := by
  obtain ⟨hhead, hlen⟩ := Classical.not_imp.mp h
  have htotal : totalOf buf < headerSize := total_lt_header (ipcHeader_length_lt buf) hlen
  have hhead' : headerSize ≤ buf.length := hhead
  refine ⟨handed buf, ?_, handed_not_received hbuf hlen⟩
  by_cases hneg : totalOf buf < 0
  · rw [recvLoop_leaves hhead hneg]
    exact mem_singleton_self _
  · rw [recvLoop_goes_on hhead (by omega) (Int.not_lt.mp hneg)]
    exact mem_cons_self

theorem recvLoop_unfinished (h : ipcFraming.Unfinished buf) (hfits : Fits buf) :
    recvLoop (passes + 1) buf = ([], .waiting buf) := by
  refine recvLoop_waits fun hhead => ?_
  have hlen : headerSize + (ipcHeader buf).length ≤ 2 ^ 31 - 1 := hfits hhead
  have hlt : buf.length < headerSize + (ipcHeader buf).length := h hhead
  rw [totalOf, total_of_fits hlen]
  omega

/-- A whole message at the front is handed over as it is, and taken away. -/
theorem recvLoop_frame {f bytes : List UInt8} (hf : ipcFraming.IsFrame f)
    (hlen : f.length ≤ 2 ^ 31 - 1) :
    recvLoop (passes + 1) (f ++ bytes) =
      (frameMsg f :: (recvLoop passes bytes).1, (recvLoop passes bytes).2) := by
  have hhead : headerSize ≤ f.length := hf.header_le
  have hsize : f.length = headerSize + (ipcHeader f).length := hf
  have hlength : (ipcHeader (f ++ bytes)).length = (ipcHeader f).length := hf.announced_append bytes
  have htype : (ipcHeader (f ++ bytes)).type = (ipcHeader f).type := by
    have h4 : 4 ≤ f.length := Nat.le_trans (by decide) hhead
    simp only [ipcHeader, take_append_of_le_length h4]
  have htotal : totalOf (f ++ bytes) = f.length := by
    rw [totalOf, hlength, total_of_fits (hsize ▸ hlen), hsize]
    exact_mod_cast rfl
  have hhanded : handed (f ++ bytes) = frameMsg f := by
    have hpayload : (f.drop headerSize ++ bytes).take (ipcHeader f).length = f.drop headerSize := by
      have hdrop : (f.drop headerSize).length = (ipcHeader f).length := frameMsg_received hf
      rw [← hdrop, take_left]
    rw [handed, frameMsg, hlength, htype, drop_append_of_le_length hhead, hpayload]
  rw [recvLoop_goes_on, htotal, Int.toNat_natCast, drop_left, hhanded]
  · rw [length_append]
    omega
  · rw [htotal, length_append]
    omega
  · omega

end Pass

/-! ### The whole loop -/

section Loop

variable {passes : Nat} {buf rest : List UInt8} {fs : List (List UInt8)}

/-- **The loop divides what has been received**, and waits with the unfinished message. -/
theorem recvLoop_frames (h : ipcFraming.Frames buf fs rest) (hfits : Fits rest)
    (hbuf : buf.length ≤ ipcRecvBuf) (hpasses : fs.length < passes) :
    recvLoop passes buf = (fs.map frameMsg, .waiting rest) := by
  induction h generalizing passes with
  | done hdone =>
    obtain ⟨n, rfl⟩ := Nat.exists_eq_add_one_of_ne_zero (Nat.ne_of_gt hpasses)
    exact recvLoop_unfinished hdone hfits
  | @frame f bytes rest fs hf _ ih =>
    obtain ⟨n, rfl⟩ := Nat.exists_eq_add_one_of_ne_zero (Nat.ne_of_gt (Nat.zero_lt_of_lt hpasses))
    rw [length_append] at hbuf
    rw [length_cons] at hpasses
    rw [recvLoop_frame hf (by unfold ipcRecvBuf at hbuf; omega),
      ih hfits (by omega) (by omega), map_cons]

/-- If the unfinished message does not fit, the loop comes to it and hands over too much. -/
theorem recvLoop_not_fits (h : ipcFraming.Frames buf fs rest) (hfits : ¬ Fits rest)
    (hbuf : buf.length ≤ ipcRecvBuf) (hpasses : fs.length < passes) :
    ∃ m ∈ (recvLoop passes buf).1, ¬ m.Received := by
  induction h generalizing passes with
  | done _ =>
    obtain ⟨n, rfl⟩ := Nat.exists_eq_add_one_of_ne_zero (Nat.ne_of_gt hpasses)
    exact recvLoop_wraps hbuf hfits
  | @frame f bytes rest fs hf _ ih =>
    obtain ⟨n, rfl⟩ := Nat.exists_eq_add_one_of_ne_zero (Nat.ne_of_gt (Nat.zero_lt_of_lt hpasses))
    rw [length_append] at hbuf
    rw [length_cons] at hpasses
    obtain ⟨m, hm, hreceived⟩ : ∃ m ∈ (recvLoop n bytes).1, ¬ m.Received :=
      ih hfits (by omega) (by omega)
    rw [recvLoop_frame hf (by unfold ipcRecvBuf at hbuf; omega)]
    exact ⟨m, mem_cons_of_mem _ hm, hreceived⟩

/-- What the loop waits with is no more than it was given. -/
theorem recvLoop_rest_le (h : recvLoop passes buf = (msgs, .waiting rest)) :
    rest.length ≤ buf.length := by
  induction passes generalizing buf msgs with
  | zero => cases h
  | succ passes ih =>
    obtain hwait | hleave | ⟨_, k, hpass⟩ := recvLoop_cases buf
    · rw [hwait] at h
      cases h
      exact Nat.le_refl _
    · rw [hleave] at h
      cases h
    · rw [hpass] at h
      obtain ⟨-, hlast⟩ := Prod.mk.inj h
      have hle := ih (Prod.ext rfl hlast)
      rw [length_drop] at hle
      omega

end Loop

/-! ### One client -/

section Client

variable {reads : Int → ReadResult} {c c' : IpcClient} {msgs : List IpcMessage}

/-- The bytes a poll reads from the client. -/
def got (reads : Int → ReadResult) (c : IpcClient) : List UInt8 :=
  if !c.active || c.fd < 0 then []
  else
    match reads c.fd with
    | .data bytes => bytes.take (ipcRecvBuf - c.recvBuf.length)
    | _ => []

/-- The length in the last header the server has of the client, once it has read, fits. -/
def HeaderFits (reads : Int → ReadResult) (c : IpcClient) : Prop :=
  got reads c ≠ [] → ∀ fs rest, ipcFraming.Frames (c.recvBuf ++ got reads c) fs rest → Fits rest

theorem pollClient_quiet (h : got reads c = []) :
    pollClient reads c = some (c, []) ∧ (c.active = true → 0 ≤ c.fd → reads c.fd = .again) ∨
      pollClient reads c = some (c.closed, []) ∧ c.active = true ∧ 0 ≤ c.fd ∧
        reads c.fd ≠ .again := by
  unfold got at h
  unfold pollClient
  by_cases hopen : c.active = true ∧ 0 ≤ c.fd
  · have hserved : ¬ ((!c.active || decide (c.fd < 0)) = true) := by
      simp [hopen]
    rw [if_neg hserved] at h ⊢
    cases hread : reads c.fd with
    | again => exact .inl ⟨rfl, fun _ _ => rfl⟩
    | failed => exact .inr ⟨rfl, hopen.1, hopen.2, nofun⟩
    | data bytes =>
      rw [hread] at h
      exact .inr ⟨if_pos h, hopen.1, hopen.2, nofun⟩
  · refine .inl ⟨if_pos ?_, fun hactive hfd => absurd ⟨hactive, hfd⟩ hopen⟩
    cases hactive : c.active <;> simp_all

theorem pollClient_reads (h : got reads c ≠ []) :
    pollClient reads c =
      match recvLoop (ipcRecvBuf + 1) (c.recvBuf ++ got reads c) with
      | (msgs, .waiting rest) => some ({ c with recvBuf := rest }, msgs)
      | _ => none := by
  unfold got at h ⊢
  unfold pollClient
  split
  · rename_i hclosed
    rw [if_pos hclosed] at h
    exact absurd rfl h
  · rename_i hopen
    rw [if_neg hopen] at h
    cases hread : reads c.fd with
    | again | failed => rw [hread] at h; exact absurd rfl h
    | data bytes =>
      rw [hread] at h
      exact if_neg h

/-- What comes of a client: it is left alone or given up, or it is read from. -/
theorem pollClient_cases (h : pollClient reads c = some (c', msgs)) :
    got reads c = [] ∧ msgs = [] ∧
        (c' = c ∧ (c.active = true → 0 ≤ c.fd → reads c.fd = .again) ∨
          c' = c.closed ∧ c.active = true ∧ 0 ≤ c.fd ∧ reads c.fd ≠ .again) ∨
      got reads c ≠ [] ∧ ∃ rest, c' = { c with recvBuf := rest } ∧
        recvLoop (ipcRecvBuf + 1) (c.recvBuf ++ got reads c) = (msgs, .waiting rest) := by
  by_cases hgot : got reads c = []
  · obtain ⟨hsame, hwhy⟩ | ⟨hclosed, hwhy⟩ := pollClient_quiet hgot
    · cases hsame.symm.trans h
      exact .inl ⟨hgot, rfl, .inl ⟨rfl, hwhy⟩⟩
    · cases hclosed.symm.trans h
      exact .inl ⟨hgot, rfl, .inr ⟨rfl, hwhy⟩⟩
  · rw [pollClient_reads hgot] at h
    split at h
    · rename_i rest hloop
      cases h
      exact .inr ⟨hgot, rest, rfl, hloop⟩
    · cases h

theorem pollClient_endless (h : got reads c ≠ [])
    (hspin : (recvLoop (ipcRecvBuf + 1) (c.recvBuf ++ got reads c)).2 = .running) :
    pollClient reads c = none := by
  rw [pollClient_reads h]
  split
  · rename_i hloop
    rw [hloop] at hspin
    cases hspin
  · rfl

section

variable (hc : c.recvBuf.length ≤ ipcRecvBuf)
include hc

theorem length_got : (c.recvBuf ++ got reads c).length ≤ ipcRecvBuf := by
  have hgot : (got reads c).length ≤ ipcRecvBuf - c.recvBuf.length := by
    unfold got
    split
    · exact Nat.zero_le _
    · split
      · exact length_take_le _ _
      · exact Nat.zero_le _
  rw [length_append]
  omega

/-- A client whose last header fits is handed on message by message. -/
theorem pollClient_frames (hgot : got reads c ≠ [])
    (h : ipcFraming.Frames (c.recvBuf ++ got reads c) fs rest) (hfits : Fits rest) :
    pollClient reads c = some ({ c with recvBuf := rest }, fs.map frameMsg) := by
  have hbuf : (c.recvBuf ++ got reads c).length ≤ ipcRecvBuf := length_got hc
  have hpasses : fs.length < ipcRecvBuf + 1 := by
    have := h.length_le
    omega
  rw [pollClient_reads hgot, recvLoop_frames h hfits hbuf hpasses]

theorem pollClient_range
    (h : pollClient reads c = some (c', msgs)) : c'.recvBuf.length ≤ ipcRecvBuf := by
  obtain ⟨-, -, ⟨rfl, -⟩ | ⟨rfl, -⟩⟩ | ⟨-, rest, rfl, hloop⟩ := pollClient_cases h
  · exact hc
  · exact hc
  · exact Nat.le_trans (recvLoop_rest_le hloop) (length_got hc)

/-- **A client is served safely exactly when the length in its last header fits.** -/
theorem pollClient_safe_iff :
    (∃ c' msgs, pollClient reads c = some (c', msgs) ∧ ∀ m ∈ msgs, m.Received) ↔
      HeaderFits reads c := by
  by_cases hgot : got reads c = []
  · refine ⟨fun _ h => absurd hgot h, fun _ => ?_⟩
    have hnil : ∀ m ∈ ([] : List IpcMessage), m.Received := fun m hm => absurd hm not_mem_nil
    obtain ⟨h, -⟩ | ⟨h, -⟩ := pollClient_quiet hgot
    · exact ⟨c, [], h, hnil⟩
    · exact ⟨c.closed, [], h, hnil⟩
  · constructor
    · intro ⟨c', msgs, h, hreceived⟩ _ fs rest hframes
      by_contra hfits
      have hlen := hframes.length_le
      have hbuf : (c.recvBuf ++ got reads c).length ≤ ipcRecvBuf := length_got hc
      obtain ⟨m, hm, hnot⟩ :
          ∃ m ∈ (recvLoop (ipcRecvBuf + 1) (c.recvBuf ++ got reads c)).1, ¬ m.Received :=
        recvLoop_not_fits hframes hfits hbuf (by omega)
      obtain ⟨hnone, -⟩ | ⟨-, rest, -, hloop⟩ := pollClient_cases h
      · exact hgot hnone
      · rw [hloop] at hm
        exact hnot (hreceived m hm)
    · intro hfits
      obtain ⟨fs, rest, hframes⟩ := exists_frames ipcFraming (c.recvBuf ++ got reads c)
      refine ⟨_, _, pollClient_frames hc hgot hframes (hfits hgot fs rest hframes), ?_⟩
      intro m hm
      obtain ⟨f, hf, rfl⟩ := mem_map.mp hm
      exact frameMsg_received (hframes.isFrame f hf)

end

end Client

/-! ### The server -/

section Server

variable {cbs : IpcCallbacks} {reads : Int → ReadResult} {i : Nat} {cs cs' : List IpcClient}
  {ds : List Dispatched} {srv : IpcServer} {input : PollInput} {p : Polled}

/-- The loop over the clients is the body for each of them. -/
theorem pollClients_cons (h : pollClients cbs reads i (c :: cs) = some (cs', ds)) :
    ∃ c' msgs cs'' later, pollClient reads c = some (c', msgs) ∧
      pollClients cbs reads (i + 1) cs = some (cs'', later) ∧ cs' = c' :: cs'' ∧
      ds = msgs.map (fun m => ⟨i, c.fd, m, dispatch cbs m⟩) ++ later := by
  rw [pollClients] at h
  split at h
  · rename_i c' msgs cs'' later hc hcs
    cases h
    exact ⟨c', msgs, cs'', later, hc, hcs, rfl, rfl⟩
  · cases h

theorem pollClients_of_cons {later : List Dispatched} (hc : pollClient reads c = some (c', msgs))
    (hcs : pollClients cbs reads (i + 1) cs = some (cs', later)) :
    pollClients cbs reads i (c :: cs) =
      some (c' :: cs', msgs.map (fun m => ⟨i, c.fd, m, dispatch cbs m⟩) ++ later) := by
  rw [pollClients, hc, hcs]

section

variable (hcs : ∀ c ∈ cs, c.recvBuf.length ≤ ipcRecvBuf)
include hcs

theorem pollClients_range (h : pollClients cbs reads i cs = some (cs', ds)) :
    ∀ c ∈ cs', c.recvBuf.length ≤ ipcRecvBuf := by
  induction cs generalizing i cs' ds with
  | nil =>
    cases h
    exact hcs
  | cons c cs ih =>
    obtain ⟨c', msgs, cs'', later, hc, hrest, rfl, -⟩ := pollClients_cons h
    rw [forall_mem_cons] at hcs ⊢
    exact ⟨pollClient_range hcs.1 hc, ih hcs.2 hrest⟩

theorem pollClients_safe_iff :
    (∃ cs' ds, pollClients cbs reads i cs = some (cs', ds) ∧ ∀ d ∈ ds, d.msg.Received) ↔
      ∀ c ∈ cs, HeaderFits reads c := by
  induction cs generalizing i with
  | nil =>
    refine ⟨fun _ c hc => absurd hc not_mem_nil, fun _ => ⟨[], [], rfl, ?_⟩⟩
    exact fun d hd => absurd hd not_mem_nil
  | cons c cs ih =>
    rw [forall_mem_cons] at hcs ⊢
    rw [← pollClient_safe_iff hcs.1, ← ih hcs.2 (i := i + 1)]
    constructor
    · intro ⟨cs', ds, h, hreceived⟩
      obtain ⟨c', msgs, cs'', later, hc, hrest, -, rfl⟩ := pollClients_cons h
      rw [forall_mem_append, forall_mem_map] at hreceived
      exact ⟨⟨c', msgs, hc, hreceived.1⟩, ⟨cs'', later, hrest, hreceived.2⟩⟩
    · intro ⟨⟨c', msgs, hc, hmsgs⟩, ⟨cs'', later, hrest, hlater⟩⟩
      refine ⟨_, _, pollClients_of_cons hc hrest, ?_⟩
      rw [forall_mem_append, forall_mem_map]
      exact ⟨hmsgs, hlater⟩

end

/-- `0 ≤ recv_len ≤ 4096` for every client. -/
def InRange (srv : IpcServer) : Prop := ∀ c ∈ srv.clients, c.recvBuf.length ≤ ipcRecvBuf

/-- The poll comes to its end, has handed to the dispatcher only what it has received, and
leaves `recv_len` in its range. -/
def PollSafe (srv : IpcServer) (input : PollInput) : Prop :=
  ∃ p, ipcServerPoll srv input = some p ∧ (∀ d ∈ p.dispatched, d.msg.Received) ∧ InRange p.srv

/-- The length in the last header of every client fits, once what it has to read is read. -/
def HeadersFit (srv : IpcServer) (input : PollInput) : Prop :=
  srv.running → ∀ c ∈ (acceptClient srv input.announced).clients, HeaderFits input.reads c

/-- One poll after another. -/
def pollStep (srv : IpcServer) (input : PollInput) : Option IpcServer :=
  (ipcServerPoll srv input).map (·.srv)

theorem InRange.accept (h : InRange srv) (announced : Option Int) :
    InRange (acceptClient srv announced) := by
  unfold acceptClient
  split
  · exact h
  · split
    · exact h
    · split
      · exact h
      · intro c hc
        obtain hc | hc := mem_append.mp hc
        · exact h c hc
        · rw [mem_singleton.mp hc]
          exact Nat.zero_le _

theorem poll_stopped (h : srv.running = false) :
    ipcServerPoll srv input = some { ret := -1, srv := srv, dispatched := [] } := by
  simp [ipcServerPoll, h]

/-- A poll of a running server polls the clients and keeps those that are still there. -/
theorem poll_running (h : srv.running = true) :
    ipcServerPoll srv input = some p ↔
      ∃ cs' ds, pollClients (acceptClient srv input.announced).cbs input.reads 0
          (acceptClient srv input.announced).clients = some (cs', ds) ∧
        p =
          ⟨0, { acceptClient srv input.announced with clients := cs'.filter (·.active) }, ds⟩ := by
  unfold ipcServerPoll
  rw [if_neg (by simp [h])]
  generalize acceptClient srv input.announced = acc
  cases hclients : pollClients acc.cbs input.reads 0 acc.clients with
  | none => simp [hclients]
  | some r =>
    obtain ⟨cs', ds⟩ := r
    simp only [hclients]
    constructor
    · intro hp
      exact ⟨cs', ds, rfl, (Option.some.inj hp).symm⟩
    · intro ⟨cs'', ds', hr, hp⟩
      cases hr
      exact congrArg some hp.symm

theorem InRange.poll (h : InRange srv) (hpoll : ipcServerPoll srv input = some p) :
    InRange p.srv := by
  cases hrunning : srv.running with
  | false =>
    cases (poll_stopped hrunning).symm.trans hpoll
    exact h
  | true =>
    obtain ⟨cs', ds, hclients, rfl⟩ := (poll_running hrunning).mp hpoll
    intro c hc
    exact pollClients_range (h.accept _) hclients c (mem_of_mem_filter hc)

theorem pollSafe_iff (h : InRange srv) : PollSafe srv input ↔ HeadersFit srv input := by
  cases hrunning : srv.running with
  | false =>
    refine ⟨fun _ hr => ?_, fun _ => ⟨_, poll_stopped hrunning, ?_, h⟩⟩
    · rw [hrunning] at hr
      cases hr
    · exact fun d hd => absurd hd not_mem_nil
  | true =>
    have hrange := h.accept input.announced
    constructor
    · intro ⟨p, hpoll, hreceived, _⟩ _
      obtain ⟨cs', ds, hcs, rfl⟩ := (poll_running hrunning).mp hpoll
      exact (pollClients_safe_iff hrange).mp ⟨cs', ds, hcs, hreceived⟩
    · intro hfits
      obtain ⟨cs', ds, hcs, hreceived⟩ := (pollClients_safe_iff hrange).mpr (hfits hrunning)
      have hpoll := (poll_running hrunning).mpr ⟨cs', ds, hcs, rfl⟩
      exact ⟨_, hpoll, hreceived, h.poll hpoll⟩

/-- **The server comes safely through a run exactly when no header it reaches announces a
length for which `8 + length` overflows.**  Then every poll ends, the dispatcher is handed
received bytes only, and `recv_len` stays within the buffer. -/
theorem receives_safely_iff (hrange : InRange srv) (inputs : List PollInput) :
    Along pollStep PollSafe srv inputs ↔ Along pollStep HeadersFit srv inputs := by
  refine along_congr (I := InRange) ?_ (fun srv input h => pollSafe_iff h) hrange
  intro srv input srv' h _ hstep
  obtain ⟨p, hpoll, rfl⟩ := Option.map_eq_some_iff.mp hstep
  exact h.poll hpoll

end Server

/-- A server that has been started, before anyone connects. -/
def startedServer : IpcServer := { cbs := {}, running := true }

/-- A client announces itself and has nothing to say yet. -/
def connects (fd : Int) : PollInput := { announced := some fd, reads := fun _ => .again }

/-- A poll that finds these bytes. -/
def sends (bytes : List UInt8) : PollInput := { announced := none, reads := fun _ => .data bytes }

/-- A client connects and hides its window: a header and the number of the window. -/
theorem receives_hide :
    Along pollStep PollSafe startedServer
      [connects 3, sends [7, 0, 0, 0, 4, 0, 0, 0, 1, 0, 0, 0]] := by
  have hrange : InRange startedServer := fun c hc => absurd hc not_mem_nil
  refine (receives_safely_iff hrange _).mpr ⟨?_, fun srv hsrv => ⟨?_, fun _ _ => trivial⟩⟩
  · intro _ c hc hgot
    rw [mem_singleton.mp hc] at hgot
    exact absurd rfl hgot
  · cases hsrv
    intro _ c hc _ fs rest hframes
    rw [mem_singleton.mp hc] at hframes
    have hwhole : ∀ f ∈ [([7, 0, 0, 0, 4, 0, 0, 0, 1, 0, 0, 0] : List UInt8)],
        ipcFraming.IsFrame f := by
      intro f hf
      rw [mem_singleton.mp hf]
      show 12 = headerSize + (ipcHeader _).length
      decide +kernel
    obtain ⟨-, rfl⟩ := hframes.unique (frames_flatten hwhole)
    intro h
    cases h

/-- Eight bytes that announce a payload of `0xFFFFFFF8` bytes: `total` is zero. -/
def endless : List UInt8 := [7, 0, 0, 0, 0xF8, 0xFF, 0xFF, 0xFF]

/-- A client connects and sends one header, and the server is never done with it. -/
theorem endless_pass :
    (ipcServerNew none true).map (ipcServerStart · true true) = some (0, startedServer) ∧
    (∀ n, (recvLoop n endless).2 = .running) ∧
    ¬ Along pollStep PollSafe startedServer [connects 3, sends endless] := by
  have hspin : ∀ n, (recvLoop n endless).2 = .running :=
    recvLoop_running (by decide : endless.length < 9) (by decide +kernel)
  refine ⟨rfl, hspin, ?_⟩
  intro ⟨_, hrest⟩
  obtain ⟨⟨p, hpoll, _⟩, _⟩ := hrest _ rfl
  obtain ⟨cs', ds, hclients, -⟩ := (poll_running rfl).mp hpoll
  obtain ⟨c', msgs, _, _, hclient, -⟩ := pollClients_cons hclients
  have hgot : got (sends endless).reads ⟨3, true, []⟩ = endless := take_of_length_le (by decide)
  have hread : got (sends endless).reads ⟨3, true, []⟩ ≠ [] := by
    exact cons_ne_nil _ _
  rw [pollClient_endless hread (hgot ▸ hspin _)] at hclient
  cases hclient

end Nv0ken.Graphics
