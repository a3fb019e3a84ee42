/-
What a reference to a client denotes.

A handler is given a pointer to the client's slot, and the window manager keeps it as the
owner of the windows it makes.  At the end of a poll the clients that are left move to the
front of the array, so a pointer to a slot behind a client that has left comes to denote
another client, or none.

To tell one connection from another the clients are numbered as they connect: a `Display`
keeps the numbers of the slots beside them, the references that handlers were given with the
number they were given for, and the same for each window.  `references_denote_iff` says of
every run when they agree: a client must not leave as long as one behind it stays that a
handler knows.
-/
import Nv0ken.Proofs.Graphics.Owners
import Nv0ken.Proofs.Graphics.Receive

namespace Nv0ken.Graphics

open Run Keyed List Option

/-! ### The display -/

/-- Whether a handler is called, which is given the client. -/
def IpcCall.isCallback : IpcCall → Bool
  | .onCreateWindow _ => true
  | .onDestroyWindow _ => true
  | .onSwapBuffer _ => true
  | .onSetTitle _ => true
  | .onResize _ => true
  | .onMove _ => true
  | .onShowHide _ _ => true
  | .onInvalidate _ => true
  | .onClipboardSet _ _ => true
  | .sendClipboardData => false
  | .sendError _ _ _ => false

/-- A message that makes the server call a handler. -/
def callsBack (cbs : IpcCallbacks) (m : IpcMessage) : Bool :=
  (dispatch cbs m).any IpcCall.isCallback

/-- A client that a poll does not give up. -/
def stays (reads : Int → ReadResult) (c : IpcClient) : Bool :=
  c.active &&
    (c.fd < 0 ||
      match reads c.fd with
      | .again => true
      | .failed => false
      | .data bytes => bytes.take (ipcRecvBuf - c.recvBuf.length) ≠ [])

/-- The server and the window manager, and what is known of the references. -/
structure Display where
  srv : IpcServer
  wm : WindowManager
  /-- The number of the connection in each slot. -/
  conns : List Nat := []
  /-- How many clients have connected. -/
  accepted : Nat := 0
  /-- The slot a handler was given, and the connection it was called for. -/
  refs : List (Nat × Nat) := []
  /-- The id of a window that was made for a client, and the reference stored in it. -/
  stored : List (Int × Nat × Nat) := []

namespace Display

/-- The client that announces itself, if there is room for one, gets the next number. -/
def accept (d : Display) (announced : Option Int) : Display :=
  let srv := acceptClient d.srv announced
  if srv.clients.length = d.srv.clients.length then d
  else { d with srv, conns := d.conns ++ [d.accepted], accepted := d.accepted + 1 }

/-- The slots with the numbers of their connections. -/
def slots (d : Display) : List (IpcClient × Nat) := d.srv.clients.zip d.conns

/-- The references given to handlers during a poll. -/
def given (d : Display) (cbs : IpcCallbacks) (ds : List Dispatched) : List (Nat × Nat) :=
  ds.filterMap fun x =>
    if callsBack cbs x.msg then d.conns[x.client]?.map fun k => (x.client, k) else none

def poll (d : Display) (input : PollInput) : Option Display :=
  (ipcServerPoll d.srv input).map fun p =>
    if d.srv.running then
      let a := d.accept input.announced
      { a with
        srv := p.srv
        conns := (a.slots.filter fun s => stays input.reads s.1).map Prod.snd
        refs := a.refs ++ a.given a.srv.cbs p.dispatched }
    else d

end Display

/-- A window that is made for no client. -/
def WmOp.ownerless : WmOp → Bool
  | .create (some _) _ _ _ _ _ _ => false
  | _ => true

/-- The server is polled, a window is made for a client a handler was called for, or the
window manager does anything else. -/
inductive DisplayOp
  | poll (input : PollInput)
  | create (ref : Nat × Nat) (x y w h : Int) (title : Option (List UInt8)) (flags : Int)
  | window (op : WmOp)

def displayStep (d : Display) : DisplayOp → Option Display
  | .poll input => d.poll input
  | .create ref x y w h title flags =>
    if ref ∈ d.refs then
      some
        { d with
          wm := (wmCreateWindow d.wm (some ref.1) x y w h title flags).1
          stored := d.stored ++ [(d.wm.nextWinId, ref)] }
    else none
  | .window op => if op.ownerless then (wmStep d.wm op).map fun wm => { d with wm } else none

/-- The slot holds the connection, if it still is one. -/
def Display.RefDenotes (d : Display) (ref : Nat × Nat) : Prop :=
  ref.2 ∈ d.conns → d.conns[ref.1]? = some ref.2

/-- Every reference given to a handler denotes the connection it was given for, and so does
every owner of a window. -/
structure Display.Denotes (d : Display) : Prop where
  refs : ∀ ref ∈ d.refs, d.RefDenotes ref
  owners : ∀ v ∈ d.wm.windows, ∀ r, v.owner = some r →
    ∃ k, (v.id, r, k) ∈ d.stored ∧ d.RefDenotes (r, k)

/-- A handler has been given the client, or is given it in this poll. -/
def Known (d : Display) (input : PollInput) (c : IpcClient) (k : Nat) : Prop :=
  (∃ r, (r, k) ∈ d.refs) ∨
    got input.reads c ≠ [] ∧
      ∃ m ∈ (recvLoop (ipcRecvBuf + 1) (c.recvBuf ++ got input.reads c)).1, callsBack d.srv.cbs m

/-- No client leaves in front of one that stays and that a handler knows. -/
def KeepsPlaces (d : Display) (input : PollInput) : Prop :=
  ∀ pre c k post, (d.accept input.announced).slots = pre ++ (c, k) :: post →
    stays input.reads c → Known d input c k → ∀ s ∈ pre, stays input.reads s.1

/-- A poll that comes to its end keeps the places. -/
def StepKeepsPlaces (d : Display) : DisplayOp → Prop
  | .poll input => d.srv.running → (ipcServerPoll d.srv input).isSome → KeepsPlaces d input
  | .create .. => True
  | .window _ => True

/-! ### One client -/

section Client

variable {cbs : IpcCallbacks} {reads : Int → ReadResult} {c c' : IpcClient} {msgs : List IpcMessage}
  {k : Nat}

theorem pollClient_active (h : pollClient reads c = some (c', msgs)) :
    c'.active = stays reads c := by
  unfold stays
  obtain ⟨hgot, -, ⟨rfl, hwhy⟩ | ⟨rfl, hactive, hfd, hread⟩⟩ | ⟨hgot, rest, rfl, -⟩ :=
    pollClient_cases h
  · cases hactive : c'.active with
    | false => rfl
    | true =>
      by_cases hfd : c'.fd < 0
      · simp [hfd]
      · simp [hwhy hactive (by omega)]
  · unfold got at hgot
    cases hr : reads c.fd <;> simp_all [IpcClient.closed]
  · unfold got at hgot
    cases hr : reads c.fd <;> simp_all

theorem pollClient_msgs (h : pollClient reads c = some (c', msgs)) (m : IpcMessage) :
    m ∈ msgs ↔ got reads c ≠ [] ∧
      m ∈ (recvLoop (ipcRecvBuf + 1) (c.recvBuf ++ got reads c)).1 := by
  obtain ⟨hgot, rfl, -⟩ | ⟨hgot, rest, -, hloop⟩ := pollClient_cases h
  · simp [hgot]
  · simp [hloop, hgot]

end Client

/-! ### The loop over the clients -/

section Clients

variable {cbs : IpcCallbacks} {reads : Int → ReadResult} {i : Nat} {cs cs' : List IpcClient}
  {ds : List Dispatched}

section

variable (h : pollClients cbs reads i cs = some (cs', ds))
include h

theorem pollClients_stay : (cs'.filter (·.active)).length = (cs.filter (stays reads)).length := by
  induction cs generalizing i cs' ds with
  | nil => cases h; rfl
  | cons c cs ih =>
    obtain ⟨c', msgs, cs'', later, hc, hrest, rfl, -⟩ := pollClients_cons h
    have hactive := pollClient_active hc
    cases hstays : stays reads c with
    | false =>
      rw [filter_cons_of_neg (by simp [hactive, hstays]), filter_cons_of_neg (by simp [hstays]),
        ih hrest]
    | true =>
      rw [filter_cons_of_pos (hactive.trans hstays), filter_cons_of_pos hstays, length_cons,
        length_cons, ih hrest]

theorem le_client : ∀ x ∈ ds, i ≤ x.client := by
  induction cs generalizing i cs' ds with
  | nil =>
    cases h
    exact fun x hx => absurd hx not_mem_nil
  | cons c cs ih =>
    obtain ⟨c', msgs, cs'', later, -, hrest, -, rfl⟩ := pollClients_cons h
    rw [forall_mem_append, List.forall_mem_map]
    exact ⟨fun m _ => Nat.le_refl i, fun x hx => Nat.le_of_succ_le (ih hrest x hx)⟩

/-- What is dispatched from a slot are the messages of its client. -/
theorem mem_dispatched (j : Nat) (m : IpcMessage) :
    (∃ x ∈ ds, x.client = i + j ∧ x.msg = m) ↔
      ∃ c, cs[j]? = some c ∧ got reads c ≠ [] ∧
        m ∈ (recvLoop (ipcRecvBuf + 1) (c.recvBuf ++ got reads c)).1 := by
  induction cs generalizing i j cs' ds with
  | nil =>
    cases h
    simp
  | cons c cs ih =>
    obtain ⟨c', msgs, cs'', later, hc, hrest, -, rfl⟩ := pollClients_cons h
    have hmsgs := pollClient_msgs hc m
    cases j with
    | zero =>
      constructor
      · intro ⟨x, hx, hclient, hmsg⟩
        rcases mem_append.mp hx with hx | hx
        · obtain ⟨m', hm', rfl⟩ := mem_map.mp hx
          exact ⟨c, rfl, hmsgs.mp (hmsg ▸ hm')⟩
        · -- what comes later is from the slots behind
          have := le_client hrest x hx
          omega
      · intro ⟨c₀, hc₀, hm⟩
        cases hc₀
        exact ⟨_, mem_append_left _ (mem_map_of_mem (hmsgs.mpr hm)), rfl, rfl⟩
    | succ j =>
      rw [getElem?_cons_succ, ← ih hrest j]
      constructor
      · intro ⟨x, hx, hclient, hmsg⟩
        rcases mem_append.mp hx with hx | hx
        · obtain ⟨m', -, rfl⟩ := mem_map.mp hx
          simp only at hclient
          omega
        · exact ⟨x, hx, by omega, hmsg⟩
      · intro ⟨x, hx, hclient, hmsg⟩
        exact ⟨x, mem_append_right _ hx, by omega, hmsg⟩

end

end Clients

/-! ### Polls -/

/-- What holds in any case: the slots and their numbers correspond, a number is given once,
and what is known was given to a handler before. -/
structure Tracked (d : Display) : Prop where
  length : d.conns.length = d.srv.clients.length
  nodup : d.conns.Nodup
  old : ∀ k ∈ d.conns, k < d.accepted
  refs_old : ∀ ref ∈ d.refs, ref.2 < d.accepted
  stored_refs : ∀ s ∈ d.stored, s.2 ∈ d.refs
  owners : Owned (fun id owner => ∀ r, owner = some r → ∃ k, (id, r, k) ∈ d.stored) d.wm.windows

section Poll

variable {d : Display} {input : PollInput}

theorem acceptClient_cases (srv : IpcServer) (announced : Option Int) :
    acceptClient srv announced = srv ∨
      ∃ c, acceptClient srv announced = { srv with clients := srv.clients ++ [c] } := by
  unfold acceptClient
  split
  · exact .inl rfl
  · split
    · exact .inl rfl
    · split
      · exact .inl rfl
      · exact .inr ⟨_, rfl⟩

theorem accept_cases (d : Display) (announced : Option Int) :
    d.accept announced = d ∧ acceptClient d.srv announced = d.srv ∨
      ∃ c, d.accept announced =
          { d with
            srv := { d.srv with clients := d.srv.clients ++ [c] }
            conns := d.conns ++ [d.accepted]
            accepted := d.accepted + 1 } ∧
        acceptClient d.srv announced = { d.srv with clients := d.srv.clients ++ [c] } := by
  obtain hsame | ⟨c, hnew⟩ := acceptClient_cases d.srv announced
  · refine .inl ⟨?_, hsame⟩
    rw [Display.accept, hsame]
    exact if_pos rfl
  · refine .inr ⟨c, ?_, hnew⟩
    rw [Display.accept, hnew]
    exact if_neg (by simp)

theorem accept_srv (d : Display) (announced : Option Int) :
    (d.accept announced).srv = acceptClient d.srv announced := by
  obtain ⟨hsame, hsrv⟩ | ⟨c, hnew, hsrv⟩ := accept_cases d announced
  · rw [hsame, hsrv]
  · rw [hnew, hsrv]

/-- What is known does not change when a client connects. -/
theorem accept_known (d : Display) (announced : Option Int) :
    (d.accept announced).refs = d.refs ∧ (d.accept announced).srv.cbs = d.srv.cbs := by
  obtain ⟨hsame, -⟩ | ⟨c, hnew, -⟩ := accept_cases d announced
  · rw [hsame]
    exact ⟨rfl, rfl⟩
  · rw [hnew]
    exact ⟨rfl, rfl⟩

theorem Tracked.accept (h : Tracked d) (announced : Option Int) : Tracked (d.accept announced) := by
  obtain ⟨hsame, -⟩ | ⟨c, hnew, -⟩ := accept_cases d announced
  · rw [hsame]
    exact h
  · rw [hnew]
    refine ⟨?_, ?_, ?_, fun ref href => Nat.lt_succ_of_lt (h.refs_old ref href), h.stored_refs,
      h.owners⟩
    · show (d.conns ++ [d.accepted]).length = (d.srv.clients ++ [c]).length
      rw [length_append, length_append, h.length]
      rfl
    · refine nodup_append.mpr ⟨h.nodup, nodup_singleton _, fun k hk k' hk' heq => ?_⟩
      have hlt := h.old k hk
      rw [heq, mem_singleton.mp hk'] at hlt
      omega
    · refine forall_mem_append.mpr ⟨fun k hk => Nat.lt_succ_of_lt (h.old k hk), ?_⟩
      exact forall_mem_singleton.mpr (Nat.lt_succ_self _)

variable {ref : Nat × Nat}

theorem refDenotes_accept (h : Tracked d) (announced : Option Int) (href : ref ∈ d.refs)
    (hdenotes : d.RefDenotes ref) : (d.accept announced).RefDenotes ref := by
  obtain ⟨hsame, -⟩ | ⟨c, hnew, -⟩ := accept_cases d announced
  · rw [hsame]
    exact hdenotes
  · rw [hnew]
    intro hmem
    rcases mem_append.mp hmem with hmem | hmem
    · have hplace := hdenotes hmem
      rw [getElem?_append_left (List.getElem?_eq_some_iff.mp hplace).1]
      exact hplace
    · have := h.refs_old ref href
      rw [mem_singleton.mp hmem] at this
      omega

/-- A poll of a running server that comes to its end. -/
theorem poll_cases (hrunning : d.srv.running = true) (hpoll : d.poll input = some d') :
    ∃ cs' ds, pollClients (d.accept input.announced).srv.cbs input.reads 0
        (d.accept input.announced).srv.clients = some (cs', ds) ∧
      d' = { d.accept input.announced with
        srv := { (d.accept input.announced).srv with clients := cs'.filter (·.active) }
        conns := ((d.accept input.announced).slots.filter fun s => stays input.reads s.1).map
          Prod.snd
        refs := (d.accept input.announced).refs ++
          (d.accept input.announced).given (d.accept input.announced).srv.cbs ds } := by
  obtain ⟨p, hp, rfl⟩ := map_eq_some_iff.mp hpoll
  obtain ⟨cs', ds, hclients, rfl⟩ := (poll_running hrunning).mp hp
  rw [← accept_srv] at hclients
  refine ⟨cs', ds, hclients, ?_⟩
  simp only [hrunning, if_true, accept_srv]

theorem slots_snd (h : Tracked d) : d.slots.map Prod.snd = d.conns :=
  map_snd_zip (Nat.le_of_eq h.length)

theorem slots_fst (h : Tracked d) : d.slots.map Prod.fst = d.srv.clients :=
  map_fst_zip (Nat.le_of_eq h.length.symm)

theorem mem_given : ref ∈ d.given cbs ds ↔ (∃ x ∈ ds, x.client = ref.1 ∧ callsBack cbs x.msg)
    ∧ d.conns[ref.1]? = some ref.2 := by
  rw [Display.given, mem_filterMap]
  constructor
  · intro ⟨x, hx, hgiven⟩
    split at hgiven
    · rename_i hcalls
      obtain ⟨k, hk, rfl⟩ := map_eq_some_iff.mp hgiven
      exact ⟨⟨x, hx, rfl, hcalls⟩, hk⟩
    · cases hgiven
  · intro ⟨⟨x, hx, hclient, hcalls⟩, hplace⟩
    refine ⟨x, hx, ?_⟩
    rw [if_pos hcalls, hclient, hplace]
    rfl

/-- A slot is found by its number. -/
theorem place_unique (h : Tracked d) {pre post : List (IpcClient × Nat)}
    (hslots : d.slots = pre ++ (c, k) :: post) : d.conns[i]? = some k ↔ i = pre.length := by
  have hplace : d.conns[pre.length]? = some k := by
    rw [← slots_snd h, hslots]
    simp
  constructor
  · intro hi
    exact (getElem?_inj (List.getElem?_eq_some_iff.mp hi).1 h.nodup).mp (hi.trans hplace.symm)
  · intro hi
    rw [hi]
    exact hplace

/-- **Compaction.**  A reference that denotes its client keeps doing so exactly when no client
leaves in front of it, or it leaves itself. -/
theorem compact_iff (h : Tracked d) (hdenotes : d.RefDenotes ref) {conns : List Nat}
    (hconns : conns = (d.slots.filter fun s => stays reads s.1).map Prod.snd) :
    (ref.2 ∈ conns → conns[ref.1]? = some ref.2) ↔
      ∀ pre c post, d.slots = pre ++ (c, ref.2) :: post → stays reads c →
        ∀ s ∈ pre, stays reads s.1 := by
  have hkeys : (d.slots.map Prod.snd).Nodup := by
    rw [slots_snd h]
    exact h.nodup
  have hmem : ∀ {pre c post}, d.slots = pre ++ (c, ref.2) :: post → ref.2 ∈ d.conns := by
    intro pre c post hslots
    rw [← slots_snd h, hslots]
    simp
  constructor
  · intro hkept pre c post hslots hstays
    have hplace := (place_unique h hslots).mp (hdenotes (hmem hslots))
    have hthere : ref.2 ∈ conns := by
      rw [hconns, hslots]
      simp [hstays]
    have hnow := hkept hthere
    rw [hplace, hconns] at hnow
    exact (place_kept_iff hkeys hslots hstays).mp hnow
  · intro hfront hthere
    rw [hconns] at hthere
    obtain ⟨⟨c, k⟩, hs, hk⟩ := mem_map.mp hthere
    obtain ⟨hslot, hstays⟩ := mem_filter.mp hs
    obtain ⟨pre, post, hslots⟩ := append_of_mem hslot
    rw [show k = ref.2 from hk] at hslots
    have hplace := (place_unique h hslots).mp (hdenotes (hmem hslots))
    rw [hplace, hconns]
    exact (place_kept_iff hkeys hslots hstays).mpr (hfront pre c post hslots hstays)

theorem known_iff (h : Tracked (d.accept input.announced))
    (hpoll : pollClients (d.accept input.announced).srv.cbs input.reads 0
      (d.accept input.announced).srv.clients = some (cs', ds)) {pre post : List (IpcClient × Nat)}
    (hslots : (d.accept input.announced).slots = pre ++ (c, k) :: post) :
    (∃ r, (r, k) ∈ (d.accept input.announced).refs ++
        (d.accept input.announced).given (d.accept input.announced).srv.cbs ds) ↔
      Known d input c k := by
  obtain ⟨hrefs, hcbs⟩ := accept_known d input.announced
  have hclient : (d.accept input.announced).srv.clients[pre.length]? = some c := by
    rw [← slots_fst h, hslots]
    simp
  have hgiven : (∃ r, (r, k) ∈ (d.accept input.announced).given
        (d.accept input.announced).srv.cbs ds) ↔
      got input.reads c ≠ [] ∧
        ∃ m ∈ (recvLoop (ipcRecvBuf + 1) (c.recvBuf ++ got input.reads c)).1,
          callsBack d.srv.cbs m := by
    constructor
    · intro ⟨r, hr⟩
      obtain ⟨⟨x, hx, hxr, hcalls⟩, hplace⟩ := mem_given.mp hr
      rw [(place_unique h hslots).mp hplace] at hxr
      obtain ⟨c', hc', hgot, hm⟩ :=
        (mem_dispatched hpoll pre.length x.msg).mp ⟨x, hx, by rw [hxr]; omega, rfl⟩
      obtain rfl := some.inj (hclient.symm.trans hc')
      exact ⟨hgot, x.msg, hm, hcbs ▸ hcalls⟩
    · intro ⟨hgot, m, hm, hcalls⟩
      obtain ⟨x, hx, hxr, rfl⟩ := (mem_dispatched hpoll pre.length m).mpr ⟨c, hclient, hgot, hm⟩
      refine ⟨pre.length, mem_given.mpr ⟨⟨x, hx, by rw [hxr]; omega, ?_⟩, ?_⟩⟩
      · rw [hcbs]
        exact hcalls
      · exact (place_unique h hslots).mpr rfl
  rw [Known, ← hgiven, ← exists_or]
  exact exists_congr fun r => by rw [mem_append, hrefs]

/-- **One poll**: the references still denote their clients exactly when the places are kept. -/
theorem poll_denotes_iff (h : Tracked d) (hdenotes : d.Denotes) (hrunning : d.srv.running = true)
    (hpoll : d.poll input = some d') :
    (∀ ref ∈ d'.refs, d'.RefDenotes ref) ↔ KeepsPlaces d input := by
  obtain ⟨cs', ds, hclients, rfl⟩ := poll_cases hrunning hpoll
  have ha := h.accept input.announced
  obtain ⟨hrefs, -⟩ := accept_known d input.announced
  -- before the slots move, every reference is right
  have hbefore : ∀ ref ∈ (d.accept input.announced).refs ++ (d.accept input.announced).given
      (d.accept input.announced).srv.cbs ds, (d.accept input.announced).RefDenotes ref := by
    refine forall_mem_append.mpr ⟨fun ref href => ?_, fun ref href _ => (mem_given.mp href).2⟩
    rw [hrefs] at href
    exact refDenotes_accept h _ href (hdenotes.refs ref href)
  constructor
  · intro hafter pre c k post hslots hstays hknown
    obtain ⟨r, hr⟩ := (known_iff ha hclients hslots).mpr hknown
    exact (compact_iff ha (hbefore _ hr) rfl).mp (hafter _ hr) pre c post hslots hstays
  · intro hkeeps ref href
    refine (compact_iff ha (hbefore ref href) rfl).mpr fun pre c post hslots hstays => ?_
    exact hkeeps pre c ref.2 post hslots hstays ((known_iff ha hclients hslots).mp ⟨ref.1, href⟩)

theorem Tracked.poll (h : Tracked d) (hpoll : d.poll input = some d') : Tracked d' := by
  cases hrunning : d.srv.running with
  | false =>
    obtain ⟨p, -, rfl⟩ := map_eq_some_iff.mp hpoll
    simp only [hrunning, Bool.false_eq_true, if_false]
    exact h
  | true =>
    obtain ⟨cs', ds, hclients, rfl⟩ := poll_cases hrunning hpoll
    have ha := h.accept input.announced
    have hsub : ((d.accept input.announced).slots.filter fun s => stays input.reads s.1).map
        Prod.snd |>.Sublist (d.accept input.announced).conns := by
      rw [← slots_snd ha]
      exact filter_sublist.map _
    refine ⟨?_, ha.nodup.sublist hsub, fun k hk => ha.old k (hsub.subset hk), ?_, ?_, ha.owners⟩
    · show _ = (cs'.filter (·.active)).length
      rw [pollClients_stay hclients, ← slots_fst ha, List.filter_map, length_map, length_map]
      rfl
    · refine forall_mem_append.mpr ⟨ha.refs_old, fun ref href => ?_⟩
      exact ha.old _ (mem_of_getElem? (mem_given.mp href).2)
    · exact fun s hs => mem_append_left _ (ha.stored_refs s hs)

end Poll

/-! ### Whole runs -/

section Steps

variable {d d' : Display} {op : DisplayOp}

/-- The owners denote their clients because the references do. -/
theorem denotes_of_refs (h : Tracked d) (hrefs : ∀ ref ∈ d.refs, d.RefDenotes ref) : d.Denotes := by
  refine ⟨hrefs, fun v hv r howner => ?_⟩
  obtain ⟨k, hk⟩ := h.owners v hv r howner
  exact ⟨k, hk, hrefs _ (h.stored_refs _ hk)⟩

theorem tracked_step (h : Tracked d) (hstep : displayStep d op = some d') : Tracked d' := by
  cases op with
  | poll input => exact h.poll hstep
  | create ref x y w height title flags =>
    rw [displayStep] at hstep
    split at hstep
    · rename_i href
      cases hstep
      refine ⟨h.length, h.nodup, h.old, h.refs_old, ?_, owned_create ?_ _ _ _ _ _ _ _ ?_⟩
      · exact forall_mem_append.mpr ⟨h.stored_refs, forall_mem_singleton.mpr href⟩
      · intro v hv r howner
        obtain ⟨k, hk⟩ := h.owners v hv r howner
        exact ⟨k, mem_append_left _ hk⟩
      · intro r howner
        obtain rfl := some.inj howner
        exact ⟨ref.2, mem_append_right _ (mem_singleton_self _)⟩
    · cases hstep
  | window op =>
    rw [displayStep] at hstep
    split at hstep
    · rename_i hownerless
      obtain ⟨wm, hwm, rfl⟩ := map_eq_some_iff.mp hstep
      refine ⟨h.length, h.nodup, h.old, h.refs_old, h.stored_refs, owners_step op h.owners hwm ?_⟩
      intro owner x y w height title flags hop r howner
      rw [hop, howner] at hownerless
      cases hownerless
    · cases hstep

theorem denotes_step_iff (h : Tracked d) (hdenotes : d.Denotes)
    (hstep : displayStep d op = some d') : d'.Denotes ↔ StepKeepsPlaces d op := by
  have h' := tracked_step h hstep
  cases op with
  | poll input =>
    cases hrunning : d.srv.running with
    | false =>
      obtain ⟨p, -, rfl⟩ := map_eq_some_iff.mp hstep
      rw [StepKeepsPlaces, hrunning]
      exact iff_of_true hdenotes fun hr => absurd hr Bool.false_ne_true
    | true =>
      have hends : (ipcServerPoll d.srv input).isSome := by
        obtain ⟨p, hp, -⟩ := map_eq_some_iff.mp hstep
        rw [hp]
        rfl
      have hiff := poll_denotes_iff h hdenotes hrunning hstep
      constructor
      · intro hafter _ _
        exact hiff.mp hafter.refs
      · intro hkeeps
        exact denotes_of_refs h' (hiff.mpr (hkeeps hrunning hends))
  | create ref x y w height title flags =>
    rw [displayStep] at hstep
    split at hstep
    · cases hstep
      exact iff_of_true (denotes_of_refs h' hdenotes.refs) trivial
    · cases hstep
  | window op =>
    rw [displayStep] at hstep
    split at hstep
    · obtain ⟨wm, -, rfl⟩ := map_eq_some_iff.mp hstep
      exact iff_of_true (denotes_of_refs h' hdenotes.refs) trivial
    · cases hstep

theorem keeps_of_none (hstep : displayStep d op = none) : StepKeepsPlaces d op := by
  cases op with
  | poll input =>
    intro _ hends
    rw [map_eq_none_iff.mp hstep] at hends
    cases hends
  | create | window => trivial

end Steps

/-- A display at its start. -/
def newDisplay (cbs : IpcCallbacks) (comp : Option Compositor) (screenW screenH : Int) : Display :=
  { srv := { cbs, running := true }, wm := wmNew comp screenW screenH }

/-- **When a reference keeps denoting its client.**  In a run of the display every reference a
handler was given, and every owner of a window, denotes the connection it was given for as
long as that lasts, exactly when in no poll a client leaves in front of one that stays and
that a handler knows. -/
theorem references_denote_iff (cbs : IpcCallbacks) (comp : Option Compositor)
    (screenW screenH : Int) (ops : List DisplayOp) :
    Throughout displayStep Display.Denotes (newDisplay cbs comp screenW screenH) ops ↔
      Along displayStep StepKeepsPlaces (newDisplay cbs comp screenW screenH) ops := by
  have hstart : Tracked (newDisplay cbs comp screenW screenH) :=
    { length := rfl
      nodup := nodup_nil
      old := fun k hk => absurd hk not_mem_nil
      refs_old := fun ref href => absurd href not_mem_nil
      stored_refs := fun s hs => absurd hs not_mem_nil
      owners := fun v hv => absurd hv not_mem_nil }
  refine throughout_iff_along (I := Tracked) ?_ ?_ ?_ hstart
    (denotes_of_refs hstart fun ref href => absurd href not_mem_nil)
  · intro d op d' h _ _ hstep
    exact tracked_step h hstep
  · intro d op _ _ hnone
    exact keeps_of_none hnone
  · intro d op d' h hdenotes hstep
    exact denotes_step_iff h hdenotes hstep

/-- A poll in which one descriptor has something to say. -/
def hears (announced : Option Int) (fd : Int) (said : ReadResult) : PollInput :=
  { announced, reads := fun other => if other = fd then said else .again }

/-- Two clients connect, the second hides a window and gets one of its own, and the first
leaves: the second has moved to slot 0, and nothing is in slot 1 that its window names. -/
theorem owner_left_behind :
    ∃ d, run displayStep (newDisplay { onShowHide := true } none 800 600)
        [.poll (hears (some 3) 0 .again), .poll (hears (some 4) 0 .again),
          .poll (hears none 4 (.data [7, 0, 0, 0, 4, 0, 0, 0, 1, 0, 0, 0])),
          .create (1, 1) 0 0 200 100 none 3, .poll (hears none 3 (.data []))] = some d ∧
      d.srv.clients.map IpcClient.fd = [4] ∧ d.wm.windows.map Window.owner = [some 1] ∧
      ¬ d.Denotes := by
  refine ⟨_, rfl, rfl, rfl, ?_⟩
  intro h
  have hplace := h.refs (1, 1) (mem_singleton_self _) (mem_singleton_self _)
  cases hplace

end Nv0ken.Graphics
