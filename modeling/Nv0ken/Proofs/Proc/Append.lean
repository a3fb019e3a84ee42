/-
Writers that opened a file with `O_APPEND`.

`sys_open` puts the offset of the new descriptor at the end of the file once; `sys_write`
knows nothing of the flag and writes where the offset is.  So a descriptor is at the end
until another one writes, and never again after that.  There is one more way to be left
behind: the number of bytes written travels through an `int`, so a block of more than
four gigabytes moves its own descriptor too little.  `append_iff` says exactly which
interleavings append: those in which no block goes through a descriptor left behind.
-/
import Nv0ken.Kernel.Proc.SyscallHandlers
import Nv0ken.Proofs.Fs.FdTable
import Nv0ken.Proofs.Fs.TmpfsFile
import Nv0ken.Proofs.Fs.Vfs

namespace Nv0ken.Proc

open Buffer Word Fs Run List Option

/-- A run, with the descriptors it writes through, those among them that were left behind,
and the blocks written in their order. -/
structure AppendRun where
  sys : System
  opened : List Nat := []
  passed : List Nat := []
  blocks : List (List UInt8) := []

inductive AppendOp
  | openFile (flags : Nat) (reply : OpenReply)
  | write (fd : Nat) (bytes : List UInt8) (answer : Reply)

def fileSize (s : System) (file : NodeId) : Nat := ((s.vfs.get file).map Node.size).getD 0

def fileContents (s : System) (file : NodeId) : List UInt8 :=
  ((s.vfs.get file).map Node.contents).getD []

/-- The descriptors left behind once a block was written through `fd`: all others, and `fd`
itself if the length of the block is not what an `int` makes of it. -/
def leftBehind (r : AppendRun) (fd : Nat) (bytes : List UInt8) : List Nat :=
  if bytes = [] then r.passed
  else r.opened.filter fun k => k ≠ fd ∨ 2 ^ 31 ≤ bytes.length

/-- One call.  The file is opened with `O_APPEND` and not truncated, or a write through one
of the descriptors succeeds.  The run ends where a call is of another kind. -/
def appendStep (path : List UInt8) (r : AppendRun) : AppendOp → Option AppendRun
  | .openFile flags reply =>
    if flags &&& oAppend ≠ 0 ∧ flags &&& oTrunc = 0 then
      let (sys, fd) := sysOpen r.sys reply (some path) flags
      some { r with sys := sys, opened := if fd < 0 then r.opened else fd.toNat :: r.opened }
    else none
  | .write fd bytes answer =>
    if fd ∈ r.opened then
      (sysWrite r.sys answer fd (some bytes)).toOption.bind fun (sys, n) =>
        if n < 0 then none
        else some { r with
          sys := sys
          passed := leftBehind r fd bytes
          blocks := r.blocks ++ [bytes] }
    else none

/-- The file holds what it held at first and then the blocks in their order. -/
def Appended (file : NodeId) (initial : List UInt8) (r : AppendRun) : Prop :=
  fileContents r.sys file = initial ++ r.blocks.flatten

/-- A block is written only through a descriptor that was not left behind. -/
def NotPassed (r : AppendRun) : AppendOp → Prop
  | .openFile _ _ => True
  | .write fd bytes _ => bytes ≠ [] → fd ∉ r.passed

/-- A descriptor as `sys_open` leaves it behind with `O_APPEND`. -/
def OpenAtEnd (s : System) (file : NodeId) (fd : Nat) : Prop :=
  3 ≤ fd ∧ ∃ e, s.fds.get fd = some e ∧ e.node = file ∧ e.offset = fileSize s file

variable {path : List UInt8} {file : NodeId} {r r' : AppendRun} {s : System} {fd flags k : Nat}
  {bytes : List UInt8} {reply : OpenReply} {answer : Reply} {node : Node} {e : FdEntry}
  {fds : FdTable}

/-- Where a descriptor of the run stands. -/
structure At (r : AppendRun) (file : NodeId) (fd : Nat) (e : FdEntry) : Prop where
  low : 3 ≤ fd
  get : r.sys.fds.get fd = some e
  node : e.node = file
  behind : fd ∈ r.passed → e.offset < fileSize r.sys file
  atEnd : fd ∉ r.passed → e.offset = fileSize r.sys file

/-- What holds along the runs that append. -/
structure AppendInv (path : List UInt8) (file : NodeId) (r : AppendRun) : Prop where
  lookup : vfsLookup r.sys.vfs path = some file
  node : ∃ node, r.sys.vfs.get file = some node ∧ node.ops = .tmpfs ∧ BlockInv node
  opened : ∀ fd ∈ r.opened, ∃ e, At r file fd e
  passed : ∀ fd ∈ r.passed, fd ∈ r.opened

theorem At.high (h : At r file fd e) : fd < fdTableMax := Slots.lt_of_get h.get

theorem At.offset_le (h : At r file fd e) : e.offset ≤ fileSize r.sys file := by
  by_cases hpassed : fd ∈ r.passed
  · exact Nat.le_of_lt (h.behind hpassed)
  · exact Nat.le_of_eq (h.atEnd hpassed)

theorem fileContents_eq (hget : s.vfs.get file = some node) :
    fileContents s file = node.contents := by
  unfold fileContents
  rw [hget]
  rfl

theorem fileSize_eq (hget : s.vfs.get file = some node) : fileSize s file = node.size := by
  unfold fileSize
  rw [hget]
  rfl

/-! ### Opening -/

/-- **Opening a file that is there for appending** gives a free slot an offset at the end,
or nothing at all. -/
theorem sysOpen_append (hlookup : vfsLookup s.vfs path = some file)
    (happend : flags &&& oAppend ≠ 0) (htrunc : flags &&& oTrunc = 0) :
    sysOpen s reply (some path) flags = (s, -eNoMem) ∨
      ∃ fd e, s.fds.firstFree 3 = some fd ∧ e.node = file ∧ e.offset = fileSize s file ∧
        sysOpen s reply (some path) flags =
          ({ s with files := { s.files with fds := s.fds.set fd (some e) } }, (fd : Int)) := by
  have hnode : openNode s.vfs path flags reply = (s.vfs, some file) := by
    unfold openNode
    rw [hlookup]
  unfold sysOpen
  simp only [hnode]
  rw [if_neg (not_not_intro htrunc)]
  unfold fdAlloc
  cases hfree : s.fds.firstFree 3 with
  | none => exact Or.inl rfl
  | some fd =>
    obtain ⟨hlow, hhigh, -⟩ := Slots.firstFree_some hfree
    refine Or.inr ⟨fd,
      { node := file, offset := fileSize s file, flags := toInt32 flags, refs := 1 },
      rfl, rfl, rfl, ?_⟩
    simp only
    rw [if_pos ⟨by omega, happend⟩, fdGet_ofNat hhigh, Slots.get_set_self hhigh]
    dsimp only
    rw [Int.toNat_natCast, Slots.set_set]
    rfl

theorem openFile_inv (hinv : AppendInv path file r)
    (h : appendStep path r (.openFile flags reply) = some r') :
    AppendInv path file r' ∧ fileContents r'.sys file = fileContents r.sys file ∧
      r'.blocks = r.blocks := by
  rw [appendStep] at h
  by_cases hflags : flags &&& oAppend ≠ 0 ∧ flags &&& oTrunc = 0
  · rw [if_pos hflags] at h
    rcases sysOpen_append hinv.lookup hflags.1 hflags.2 with hopen |
      ⟨fd, e, hfree, hnode, hoffset, hopen⟩
    · rw [hopen] at h
      obtain rfl := some.inj h
      exact ⟨hinv, rfl, rfl⟩
    · rw [hopen] at h
      obtain rfl := some.inj h
      obtain ⟨hlow, hhigh, hempty⟩ := Slots.firstFree_some hfree
      have hfresh : fd ∉ r.opened := by
        intro hmem
        obtain ⟨e', he'⟩ := hinv.opened fd hmem
        rw [he'.get] at hempty
        simp at hempty
      refine ⟨⟨hinv.lookup, hinv.node, ?_, ?_⟩, rfl, rfl⟩
      · intro k hk
        simp only [if_neg (show ¬ (fd : Int) < 0 by omega), Int.toNat_natCast, mem_cons] at hk
        by_cases hkfd : k = fd
        · subst hkfd
          refine ⟨e, hlow, Slots.get_set_self hhigh, hnode, fun hp => ?_, fun _ => hoffset⟩
          exact absurd (hinv.passed k hp) hfresh
        · obtain ⟨e', he'⟩ := hinv.opened k (hk.resolve_left hkfd)
          exact ⟨e', he'.low, (Slots.get_set_ne hkfd).trans he'.get, he'.node, he'.behind,
            he'.atEnd⟩
      · intro k hk
        exact mem_cons_of_mem _ (hinv.passed k hk)
  · rw [if_neg hflags] at h
    simp at h

/-! ### Writing -/

/-- **A successful write through a descriptor of the run** goes into the file where the
descriptor stands, and moves it by what an `int` makes of the length. -/
theorem sysWrite_file {sys : System} {n : Int} (hget : r.sys.vfs.get file = some node)
    (hops : node.ops = .tmpfs) (hfile : BlockInv node) (hat : At r file fd e)
    (h : sysWrite r.sys answer fd (some bytes) = .ok (sys, n)) (hn : 0 ≤ n) :
    0 ≤ toInt32 bytes.length ∧
      ∃ node', (∃ block, node' = node.withBlock block (max node.size (e.offset + bytes.length))) ∧
        BlockInv node' ∧ node'.contents = ByteFile.write node.contents e.offset bytes ∧
        sys = { r.sys with files :=
          { vfs := r.sys.vfs.modify file fun _ => node'
            fds := advance r.sys.fds fd e (toInt32 bytes.length) } } := by
  have hlow := hat.low
  unfold sysWrite fdWrite at h
  simp only at h
  rw [if_neg (by omega), toInt32_fd hat.high, fdGet_ofNat hat.high, hat.get] at h
  simp only [hat.node, hget] at h
  obtain ⟨r', hfd, hr'⟩ := ok_of_map h
  obtain ⟨⟨node', v⟩, hvfs, rfl⟩ := ok_of_map hfd
  obtain ⟨rfl, hv⟩ := Prod.mk.inj hr'
  have hpos : 0 ≤ v := by
    by_contra hneg
    simp only [orErrno, if_pos (Int.not_le.mp hneg)] at hv
    rw [← hv] at hn
    exact absurd hn (by decide)
  have hoffset := hat.offset_le
  rw [fileSize_eq hget] at hoffset
  unfold vfsWrite at hvfs
  rw [hops] at hvfs
  obtain ⟨rfl, block, hnode', hinv, hcontents⟩ := tmpfsWrite_contents hfile hoffset hvfs hpos
  exact ⟨hpos, node', ⟨block, hnode'⟩, hinv, hcontents, rfl⟩

/-- What a write through one descriptor does to where the descriptors stand. -/
theorem get_advance (hhigh : fd < fdTableMax) (n : Int) (k : Nat) :
    (advance fds fd e n).get k =
      if k = fd ∧ 0 < n then some { e with offset := u64 (e.offset + n.toNat) } else fds.get k := by
  unfold advance
  by_cases hn : n > 0
  · rw [if_pos hn]
    by_cases hk : k = fd
    · subst hk
      rw [if_pos ⟨rfl, hn⟩]
      exact Slots.get_set_self hhigh
    · rw [if_neg fun h => hk h.1]
      exact Slots.get_set_ne hk
  · rw [if_neg hn, if_neg fun h => hn h.2]

theorem write_step_eq (hinv : AppendInv path file r)
    (h : appendStep path r (.write fd bytes answer) = some r') :
    ∃ e node node', At r file fd e ∧ r.sys.vfs.get file = some node ∧ node.ops = .tmpfs ∧
      BlockInv node ∧ 0 ≤ toInt32 bytes.length ∧
      (∃ block, node' = node.withBlock block (max node.size (e.offset + bytes.length))) ∧
      BlockInv node' ∧ node'.contents = ByteFile.write node.contents e.offset bytes ∧
      r' = { r with
        sys := { r.sys with files :=
          { vfs := r.sys.vfs.modify file fun _ => node'
            fds := advance r.sys.fds fd e (toInt32 bytes.length) } }
        passed := leftBehind r fd bytes
        blocks := r.blocks ++ [bytes] } := by
  rw [appendStep] at h
  by_cases hmem : fd ∈ r.opened
  · rw [if_pos hmem] at h
    obtain ⟨node, hget, hops, hfile⟩ := hinv.node
    obtain ⟨e, hat⟩ := hinv.opened fd hmem
    obtain ⟨⟨sys, n⟩, hsome, hr'⟩ := bind_eq_some_iff.mp h
    by_cases hneg : n < 0
    · simp [hneg] at hr'
    · obtain ⟨hpos, node', hblock, hfile', hcontents, rfl⟩ :=
        sysWrite_file hget hops hfile hat (ok_of_toOption hsome) (Int.not_lt.mp hneg)
      simp only [if_neg hneg] at hr'
      obtain rfl := some.inj hr'
      exact ⟨e, node, node', hat, hget, hops, hfile, hpos, hblock, hfile', hcontents, rfl⟩
  · rw [if_neg hmem] at h
    cases h

theorem get_modify_file {vfs : Vfs} (hget : vfs.get file = some node) (node' : Node) :
    (vfs.modify file fun _ => node').get file = some node' := by
  rw [get_modify, hget, map_some, if_pos rfl]

theorem At.offset_eq_iff (h : At r file fd e) : e.offset = fileSize r.sys file ↔ fd ∉ r.passed := by
  constructor
  · intro heq hpassed
    exact Nat.lt_irrefl _ (heq ▸ h.behind hpassed)
  · exact h.atEnd

/-- A write appends exactly if it writes nothing or its descriptor was not left behind. -/
theorem write_appended_iff {initial : List UInt8} (hinv : AppendInv path file r)
    (happended : Appended file initial r)
    (h : appendStep path r (.write fd bytes answer) = some r') :
    Appended file initial r' ↔ (bytes ≠ [] → fd ∉ r.passed) := by
  obtain ⟨e, node, node', hat, hget, -, hfile, -, -, -, hcontents, rfl⟩ := write_step_eq hinv h
  have hoffset : e.offset ≤ node.contents.length := by
    rw [length_contents hfile.fits, ← fileSize_eq hget]
    exact hat.offset_le
  unfold Appended at happended ⊢
  rw [fileContents_eq hget] at happended
  rw [fileContents_eq (get_modify_file hget _), hcontents, flatten_append, ← append_assoc,
    ← happended, flatten_singleton, ByteFile.write_eq_append_iff hoffset,
    length_contents hfile.fits, ← fileSize_eq hget, hat.offset_eq_iff]
  exact ⟨fun h hne => h.resolve_left hne, fun h => or_iff_not_imp_left.mpr h⟩

theorem shape_modify {vfs : Vfs} (hget : vfs.get file = some node) {node' : Node}
    (hshape : node'.shape = node.shape) (k : NodeId) :
    ((vfs.modify file fun _ => node').get k).map Node.shape = (vfs.get k).map Node.shape := by
  rw [get_modify]
  by_cases hk : k = file
  · subst hk
    rw [hget]
    simp [hshape]
  · simp only [if_neg hk]
    cases vfs.get k <;> rfl

theorem mem_leftBehind (hne : bytes ≠ []) :
    k ∈ leftBehind r fd bytes ↔ k ∈ r.opened ∧ (k ≠ fd ∨ 2 ^ 31 ≤ bytes.length) := by
  unfold leftBehind
  rw [if_neg hne]
  simp

/-- Where the descriptor of a write at the end comes to stand: at the new end, or behind it
if the length was too much for an `int`. -/
theorem advance_written {off : Nat} (hhigh : fd < fdTableMax)
    (hget : fds.get fd = some e) (hoff : e.offset = off)
    (hpos : 0 ≤ toInt32 bytes.length) (hbound : off + bytes.length < 2 ^ 64) :
    ∃ e', (advance fds fd e (toInt32 bytes.length)).get fd = some e' ∧ e'.node = e.node ∧
      (bytes.length < 2 ^ 31 → e'.offset = off + bytes.length) ∧
      (2 ^ 31 ≤ bytes.length → e'.offset < off + bytes.length) := by
  have hint := toInt32_lt bytes.length
  rw [get_advance hhigh]
  by_cases hmoves : 0 < toInt32 bytes.length
  · rw [if_pos ⟨rfl, hmoves⟩]
    refine ⟨_, rfl, rfl, fun hshort => ?_, fun hlong => ?_⟩
    · rw [toInt32_of_lt hshort, Int.toNat_natCast, hoff, u64_of_lt hbound]
    · refine Nat.lt_of_le_of_lt (Nat.mod_le _ _) ?_
      omega
  · rw [if_neg fun h => hmoves h.2]
    refine ⟨e, hget, rfl, fun hshort => ?_, fun hlong => by omega⟩
    rw [toInt32_of_lt hshort] at hmoves
    omega

section

variable (hinv : AppendInv path file r) (h : appendStep path r (.write fd bytes answer) = some r')
  (hkept : bytes ≠ [] → fd ∉ r.passed)
include hinv h hkept

/-- Where the descriptors stand after a write that appends: its own at the end or left
behind, and every other one left behind. -/
theorem write_at (hk : k ∈ r.opened) : ∃ e, At r' file k e := by
  obtain ⟨e, node, node', hat, hget, -, -, hpos, ⟨block, hnode'⟩, hfile', -, rfl⟩ :=
    write_step_eq hinv h
  obtain ⟨ek, hk'⟩ := hinv.opened k hk
  have hold := fileSize_eq hget
  have hnew := get_modify_file hget node'
  have hsize : node'.size = max node.size (e.offset + bytes.length) := by
    rw [hnode', Node.withBlock_size]
  have hle := hk'.offset_le
  by_cases hnil : bytes = []
  · subst hnil
    have hsame : node'.size = node.size := by
      have := hat.offset_le
      simp only [length_nil] at hsize
      omega
    have hslot : (advance r.sys.fds fd e (toInt32 0)).get k = some ek := by
      rw [get_advance hat.high, if_neg fun h => absurd h.2 (by decide), hk'.get]
    refine ⟨ek, hk'.low, hslot, hk'.node, fun hp => ?_, fun hp => ?_⟩
    · rw [fileSize_eq hnew, hsame, ← hold]
      exact hk'.behind hp
    · rw [fileSize_eq hnew, hsame, ← hold]
      exact hk'.atEnd hp
  have hlen : bytes.length ≠ 0 := fun h => hnil (length_eq_zero_iff.mp h)
  have hend := hat.atEnd (hkept hnil)
  have hgrown : node'.size = node.size + bytes.length := by omega
  by_cases hkfd : k = fd
  · subst hkfd
    have hbound : node.size + bytes.length < 2 ^ 64 := by
      rw [← hgrown]
      exact Nat.lt_of_le_of_lt hfile'.fits hfile'.bound
    obtain ⟨e', hslot, hnode, hshort, hlong⟩ :=
      advance_written hat.high hat.get (hend.trans hold) hpos hbound
    refine ⟨e', hat.low, hslot, hnode.trans hat.node, fun hp => ?_, fun hp => ?_⟩
    · rw [fileSize_eq hnew, hgrown]
      exact hlong (((mem_leftBehind hnil).mp hp).2.resolve_left fun h => h rfl)
    · rw [fileSize_eq hnew, hgrown]
      exact hshort (Nat.not_le.mp fun h => hp ((mem_leftBehind hnil).mpr ⟨hk, Or.inr h⟩))
  · have hslot : (advance r.sys.fds fd e (toInt32 bytes.length)).get k = some ek := by
      rw [get_advance hat.high, if_neg fun h => hkfd h.1, hk'.get]
    have hleft : k ∈ leftBehind r fd bytes := (mem_leftBehind hnil).mpr ⟨hk, Or.inl hkfd⟩
    refine ⟨ek, hk'.low, hslot, hk'.node, fun _ => ?_, fun hp => absurd hleft hp⟩
    rw [fileSize_eq hnew]
    omega

/-- A write that appends keeps the invariant. -/
theorem write_inv : AppendInv path file r' := by
  have hat (k : Nat) (hk : k ∈ r.opened) : ∃ e, At r' file k e := write_at hinv h hkept hk
  obtain ⟨e, node, node', -, hget, hops, -, -, ⟨block, hnode'⟩, hfile', -, rfl⟩ :=
    write_step_eq hinv h
  refine ⟨?_, ⟨node', get_modify_file hget node', by rw [hnode']; exact hops, hfile'⟩, hat, ?_⟩
  · have hshape : node'.shape = node.shape := by
      rw [hnode']
      rfl
    have hroot : (r.sys.vfs.modify file fun _ => node').rootNode = r.sys.vfs.rootNode := rfl
    rw [← hinv.lookup]
    exact vfsLookup_of_shape hroot (shape_modify hget hshape) path
  · intro k hk
    by_cases hnil : bytes = []
    · simp only [leftBehind, if_pos hnil] at hk
      exact hinv.passed k hk
    · exact ((mem_leftBehind hnil).mp hk).1

end

/-! ### Runs -/

/-- **Which interleavings append.**  In a run of successful calls that opens the file with
`O_APPEND` any number of times and writes through the descriptors, the file holds its
first contents followed by all blocks in the order they were written, in every state,
exactly if every block went through a descriptor that was not left behind. -/
theorem append_iff (s : System) (path : List UInt8) (file : NodeId) (node : Node)
    (hlookup : vfsLookup s.vfs path = some file) (hget : s.vfs.get file = some node)
    (hops : node.ops = .tmpfs) (hfile : BlockInv node) (fds : List Nat)
    (hfds : ∀ fd ∈ fds, OpenAtEnd s file fd) (ops : List AppendOp)
    (hrun : (run (appendStep path) { sys := s, opened := fds } ops).isSome) :
    Throughout (appendStep path) (Appended file node.contents) { sys := s, opened := fds } ops ↔
      Along (appendStep path) NotPassed { sys := s, opened := fds } ops := by
  have hstart : AppendInv path file { sys := s, opened := fds } := by
    refine ⟨hlookup, ⟨node, hget, hops, hfile⟩, fun fd hfd => ?_, fun fd hfd => by simp at hfd⟩
    obtain ⟨hlow, e, he, hnode, hend⟩ := hfds fd hfd
    exact ⟨e, hlow, he, hnode, fun h => by simp at h, fun _ => hend⟩
  have hfirst : Appended file node.contents { sys := s, opened := fds } := by
    unfold Appended
    rw [fileContents_eq hget]
    simp
  rw [← along_iff_of_run hrun]
  refine throughout_iff_along ?_ ?_ ?_ hstart hfirst
  · intro r op r' hinv _ hp hstep
    have hp' : NotPassed r op := hp (by rw [hstep]; rfl)
    cases op with
    | openFile flags reply => exact (openFile_inv hinv hstep).1
    | write fd bytes answer => exact write_inv hinv hstep hp'
  · intro r op _ _ hnone hsome
    rw [hnone] at hsome
    cases hsome
  · intro r op r' hinv happended hstep
    have hsome : (appendStep path r op).isSome := by
      rw [hstep]
      rfl
    rw [forall_prop_of_true hsome]
    cases op with
    | openFile flags reply =>
      obtain ⟨-, hcontents, hblocks⟩ := openFile_inv hinv hstep
      refine iff_of_true ?_ trivial
      unfold Appended
      rw [hcontents, hblocks]
      exact happended
    | write fd bytes answer => exact write_appended_iff hinv happended hstep

/-- A tree with the empty file `/f`, and nothing open. -/
def withFile : System :=
  { files := { vfs := (vfsCreate mountRoot [slash, 102] .file true).1, fds := fdTableInit } }

theorem append_one_writer :
    Throughout (appendStep [slash, 102]) (Appended 1 []) { sys := withFile }
      [.openFile oAppend .served, .write 3 [65] ⟨true, some fun _ => 0⟩] := by
  refine (append_iff withFile [slash, 102] 1
    { name := [102], type := .file, ops := .tmpfs, parent := some 0 } (by decide +kernel)
    (by decide +kernel) rfl ⟨rfl, by decide, by decide⟩ [] (fun fd hfd => by cases hfd) _
    (by decide +kernel)).mpr ⟨trivial, fun r hr => ⟨fun _ => ?_, fun _ _ => trivial⟩⟩
  obtain rfl := some.inj hr
  exact not_mem_nil

/-- Two descriptors opened before either writes: the second block lands on the first. -/
theorem second_writer_overwrites :
    (run (appendStep [slash, 102]) { sys := withFile }
      [.openFile oAppend .served, .openFile oAppend .served, .write 3 [65] ⟨true, some fun _ => 0⟩,
        .write 4 [66] ⟨true, some fun _ => 0⟩]).map (fun r => (fileContents r.sys 1, r.blocks)) =
      some ([66], [[65], [66]]) := by
  decide +kernel

end Nv0ken.Proc
