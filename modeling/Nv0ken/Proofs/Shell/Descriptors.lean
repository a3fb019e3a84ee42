/-
What a child of a pipeline has open when it executes its program.

All pipes are made before the first child is created, and a child closes no more than the two
descriptors it has put in the place of its standard input and output.  So the first child keeps
the read end of the pipe it writes to, and every other one keeps the write end of the pipe it
reads from: with that open, the pipe is never at its end.
-/
import Nv0ken.Proofs.Shell.Commands

namespace Nv0ken.Shell

/-- An end of a pipe with a number from `base` on. -/
def File.isPipe (base : Nat) : File → Bool
  | .readEnd k => base ≤ k
  | .writeEnd k => base ≤ k
  | _ => false

/-- Of these pipes nothing is open but the standard input and output. -/
def OwnEnds (base : Nat) (t : Fds) : Prop :=
  ∀ fd file, t.get fd = some file → file.isPipe base → fd = 0 ∨ fd = 1

/-! ### What the calls leave alone -/

variable {t t' : Fds} {fd inFd outFd base fd' : Nat} {file f : File} {sys : System}
  {cmd : SimpleCmd} {s : Proc} {cmds : List SimpleCmd}

theorem get_close_ne (h : fd ≠ fd') : (close t fd').get fd = t.get fd :=
  Slots.get_set_ne h

theorem get_dup2_ne {oldfd newfd : Nat} (h : fd ≠ newfd) :
    (dup2 t oldfd newfd).get fd = t.get fd := by
  unfold dup2
  split
  · rfl
  · exact Slots.get_set_ne h

/-- A new descriptor is one from 3 on that was free. -/
theorem openFd_spec (h : openFd t file = some (fd, t')) :
    3 ≤ fd ∧ t.get fd = none ∧ t'.get fd = some file ∧ ∀ fd', fd' ≠ fd →
      t'.get fd' = t.get fd' := by
  obtain ⟨n, hn, heq⟩ := Option.map_eq_some_iff.1 h
  obtain ⟨rfl, rfl⟩ := Prod.mk.inj heq
  obtain ⟨hlo, hlt, hfree⟩ := Slots.firstFree_some hn
  exact ⟨hlo, hfree, Slots.get_set_self hlt, fun fd' hne => Slots.get_set_ne hne⟩

/-- What is open keeps its descriptor. -/
theorem openFd_keeps {n : Nat} (h : openFd t file = some (n, t')) (hf : t.get fd = some f) :
    t'.get fd = some f := by
  obtain ⟨-, hfree, -, hrest⟩ := openFd_spec h
  rw [hrest fd, hf]
  rintro rfl
  rw [hfree] at hf
  cases hf

theorem setupRedirects_keeps {opens : List Char → Bool} (hfd : 3 ≤ fd) {rs : List Redirect}
    (hf : t.get fd = some f) : (setupRedirects opens rs t).2.get fd = some f := by
  induction rs generalizing t with
  | nil =>
    exact hf
  | cons r rs ih =>
    rw [setupRedirects]
    split
    · exact ih (by rw [get_dup2_ne (by omega), hf])
    · rename_i target htarget
      have hne : fd ≠ target := by
        cases hr : r.type <;> rw [hr] at htarget <;> cases htarget <;> omega
      simp only
      split
      · exact hf
      · rename_i n t' hopen
        split_ifs at hopen
        have hkeep := openFd_keeps hopen hf
        have hn : fd ≠ n := by
          rintro rfl
          rw [(openFd_spec hopen).2.1] at hf
          cases hf
        exact ih (by rw [get_close_ne hn, get_dup2_ne hne, hkeep])

theorem childFds_keeps (hfd : 3 ≤ fd) (hin : fd ≠ inFd) (hout : fd ≠ outFd) :
    (childFds inFd outFd t).get fd = t.get fd := by
  have h0 : fd ≠ 0 := by omega
  have h1 : fd ≠ 1 := by omega
  unfold childFds
  simp only
  split_ifs
  · rw [get_close_ne hout, get_dup2_ne h1, get_close_ne hin, get_dup2_ne h0]
  · rw [get_close_ne hout, get_dup2_ne h1]
  · rw [get_close_ne hin, get_dup2_ne h0]
  · rfl

/-! ### The pipes -/

/-- The pipe `id` is open with its ends at two descriptors that are not the standard ones. -/
structure PipeOpen (t : Fds) (id : Nat) (p : Nat × Nat) : Prop where
  read : t.get p.1 = some (.readEnd id)
  write : t.get p.2 = some (.writeEnd id)
  read_le : 3 ≤ p.1
  write_le : 3 ≤ p.2

theorem PipeOpen.of_openFd {id : Nat} {p : Nat × Nat} (h : PipeOpen t id p)
    (ho : openFd t file = some (fd, t')) : PipeOpen t' id p :=
  ⟨openFd_keeps ho h.read, openFd_keeps ho h.write, h.read_le, h.write_le⟩

/-- The pipes with the numbers from `id` on are open. -/
def PipesOpen (t : Fds) : Nat → List (Nat × Nat) → Prop
  | _, [] => True
  | id, p :: ps => PipeOpen t id p ∧ PipesOpen t (id + 1) ps

theorem pipe_spec {id : Nat} {p : Nat × Nat} (h : pipe t id = (some p, t')) :
    PipeOpen t' id p ∧ ∀ {k q}, PipeOpen t k q → PipeOpen t' k q := by
  unfold pipe at h
  rcases hr : openFd t (.readEnd id) with - | ⟨r, t₁⟩
  · simp only [hr] at h
    cases h
  rcases hw : openFd t₁ (.writeEnd id) with - | ⟨w, t₂⟩
  · simp only [hr, hw] at h
    cases h
  simp only [hr, hw] at h
  cases h
  obtain ⟨hr₃, -, hrget, -⟩ := openFd_spec hr
  obtain ⟨hw₃, -, hwget, -⟩ := openFd_spec hw
  refine ⟨⟨openFd_keeps hw hrget, hwget, hr₃, hw₃⟩, fun hq => ?_⟩
  exact (hq.of_openFd hr).of_openFd hw

theorem openPipes_spec {k : Nat} {s' : Proc} {pipes : List (Nat × Nat)}
    (h : openPipes sys k s = (some pipes, s')) :
    pipes.length = k ∧ PipesOpen s'.fds s.pipes pipes ∧
      ∀ {id q}, PipeOpen s.fds id q → PipeOpen s'.fds id q := by
  induction k generalizing s s' pipes with
  | zero =>
    cases h
    exact ⟨rfl, trivial, fun hq => hq⟩
  | succ k ih =>
    rw [openPipes] at h
    split_ifs at h with hpipe
    · rcases hp : pipe s.fds s.pipes with ⟨- | p, t⟩
      · simp only [hp] at h
        cases h
      rcases hrest : openPipes sys k
        { s with clock := s.clock + 1, fds := t, pipes := s.pipes + 1 } with ⟨- | ps, s₁⟩
      · simp only [hp, hrest] at h
        cases h
      simp only [hp, hrest] at h
      cases h
      obtain ⟨hnew, hold⟩ := pipe_spec hp
      obtain ⟨hlen, hps, hkeep⟩ := ih hrest
      exact ⟨by rw [List.length_cons, hlen], ⟨hkeep hnew, hps⟩, fun hq => hkeep (hold hq)⟩
    · cases h

/-! ### The children -/

/-- A descriptor besides the standard ones is open on one of the pipes. -/
def Leaks (base : Nat) (t : Fds) : Prop :=
  ∃ fd file, 3 ≤ fd ∧ t.get fd = some file ∧ file.isPipe base

theorem Leaks.not_ownEnds (h : Leaks base t) : ¬ OwnEnds base t := by
  obtain ⟨fd, file, hfd, hget, hfile⟩ := h
  intro hown
  rcases hown fd file hget hfile with rfl | rfl <;> omega

/-- What a child keeps open: every pipe's end that is not one of its two. -/
theorem childTable_keeps (hfd : 3 ≤ fd) (hin : fd ≠ inFd) (hout : fd ≠ outFd)
    (hf : s.fds.get fd = some f) : (childTable sys cmd inFd outFd s).get fd = some f :=
  setupRedirects_keeps hfd (by rw [childFds_keeps hfd hin hout, hf])

theorem ne_of_get {f' : File} (h : t.get fd = some f) (h' : t.get fd' = some f') (hne : f ≠ f') :
    fd ≠ fd' := by
  rintro rfl
  exact hne (Option.some.inj (h.symm.trans h'))

/-- A command behind the first keeps the write end of the pipe it reads from. -/
theorem childTable_reader {s : Proc} {base id : Nat} {p : Nat × Nat} {pipes : List (Nat × Nat)}
    (hbase : base ≤ id) (hp : PipeOpen s.fds id p) (hps : PipesOpen s.fds (id + 1) pipes) :
    Leaks base (childTable sys cmd p.1 ((pipes.head?.map Prod.snd).getD 1) s) := by
  have hin : p.2 ≠ p.1 := ne_of_get hp.write hp.read File.noConfusion
  have hout : p.2 ≠ (pipes.head?.map Prod.snd).getD 1 := by
    rcases pipes with - | ⟨q, pipes⟩
    · have := hp.write_le
      simp only [List.head?_nil, Option.map_none, Option.getD_none]
      omega
    · refine ne_of_get hp.write hps.1.write fun h => ?_
      exact absurd (File.writeEnd.inj h) (by omega)
  exact ⟨p.2, _, hp.write_le, childTable_keeps hp.write_le hin hout hp.write, decide_eq_true hbase⟩

/-- The first command keeps the read end of the pipe it writes to. -/
theorem childTable_first {s : Proc} {base id : Nat} {q : Nat × Nat} (hbase : base ≤ id)
    (hq : PipeOpen s.fds id q) : Leaks base (childTable sys cmd 0 q.2 s) := by
  have hin : q.1 ≠ 0 := by
    have := hq.read_le
    omega
  exact ⟨q.1, _, hq.read_le, childTable_keeps hq.read_le hin
    (ne_of_get hq.read hq.write File.noConfusion) hq.read, decide_eq_true hbase⟩

/-- What children execute with, behind what was executed before. -/
def ExecutesLeaking (base : Nat) (s s' : Proc) : Prop :=
  ∃ new, s'.executed = s.executed ++ new ∧ ∀ t ∈ new, Leaks base t

theorem executesLeaking_simple (hsourced : outcome sys cmd inFd outFd s ≠ .sourced)
    (h : Leaks base (childTable sys cmd inFd outFd s)) :
    ExecutesLeaking base s (execSimple sys cmd inFd outFd s).2 := by
  rcases (execSimple_starts hsourced).executed with heq | heq
  · exact ⟨[], by rw [heq, List.append_nil], fun t ht => absurd ht List.not_mem_nil⟩
  · exact ⟨_, heq, fun t ht => List.mem_singleton.1 ht ▸ h⟩

theorem ExecutesLeaking.trans {s₁ s₂ : Proc} (h₁ : ExecutesLeaking base s s₁)
    (h₂ : ExecutesLeaking base s₁ s₂) : ExecutesLeaking base s s₂ := by
  obtain ⟨n₁, heq₁, hl₁⟩ := h₁
  obtain ⟨n₂, heq₂, hl₂⟩ := h₂
  refine ⟨n₁ ++ n₂, by rw [heq₂, heq₁, List.append_assoc], ?_⟩
  exact List.forall_mem_append.2 ⟨hl₁, hl₂⟩

theorem isExternal_ne {o : Outcome} (h : o.isExternal) : o ≠ .exits ∧ o ≠ .sourced := by
  constructor <;> rintro rfl <;> cases h

/-- An external command leaves the shell's own descriptors alone. -/
theorem spawn_external {nextIn : Nat} {pipes : List (Nat × Nat)} (hs : s.exited = none)
    (hout : (pipes.head?.map Prod.snd).getD 1 = outFd)
    (hin : (pipes.head?.map Prod.fst).getD 0 = nextIn)
    (hext : ∀ o ∈ outcomes sys inFd (cmd :: cmds) pipes s, o.isExternal) :
    (spawn sys inFd (cmd :: cmds) pipes s).2 =
        (spawn sys nextIn cmds pipes.tail (execSimple sys cmd inFd outFd s).2).2 ∧
      outcome sys cmd inFd outFd s ≠ .sourced ∧
      (execSimple sys cmd inFd outFd s).2.exited = none ∧
      (execSimple sys cmd inFd outFd s).2.fds = s.fds ∧
      ∀ o ∈ outcomes sys nextIn cmds pipes.tail (execSimple sys cmd inFd outFd s).2,
        o.isExternal := by
  have ho : (outcome sys cmd inFd outFd s).isExternal := by
    refine hext _ ?_
    rw [outcomes, hout]
    split_ifs <;> exact List.mem_cons_self
  obtain ⟨hne, hsourced⟩ := isExternal_ne ho
  have hst := execSimple_starts hsourced
  refine ⟨by rw [spawn_cons hout hin hs hne hsourced], hsourced, (hst.exited hne).trans hs,
    hst.fds ho, ?_⟩
  intro o hmem
  refine hext o ?_
  rw [outcomes, hout, hin, if_neg hne]
  exact List.mem_cons_of_mem _ hmem

theorem spawn_readers_leak (sys : System) {id : Nat} {p : Nat × Nat} {pipes : List (Nat × Nat)}
    (hbase : base ≤ id) (hs : s.exited = none) (hp : PipeOpen s.fds id p)
    (hps : PipesOpen s.fds (id + 1) pipes) (hlen : pipes.length + 1 = cmds.length)
    (hext : ∀ o ∈ outcomes sys p.1 cmds pipes s, o.isExternal) :
    ExecutesLeaking base s (spawn sys p.1 cmds pipes s).2 := by
  induction cmds generalizing id p pipes s with
  | nil => cases hlen
  | cons cmd cmds ih =>
    have hleaks := @childTable_reader sys cmd _ _ _ _ _ hbase hp hps
    rcases pipes with - | ⟨q, pipes⟩
    · obtain rfl : cmds = [] := List.length_eq_zero_iff.1 (Nat.succ.inj hlen).symm
      obtain ⟨hspawn, hsourced, -⟩ := spawn_external hs rfl rfl hext
      rw [hspawn]
      exact executesLeaking_simple hsourced hleaks
    · obtain ⟨hspawn, hsourced, hs₁, hfds, hext₁⟩ := spawn_external hs rfl rfl hext
      have hfirst := executesLeaking_simple hsourced hleaks
      rw [hspawn]
      rw [← hfds] at hps
      exact hfirst.trans (ih (Nat.le_succ_of_le hbase) hs₁ hps.1 hps.2 (Nat.succ.inj hlen) hext₁)

theorem spawn_leaks (sys : System) {pipes : List (Nat × Nat)} (hs : s.exited = none)
    (hps : PipesOpen s.fds base pipes) (hlen : pipes.length + 1 = cmds.length)
    (hmany : 2 ≤ cmds.length) (hext : ∀ o ∈ outcomes sys 0 cmds pipes s, o.isExternal) :
    ExecutesLeaking base s (spawn sys 0 cmds pipes s).2 := by
  rcases cmds with - | ⟨cmd, cmds⟩
  · cases hlen
  rcases pipes with - | ⟨q, pipes⟩
  · rw [← hlen] at hmany
    exact absurd hmany (by decide)
  · obtain ⟨hspawn, hsourced, hs₁, hfds, hext₁⟩ := spawn_external hs rfl rfl hext
    have hfirst := executesLeaking_simple hsourced
      (@childTable_first sys cmd _ _ _ _ (Nat.le_refl base) hps.1)
    rw [hspawn]
    rw [← hfds] at hps
    exact hfirst.trans (spawn_readers_leak sys (Nat.le_refl base) hs₁ hps.1 hps.2
      (Nat.succ.inj hlen) hext₁)

/-! ### The pipeline -/

/-- The tables the children created since had when they executed their program. -/
def newlyExecuted (s s' : Proc) : List Fds := s'.executed.drop s.executed.length

theorem execPipeline_executed (sys : System) {pl : Pipeline} (hs : s.exited = none)
    (hlen : 2 ≤ pl.cmds.length)
    (hext : (pipelineOutcomes sys pl s).all (·.all Outcome.isExternal)) :
    ExecutesLeaking s.pipes s (execPipeline sys pl s).2 := by
  obtain ⟨-, hex, -, hexec, -⟩ := @openPipes_frame sys (pl.cmds.length - 1) s
  rw [execPipeline_many sys hlen]
  rcases hp : openPipes sys (pl.cmds.length - 1) s with ⟨- | pipes, s₁⟩
  · rw [hp] at hexec
    exact ⟨[], by rw [hexec, List.append_nil], fun t ht => absurd ht List.not_mem_nil⟩
  · rw [hp] at hex hexec
    obtain ⟨hplen, hps, -⟩ := openPipes_spec hp
    simp only [pipelineOutcomes, hp, Option.all_some, List.all_eq_true] at hext
    have hleak := spawn_leaks sys (hex.trans hs) hps (by omega) hlen hext
    rcases hr : spawn sys 0 pl.cmds pipes s₁ with ⟨pids, s₂⟩
    rw [hr] at hleak
    obtain ⟨new, hnew, hl⟩ := hleak
    refine ⟨new, ?_, hl⟩
    rw [hexec] at hnew
    simp only [hr]
    split_ifs
    · exact hnew
    · exact hnew
    · rw [waitAll_snd]
      exact hnew

/-- **Every child of a pipeline of external commands executes its program with an end of a pipe
open besides its standard input and output.** -/
theorem executed_leaks (sys : System) {pl : Pipeline} {s : Proc} (hs : s.exited = none)
    (hlen : 2 ≤ pl.cmds.length)
    (hext : (pipelineOutcomes sys pl s).all (·.all Outcome.isExternal)) {t : Fds}
    (ht : t ∈ newlyExecuted s (execPipeline sys pl s).2) : ¬ OwnEnds s.pipes t := by
  obtain ⟨new, hnew, hl⟩ := execPipeline_executed sys hs hlen hext
  rw [newlyExecuted, hnew, List.drop_left] at ht
  exact (hl t ht).not_ownEnds

/-- `ls | cat`. -/
def lsCat : Pipeline := { cmds := [{ argv := ["ls".toList] }, { argv := ["cat".toList] }] }

theorem executed_leaks_ls :
    ∃ t ∈ newlyExecuted startup (execPipeline calm lsCat startup).2, ¬ OwnEnds startup.pipes t :=
  have hne : newlyExecuted startup (execPipeline calm lsCat startup).2 ≠ [] := by decide +kernel
  ⟨_, List.head_mem hne,
    executed_leaks calm rfl (by decide) (by decide +kernel) (List.head_mem hne)⟩

/-- `cat` has the write end of the pipe it reads from open at 4. -/
theorem cat_keeps_writer :
    ¬ ∀ t ∈ newlyExecuted startup (execPipeline calm lsCat startup).2, OwnEnds startup.pipes t := by
  have hget : ((newlyExecuted startup (execPipeline calm lsCat startup).2).getLast?.map
      (·.get 4)) = some (some (.writeEnd 0)) := by decide +kernel
  obtain ⟨t, hlast, hfd⟩ := Option.map_eq_some_iff.1 hget
  intro h
  rcases h t (List.mem_of_getLast? hlast) 4 _ hfd rfl with h | h <;> cases h

end Nv0ken.Shell
