/-
The current directory.

`sys_chdir` stores the text it is given and `sys_getcwd` returns it; no call that takes a
path looks at it, since `path_normalize` starts every path at the root.  So a relative
path means what it should exactly while the current directory is the root
(`cwd_right_iff`), and the text that is returned is the normalised path of the directory
only if it was given that way.
-/
import Nv0ken.Kernel.Proc.DirHandlers
import Nv0ken.Proofs.Fs.Names

namespace Nv0ken.Proc

open Fs Pieces List

variable {vfs : Vfs} {path cwd : List UInt8} {paths : List (List UInt8)} {dir : List (List UInt8)}

/-- `sys_chdir` returns 0. -/
def chdirOk (vfs : Vfs) (path : List UInt8) : Bool :=
  ((vfsLookup vfs path).any fun id => (vfs.get id).any fun node => node.type = .dir) &&
    path.length < cwdMax

/-- The text of the current directory after these calls. -/
def chdirs (vfs : Vfs) (paths : List (List UInt8)) : List UInt8 :=
  paths.foldl (fun cwd path => (sysChdir vfs cwd path).1) cwdInit

/-- `path_is_absolute`. -/
def pathIsAbsolute (path : List UInt8) : Bool := path.head? = some slash

/-- Where a path leads from a directory: `path_normalize` begun at that directory, and at the
root for an absolute path. -/
def resolveFrom (dir : List (List UInt8)) (path : List UInt8) : Option (List (List UInt8)) :=
  resolve pathMax (if pathIsAbsolute path then [] else dir) (pieces slash path)

/-- The directory that the last successful call changed to. -/
def currentDir (vfs : Vfs) (paths : List (List UInt8)) : List (List UInt8) :=
  (paths.filter (chdirOk vfs)).foldl (fun dir path => (resolveFrom dir path).getD dir) []

/-- After these calls every relative path is looked up in the current directory, as
`vfs_lookup` does it for every call that takes a path, and `sys_getcwd` returns the
normalised path of that directory. -/
def CwdRight (vfs : Vfs) (paths : List (List UInt8)) : Prop :=
  (∀ path, pathIsAbsolute path = false → vfsLookup vfs path =
    (resolveFrom (currentDir vfs paths) path).bind fun cs => nodeAt vfs (address cs)) ∧
  sysGetcwd (chdirs vfs paths) true cwdMax = some (render (currentDir vfs paths))

theorem sysChdir_eq (vfs : Vfs) (cwd path : List UInt8) :
    (sysChdir vfs cwd path).1 = if chdirOk vfs path then path else cwd := by
  unfold sysChdir chdirOk
  cases vfsLookup vfs path with
  | none => simp
  | some id =>
    simp only [Option.any_some]
    split_ifs <;> rfl

/-- The text is that of the last successful call. -/
theorem chdirs_eq (vfs : Vfs) (paths : List (List UInt8)) :
    chdirs vfs paths = (paths.filter (chdirOk vfs)).getLast?.getD cwdInit := by
  induction paths using reverseRecOn with
  | nil => rfl
  | append_singleton paths path ih =>
    unfold chdirs at ih ⊢
    rw [foldl_append, foldl_cons, sysChdir_eq, ih]
    by_cases hok : chdirOk vfs path <;> simp [hok]

theorem length_chdirs (vfs : Vfs) (paths : List (List UInt8)) :
    (chdirs vfs paths).length < cwdMax := by
  rw [chdirs_eq]
  cases hlast : (paths.filter (chdirOk vfs)).getLast? with
  | none => decide
  | some path =>
    have hok := (mem_filter.mp (mem_of_getLast? hlast)).2
    unfold chdirOk at hok
    simp only [Bool.and_eq_true, decide_eq_true_eq] at hok
    exact hok.2

/-- With room for any text `sys_getcwd` returns it. -/
theorem sysGetcwd_chdirs (vfs : Vfs) (paths : List (List UInt8)) :
    sysGetcwd (chdirs vfs paths) true cwdMax = some (chdirs vfs paths) := by
  have hlen := length_chdirs vfs paths
  unfold sysGetcwd
  simp
  omega

theorem resolveFrom_root (path : List UInt8) : resolveFrom [] path = normalForm pathMax path := by
  unfold resolveFrom normalForm
  rw [ite_self]

/-- The root is the only directory from which `.` leads to the root. -/
theorem eq_nil_of_dot (hinv : TreeInv vfs)
    (h : vfsLookup vfs [dot] = (resolveFrom dir [dot]).bind fun cs => nodeAt vfs (address cs)) :
    dir = [] := by
  have hfrom : resolveFrom dir [dot] = some dir := rfl
  have hroot : vfsLookup vfs [dot] = nodeAt vfs [] := by
    rw [vfsLookup_eq]
    rfl
  rw [hfrom, hroot] at h
  have hnode : nodeAt vfs [] = some 0 := hinv.root
  have hnil := nodeAt_inj hinv hnode (h.symm.trans hnode)
  unfold address at hnil
  simpa using hnil.symm

/-- **Relative paths and `sys_getcwd` are right exactly when no call succeeded or the last one
that did was given `/`.** -/
theorem cwd_right_iff (hinv : TreeInv vfs) (paths : List (List UInt8)) :
    CwdRight vfs paths ↔ ∀ path, (paths.filter (chdirOk vfs)).getLast? = some path →
      path = [slash] := by
  unfold CwdRight
  rw [sysGetcwd_chdirs, chdirs_eq]
  constructor
  · intro ⟨hresolve, hcwd⟩ path hlast
    rw [eq_nil_of_dot hinv (hresolve [dot] rfl), hlast] at hcwd
    exact Option.some.inj hcwd
  · intro hlast
    have hdir : currentDir vfs paths = [] := by
      unfold currentDir
      rcases eq_nil_or_concat (paths.filter (chdirOk vfs)) with hnil | ⟨before, path, heq⟩
      · rw [hnil]
        rfl
      · rw [heq] at hlast ⊢
        rw [hlast path (by simp), concat_eq_append, foldl_append]
        rfl
    rw [hdir]
    constructor
    · intro path _
      rw [resolveFrom_root, vfsLookup_eq]
    · cases h : (paths.filter (chdirOk vfs)).getLast? with
      | none => rfl
      | some path =>
        rw [hlast path h]
        rfl

theorem cwd_right_iff_root : CwdRight mountRoot [[97], [slash]] :=
  (cwd_right_iff treeInv_mountRoot [[97], [slash]]).mpr (by decide +kernel)

/-- A directory `a` with a file `b` in it. -/
def dirWithFile : Vfs :=
  (vfsCreate (vfsCreate mountRoot [slash, 97] .dir true).1 [slash, 97, slash, 98] .file true).1

/-- After a change to `/a/` the file `b` in it is not found under its name, and `sys_getcwd`
returns a text with a slash at the end. -/
theorem relative_from_root :
    (sysChdir dirWithFile cwdInit [slash, 97, slash]).2 = 0 ∧
      currentDir dirWithFile [[slash, 97, slash]] = [[97]] ∧
      nodeAt dirWithFile (address [[97], [98]]) = some 2 ∧ vfsLookup dirWithFile [98] = none ∧
      sysGetcwd (chdirs dirWithFile [[slash, 97, slash]]) true cwdMax = some [slash, 97, slash] ∧
      ¬ CwdRight dirWithFile [[slash, 97, slash]] := by
  refine ⟨by decide +kernel, by decide +kernel, by decide +kernel, by decide +kernel,
    by decide +kernel, fun h => ?_⟩
  have hfound := h.1 [98] rfl
  revert hfound
  decide +kernel

end Nv0ken.Proc
