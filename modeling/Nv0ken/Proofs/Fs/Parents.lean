/-
Where a path leads, and what it leads through.

Following a path from the root, `.` stays, `..` goes back and any other component goes one step down
(`follow`); the normal form of a path that fits is where it leads (`normalForm_eq`).
`ensure_directories` looks at what stands before each slash of a path.  These are the places the
path passes on its way (`parents`), and each is one step below the root or below one passed before
(`grounded_parents`), so that a loop which makes sure of them in order always finds the directory
that the next one belongs to.
-/
import Nv0ken.Kernel.Fs.Initrd
import Nv0ken.Proofs.Fs.Vfs

namespace Nv0ken.Fs

open Pieces List

variable {size : Nat} {path before c : List UInt8} {ps stack F : List (List UInt8)}
  {seen L : List (List (List UInt8))}

/-! ### Following a path -/

/-- One component further. -/
def turn (stack : List (List UInt8)) (c : List UInt8) : List (List UInt8) :=
  if c = [dot] then stack else if c = [dot, dot] then stack.dropLast else stack ++ [c]

def follow (stack : List (List UInt8)) (ps : List (List UInt8)) : List (List UInt8) :=
  ps.foldl turn stack

/-- Where a path leads. -/
def target (path : List UInt8) : List (List UInt8) := follow [] (pieces slash path)

theorem follow_append (stack ps qs : List (List UInt8)) :
    follow stack (ps ++ qs) = follow (follow stack ps) qs := List.foldl_append

theorem mem_turn (h : c ∈ turn stack path) : c ∈ stack ∨ c = path := by
  unfold turn at h
  split_ifs at h with hdot hdots
  · exact Or.inl h
  · exact Or.inl (dropLast_subset _ h)
  · simpa using h

theorem mem_follow (h : c ∈ follow stack ps) : c ∈ stack ∨ c ∈ ps := by
  induction ps generalizing stack with
  | nil => exact Or.inl h
  | cons p ps ih =>
    rcases ih h with hturn | hps
    · rcases mem_turn hturn with hstack | hp
      · exact Or.inl hstack
      · exact Or.inr (by simp [hp])
    · exact Or.inr (by simp [hps])

theorem length_join_dropLast (stack : List (List UInt8)) :
    (join slash stack.dropLast).length ≤ (join slash stack).length := by
  rcases eq_nil_or_concat stack with rfl | ⟨stack, d, rfl⟩
  · exact Nat.le_refl _
  · rw [concat_eq_append, dropLast_concat, join_append, length_append]
    omega

theorem resolve_eq_follow (h : (join slash stack).length + (join slash ps).length < size) :
    resolve size stack ps = some (follow stack ps) := by
  induction ps generalizing stack with
  | nil => rfl
  | cons p ps ih =>
    rw [join_cons, length_append, length_cons] at h
    have hback := length_join_dropLast stack
    have hturn : follow stack (p :: ps) = follow (turn stack p) ps := rfl
    rw [hturn, resolve, turn]
    split_ifs with hdot hdots hfits
    · exact ih (by omega)
    · exact ih (by omega)
    · refine ih ?_
      rw [join_append]
      simp
      omega
    · rw [render_snoc, length_append, length_cons] at hfits
      omega

/-- **The normal form of a path that fits is where it leads.** -/
theorem normalForm_eq (hlen : (slash :: path).length < size) :
    normalForm size (slash :: path) = some (target (slash :: path)) := by
  have hjoin := length_join_pieces slash path
  refine resolve_eq_follow ?_
  rw [pieces_sep_cons]
  simp at hlen ⊢
  omega

theorem target_sep (before c : List UInt8) (hc : slash ∉ c) :
    target (before ++ slash :: c) = if c = [] then target before else turn (target before) c := by
  unfold target
  rw [pieces_append, follow_append, pieces_of_not_mem hc]
  by_cases hnil : c = []
  · rw [if_pos hnil, if_pos hnil]
    rfl
  · rw [if_neg hnil, if_neg hnil]
    rfl

/-! ### What a path passes -/

/-- Where what stands before each slash of the rest leads. -/
def stops (before : List UInt8) : List UInt8 → List (List (List UInt8))
  | [] => []
  | c :: rest =>
    if c = slash then target before :: stops (before ++ [c]) rest else stops (before ++ [c]) rest

/-- The places a path passes: where what stands before each of its slashes leads, the first slash
apart. -/
def parents (path : List UInt8) : List (List (List UInt8)) := stops (path.take 1) (path.drop 1)

/-- In this order each place is one step below one that is there. -/
def Grounded (seen : List (List (List UInt8))) : List (List (List UInt8)) → Prop
  | [] => True
  | F :: L => F.dropLast ∈ seen ∧ Grounded (F :: seen) L

theorem mem_shift {G : List (List UInt8)} (h : F ∈ G :: seen ∨ F ∈ L) : F ∈ seen ∨ F ∈ G :: L := by
  rw [mem_cons] at h ⊢
  rwa [or_left_comm, ← or_assoc]

theorem Grounded.mem (h : Grounded seen L) (hF : F ∈ L) : F.dropLast ∈ seen ∨ F.dropLast ∈ L := by
  induction L generalizing seen with
  | nil => exact absurd hF not_mem_nil
  | cons G L ih =>
    rcases mem_cons.mp hF with rfl | hF
    · exact Or.inl h.1
    · exact mem_shift (ih h.2 hF)

/-- With a place, the place it is in. -/
def Closed (seen : List (List (List UInt8))) : Prop := ∀ F ∈ seen, F.dropLast ∈ seen

theorem Closed.cons (h : Closed seen) (hF : F.dropLast ∈ seen) : Closed (F :: seen) := by
  intro G hG
  rcases mem_cons.mp hG with rfl | hG
  · exact mem_cons_of_mem _ hF
  · exact mem_cons_of_mem _ (h G hG)

theorem Closed.turn (h : Closed seen) (hstack : stack ∈ seen) (c : List UInt8) :
    (turn stack c).dropLast ∈ seen := by
  unfold Fs.turn
  split_ifs with hdot hdots
  · exact h stack hstack
  · exact h _ (h stack hstack)
  · rw [dropLast_concat]
    exact hstack

theorem Closed.target (h : Closed seen) (hbefore : target before ∈ seen) (hc : slash ∉ c) :
    (target (before ++ slash :: c)).dropLast ∈ seen := by
  rw [target_sep before c hc]
  split_ifs with hnil
  · exact h _ hbefore
  · exact h.turn hbefore c

theorem stops_grounded (rest : List UInt8) (before c : List UInt8) (seen : List (List (List UInt8)))
    (hc : slash ∉ c) (hclosed : Closed seen) (hbefore : target before ∈ seen) :
    Grounded seen (stops (before ++ slash :: c) rest) ∧
      ((target (before ++ slash :: c ++ rest)).dropLast ∈ seen ∨
        (target (before ++ slash :: c ++ rest)).dropLast ∈ stops (before ++ slash :: c) rest) := by
  induction rest generalizing before c seen with
  | nil =>
    rw [append_nil]
    exact ⟨trivial, Or.inl (hclosed.target hbefore hc)⟩
  | cons x rest ih =>
    by_cases hx : x = slash
    · -- the slash ends a component; it is the place the next one starts from
      subst hx
      have hhere := hclosed.target hbefore hc
      have hnext := ih (before ++ slash :: c) [] (target (before ++ slash :: c) :: seen) (by simp)
        (hclosed.cons hhere) (by simp)
      refine ⟨⟨hhere, hnext.1⟩, ?_⟩
      have happ : before ++ slash :: c ++ slash :: rest =
          before ++ slash :: c ++ slash :: [] ++ rest := by
        simp
      rw [happ]
      exact mem_shift hnext.2
    · have hc' : slash ∉ c ++ [x] := by simp [hc, Ne.symm hx]
      have hnext := ih before (c ++ [x]) seen hc' hclosed hbefore
      have happ : before ++ slash :: c ++ x :: rest =
          before ++ slash :: (c ++ [x]) ++ rest := by simp
      have hbefore' : before ++ slash :: c ++ [x] = before ++ slash :: (c ++ [x]) := by simp
      rw [stops, if_neg hx, happ, hbefore']
      exact hnext

/-- **A path passes the places on its way in order**, and the place it leads to is one step below
one of them. -/
theorem grounded_parents (path : List UInt8) :
    Grounded [[]] (parents (slash :: path)) ∧
      (target (slash :: path)).dropLast ∈ [] :: parents (slash :: path) := by
  have hclosed : Closed [[]] := by
    intro F hF
    rw [mem_singleton.mp hF]
    exact mem_singleton_self _
  have h := stops_grounded path [] [] [[]] (by simp) hclosed (mem_singleton_self _)
  refine ⟨h.1, ?_⟩
  rcases h.2 with hroot | hmem
  · rw [mem_singleton] at hroot
    exact mem_cons.mpr (Or.inl hroot)
  · exact mem_cons_of_mem _ hmem

end Nv0ken.Fs
