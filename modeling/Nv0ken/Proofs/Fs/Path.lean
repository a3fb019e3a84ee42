/-
Paths as lists of components.

`path_normalize` works on bytes in a buffer; what it computes is a stack of components.
`pathNormalize_eq` says so: the call never writes outside a buffer of two bytes or more,
it fails exactly when a component does not fit when it is pushed, and otherwise the
buffer holds the components of the stack, each behind a slash.
-/
import Nv0ken.Kernel.Fs.Path
import Nv0ken.Lib.Pieces

namespace Nv0ken.Fs

open Buffer Pieces List Option

variable {size fuel : Nat} {input c : List UInt8} {cs ds ps : List (List UInt8)}

/-- A component of a normal form. -/
structure Component (c : List UInt8) : Prop where
  clean : Clean slash c
  notDot : c ≠ [dot]
  notDotDot : c ≠ [dot, dot]

/-- The normalised path with these components. -/
def render (cs : List (List UInt8)) : List UInt8 := if cs = [] then [slash] else join slash cs

/-- The components processed on a stack, as long as what is on it fits into the buffer. -/
def resolve (size : Nat) : List (List UInt8) → List (List UInt8) → Option (List (List UInt8))
  | stack, [] => some stack
  | stack, c :: cs =>
    if c = [dot] then resolve size stack cs
    else if c = [dot, dot] then resolve size stack.dropLast cs
    else if (render (stack ++ [c])).length < size then resolve size (stack ++ [c]) cs
    else none

/-- The components of the normal form of a path. -/
def normalForm (size : Nat) (path : List UInt8) : Option (List (List UInt8)) :=
  resolve size [] (pieces slash path)

theorem splitComponent_eq (input : List UInt8) : splitComponent input = nextPiece slash input := rfl

/-! ### The buffer and the stack -/

theorem render_snoc (cs : List (List UInt8)) (c : List UInt8) :
    render (cs ++ [c]) = join slash cs ++ slash :: c := by
  unfold render
  rw [join_append]
  simp

theorem length_render_le (cs : List (List UInt8)) : 1 ≤ (render cs).length := by
  unfold render
  by_cases hnil : cs = []
  · rw [if_pos hnil]
    exact Nat.le_refl _
  · rw [if_neg hnil]
    have := length_le_join slash cs
    have : cs.length ≠ 0 := fun h => hnil (length_eq_zero_iff.mp h)
    omega

/-- The buffer holds more than the first slash exactly when the stack is not empty. -/
theorem length_render_gt (hcs : ∀ c ∈ cs, Component c) : (render cs).length > 1 ↔ cs ≠ [] := by
  constructor
  · rintro hlen rfl
    simp [render] at hlen
  · intro hne
    rcases eq_nil_or_concat cs with rfl | ⟨cs, c, rfl⟩
    · exact absurd rfl hne
    · rw [concat_eq_append] at *
      rw [render_snoc, length_append, length_cons]
      have : c.length ≠ 0 := fun h => (hcs c (by simp)).clean.1 (length_eq_zero_iff.mp h)
      omega

/-- Going back over a name stops at the slash before it. -/
theorem dropName_append (hc : slash ∉ c) (rest : List UInt8) :
    dropName (c ++ slash :: rest) = slash :: rest := by
  induction c with
  | nil =>
    rcases rest with _ | ⟨a, rest⟩
    · rfl
    · rw [nil_append, dropName, if_neg (by simp)]
  | cons b c ih =>
    have hb : b ≠ slash := fun h => hc (by simp [h])
    have hrest : dropName (c ++ slash :: rest) = slash :: rest := ih fun h => hc (by simp [h])
    rcases c with _ | ⟨b', c⟩
    · rw [cons_append, nil_append, dropName, if_pos hb]
      exact hrest
    · rw [cons_append, cons_append, dropName, if_pos hb]
      exact hrest

/-- Taking back a component pops the stack. -/
theorem popComponent_render (hcs : ∀ c ∈ cs, Component c) :
    popComponent (render cs).reverse = (render cs.dropLast).reverse := by
  rcases eq_nil_or_concat cs with rfl | ⟨cs, c, rfl⟩
  · rfl
  · rw [concat_eq_append] at *
    have hc : slash ∉ c.reverse := by
      rw [mem_reverse]
      exact (hcs c (by simp)).clean.2
    rw [render_snoc, dropLast_concat, reverse_append, reverse_cons, append_assoc, singleton_append]
    unfold popComponent render
    rw [dropName_append hc]
    by_cases hnil : cs = []
    · subst hnil
      rfl
    · rw [if_neg hnil]
      rcases hrev : (join slash cs).reverse with _ | ⟨a, rest⟩
      · have := length_le_join slash cs
        rw [reverse_eq_nil_iff.mp hrev] at this
        exact absurd (length_eq_zero_iff.mp (Nat.le_zero.mp this)) hnil
      · rfl

/-- What pushing a component writes. -/
theorem render_push (hcs : ∀ c ∈ cs, Component c) (c : List UInt8) :
    render (cs ++ [c]) =
      render cs ++ ((if (render cs).length > 1 then [slash] else []) ++ c) := by
  by_cases hnil : cs = []
  · subst hnil
    simp [render]
  · rw [if_pos ((length_render_gt hcs).mpr hnil), render_snoc]
    unfold render
    rw [if_neg hnil]
    rfl

theorem length_render_dropLast (cs : List (List UInt8)) :
    (render cs.dropLast).length ≤ (render cs).length := by
  rcases eq_nil_or_concat cs with rfl | ⟨cs, c, rfl⟩
  · exact Nat.le_refl _
  · rw [concat_eq_append, dropLast_concat, render_snoc, length_append, length_cons]
    unfold render
    by_cases hnil : cs = []
    · rw [if_pos hnil, length_singleton]
      omega
    · rw [if_neg hnil]
      omega

/-! ### The loop -/

theorem normalizeLoop_nil (fuel : Nat) (out : List UInt8) :
    normalizeLoop size fuel [] out = .ok (some out) := by
  cases fuel <;> rfl

/-- A component is refused exactly when the buffer with it would be full. -/
theorem fits_iff (hcs : ∀ c ∈ cs, Component c) :
    ¬ ((render cs).reverse.length +
          (if (render cs).reverse.length > 1 then [slash] else []).length ≥ size ∨
        c.length > size - (render cs).reverse.length -
          (if (render cs).reverse.length > 1 then [slash] else []).length - 1) ↔
      (render (cs ++ [c])).length < size := by
  rw [length_reverse, render_push hcs, length_append, length_append]
  omega

variable {stack : List (List UInt8)}

theorem normalizeLoop_eq (hstack : ∀ c ∈ stack, Component c) (hlen : (render stack).length < size) :
    normalizeLoop size fuel input (render stack).reverse =
      .ok ((resolve size stack (piecesUpTo slash fuel input)).map fun cs =>
        (render cs).reverse) := by
  induction fuel generalizing input stack with
  | zero => rfl
  | succ fuel ih =>
    rcases input with _ | ⟨a, input⟩
    · rfl
    rw [normalizeLoop, piecesUpTo, splitComponent_eq]
    rcases hpiece : nextPiece slash (a :: input) with ⟨c, rest⟩
    simp only
    by_cases hnil : c = []
    · have hrest : rest = [] := by
        have := nextPiece_rest slash (a :: input) (by rw [hpiece]; exact hnil)
        rwa [hpiece] at this
      rw [if_pos (Or.inl hnil), if_pos hnil, hrest, normalizeLoop_nil]
      rfl
    rw [if_neg hnil]
    by_cases hdot : c = [dot]
    · rw [if_pos (Or.inr hdot), resolve, if_pos hdot]
      exact ih hstack hlen
    rw [if_neg (by simp [hnil, hdot]), resolve, if_neg hdot]
    by_cases hdots : c = [dot, dot]
    · rw [if_pos hdots, if_pos hdots, popComponent_render hstack]
      refine ih (fun d hd => hstack d (dropLast_subset _ hd)) ?_
      exact Nat.lt_of_le_of_lt (length_render_dropLast stack) hlen
    rw [if_neg hdots, if_neg hdots]
    by_cases hfits : (render (stack ++ [c])).length < size
    · rw [if_neg ((fits_iff hstack).mpr hfits), if_pos hfits]
      have hclean : Clean slash c := by
        have := nextPiece_clean slash (a :: input) (by rw [hpiece]; exact hnil)
        rwa [hpiece] at this
      have hemit : emit size (render stack).reverse
          ((if (render stack).reverse.length > 1 then [slash] else []) ++ c) =
            .ok (render (stack ++ [c])).reverse := by
        rw [render_push hstack] at hfits ⊢
        rw [length_reverse]
        unfold emit
        rw [length_append] at hfits
        rw [if_pos (by rw [length_reverse]; omega), ← reverse_append]
      rw [hemit]
      refine ih (fun d hd => ?_) hfits
      rcases mem_append.mp hd with hd | hd
      · exact hstack d hd
      · rw [mem_singleton.mp hd]
        exact ⟨hclean, hdot, hdots⟩
    · rw [if_pos (by
        by_contra hroom
        exact hfits ((fits_iff hstack).mp hroom)), if_neg hfits]
      rfl

/-! ### The stack without the buffer -/

/-- One component: `.` is ignored, `..` takes the last one back, if there is one. -/
def pushComponent (stack : List (List UInt8)) (c : List UInt8) : List (List UInt8) :=
  if c = [dot] then stack else if c = [dot, dot] then stack.dropLast else stack ++ [c]

/-- The components processed on a stack. -/
def stackOf (cs : List (List UInt8)) : List (List UInt8) := cs.foldl pushComponent []

/-- A component goes on the stack as long as the stack with it fits. -/
theorem resolve_cons (hlen : (render stack).length < size) (c : List UInt8)
    (cs : List (List UInt8)) :
    resolve size stack (c :: cs) =
      if (render (pushComponent stack c)).length < size then resolve size (pushComponent stack c) cs
      else none := by
  rw [resolve]
  unfold pushComponent
  by_cases hdot : c = [dot]
  · simp [hdot, hlen]
  by_cases hdots : c = [dot, dot]
  · have hpop := Nat.lt_of_le_of_lt (length_render_dropLast stack) hlen
    simp [hdots, hpop]
  · simp [hdot, hdots]

/-- The components are accepted when the stack fits behind each of them. -/
theorem resolve_eq_some_iff (hlen : (render stack).length < size) :
    resolve size stack cs = some ds ↔
      (∀ k, (render ((cs.take k).foldl pushComponent stack)).length < size) ∧
        cs.foldl pushComponent stack = ds := by
  induction cs generalizing stack with
  | nil => simp [resolve, hlen]
  | cons c cs ih =>
    rw [resolve_cons hlen]
    by_cases hfits : (render (pushComponent stack c)).length < size
    · rw [if_pos hfits, ih hfits]
      refine and_congr_left fun _ => ⟨fun h k => ?_, fun h k => h (k + 1)⟩
      cases k with
      | zero => exact hlen
      | succ k => exact h k
    · rw [if_neg hfits]
      refine iff_of_false (by simp) fun h => hfits ?_
      simpa using h.1 1

/-- The stack holds components only. -/
theorem component_of_pushed (hstack : ∀ c ∈ stack, Component c) (hps : ∀ p ∈ ps, Clean slash p) :
    ∀ c ∈ ps.foldl pushComponent stack, Component c := by
  induction ps generalizing stack with
  | nil => exact hstack
  | cons p ps ih =>
    refine ih (fun d hd => ?_) fun q hq => hps q (by simp [hq])
    unfold pushComponent at hd
    by_cases hdot : p = [dot]
    · exact hstack d (by simpa [hdot] using hd)
    by_cases hdots : p = [dot, dot]
    · exact hstack d (dropLast_subset _ (by simpa [hdots] using hd))
    rcases (by simpa [hdot, hdots] using hd : d ∈ stack ∨ d = p) with hd | rfl
    · exact hstack d hd
    · exact ⟨hps d (by simp), hdot, hdots⟩

/-! ### Normal forms -/

/-- What the stack holds are components, and they fit. -/
theorem resolve_spec (hstack : ∀ c ∈ stack, Component c) (hlen : (render stack).length < size)
    (hps : ∀ p ∈ ps, Clean slash p) (h : resolve size stack ps = some cs) :
    (∀ c ∈ cs, Component c) ∧ (render cs).length < size := by
  obtain ⟨hfits, rfl⟩ := (resolve_eq_some_iff hlen).mp h
  exact ⟨component_of_pushed hstack hps, by simpa using hfits ps.length⟩

theorem normalForm_spec (hsize : 2 ≤ size) (h : normalForm size input = some cs) :
    (∀ c ∈ cs, Component c) ∧ (render cs).length < size :=
  resolve_spec (show ∀ c ∈ [], Component c by simp) hsize (fun _ hp => clean_of_mem_piecesUpTo hp) h

/-- **What `path_normalize` computes.** -/
theorem pathNormalize_eq (hsize : 2 ≤ size) (input : List UInt8) :
    pathNormalize input size = .ok ((normalForm size input).map render) := by
  have hloop : normalizeLoop size input.length input [slash] =
      .ok ((normalForm size input).map fun cs => (render cs).reverse) :=
    normalizeLoop_eq (show ∀ c ∈ [], Component c by simp) hsize
  unfold pathNormalize
  rw [if_neg (by omega), hloop]
  cases h : normalForm size input with
  | none => rfl
  | some cs =>
    have hlen := (normalForm_spec hsize h).2
    have hemit : emit size (render cs).reverse [0] = .ok ([0].reverse ++ (render cs).reverse) := by
      unfold emit
      rw [if_pos (by simpa using Nat.succ_le_of_lt hlen)]
    simp only [map_some, Except.bind, hemit, Except.map, reverse_reverse]

theorem pieces_render (hcs : ∀ c ∈ cs, Component c) : pieces slash (render cs) = cs := by
  unfold render
  by_cases hnil : cs = []
  · subst hnil
    rfl
  · rw [if_neg hnil]
    exact pieces_join fun c hc => (hcs c hc).clean

/-- Different components give different paths. -/
theorem render_inj (hcs : ∀ c ∈ cs, Component c) (hds : ∀ d ∈ ds, Component d)
    (h : render cs = render ds) : cs = ds := by
  rw [← pieces_render hcs, h, pieces_render hds]

theorem length_render_append (cs ds : List (List UInt8)) :
    (render cs).length ≤ (render (cs ++ ds)).length := by
  by_cases hnil : cs = []
  · subst hnil
    exact length_render_le _
  · unfold render
    rw [if_neg hnil, if_neg (by simp [hnil]), join_append, length_append]
    omega

theorem resolve_components (hcs : ∀ c ∈ cs, Component c)
    (hlen : (render (stack ++ cs)).length < size) : resolve size stack cs = some (stack ++ cs) := by
  induction cs generalizing stack with
  | nil => rw [resolve, append_nil]
  | cons c cs ih =>
    have hc := hcs c (by simp)
    rw [append_cons] at hlen ⊢
    have hfits : (render (stack ++ [c])).length < size :=
      Nat.lt_of_le_of_lt (length_render_append _ _) hlen
    rw [resolve, if_neg hc.notDot, if_neg hc.notDotDot, if_pos hfits]
    exact ih (fun d hd => hcs d (by simp [hd])) hlen

/-- A normalised path is its own normal form. -/
theorem normalForm_render (hcs : ∀ c ∈ cs, Component c) (hlen : (render cs).length < size) :
    normalForm size (render cs) = some cs := by
  unfold normalForm
  rw [pieces_render hcs]
  exact resolve_components hcs (show (render ([] ++ cs)).length < size from hlen)

/-- **`path_normalize` processes the components on a stack**: it stays inside the buffer,
it succeeds exactly when the stack fits behind every component, the path of the last
stack is what it leaves, and that path is left alone by another call. -/
theorem normalized_on_stack (hsize : 2 ≤ size) (input : List UInt8) :
    ∃ result, pathNormalize input size = .ok result ∧
      (result.isSome ↔
        ∀ k, (render (stackOf ((pieces slash input).take k))).length < size) ∧
      ∀ out, result = some out →
        out = render (stackOf (pieces slash input)) ∧ pathNormalize out size = .ok (some out) := by
  refine ⟨_, pathNormalize_eq hsize input, ?_, ?_⟩
  · have haccepted : (normalForm size input).isSome ↔ ∃ ds, normalForm size input = some ds :=
      isSome_iff_exists
    rw [isSome_map, haccepted]
    unfold normalForm
    simp only [resolve_eq_some_iff (show (render []).length < size from hsize), stackOf,
      exists_and_left, exists_eq', and_true]
  · intro out hout
    obtain ⟨cs, hcs, rfl⟩ := map_eq_some_iff.mp hout
    obtain ⟨hcomponents, hlen⟩ := normalForm_spec hsize hcs
    refine ⟨?_, ?_⟩
    · have hstack := ((resolve_eq_some_iff (show (render []).length < size from hsize)).mp hcs).2
      rw [← hstack, stackOf]
    · rw [pathNormalize_eq hsize, normalForm_render hcomponents hlen, map_some]

/-- `/a/./../b` in a buffer of three bytes. -/
theorem normalized_on_stack_three :
    2 ≤ 3 ∧ ∃ result, pathNormalize [47, 97, 47, 46, 47, 46, 46, 47, 98] 3 = .ok result ∧
      (result.isSome ↔ ∀ k,
        (render (stackOf ((pieces slash [47, 97, 47, 46, 47, 46, 46, 47, 98]).take k))).length <
          3) ∧
      ∀ out, result = some out →
        out = render (stackOf (pieces slash [47, 97, 47, 46, 47, 46, 46, 47, 98])) ∧
          pathNormalize out 3 = .ok (some out) :=
  ⟨by decide, normalized_on_stack (by decide) _⟩

end Nv0ken.Fs
