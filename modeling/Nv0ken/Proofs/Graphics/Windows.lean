/-
What the operations of the window manager do to its windows.

The surfaces aside, a manager is its windows, the id in focus and the next id: its `desk`.
Where no id occurs twice, each operation acts on the desk by changing the window with an id
(`Desk.update`) and by giving the focus to one (`Desk.focus`).  The order of the array, which
every change of focus sorts again, does not matter for that.
-/
import Nv0ken.Graphics.Wm.Wm
import Nv0ken.Lib.Keyed
import Nv0ken.Lib.Run

namespace Nv0ken.Graphics

open Word StableSort Keyed List

variable {wm : WindowManager} {id x y w h : Int} {f : Window → Window} {v : Window}
  {pre post : List Window} {d : Desk} {g : Nat → Window → WindowManager}

/-- The operations on a window manager. -/
inductive WmOp
  | create (owner : Option Nat) (x y w h : Int) (title : Option (List UInt8)) (flags : Int)
  | destroy (id : Int)
  | focus (id : Int)
  | minimize (id : Int)
  | restore (id : Int)
  | maximize (id : Int)
  | fullscreen (id : Int)
  | close (id : Int)
  | setTitle (id : Int) (title : Option (List UInt8))
  | resize (id w h : Int)
  | move (id x y : Int)
  | show (id : Int)
  | hide (id : Int)
  | raise (id : Int)
  | lower (id : Int)
  | mouseDown (x y : Int)
  | mouseUp
  | mouseMove (x y : Int)

def wmStep (wm : WindowManager) : WmOp → Option WindowManager
  | .create owner x y w h title flags => some (wmCreateWindow wm owner x y w h title flags).1
  | .destroy id => some (wmDestroyWindow wm id)
  | .focus id => some (wmFocusWindow wm id)
  | .minimize id => some (wmMinimizeWindow wm id)
  | .restore id => some (wmRestoreWindow wm id)
  | .maximize id => some (wmMaximizeWindow wm id)
  | .fullscreen id => some (wmFullscreenWindow wm id)
  | .close id => some (wmCloseWindow wm id)
  | .setTitle id title => some (wmSetTitle wm id title)
  | .resize id w h => some (wmResizeWindow wm id w h)
  | .move id x y => some (wmMoveWindow wm id x y)
  | .show id => some (wmShowWindow wm id)
  | .hide id => some (wmHideWindow wm id)
  | .raise id => some (wmRaiseWindow wm id)
  | .lower id => some (wmLowerWindow wm id)
  | .mouseDown x y => some (wmMouseDown wm x y)
  | .mouseUp => some (wmMouseUp wm)
  | .mouseMove x y => some (wmMouseMove wm x y)

/-! ### Desks -/

/-- The windows of a manager, without their surfaces. -/
structure Desk where
  windows : List Window
  focusedId : Int
  nextWinId : Int

def WindowManager.desk (wm : WindowManager) : Desk :=
  { windows := wm.windows, focusedId := wm.focusedId, nextWinId := wm.nextWinId }

/-- No id occurs twice. -/
def Desk.Distinct (d : Desk) : Prop := (d.windows.map Window.id).Nodup

/-- Whatever window has the id is changed. -/
def Desk.update (d : Desk) (id : Int) (f : Window → Window) : Desk :=
  { d with windows := Keyed.update Window.id id f d.windows }

def Desk.sorted (d : Desk) : Desk := { d with windows := sortBy Window.zOrder d.windows }

/-- There is a window with the id to give the focus to. -/
def Desk.Shows (d : Desk) (id : Int) : Prop := ∃ v ∈ d.windows, v.id = id ∧ v.visible = true

instance (d : Desk) : Decidable (d.Shows id) := by
  unfold Desk.Shows
  infer_instance

def Desk.noFocus (d : Desk) : Desk := { d with focusedId := -1 }

/-- Without the window that has the id. -/
def Desk.remove (d : Desk) (id : Int) : Desk :=
  { d with windows := d.windows.filter fun v => v.id ≠ id }

/-- With one window more, that took the next id. -/
def Desk.add (d : Desk) (v : Window) : Desk :=
  { d with windows := d.windows ++ [v], nextWinId := int32 (d.nextWinId + 1) }

def setFocused (id : Int) (v : Window) : Window := { v with focused := decide (v.id = id) }

/-- The focus goes to a window that is visible. -/
def Desk.focus (d : Desk) (id : Int) : Desk :=
  if d.Shows id then
    { d with
      windows := sortBy Window.zOrder (d.windows.map (setFocused id))
      focusedId := id }
  else d

@[simp] theorem onComp_desk (g : Compositor → Compositor) : (wm.onComp g).desk = wm.desk := rfl

@[simp] theorem noFocus_desk : wm.noFocus.desk = wm.desk.noFocus := rfl

@[simp] theorem sortWindowsByZ_desk : (sortWindowsByZ wm).desk = wm.desk.sorted := rfl

/-! ### A window in its slot -/

theorem findWindow_at (hat : At Window.id wm.windows id pre v post) :
    wmFindWindow wm id = some (pre.length, v) := by
  unfold wmFindWindow
  rw [hat.findIdx, Option.bind_some, hat.slot]
  rfl

/-- There is no such window, or it is found. -/
theorem findWindow_cases (wm : WindowManager) (id : Int) :
    (wmFindWindow wm id = none ∧ ∀ v ∈ wm.windows, v.id ≠ id) ∨
      ∃ pre v post, At Window.id wm.windows id pre v post := by
  rcases findIdx_cases Window.id wm.windows id with ⟨hnone, hne⟩ | hfound
  · refine Or.inl ⟨?_, hne⟩
    unfold wmFindWindow
    rw [hnone]
    rfl
  · exact Or.inr hfound

/-- An operation on the window with the id. -/
theorem found_cases {P : WindowManager → Prop} (hnone : (∀ v ∈ wm.windows, v.id ≠ id) → P wm)
    (hsome : ∀ pre v post, At Window.id wm.windows id pre v post → P (g pre.length v)) :
    P (match wmFindWindow wm id with
      | none => wm
      | some (slot, v) => g slot v) := by
  rcases findWindow_cases wm id with ⟨hfind, hne⟩ | ⟨pre, v, post, hat⟩
  · rw [hfind]
    exact hnone hne
  · rw [findWindow_at hat]
    exact hsome pre v post hat

theorem setWindow_at (hat : At Window.id wm.windows id pre v post) (hf : (f v).id = v.id) :
    At Window.id (wm.setWindow pre.length f).windows id pre (f v) post :=
  ⟨hat.modify f, hf.trans hat.named, hat.first⟩

theorem setWindow_desk (hids : wm.desk.Distinct) (hat : At Window.id wm.windows id pre v post) :
    (wm.setWindow pre.length f).desk = wm.desk.update id f := by
  unfold WindowManager.setWindow WindowManager.desk Desk.update
  rw [hat.modify_eq hids]

theorem update_absent (hne : ∀ v ∈ d.windows, v.id ≠ id) : d.update id f = d := by
  unfold Desk.update
  rw [update_of_forall_ne hne]

theorem update_update {g : Window → Window} (hf : ∀ v, (f v).id = v.id) :
    (d.update id f).update id g = d.update id fun v => g (f v) := by
  unfold Desk.update Keyed.update
  simp only [map_map]
  congr 1
  apply map_congr_left
  intro v _
  simp only [Function.comp_apply]
  by_cases hid : v.id = id
  · rw [if_pos hid, if_pos ((hf v).trans hid), if_pos hid]
  · rw [if_neg hid, if_neg hid, if_neg hid]

theorem update_congr {g : Window → Window} (heq : ∀ v ∈ d.windows, v.id = id → f v = g v) :
    d.update id f = d.update id g := by
  unfold Desk.update Keyed.update
  congr 1
  apply map_congr_left
  intro v hv
  by_cases hid : v.id = id
  · rw [if_pos hid, if_pos hid, heq v hv hid]
  · rw [if_neg hid, if_neg hid]

theorem update_self (heq : ∀ v ∈ d.windows, v.id = id → f v = v) : d.update id f = d := by
  have hid : d.update id (fun v => v) = d := by
    unfold Desk.update Keyed.update
    simp only [ite_self, map_id']
  rw [update_congr heq, hid]

theorem focus_absent (hne : ∀ v ∈ d.windows, v.id ≠ id) : d.focus id = d := by
  unfold Desk.focus
  rw [if_neg]
  intro hshows
  obtain ⟨v, hv, hid, -⟩ := hshows
  exact hne v hv hid

theorem update_distinct (hids : d.Distinct) (hf : ∀ v, (f v).id = v.id) :
    (d.update id f).Distinct := by
  unfold Desk.Distinct Desk.update
  rw [map_key_update hf]
  exact hids

theorem focus_distinct (hids : d.Distinct) : (d.focus id).Distinct := by
  unfold Desk.focus
  split
  · unfold Desk.Distinct
    rw [((sortBy_perm _).map Window.id).nodup_iff, map_map]
    exact hids
  · exact hids

variable {u : Window}

theorem mem_update (hu : u ∈ (d.update id f).windows) :
    ∃ v ∈ d.windows, u = if v.id = id then f v else v := by
  obtain ⟨v, hv, rfl⟩ := mem_map.mp hu
  exact ⟨v, hv, rfl⟩

/-- The other windows are as before. -/
theorem mem_update_of_ne (hf : ∀ v, (f v).id = v.id) (hne : u.id ≠ id) :
    u ∈ (d.update id f).windows ↔ u ∈ d.windows := by
  refine ⟨fun hu => ?_, fun hu => mem_map.mpr ⟨u, hu, if_neg hne⟩⟩
  obtain ⟨v, hv, rfl⟩ := mem_update hu
  by_cases hid : v.id = id
  · rw [if_pos hid, hf] at hne
    exact absurd hid hne
  · rwa [if_neg hid]

/-- A change of focus leaves everything but the flags. -/
theorem mem_focus (hu : u ∈ (d.focus id).windows) :
    ∃ v ∈ d.windows, ∃ focused, u = { v with focused := focused } := by
  unfold Desk.focus at hu
  split at hu
  · obtain ⟨v, hv, rfl⟩ := mem_map.mp ((sortBy_perm _).mem_iff.mp hu)
    exact ⟨v, hv, _, rfl⟩
  · exact ⟨u, hu, u.focused, rfl⟩

theorem focus_mem (hv : v ∈ d.windows) :
    ∃ focused, { v with focused := focused } ∈ (d.focus id).windows := by
  unfold Desk.focus
  split
  · exact ⟨_, (sortBy_perm _).mem_iff.mpr (mem_map_of_mem hv)⟩
  · exact ⟨v.focused, hv⟩

/-! ### The operations on desks -/

theorem blur_id (v : Window) : (blur id v).id = v.id := by
  unfold blur
  split <;> rfl

/-- The loop and the assignment after it, on an array split at the window. -/
theorem focusWindow_split (hat : At Window.id wm.windows id pre v post)
    (hvisible : v.visible = true) :
    (wmFocusWindow wm id).desk =
      { wm.desk with
        windows := sortBy Window.zOrder
          (pre.map (blur id) ++ { v with focused := true } :: post.map (blur id))
        focusedId := id } := by
  have hat' := hat.map (f := blur id) blur_id
  have hv : blur id v = v := by
    unfold blur
    rw [if_neg fun h => h.2 hat.named]
  have hmodify := hat'.modify fun w => { w with focused := true }
  rw [length_map, hv] at hmodify
  unfold wmFocusWindow
  rw [findWindow_at hat]
  simp only
  rw [if_neg (by simp [hvisible])]
  unfold sortWindowsByZ WindowManager.onComp WindowManager.setWindow WindowManager.desk
  simp only
  rw [hmodify]

theorem focusWindow_absent (hne : ∀ v ∈ wm.windows, v.id ≠ id) : wmFocusWindow wm id = wm := by
  rcases findWindow_cases wm id with ⟨hnone, -⟩ | ⟨pre, v, post, hat⟩
  · unfold wmFocusWindow
    rw [hnone]
  · exact absurd hat.named (hne v hat.mem)

theorem focusWindow_hidden (hat : At Window.id wm.windows id pre v post)
    (hhidden : v.visible = false) : wmFocusWindow wm id = wm := by
  unfold wmFocusWindow
  rw [findWindow_at hat]
  simp [hhidden]

/-- A change of focus changes no id. -/
theorem focusWindow_ids (wm : WindowManager) (id : Int) :
    ((wmFocusWindow wm id).windows.map Window.id).Perm (wm.windows.map Window.id) := by
  rcases findWindow_cases wm id with ⟨-, hne⟩ | ⟨pre, v, post, hat⟩
  · rw [focusWindow_absent hne]
  · cases hvisible : v.visible with
    | false => rw [focusWindow_hidden hat hvisible]
    | true =>
      have hwindows := congrArg Desk.windows (focusWindow_split hat hvisible)
      unfold WindowManager.desk at hwindows
      simp only at hwindows
      rw [hwindows]
      refine ((sortBy_perm _).map Window.id).trans (Perm.of_eq ?_)
      rw [hat.split, map_append, map_append, map_cons, map_cons,
        map_key_map blur_id, map_key_map blur_id]

theorem setTitle_some (title : List UInt8) : wmSetTitle wm id (some title) =
    match wmFindWindow wm id with
    | none => wm
    | some (slot, v) =>
      (wm.setWindow slot fun v => { v with title := title.take titleLength }).onComp
        fun c => compositorDamageSurface c v.frameSurfaceId := by
  unfold wmSetTitle
  cases wmFindWindow wm id <;> rfl

section

variable (hids : wm.desk.Distinct)
include hids

/-- **Focus.** -/
theorem focusWindow_desk : (wmFocusWindow wm id).desk = wm.desk.focus id := by
  rcases findWindow_cases wm id with ⟨-, hne⟩ | ⟨pre, v, post, hat⟩
  · rw [focus_absent hne, focusWindow_absent hne]
  cases hvisible : v.visible with
  | true =>
    have hshows : wm.desk.Shows id := ⟨v, hat.mem, hat.named, hvisible⟩
    have hblur (l : List Window) (hne : ∀ u ∈ l, u.id ≠ id) :
        l.map (blur id) = l.map (setFocused id) := by
      apply map_congr_left
      intro u hu
      unfold blur setFocused
      cases hfocused : u.focused with
      | true => simp [hne u hu]
      | false => simp [hne u hu, ← hfocused]
    have hv : setFocused id v = { v with focused := true } := by
      unfold setFocused
      rw [decide_eq_true hat.named]
    unfold Desk.focus
    rw [focusWindow_split hat hvisible, if_pos hshows, hblur pre hat.first,
      hblur post (hat.rest_ne hids), ← hv]
    unfold WindowManager.desk
    rw [hat.split, map_append, map_cons]
  | false =>
    have hhidden : ¬ wm.desk.Shows id := by
      intro hshows
      obtain ⟨u, hu, hid, hu'⟩ := hshows
      obtain rfl := inj_on_of_nodup_map hids hat.mem hu (hat.named.trans hid.symm)
      exact absurd (hvisible.symm.trans hu') Bool.false_ne_true
    unfold Desk.focus
    rw [if_neg hhidden, focusWindow_hidden hat hvisible]

/-- An operation that changes the window with the id. -/
theorem found_desk (hg : ∀ slot v, (g slot v).desk = (wm.setWindow slot f).desk) :
    (match wmFindWindow wm id with
      | none => wm
      | some (slot, v) => g slot v).desk = wm.desk.update id f := by
  refine found_cases (P := fun wm' => wm'.desk = wm.desk.update id f)
    (fun hne => (update_absent hne).symm) fun pre v post hat => ?_
  rw [hg, setWindow_desk hids hat]

theorem moveWindow_desk : (wmMoveWindow wm id x y).desk = wm.desk.update id fun v => moved v x y :=
  found_desk hids fun _ _ => rfl

theorem resizeWindow_desk :
    (wmResizeWindow wm id w h).desk = wm.desk.update id fun v => resized v w h :=
  found_desk hids fun _ _ => rfl

theorem hideWindow_desk :
    (wmHideWindow wm id).desk = wm.desk.update id fun v => { v with visible := false } :=
  found_desk hids fun _ _ => rfl

theorem setTitle_desk (title : List UInt8) :
    (wmSetTitle wm id (some title)).desk =
      wm.desk.update id fun v => { v with title := title.take titleLength } := by
  rw [setTitle_some]
  exact found_desk hids fun _ _ => rfl

end

theorem setTitle_none : wmSetTitle wm id none = wm := by
  unfold wmSetTitle
  split
  · rename_i htitle
    cases htitle
  · rfl

theorem showWindow_desk (hids : wm.desk.Distinct) :
    (wmShowWindow wm id).desk =
      (wm.desk.update id fun v => { v with visible := true }).focus id := by
  refine found_cases (P := fun wm' => wm'.desk = _) (fun hne => ?_) fun pre v post hat => ?_
  · rw [update_absent hne, focus_absent hne]
  · have hdesk := setWindow_desk (f := fun v => { v with visible := true }) hids hat
    rw [focusWindow_desk, onComp_desk, hdesk]
    rw [onComp_desk, hdesk]
    exact update_distinct hids fun _ => rfl

/-- With one id, there is one window to look at. -/
theorem at_unique (hids : wm.desk.Distinct) (hat : At Window.id wm.windows id pre v post) :
    ∀ u ∈ wm.desk.windows, u.id = id → u = v :=
  fun _ hu hid => inj_on_of_nodup_map hids hu hat.mem (hid.trans hat.named.symm)

/-- A window that fills the screen, back in its place. -/
def unspread (v : Window) : Window :=
  if v.state = .maximized ∨ v.state = .fullscreen then atRestore v else v

theorem unspread_id (v : Window) : (unspread v).id = v.id := by
  unfold unspread
  split <;> rfl

/-- A window as it is restored. -/
def restored (v : Window) : Window := { unspread v with state := .normal, visible := true }

section

variable (hids : wm.desk.Distinct)
include hids

theorem restoreWindow_desk :
    (wmRestoreWindow wm id).desk = (wm.desk.update id restored).focus id := by
  refine found_cases (P := fun wm' => wm'.desk = _) (fun hne => ?_) fun pre v post hat => ?_
  · rw [update_absent hne, focus_absent hne]
  · simp only
    -- the first half puts the window back if it fills the screen
    generalize hfirst : (if v.state = .maximized ∨ v.state = .fullscreen then
      (wm.setWindow pre.length atRestore).onComp (placeSurfaces (atRestore v)) else wm) = wm'
    have hback : wm'.desk = wm.desk.update id unspread ∧
        At Window.id wm'.windows id pre (unspread v) post := by
      by_cases hstate : v.state = .maximized ∨ v.state = .fullscreen
      · rw [if_pos hstate] at hfirst
        have hv : unspread v = atRestore v := if_pos hstate
        rw [← hfirst, onComp_desk, setWindow_desk hids hat, hv]
        refine ⟨update_congr fun u hu hid => ?_, setWindow_at hat rfl⟩
        rw [at_unique hids hat u hu hid, hv]
      · rw [if_neg hstate] at hfirst
        have hv : unspread v = v := if_neg hstate
        rw [← hfirst, hv]
        refine ⟨(update_self fun u hu hid => ?_).symm, hat⟩
        rw [at_unique hids hat u hu hid, hv]
    obtain ⟨hdesk, hat'⟩ := hback
    have hids' : wm'.desk.Distinct := by
      rw [hdesk]
      exact update_distinct hids unspread_id
    have hnext :=
      setWindow_desk (f := fun v => { v with state := .normal, visible := true }) hids' hat'
    rw [focusWindow_desk, onComp_desk, hnext, hdesk, update_update unspread_id]
    · rfl
    · rw [onComp_desk, hnext]
      exact update_distinct hids' fun _ => rfl

/-- An operation that restores a window already in the state it leads to. -/
theorem toggle_desk {state : WindowState} {g : Window → Compositor → Compositor} :
    let wm' := match wmFindWindow wm id with
      | none => wm
      | some (slot, v) =>
        if v.state = state then wmRestoreWindow wm id else (wm.setWindow slot f).onComp (g v)
    wm' = wmRestoreWindow wm id ∨
      (wm'.desk = wm.desk.update id f ∧ ∀ v ∈ wm.windows, v.id = id → v.state ≠ state) := by
  refine found_cases (P := fun wm' =>
    wm' = wmRestoreWindow wm id ∨
      (wm'.desk = wm.desk.update id f ∧ ∀ v ∈ wm.windows, v.id = id → v.state ≠ state))
    (fun hne => ?_) fun pre v post hat => ?_
  · exact Or.inr ⟨(update_absent hne).symm, fun v hv hid => absurd hid (hne v hv)⟩
  · by_cases hstate : v.state = state
    · exact Or.inl (if_pos hstate)
    · rw [if_neg hstate]
      refine Or.inr ⟨?_, fun u hu hid => ?_⟩
      · rw [onComp_desk, setWindow_desk hids hat]
      · rw [at_unique hids hat u hu hid]
        exact hstate

theorem maximizeWindow_desk :
    wmMaximizeWindow wm id = wmRestoreWindow wm id ∨
      ((wmMaximizeWindow wm id).desk = wm.desk.update id (fun v =>
          spread v wm.screenW (int32 (wm.screenH - wm.taskbarH)) .maximized) ∧
        ∀ v ∈ wm.windows, v.id = id → v.state ≠ .maximized) :=
  toggle_desk hids

theorem fullscreenWindow_desk :
    wmFullscreenWindow wm id = wmRestoreWindow wm id ∨
      ((wmFullscreenWindow wm id).desk = wm.desk.update id (fun v =>
          spread v wm.screenW wm.screenH .fullscreen) ∧
        ∀ v ∈ wm.windows, v.id = id → v.state ≠ .fullscreen) :=
  toggle_desk hids

end

def minimized (v : Window) : Window := { v with state := .minimized, visible := false }

/-- **Minimising.**  If the window has the focus it goes to another that is visible, and if
there is none to no window. -/
theorem minimizeWindow_desk (hids : wm.desk.Distinct) (hv : v ∈ wm.windows) (hid : v.id = id) :
    let d := wm.desk.update id minimized
    (wm.focusedId ≠ id → (wmMinimizeWindow wm id).desk = d) ∧
      (wm.focusedId = id →
        (∃ u ∈ d.windows, u.visible = true ∧ u.id ≠ id ∧
            (wmMinimizeWindow wm id).desk = d.noFocus.focus u.id) ∨
          ((∀ u ∈ d.windows, ¬ (u.visible = true ∧ u.id ≠ id)) ∧
            (wmMinimizeWindow wm id).desk = d.noFocus)) := by
  intro d
  subst hid
  obtain ⟨pre, post, hat⟩ := exists_at hv hids
  have hdesk : (wm.setWindow pre.length minimized).desk = d := setWindow_desk hids hat
  have hids' : d.Distinct := update_distinct hids fun _ => rfl
  unfold wmMinimizeWindow
  rw [findWindow_at hat]
  simp only
  generalize hwm' : ((wm.setWindow pre.length fun w =>
    { w with state := .minimized, visible := false }).onComp fun c =>
      compositorHideSurface (compositorHideSurface c v.frameSurfaceId) v.compSurfaceId) = wm'
  have hdesk' : wm'.desk = d := by
    rw [← hwm']
    exact hdesk
  have hfocus : wm'.focusedId = wm.focusedId := by rw [← hwm']; rfl
  rw [hfocus]
  refine ⟨fun hne => ?_, fun heq => ?_⟩
  · rw [if_neg hne, hdesk']
  rw [if_pos heq]
  split
  · rename_i hfind
    refine Or.inr ⟨fun u hu => ?_, ?_⟩
    · rw [← hdesk'] at hu
      simpa using find?_eq_none.mp hfind u (mem_reverse.mpr hu)
    · rw [noFocus_desk, hdesk']
  · rename_i u hfind
    have hmem : u ∈ wm'.windows := mem_reverse.mp (mem_of_find?_eq_some hfind)
    have hu : u.visible = true ∧ u.id ≠ v.id := by simpa using find?_some hfind
    refine Or.inl ⟨u, ?_, hu.1, hu.2, ?_⟩
    · rw [← hdesk']
      exact hmem
    · rw [focusWindow_desk, noFocus_desk, hdesk']
      rw [noFocus_desk, hdesk']
      exact hids'

theorem minimizeWindow_absent (hnone : wmFindWindow wm id = none) :
    wmMinimizeWindow wm id = wm := by
  unfold wmMinimizeWindow
  rw [hnone]

/-- What a minimised window and any choice of focus leave alone, minimising leaves alone. -/
theorem minimizeWindow_keeps {P : Desk → Prop} (hids : wm.desk.Distinct) (hsame : P wm.desk)
    (hmin : P (wm.desk.update id minimized)) (hnoFocus : ∀ d : Desk, P d → P d.noFocus)
    (hfocus : ∀ (d : Desk) (i : Int), P d → P (d.focus i)) : P (wmMinimizeWindow wm id).desk := by
  rcases findWindow_cases wm id with ⟨hnone, -⟩ | ⟨pre, v, post, hat⟩
  · rw [minimizeWindow_absent hnone]
    exact hsame
  obtain ⟨hother, hfocused⟩ := minimizeWindow_desk hids hat.mem hat.named
  by_cases heq : wm.focusedId = id
  · rcases hfocused heq with ⟨u, -, -, -, hdesk⟩ | ⟨-, hdesk⟩
    · rw [hdesk]
      exact hfocus _ _ (hnoFocus _ hmin)
    · rw [hdesk]
      exact hnoFocus _ hmin
  · rw [hother heq]
    exact hmin

theorem remove_distinct (hids : d.Distinct) : (d.remove id).Distinct :=
  Nodup.sublist (filter_sublist.map Window.id) hids

/-- **Destruction.**  A focus that is lost goes to the last window, if that is visible. -/
theorem destroyWindow_desk (hids : wm.desk.Distinct) (hv : v ∈ wm.windows) (hid : v.id = id) :
    (wm.focusedId ≠ id → (wmDestroyWindow wm id).desk = wm.desk.remove id) ∧
      (wm.focusedId = id →
        ∃ next, (wmDestroyWindow wm id).desk = (wm.desk.remove id).noFocus.focus next) := by
  subst hid
  obtain ⟨pre, post, hat⟩ := exists_at hv hids
  have hremove : wm.windows.eraseIdx pre.length = (wm.desk.remove v.id).windows := by
    have hrest := hat.rest_ne hids
    unfold Desk.remove WindowManager.desk
    rw [hat.eraseIdx, hat.split, filter_append, filter_cons_of_neg (by simp),
      filter_eq_self.mpr (by simpa using hat.first), filter_eq_self.mpr (by simpa using hrest)]
  unfold wmDestroyWindow
  rw [findWindow_at hat]
  simp only
  generalize hwm' : ({ wm.onComp (destroySurfaces v) with
    windows := (wm.onComp (destroySurfaces v)).windows.eraseIdx pre.length } : WindowManager) = wm'
  have hdesk : wm'.desk = wm.desk.remove v.id := by
    rw [← hwm']
    unfold Desk.remove WindowManager.desk
    congr 1
  have hfocus : (wm.onComp (destroySurfaces v)).focusedId = wm.focusedId := rfl
  rw [hfocus]
  refine ⟨fun hne => ?_, fun heq => ?_⟩
  · rw [if_neg hne, hdesk]
  rw [if_pos heq]
  have hids' : wm'.noFocus.desk.Distinct := by
    rw [noFocus_desk, hdesk]
    exact remove_distinct hids
  split
  · rename_i hlast
    have hempty : wm'.desk.windows = [] := getLast?_eq_none_iff.mp hlast
    refine ⟨0, ?_⟩
    rw [noFocus_desk, ← hdesk, focus_absent]
    intro u hu
    unfold Desk.noFocus at hu
    rw [hempty] at hu
    cases hu
  · rename_i u hlast
    refine ⟨u.id, ?_⟩
    rw [focusWindow_desk hids', noFocus_desk, hdesk]

theorem destroyWindow_absent (hnone : wmFindWindow wm id = none) : wmDestroyWindow wm id = wm := by
  unfold wmDestroyWindow
  rw [hnone]

/-- A place in the stack was changed. -/
def Restacked (wm : WindowManager) (id : Int) (wm' : WindowManager) : Prop :=
  wm'.desk = wm.desk ∨ ∃ z, wm'.desk = (wm.desk.update id fun v => { v with zOrder := z }).sorted

theorem lowerWindow_desk (hids : wm.desk.Distinct) : Restacked wm id (wmLowerWindow wm id) := by
  refine found_cases (P := Restacked wm id) (fun _ => .inl rfl) fun pre v post hat => ?_
  refine .inr ⟨if v.zOrder > 0 then v.zOrder - 1 else v.zOrder, ?_⟩
  simp only [sortWindowsByZ_desk]
  rw [setWindow_desk hids hat]
  congr 1
  refine update_congr fun u hu hid => ?_
  rw [at_unique hids hat u hu hid]
  split <;> rfl

theorem raiseWindow_desk (hids : wm.desk.Distinct) : Restacked wm id (wmRaiseWindow wm id) := by
  refine found_cases (P := Restacked wm id) (fun _ => .inl rfl) fun pre v post hat => ?_
  refine .inr ⟨int32 (maxWindowZ wm.windows + 1), ?_⟩
  rw [← setWindow_desk hids hat]
  simp only
  split <;> rfl

/-- Placing a window moves nothing but the cascade on. -/
theorem placeWindow_eq (wm : WindowManager) (x y w h : Int) : ∃ cx cy px py,
    placeWindow wm x y w h = ({ wm with nextCascadeX := cx, nextCascadeY := cy }, px, py) := by
  unfold placeWindow cascadePosition
  simp only
  split
  · split <;> exact ⟨_, _, _, _, rfl⟩
  · exact ⟨_, _, _, _, rfl⟩

theorem addWindow_desk (wm : WindowManager) (v : Window) : ∃ frame client,
    (addWindow wm v).desk =
      wm.desk.add { v with frameSurfaceId := frame, compSurfaceId := client } := by
  unfold addWindow
  cases wm.comp with
  | none => exact ⟨v.frameSurfaceId, v.compSurfaceId, rfl⟩
  | some c => exact ⟨_, _, rfl⟩

theorem add_distinct (hids : d.Distinct) (hfresh : ∀ u ∈ d.windows, u.id ≠ v.id) :
    (d.add v).Distinct := by
  unfold Desk.Distinct Desk.add
  rw [map_append, nodup_append]
  refine ⟨hids, nodup_singleton _, ?_⟩
  intro i hi j hj heq
  obtain ⟨u, hu, rfl⟩ := mem_map.mp hi
  rw [map_singleton, mem_singleton] at hj
  exact hfresh u hu (heq.trans hj)

/-- **Creation.**  The new window is put behind the others and then gets the focus. -/
theorem createWindow_eq (owner : Option Nat) (x y w h : Int) (title : Option (List UInt8))
    (flags : Int) (hroom : wm.windows.length < maxWindows) :
    ∃ (wm' : WindowManager) (v : Window), v.id = wm.nextWinId ∧ v.visible = true ∧
      v.state = .normal ∧ v.zOrder = 100 + (wm.windows.length + 1) ∧
      v.title = (title.getD []).take titleLength ∧
      v.w = (if w < minWidth then minWidth else w) ∧
      v.h = (if h < minHeight then minHeight else h) ∧
      (v.x, v.y) = (placeWindow wm x y v.w v.h).2 ∧ wm'.desk = wm.desk.add v ∧
        wmCreateWindow wm owner x y w h title flags =
          (sortWindowsByZ (wmFocusWindow wm' v.id), some wm.windows.length) := by
  unfold wmCreateWindow
  rw [if_neg (Nat.not_le.mpr hroom)]
  simp only
  generalize (if w < minWidth then minWidth else w) = w'
  generalize (if h < minHeight then minHeight else h) = h'
  obtain ⟨cx, cy, px, py, hplace⟩ := placeWindow_eq wm x y w' h'
  rw [hplace]
  simp only
  generalize hwm' : ({ wm with nextCascadeX := cx, nextCascadeY := cy } : WindowManager) = wm'
  have hdesk : wm'.desk = wm.desk := by
    rw [← hwm']
    rfl
  have hwindows : wm'.windows = wm.windows := congrArg Desk.windows hdesk
  have hnext : wm'.nextWinId = wm.nextWinId := congrArg Desk.nextWinId hdesk
  generalize hv : newWindow wm' owner px py w' h' title flags = v
  obtain ⟨frame, client, hadd⟩ := addWindow_desk wm' v
  rw [hdesk] at hadd
  refine ⟨addWindow wm' v, { v with frameSurfaceId := frame, compSurfaceId := client },
    ?_, ?_, ?_, ?_, ?_, ?_, ?_, ?_, hadd, rfl⟩
  · rw [← hv, ← hnext]
    rfl
  · rw [← hv]
    rfl
  · rw [← hv]
    rfl
  · rw [← hv, ← hwindows]
    rfl
  · rw [← hv]
    rfl
  · rw [← hv]
    rfl
  · rw [← hv]
    rfl
  · rw [← hv]
    exact (congrArg Prod.snd hplace).symm

/-! ### The mouse -/

/-- The managers differ in what they know about the mouse only. -/
structure SameScene (wm wm' : WindowManager) : Prop where
  desk : wm'.desk = wm.desk
  comp : wm'.comp = wm.comp
  screenW : wm'.screenW = wm.screenW
  screenH : wm'.screenH = wm.screenH
  taskbarH : wm'.taskbarH = wm.taskbarH

/-- What the operations behind a drag keep. -/
structure KeptByDrag (K : WindowManager → Prop) : Prop where
  same : ∀ {wm wm'}, K wm → SameScene wm wm' → K wm'
  move : ∀ {wm} id x y, K wm → K (wmMoveWindow wm id x y)
  resize : ∀ {wm} id w h, K wm → K (wmResizeWindow wm id w h)
  restore : ∀ {wm} id, K wm → K (wmRestoreWindow wm id)
  maximize : ∀ {wm} id, K wm → K (wmMaximizeWindow wm id)

/-- What also the operations behind a click keep. -/
structure KeptByClick (K : WindowManager → Prop) : Prop extends KeptByDrag K where
  focus : ∀ {wm} id, K wm → K (wmFocusWindow wm id)
  close : ∀ {wm} id, K wm → K (wmCloseWindow wm id)
  minimize : ∀ {wm} id, K wm → K (wmMinimizeWindow wm id)

section
variable {K : WindowManager → Prop}

theorem KeptByDrag.mouseUp (hkept : KeptByDrag K) (h : K wm) : K (wmMouseUp wm) := by
  have hsnap (v : Window) : K (snapToPreview wm v) := by
    unfold snapToPreview
    simp only
    split
    · exact hkept.resize _ _ _ (hkept.move _ _ _ h)
    · exact hkept.move _ _ _ h
  unfold wmMouseUp
  split
  · split
    · exact hkept.same h ⟨rfl, rfl, rfl, rfl, rfl⟩
    · split
      · exact hkept.same (hsnap _) ⟨rfl, rfl, rfl, rfl, rfl⟩
      · exact hkept.same h ⟨rfl, rfl, rfl, rfl, rfl⟩
  · exact hkept.same h ⟨rfl, rfl, rfl, rfl, rfl⟩

theorem KeptByDrag.dragMove (hkept : KeptByDrag K) (h : K wm) (v : Window) :
    K (dragMove wm x y v) := by
  unfold Graphics.dragMove
  simp only
  have hfirst : K (if v.state = .maximized then wmRestoreWindow wm wm.dragWinId else wm) := by
    split
    · exact hkept.restore _ h
    · exact h
  generalize (if v.state = .maximized then wmRestoreWindow wm wm.dragWinId else wm) =
    wm' at hfirst ⊢
  have hnext : K { wm' with snapPreviewActive := false } :=
    hkept.same hfirst ⟨rfl, rfl, rfl, rfl, rfl⟩
  split
  · exact hkept.same hfirst ⟨rfl, rfl, rfl, rfl, rfl⟩
  · split
    · exact hkept.same hfirst ⟨rfl, rfl, rfl, rfl, rfl⟩
    · split
      · exact hkept.same (hkept.maximize _ hnext) ⟨rfl, rfl, rfl, rfl, rfl⟩
      · exact hkept.move _ _ _ hnext

theorem KeptByDrag.mouseMove (hkept : KeptByDrag K) (h : K wm) : K (wmMouseMove wm x y) := by
  unfold wmMouseMove
  split
  · split
    · exact h
    · split
      · exact h
      · exact hkept.dragMove h _
      · unfold dragResize
        exact hkept.resize _ _ _ (hkept.move _ _ _ h)
  · exact h

theorem KeptByClick.mouseDown (hkept : KeptByClick K) (h : K wm) : K (wmMouseDown wm x y) := by
  unfold wmMouseDown
  simp only
  have hfirst : K (if (wmHitTest wm x y).2 > 0 ∧ (wmHitTest wm x y).2 ≠ wm.focusedId then
      wmFocusWindow wm (wmHitTest wm x y).2 else wm) := by
    split
    · exact hkept.focus _ h
    · exact h
  split
  · exact hfirst
  · split
    · exact hkept.close _ hfirst
    · exact hkept.maximize _ hfirst
    · exact hkept.minimize _ hfirst
    · exact hkept.same hfirst ⟨rfl, rfl, rfl, rfl, rfl⟩
    · exact hfirst
    · exact hfirst
    all_goals exact hkept.same hfirst ⟨rfl, rfl, rfl, rfl, rfl⟩

end

/-! ### Ids -/

/-- The ids are distinct and positive, and they were handed out before. -/
structure DeskIds (d : Desk) : Prop where
  distinct : d.Distinct
  range : ∀ v ∈ d.windows, 1 ≤ v.id ∧ v.id < d.nextWinId
  next : 1 ≤ d.nextWinId

section
variable {d : Desk}

/-- The ids alone decide. -/
theorem DeskIds.of_sub {d' : Desk} (h : DeskIds d) (hnext : d'.nextWinId = d.nextWinId)
    (hsub : d'.windows.map Window.id <+~ d.windows.map Window.id) : DeskIds d' := by
  have hsub' := hsub.subset
  obtain ⟨ids, hperm, hids⟩ := hsub
  refine ⟨hperm.nodup_iff.mp (h.distinct.sublist hids), fun v hv => ?_, hnext ▸ h.next⟩
  obtain ⟨u, hu, heq⟩ := mem_map.mp (hsub' (mem_map_of_mem hv))
  rw [← heq, hnext]
  exact h.range u hu

theorem ids_sorted (h : DeskIds d) : DeskIds d.sorted :=
  h.of_sub rfl ((sortBy_perm _).map _).subperm

theorem ids_update (h : DeskIds d) (hf : ∀ v, (f v).id = v.id) : DeskIds (d.update id f) :=
  h.of_sub rfl (Perm.subperm (.of_eq (map_key_update hf)))

theorem ids_focus (h : DeskIds d) : DeskIds (d.focus id) := by
  unfold Desk.focus
  split
  · refine h.of_sub rfl (Perm.subperm (((sortBy_perm _).map _).trans (.of_eq ?_)))
    exact map_key_map fun _ => rfl
  · exact h

theorem ids_remove (h : DeskIds d) : DeskIds (d.remove id) :=
  h.of_sub rfl (filter_sublist.map _).subperm

theorem ids_noFocus (h : DeskIds d) : DeskIds d.noFocus := ⟨h.distinct, h.range, h.next⟩

theorem ids_add (h : DeskIds d) (hid : v.id = d.nextWinId) (hnext : d.nextWinId < 2 ^ 31 - 1) :
    DeskIds (d.add v) := by
  have hpos := h.next
  have hcount : (d.add v).nextWinId = d.nextWinId + 1 :=
    int32_of_range (n := d.nextWinId + 1) (by omega) (by omega)
  refine ⟨add_distinct h.distinct fun u hu => ?_, fun u hu => ?_, by omega⟩
  · have hrange := h.range u hu
    omega
  · rcases mem_append.mp hu with hu | hu
    · have hrange := h.range u hu
      omega
    · rw [mem_singleton.mp hu]
      omega

end

theorem ids_new (comp : Option Compositor) (screenW screenH : Int) :
    DeskIds (wmNew comp screenW screenH).desk :=
  ⟨nodup_nil, fun _ hv => absurd hv not_mem_nil, le_refl 1⟩

end Nv0ken.Graphics
