/-
The window in focus.

Which window has the focus is kept twice: as an id in the manager and as a flag on the
windows.  Giving the focus to a window that is visible brings the two into agreement,
whatever was there before.  They part when the focus is taken away and not given on: when the
window in focus is hidden, or minimised with no other window visible.  And a minimised
window that is shown has the focus while it stays minimised.
-/
import Nv0ken.Proofs.Graphics.Windows

namespace Nv0ken.Graphics

open Run Word StableSort Keyed List Option

variable {wm wm' : WindowManager} {d : Desk} {id i x y w h : Int} {u v : Window}
  {f : Window → Window}

/-- The window in focus exists, can be seen, and is the only one with the flag; if there is
none, no window has the flag. -/
def FocusOk (d : Desk) : Prop :=
  (d.focusedId ≠ -1 →
    (∃ v ∈ d.windows, v.id = d.focusedId ∧ v.visible = true ∧ v.state ≠ .minimized) ∧
      ∀ v ∈ d.windows, (v.focused = true ↔ v.id = d.focusedId)) ∧
  (d.focusedId = -1 → ∀ v ∈ d.windows, v.focused = false)

instance : Decidable (FocusOk d) := by
  unfold FocusOk
  infer_instance

/-- What is visible is not minimised. -/
structure DeskInv (d : Desk) : Prop extends DeskIds d where
  shown : ∀ v ∈ d.windows, v.visible = true → v.state ≠ .minimized

/-- There is a visible window other than this one. -/
def OtherVisible (wm : WindowManager) (id : Int) : Prop :=
  ∃ u ∈ wm.windows, u.visible = true ∧ u.id ≠ id

instance : Decidable (OtherVisible wm id) := by
  unfold OtherVisible
  infer_instance

/-- The window in focus is not hidden, and it is only minimised when there is another to give
the focus to; a minimised window is restored, not shown. -/
def FocusSafe (wm : WindowManager) : WmOp → Prop
  | .hide id => ∀ v ∈ wm.windows, v.id = id → wm.focusedId ≠ id
  | .minimize id => ∀ v ∈ wm.windows, v.id = id → wm.focusedId = id → OtherVisible wm id
  | .show id => ∀ v ∈ wm.windows, v.id = id → v.state ≠ .minimized
  | .mouseDown x y => (wmHitTest wm x y).1 = .minimize → OtherVisible wm (wmHitTest wm x y).2
  | _ => True

/-! ### Desks that differ little -/

/-- A change that is of no concern for the focus. -/
def Quiet (f : Window → Window) : Prop :=
  ∀ v, (f v).id = v.id ∧ (f v).visible = v.visible ∧ (f v).focused = v.focused ∧
    ((f v).state = .minimized → v.state = .minimized)

theorem inv_sorted (h : DeskInv d) : DeskInv d.sorted :=
  ⟨ids_sorted h.toDeskIds, fun v hv => h.shown v ((sortBy_perm _).mem_iff.mp hv)⟩

theorem focusOk_sorted : FocusOk d.sorted ↔ FocusOk d := by
  have hmem (v : Window) : v ∈ d.sorted.windows ↔ v ∈ d.windows := (sortBy_perm _).mem_iff
  have hfocus : d.sorted.focusedId = d.focusedId := rfl
  unfold FocusOk
  simp only [hmem, hfocus]

theorem inv_update (h : DeskInv d) (hf : ∀ v, (f v).id = v.id)
    (hshown : ∀ v ∈ d.windows, v.id = id → (f v).visible = true → (f v).state ≠ .minimized) :
    DeskInv (d.update id f) := by
  refine ⟨ids_update h.toDeskIds hf, fun u hu => ?_⟩
  obtain ⟨v, hv, rfl⟩ := mem_update hu
  by_cases hid : v.id = id
  · rw [if_pos hid]
    exact hshown v hv hid
  · rw [if_neg hid]
    exact h.shown v hv

theorem inv_quiet (h : DeskInv d) (hf : Quiet f) : DeskInv (d.update id f) := by
  refine inv_update h (fun v => (hf v).1) fun v hv _ hvisible hstate => ?_
  rw [(hf v).2.1] at hvisible
  exact h.shown v hv hvisible ((hf v).2.2.2 hstate)

/-- A change that leaves ids and flags alone, and does not take the window in focus out of
sight. -/
theorem focusOk_update (hok : FocusOk d) (hf : ∀ v, (f v).id = v.id ∧ (f v).focused = v.focused)
    (hseen : ∀ v, v.id = d.focusedId → v.id = id → v.visible = true → v.state ≠ .minimized →
      (f v).visible = true ∧ (f v).state ≠ .minimized) : FocusOk (d.update id f) := by
  have hmem (u : Window) (hu : u ∈ (d.update id f).windows) :
      ∃ v ∈ d.windows, u.id = v.id ∧ u.focused = v.focused := by
    obtain ⟨v, hv, rfl⟩ := mem_update hu
    refine ⟨v, hv, ?_⟩
    split
    · exact hf v
    · exact ⟨rfl, rfl⟩
  refine ⟨fun hsome => ?_, fun hnone u hu => ?_⟩
  · obtain ⟨⟨v, hv, hid, hvisible, hstate⟩, hflags⟩ := hok.1 hsome
    refine ⟨⟨_, mem_map_of_mem hv, ?_⟩, fun u hu => ?_⟩
    · split
      · rename_i hv'
        exact ⟨(hf v).1.trans hid, hseen v hid hv' hvisible hstate⟩
      · exact ⟨hid, hvisible, hstate⟩
    · obtain ⟨v, hv, hid, hfocused⟩ := hmem u hu
      rw [hid, hfocused]
      exact hflags v hv
  · obtain ⟨v, hv, -, hfocused⟩ := hmem u hu
    rw [hfocused]
    exact hok.2 hnone v hv

theorem focusOk_quiet (h : FocusOk d) (hf : Quiet f) : FocusOk (d.update id f) := by
  refine focusOk_update h (fun v => ⟨(hf v).1, (hf v).2.2.1⟩) ?_
  intro v _ _ hvisible hstate
  obtain ⟨-, hfvisible, -, hfstate⟩ := hf v
  exact ⟨hfvisible.trans hvisible, fun hmin => hstate (hfstate hmin)⟩

/-! ### Giving the focus -/

theorem inv_focus (h : DeskInv d) : DeskInv (d.focus i) := by
  refine ⟨ids_focus h.toDeskIds, fun u hu => ?_⟩
  obtain ⟨v, hv, focused, rfl⟩ := mem_focus hu
  exact h.shown v hv

/-- **A visible window gets the focus**, whatever had it before. -/
theorem focusOk_focus (h : DeskInv d) (hshows : d.Shows i) : FocusOk (d.focus i) := by
  obtain ⟨v, hv, hid, hvisible⟩ := hshows
  have hmem (u : Window) : u ∈ (d.focus i).windows ↔ ∃ v ∈ d.windows, setFocused i v = u := by
    unfold Desk.focus
    rw [if_pos ⟨v, hv, hid, hvisible⟩]
    exact (sortBy_perm _).mem_iff.trans mem_map
  have hfocus : (d.focus i).focusedId = i := by
    unfold Desk.focus
    rw [if_pos ⟨v, hv, hid, hvisible⟩]
  have hpos := (h.range v hv).1
  refine ⟨fun _ => ⟨⟨setFocused i v, (hmem _).mpr ⟨v, hv, rfl⟩, ?_⟩, fun u hu => ?_⟩,
    fun hnone => ?_⟩
  · rw [hfocus]
    exact ⟨hid, hvisible, h.shown v hv hvisible⟩
  · obtain ⟨v, hv, rfl⟩ := (hmem u).mp hu
    rw [hfocus]
    exact decide_eq_true_iff
  · omega

/-- The managers in agreement. -/
def Good (wm : WindowManager) : Prop := DeskInv wm.desk ∧ FocusOk wm.desk

theorem good_focus_desk (h : DeskInv d) (hok : FocusOk d) :
    DeskInv (d.focus i) ∧ FocusOk (d.focus i) := by
  refine ⟨inv_focus h, ?_⟩
  by_cases hshows : d.Shows i
  · exact focusOk_focus h hshows
  · unfold Desk.focus
    rwa [if_neg hshows]

theorem good_focus (h : Good wm) : Good (wmFocusWindow wm i) := by
  unfold Good
  rw [focusWindow_desk h.1.distinct]
  exact good_focus_desk h.1 h.2

theorem good_quiet (h : Good wm) (hdesk : wm'.desk = wm.desk.update id f) (hf : Quiet f) :
    Good wm' := by
  unfold Good
  rw [hdesk]
  exact ⟨inv_quiet h.1 hf, focusOk_quiet h.2 hf⟩

theorem good_restack (h : Good wm) (hdesk : Restacked wm id wm') : Good wm' := by
  have hquiet (z : Int) : Quiet fun v => { v with zOrder := z } :=
    fun v => ⟨rfl, rfl, rfl, fun h => h⟩
  unfold Good
  rcases hdesk with hdesk | ⟨z, hdesk⟩
  · rw [hdesk]
    exact h
  · rw [hdesk]
    exact ⟨inv_sorted (inv_quiet h.1 (hquiet z)), focusOk_sorted.mpr (focusOk_quiet h.2 (hquiet z))⟩

section

variable (hgood : Good wm)
include hgood

theorem good_move : Good (wmMoveWindow wm id x y) :=
  good_quiet hgood (moveWindow_desk hgood.1.distinct) fun _ => ⟨rfl, rfl, rfl, fun h => h⟩

theorem good_resize : Good (wmResizeWindow wm id w h) :=
  good_quiet hgood (resizeWindow_desk hgood.1.distinct) fun _ => ⟨rfl, rfl, rfl, fun h => h⟩

theorem good_setTitle (title : Option (List UInt8)) : Good (wmSetTitle wm id title) := by
  cases title with
  | none =>
    rw [setTitle_none]
    exact hgood
  | some title =>
    exact good_quiet hgood (setTitle_desk hgood.1.distinct title) fun _ =>
      ⟨rfl, rfl, rfl, fun h => h⟩

/-- A window made visible and given the focus. -/
theorem good_shown (hdesk : wm'.desk = (wm.desk.update id f).focus id)
    (hf : ∀ v, (f v).id = v.id ∧ (f v).visible = true)
    (hstate : ∀ v ∈ wm.windows, v.id = id → (f v).state ≠ .minimized) : Good wm' := by
  have hinv : DeskInv (wm.desk.update id f) :=
    inv_update hgood.1 (fun v => (hf v).1) fun v hv hid _ => hstate v hv hid
  unfold Good
  rw [hdesk]
  by_cases hfound : ∃ v ∈ wm.windows, v.id = id
  · obtain ⟨v, hv, hid⟩ := hfound
    have hshows : (wm.desk.update id f).Shows id := by
      refine ⟨f v, mem_map.mpr ⟨v, hv, if_pos hid⟩, (hf v).1.trans hid, (hf v).2⟩
    exact ⟨inv_focus hinv, focusOk_focus hinv hshows⟩
  · have hne : ∀ v ∈ wm.desk.windows, v.id ≠ id := fun v hv hid => hfound ⟨v, hv, hid⟩
    rw [update_absent hne, focus_absent hne]
    exact hgood

theorem good_restore : Good (wmRestoreWindow wm id) := by
  refine good_shown hgood (restoreWindow_desk hgood.1.distinct) (fun v => ⟨unspread_id v, rfl⟩) ?_
  unfold restored
  simp

theorem good_spread {width height : Int} {state : WindowState} (hstate : state ≠ .minimized)
    (hdesk : wm'.desk = wm.desk.update id fun v => spread v width height state) : Good wm' :=
  good_quiet hgood hdesk fun _ => ⟨rfl, rfl, rfl, fun h => absurd h hstate⟩

theorem good_maximize : Good (wmMaximizeWindow wm id) := by
  rcases maximizeWindow_desk hgood.1.distinct with heq | ⟨hdesk, -⟩
  · rw [heq]
    exact good_restore hgood
  · exact good_spread hgood (by decide) hdesk

theorem good_fullscreen : Good (wmFullscreenWindow wm id) := by
  rcases fullscreenWindow_desk hgood.1.distinct with heq | ⟨hdesk, -⟩
  · rw [heq]
    exact good_restore hgood
  · exact good_spread hgood (by decide) hdesk

end

/-! ### Taking it away -/

theorem inv_remove (h : DeskInv d) : DeskInv (d.remove id) :=
  ⟨ids_remove h.toDeskIds, fun v hv => h.shown v (mem_of_mem_filter hv)⟩

theorem inv_noFocus (h : DeskInv d) : DeskInv d.noFocus := ⟨ids_noFocus h.toDeskIds, h.shown⟩

theorem good_destroy (hgood : Good wm) : Good (wmDestroyWindow wm id) := by
  obtain ⟨hinv, hok⟩ := hgood
  rcases findWindow_cases wm id with ⟨hnone, -⟩ | ⟨pre, v, post, hat⟩
  · rw [destroyWindow_absent hnone]
    exact ⟨hinv, hok⟩
  obtain ⟨hother, hfocused⟩ := destroyWindow_desk hinv.distinct hat.mem hat.named
  have hmem (u : Window) (hu : u ∈ (wm.desk.remove id).windows) : u ∈ wm.desk.windows ∧
      u.id ≠ id := by
    simpa using mem_filter.mp hu
  unfold Good
  by_cases hfocus : wm.focusedId = id
  · -- the flag is gone with the window
    obtain ⟨next, hdesk⟩ := hfocused hfocus
    rw [hdesk]
    have hpos := hinv.range v hat.mem
    have hid := hat.named
    have hflags := (hok.1 (show wm.focusedId ≠ -1 by omega)).2
    refine good_focus_desk (inv_noFocus (inv_remove hinv)) ⟨fun h => absurd rfl h, fun _ u hu => ?_⟩
    obtain ⟨hu, hne⟩ := hmem u hu
    have hflag := hflags u hu
    rw [Bool.eq_false_iff]
    exact fun h => hne ((hflag.mp h).trans hfocus)
  · rw [hother hfocus]
    refine ⟨inv_remove hinv, fun hsome => ?_, fun hnone u hu => hok.2 hnone u (hmem u hu).1⟩
    obtain ⟨⟨u, hu, hid, hvisible, hstate⟩, hflags⟩ := hok.1 hsome
    refine ⟨⟨u, mem_filter.mpr ⟨hu, ?_⟩, hid, hvisible, hstate⟩, fun u hu => hflags u (hmem u hu).1⟩
    simpa using fun h => hfocus (hid.symm.trans h)

theorem good_close (hgood : Good wm) : Good (wmCloseWindow wm id) := by
  unfold wmCloseWindow
  split
  · exact hgood
  · split
    · exact hgood
    · exact good_destroy hgood

/-- What is done to a window without the focus does not matter, if its flag is left alone. -/
theorem focusOk_other (hok : FocusOk d) (hfocus : d.focusedId ≠ id)
    (hf : ∀ v, (f v).id = v.id ∧ (f v).focused = v.focused) : FocusOk (d.update id f) :=
  focusOk_update hok hf fun _ hid hid' => absurd (hid.symm.trans hid') hfocus

section

variable (hgood : Good wm)
include hgood

/-- **Minimising**, exactly. -/
theorem minimize_exact :
    DeskInv (wmMinimizeWindow wm id).desk ∧
      (FocusOk (wmMinimizeWindow wm id).desk ↔ FocusSafe wm (.minimize id)) := by
  obtain ⟨hinv, hok⟩ := hgood
  rcases findWindow_cases wm id with ⟨hnone, hne⟩ | ⟨pre, v, post, hat⟩
  · rw [minimizeWindow_absent hnone]
    exact ⟨hinv, fun _ v hv hid => absurd hid (hne v hv), fun _ => hok⟩
  obtain ⟨hother, hfocused⟩ := minimizeWindow_desk hinv.distinct hat.mem hat.named
  have hinv' : DeskInv (wm.desk.update id minimized) := by
    refine inv_update hinv (fun _ => rfl) fun v _ _ hvisible => ?_
    unfold minimized at hvisible
    simp at hvisible
  have hrest {u : Window} (hne : u.id ≠ id) :
      u ∈ (wm.desk.update id minimized).windows ↔ u ∈ wm.desk.windows :=
    mem_update_of_ne (fun _ => rfl) hne
  have hnofocus : DeskInv (wm.desk.update id minimized).noFocus := inv_noFocus hinv'
  by_cases hfocus : wm.focusedId = id
  · rcases hfocused hfocus with ⟨u, hu, hvisible, hne, hdesk⟩ | ⟨hnone, hdesk⟩
    · rw [hdesk]
      refine ⟨inv_focus hnofocus, fun _ _ _ _ _ => ?_, fun _ => ?_⟩
      · exact ⟨u, (hrest hne).mp hu, hvisible, hne⟩
      · exact focusOk_focus hnofocus ⟨u, hu, rfl, hvisible⟩
    · -- nobody has the focus now, but the flag stays
      rw [hdesk]
      refine ⟨hnofocus, fun hok' => ?_, fun hsafe => ?_⟩
      · have hpos := hinv.range v hat.mem
        have hid := hat.named
        have hflag :=
          ((hok.1 (show wm.focusedId ≠ -1 by omega)).2 v hat.mem).mpr (hid.trans hfocus.symm)
        have hclear := hok'.2 rfl (minimized v) (mem_map.mpr ⟨v, hat.mem, if_pos hid⟩)
        exact absurd (hflag.symm.trans hclear) (by decide)
      · obtain ⟨u, hu, hvisible, hne⟩ := hsafe v hat.mem hat.named hfocus
        exact absurd ⟨hvisible, hne⟩ (hnone u ((hrest hne).mpr hu))
  · rw [hother hfocus]
    refine ⟨hinv', fun _ _ _ _ h => absurd h hfocus, fun _ => ?_⟩
    exact focusOk_other hok hfocus fun _ => ⟨rfl, rfl⟩

theorem hide_exact :
    DeskInv (wmHideWindow wm id).desk ∧
      (FocusOk (wmHideWindow wm id).desk ↔ FocusSafe wm (.hide id)) := by
  obtain ⟨hinv, hok⟩ := hgood
  rw [hideWindow_desk hinv.distinct]
  refine ⟨inv_update hinv (fun _ => rfl) fun v _ _ hvisible => ?_, ?_, ?_⟩
  · exact absurd hvisible Bool.false_ne_true
  · intro hok' v hv hid hfocus
    have hpos := hinv.range v hv
    obtain ⟨u, hu, huid, hvisible, -⟩ := (hok'.1 (show wm.focusedId ≠ -1 by omega)).1
    obtain ⟨t, -, rfl⟩ := mem_update hu
    by_cases htid : t.id = id
    · rw [if_pos htid] at hvisible
      exact absurd hvisible Bool.false_ne_true
    · rw [if_neg htid] at huid
      exact htid (huid.trans hfocus)
  · intro hsafe
    by_cases hfound : ∃ v ∈ wm.windows, v.id = id
    · obtain ⟨v, hv, hid⟩ := hfound
      exact focusOk_other hok (hsafe v hv hid) fun _ => ⟨rfl, rfl⟩
    · rw [update_absent fun v hv hid => hfound ⟨v, hv, hid⟩]
      exact hok

theorem show_exact :
    (FocusSafe wm (.show id) → DeskInv (wmShowWindow wm id).desk) ∧
      (FocusOk (wmShowWindow wm id).desk ↔ FocusSafe wm (.show id)) := by
  have hdesk : (wmShowWindow wm id).desk =
      (wm.desk.update id fun v => { v with visible := true }).focus id :=
        showWindow_desk hgood.1.distinct
  have hsound (hsafe : FocusSafe wm (.show id)) : Good (wmShowWindow wm id) :=
    good_shown hgood hdesk (fun _ => ⟨rfl, rfl⟩) hsafe
  refine ⟨fun hsafe => (hsound hsafe).1, fun hok' v hv hid hstate => ?_,
    fun hsafe => (hsound hsafe).2⟩
  have hshows : (wm.desk.update id fun v => { v with visible := true }).Shows id :=
    ⟨_, mem_map.mpr ⟨v, hv, if_pos hid⟩, hid, rfl⟩
  rw [hdesk] at hok'
  have hfocus : ((wm.desk.update id fun v => { v with visible := true }).focus id).focusedId =
      id := by
    unfold Desk.focus
    rw [if_pos hshows]
  have hpos := hgood.1.range v hv
  obtain ⟨u, hu, huid, -, hustate⟩ := (hok'.1 (by rw [hfocus]; omega)).1
  obtain ⟨t, ht, focused, rfl⟩ := mem_focus hu
  obtain ⟨s, hs, rfl⟩ := mem_update ht
  have hsid : s.id = id := by
    rw [hfocus] at huid
    split at huid <;> exact huid
  obtain rfl := inj_on_of_nodup_map hgood.1.distinct hs hv (hsid.trans hid.symm)
  rw [if_pos hsid] at hustate
  exact hustate hstate

/-! ### Creation -/

theorem good_create {owner : Option Nat} {title : Option (List UInt8)} {flags : Int}
    (hnext : wm.nextWinId < 2 ^ 31 - 1) : Good (wmCreateWindow wm owner x y w h title flags).1 := by
  by_cases hroom : wm.windows.length < maxWindows
  · obtain ⟨wm', v, hid, hvisible, hstate, -, -, -, -, -, hadd, hcreate⟩ :=
      createWindow_eq owner x y w h title flags hroom
    have hinv : DeskInv (wm.desk.add v) := by
      refine ⟨ids_add hgood.1.toDeskIds hid hnext, fun u hu => ?_⟩
      rcases mem_append.mp hu with hu | hu
      · exact hgood.1.shown u hu
      · rw [mem_singleton.mp hu, hstate]
        exact fun _ => by decide
    have hshows : (wm.desk.add v).Shows v.id :=
      ⟨v, mem_append_right _ (mem_singleton_self v), rfl, hvisible⟩
    unfold Good
    rw [hcreate, sortWindowsByZ_desk, focusWindow_desk (hadd ▸ hinv.distinct), hadd]
    exact ⟨inv_sorted (inv_focus hinv), focusOk_sorted.mpr (focusOk_focus hinv hshows)⟩
  · have hsame : (wmCreateWindow wm owner x y w h title flags).1 = wm := by
      unfold wmCreateWindow
      rw [if_pos (by omega)]
    rw [hsame]
    exact hgood

/-! ### The mouse -/

theorem good_of_desk (hdesk : wm'.desk = wm.desk) : Good wm' := by
  unfold Good
  rw [hdesk]
  exact hgood

end

theorem good_kept : KeptByDrag Good where
  same hgood hsame := good_of_desk hgood hsame.desk
  move _ _ _ hgood := good_move hgood
  resize _ _ _ hgood := good_resize hgood
  restore _ hgood := good_restore hgood
  maximize _ hgood := good_maximize hgood

theorem otherVisible_focus (hids : wm.desk.Distinct) :
    OtherVisible (wmFocusWindow wm i) id ↔ OtherVisible wm id := by
  have hwindows : (wmFocusWindow wm i).windows = (wm.desk.focus i).windows :=
    congrArg Desk.windows (focusWindow_desk hids)
  unfold OtherVisible
  rw [hwindows]
  constructor
  · intro ⟨u, hu, hseen⟩
    obtain ⟨v, hv, focused, rfl⟩ := mem_focus hu
    exact ⟨v, hv, hseen⟩
  · intro ⟨v, hv, hseen⟩
    obtain ⟨focused, hu⟩ : ∃ focused, { v with focused := focused } ∈ (wm.desk.focus i).windows :=
      focus_mem hv
    exact ⟨_, hu, hseen⟩

/-- The window hit gets the focus before anything else happens. -/
theorem mouseDown_focus (hgood : Good wm) (hv : v ∈ wm.windows) (hvisible : v.visible = true) :
    ∃ wm' slot u, (if v.id > 0 ∧ v.id ≠ wm.focusedId then wmFocusWindow wm v.id else wm) = wm' ∧
      Good wm' ∧ wm'.focusedId = v.id ∧ (OtherVisible wm' v.id ↔ OtherVisible wm v.id) ∧
        wmFindWindow wm' v.id = some (slot, u) ∧ u ∈ wm'.windows ∧ u.id = v.id := by
  have hpos := (hgood.1.range v hv).1
  have hfound (wm' : WindowManager) (hu : ∃ u ∈ wm'.windows, u.id = v.id) :
      ∃ slot u, wmFindWindow wm' v.id = some (slot, u) ∧ u ∈ wm'.windows ∧ u.id = v.id := by
    obtain ⟨u, hu, hid⟩ := hu
    rcases findWindow_cases wm' v.id with ⟨-, hne⟩ | ⟨pre, t, post, hat⟩
    · exact absurd hid (hne u hu)
    · exact ⟨_, t, findWindow_at hat, hat.mem, hat.named⟩
  by_cases hfocus : v.id = wm.focusedId
  · rw [if_neg (fun h => h.2 hfocus)]
    obtain ⟨slot, u, hu⟩ := hfound wm ⟨v, hv, rfl⟩
    exact ⟨wm, slot, u, rfl, hgood, hfocus.symm, Iff.rfl, hu⟩
  · rw [if_pos ⟨by omega, hfocus⟩]
    have hdesk : (wmFocusWindow wm v.id).desk = wm.desk.focus v.id :=
      focusWindow_desk hgood.1.distinct
    have hshows : wm.desk.Shows v.id := ⟨v, hv, rfl, hvisible⟩
    have hfocused : (wmFocusWindow wm v.id).focusedId = v.id := by
      refine (congrArg Desk.focusedId hdesk).trans ?_
      unfold Desk.focus
      rw [if_pos hshows]
    have hwindows : (wmFocusWindow wm v.id).windows = (wm.desk.focus v.id).windows :=
      congrArg Desk.windows hdesk
    obtain ⟨focused, hmem⟩ : ∃ focused, { v with focused := focused } ∈
        (wm.desk.focus v.id).windows :=
      focus_mem hv
    rw [← hwindows] at hmem
    obtain ⟨slot, u, hu⟩ := hfound (wmFocusWindow wm v.id) ⟨_, hmem, rfl⟩
    exact ⟨_, slot, u, rfl, good_focus hgood, hfocused, otherVisible_focus hgood.1.distinct, hu⟩

theorem mouseDown_exact (hgood : Good wm) :
    DeskInv (wmMouseDown wm x y).desk ∧
      (FocusOk (wmMouseDown wm x y).desk ↔ FocusSafe wm (.mouseDown x y)) := by
  have hsound {P : Prop} {wm' : WindowManager} (h : Good wm') (hp : P) :
      DeskInv wm'.desk ∧ (FocusOk wm'.desk ↔ P) := ⟨h.1, fun _ => hp, fun _ => h.2⟩
  have hsafe : FocusSafe wm (.mouseDown x y) ↔
      ((wmHitTest wm x y).1 = .minimize → OtherVisible wm (wmHitTest wm x y).2) := Iff.rfl
  rw [hsafe]
  unfold wmMouseDown
  cases hhit : wm.windows.reverse.find? (hits x y) with
  | none =>
    have hnone : wmHitTest wm x y = (.none, -1) := by
      unfold wmHitTest
      rw [hhit]
    rw [hnone]
    exact hsound hgood fun h => absurd h (by decide)
  | some v =>
    have hsome : wmHitTest wm x y = (hitZone v x y, v.id) := by
      unfold wmHitTest
      rw [hhit]
    have hv : v ∈ wm.windows := mem_reverse.mp (mem_of_find?_eq_some hhit)
    have hvisible : v.visible = true := by
      have hhits := find?_some hhit
      unfold hits at hhits
      simp only [decide_eq_true_eq] at hhits
      exact hhits.1
    have hpos := (hgood.1.range v hv).1
    obtain ⟨wm', slot, u, hwm', hgood', hfocus, hother, hfind, hu, hid⟩ :=
      mouseDown_focus hgood hv hvisible
    rw [hsome]
    simp only
    rw [hwm', if_pos (by omega), hfind]
    cases hzone : hitZone v x y
    case minimize =>
      obtain ⟨hinv, hexact⟩ := minimize_exact hgood'
      refine ⟨hinv, hexact.trans ⟨fun h _ => hother.mp (h u hu hid hfocus), fun h _ _ _ _ => ?_⟩⟩
      exact hother.mpr (h rfl)
    case close => exact hsound (good_close hgood') nofun
    case maximize => exact hsound (good_maximize hgood') nofun
    all_goals exact hsound (good_of_desk hgood' rfl) nofun

/-! ### Runs -/

theorem focus_step (op : WmOp) (hnext : wm.nextWinId < 2 ^ 31 - 1) (hgood : Good wm)
    (hstep : wmStep wm op = some wm') :
    (FocusSafe wm op → DeskInv wm'.desk) ∧ (FocusOk wm'.desk ↔ FocusSafe wm op) := by
  have hsound {P : Prop} (h : Good wm') (hp : P) :
      (P → DeskInv wm'.desk) ∧ (FocusOk wm'.desk ↔ P) := ⟨fun _ => h.1, fun _ => hp, fun _ => h.2⟩
  cases op <;> obtain rfl := some.inj hstep
  case create => exact hsound (good_create hgood hnext) trivial
  case destroy => exact hsound (good_destroy hgood) trivial
  case focus => exact hsound (good_focus hgood) trivial
  case minimize => exact ⟨fun _ => (minimize_exact hgood).1, (minimize_exact hgood).2⟩
  case restore => exact hsound (good_restore hgood) trivial
  case maximize => exact hsound (good_maximize hgood) trivial
  case fullscreen => exact hsound (good_fullscreen hgood) trivial
  case close => exact hsound (good_close hgood) trivial
  case setTitle => exact hsound (good_setTitle hgood _) trivial
  case resize => exact hsound (good_resize hgood) trivial
  case move => exact hsound (good_move hgood) trivial
  case «show» => exact show_exact hgood
  case hide => exact ⟨fun _ => (hide_exact hgood).1, (hide_exact hgood).2⟩
  case raise => exact hsound (good_restack hgood (raiseWindow_desk hgood.1.distinct)) trivial
  case lower => exact hsound (good_restack hgood (lowerWindow_desk hgood.1.distinct)) trivial
  case mouseDown => exact ⟨fun _ => (mouseDown_exact hgood).1, (mouseDown_exact hgood).2⟩
  case mouseUp => exact hsound (good_kept.mouseUp hgood) trivial
  case mouseMove => exact hsound (good_kept.mouseMove hgood) trivial

/-- **The focus is consistent** in every state of a run exactly if its steps are safe, as long as
the ids do not run out. -/
theorem focus_consistent_iff (comp : Option Compositor) (screenW screenH : Int) (ops : List WmOp)
    (hids : Along wmStep (fun wm _ => wm.nextWinId < 2 ^ 31 - 1) (wmNew comp screenW screenH) ops) :
    Throughout wmStep (fun wm => FocusOk wm.desk) (wmNew comp screenW screenH) ops ↔
      Along wmStep FocusSafe (wmNew comp screenW screenH) ops := by
  have hinv : DeskInv (wmNew comp screenW screenH).desk :=
    ⟨ids_new comp screenW screenH, fun v hv => absurd hv not_mem_nil⟩
  have hok : FocusOk (wmNew comp screenW screenH).desk :=
    ⟨fun h => absurd rfl h, fun _ v hv => absurd hv not_mem_nil⟩
  refine throughout_iff_along_under (I := fun wm => DeskInv wm.desk) ?_ ?_ ?_ hids hinv hok
  · intro wm op wm' hnext hinv hok hsafe hstep
    exact (focus_step op hnext ⟨hinv, hok⟩ hstep).1 hsafe
  · intro wm op _ _ hstep
    cases op <;> cases hstep
  · intro wm op wm' hnext hinv hok hstep
    exact (focus_step op hnext ⟨hinv, hok⟩ hstep).2

/-- The window in focus is minimised while another is visible. -/
theorem focus_consistent_two :
    Throughout wmStep (fun wm => FocusOk wm.desk) (wmNew none 800 600)
      [.create none 0 0 200 100 none 0, .create none 0 0 200 100 none 0, .minimize 2] := by
  have hids : Along wmStep (fun wm _ => wm.nextWinId < 2 ^ 31 - 1) (wmNew none 800 600)
      [.create none 0 0 200 100 none 0, .create none 0 0 200 100 none 0, .minimize 2] := by
    refine ⟨by decide, fun s hs => ⟨?_, fun s' hs' => ⟨?_, fun _ _ => trivial⟩⟩⟩
    · obtain rfl := some.inj hs
      decide
    · obtain rfl := some.inj hs
      obtain rfl := some.inj hs'
      decide
  refine (focus_consistent_iff none 800 600 _ hids).mpr
    ⟨trivial, fun s hs => ⟨trivial, fun s' hs' => ⟨?_, fun _ _ => trivial⟩⟩⟩
  obtain rfl := some.inj hs
  obtain rfl := some.inj hs'
  intro v _ _ _
  decide

/-- The only window is hidden and keeps the focus. -/
theorem hidden_in_focus :
    ¬ Throughout wmStep (fun wm => FocusOk wm.desk) (wmNew none 800 600)
      [.create none 0 0 200 100 none 0, .hide 1] := by
  intro hall
  have hend : ∃ s, run wmStep (wmNew none 800 600)
      [.create none 0 0 200 100 none 0, .hide 1] = some s ∧ ¬ FocusOk s.desk :=
    ⟨_, rfl, by decide⟩
  obtain ⟨s, hrun, hnot⟩ := hend
  exact hnot (hall.last hrun)

end Nv0ken.Graphics
