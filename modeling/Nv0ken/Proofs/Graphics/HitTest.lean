/-
The window under a point.

The manager looks for it among its windows, from the last to the first; on the screen it is the
one whose surface the compositor draws last.  The two agree as long as the frame of every window
lies where the window is, and that is kept by all operations on a window whose surfaces are the
ones it was given (`InStep`).

A second window does not get its own: when it is created, the surfaces of the first have been
raised above where new surfaces go, and the ids it is told are those of the surface on top.  So
the result is about one window at a time.
-/
import Nv0ken.Proofs.Graphics.Damage
import Nv0ken.Proofs.Graphics.SurfaceUpdates
import Nv0ken.Proofs.Graphics.Windows

namespace Nv0ken.Graphics

open Run Word StableSort Keyed List Option

variable {wm wm' : WindowManager} {c c' : Compositor} {id x y w h px py : Int} {v : Window}
  {f : Window → Window} {g : Compositor → Compositor} {s : CompSurface} {layer : SurfaceLayer}

/-- The edges are those that `wm_hit_test` computes. -/
def WindowCovers (v : Window) (px py : Int) : Prop :=
  v.x ≤ px ∧ px < int32 (v.x + v.w) ∧ v.y ≤ py ∧ py < int32 (v.y + v.h)

instance : Decidable (WindowCovers v px py) := by
  unfold WindowCovers
  infer_instance

/-- The surface is the frame or the client area of the window. -/
def Owns (v : Window) (s : CompSurface) : Prop := s.id = v.frameSurfaceId ∨ s.id = v.compSurfaceId

instance : Decidable (Owns v s) := by
  unfold Owns
  infer_instance

/-- The surface of a window that is drawn last at the pixel. -/
def topmost (c : Compositor) (windows : List Window) (px py : Int) : Option CompSurface :=
  (c.surfaces.filter fun s => Drawn s ∧ Covers s px py ∧ ∃ v ∈ windows, Owns v s).getLast?

/-- Where there is a visible window, the one that is hit is the one that is seen. -/
def HitsTopmost (wm : WindowManager) : Prop :=
  ∀ px py, (∃ v ∈ wm.windows, v.visible = true ∧ WindowCovers v px py) →
    ∃ c s v, wm.comp = some c ∧ topmost c wm.windows px py = some s ∧ v ∈ wm.windows ∧
      v.id = (wmHitTest wm px py).2 ∧ Owns v s

/-- There is one window at a time, made when there is room for its surfaces on top; a
minimised window is restored, not shown. -/
def HitSafe (wm : WindowManager) : WmOp → Prop
  | .create .. =>
    wm.windows = [] ∧ ∀ c, wm.comp = some c →
      c.surfaces.length + 2 ≤ maxSurfaces ∧ 0 < c.nextId ∧ c.nextId + 2 < 2 ^ 31 ∧
        ∀ s ∈ c.surfaces, s.zOrder ≤ layerBase .normal ∧ s.id < c.nextId
  | .show id => ∀ v ∈ wm.windows, v.id = id → v.state ≠ .minimized
  | _ => True

/-! ### A window in step with its frame -/

/-- The frame lies where the window is, and is drawn when the window is visible. -/
def Matches (v : Window) (s : CompSurface) : Prop :=
  s.x = v.x ∧ s.y = v.y ∧ s.w = v.w ∧ s.h = v.h ∧ s.visible = v.visible ∧ s.buffer.isSome = true

structure InStep (c : Compositor) (v : Window) : Prop where
  size : 0 < v.w ∧ 0 < v.h
  saved : v.state = .maximized ∨ v.state = .fullscreen → 0 < v.restoreW ∧ 0 < v.restoreH
  seen : v.visible = true → v.state ≠ .minimized
  apart : v.compSurfaceId ≠ v.frameSurfaceId
  frame : Has c v.frameSurfaceId (Matches v)

structure ScreenOk (wm : WindowManager) : Prop where
  width : 0 < wm.screenW
  taskbar : wm.taskbarH = 36
  height : 36 < wm.screenH ∧ wm.screenH < 2 ^ 31

/-- At most one window, in step. -/
def Tidy (wm : WindowManager) : Prop :=
  ScreenOk wm ∧ ∃ c, wm.comp = some c ∧ CompOk c ∧
    (wm.windows = [] ∨ ∃ v, wm.windows = [v] ∧ InStep c v)

theorem hits_of_tidy (htidy : Tidy wm) : HitsTopmost wm := by
  obtain ⟨-, c, hcomp, -, hwindows⟩ := htidy
  intro px py ⟨v, hv, hvisible, hcovers⟩
  rcases hwindows with hnone | ⟨u, hone, hstep⟩
  · rw [hnone] at hv
    cases hv
  rw [hone, mem_singleton] at hv
  subst hv
  have hhit : (wmHitTest wm px py).2 = v.id := by
    have hhits : hits px py v = true := by
      exact decide_eq_true ⟨hvisible, hstep.seen hvisible, hcovers⟩
    unfold wmHitTest
    rw [hone, reverse_singleton, find?_singleton, hhits]
    rfl
  obtain ⟨s, hs, hid, hx, hy, hw, hh, hsvisible, hbuffer⟩ := hstep.frame
  have hmem : s ∈ c.surfaces.filter fun s => Drawn s ∧ Covers s px py ∧ ∃ v ∈ wm.windows,
      Owns v s := by
    refine mem_filter.mpr ⟨hs, decide_eq_true ⟨⟨hsvisible.trans hvisible, hbuffer⟩, ?_, ?_⟩⟩
    · unfold Covers
      rw [hx, hy, hw, hh]
      exact hcovers
    · exact ⟨v, by rw [hone]; exact mem_singleton_self v, Or.inl hid⟩
  have hsome := getLast?_eq_some_getLast (ne_nil_of_mem hmem)
  generalize (c.surfaces.filter fun s => Drawn s ∧ Covers s px py ∧ ∃ v ∈ wm.windows,
    Owns v s).getLast
    (ne_nil_of_mem hmem) = t at hsome
  have ht := mem_of_getLast? hsome
  obtain ⟨-, -, -, u, hu, howns⟩ := by simpa using mem_filter.mp ht
  rw [hone, mem_singleton] at hu
  subst hu
  exact ⟨c, t, u, hcomp, hsome, by rw [hone]; exact mem_singleton_self u, hhit.symm, howns⟩

/-! ### The surfaces of a window -/

section

variable (hok : CompOk c)
include hok

/-- The frame and the client area are moved and resized. -/
theorem placed_frame {fx fy fw fh cx cy cw ch : Int} (hstep : InStep c v) (hw : 0 < fw)
    (hh : 0 < fh) :
    let c' := compositorResizeSurface (compositorMoveSurface (compositorResizeSurface
      (compositorMoveSurface c v.frameSurfaceId fx fy) v.frameSurfaceId fw fh)
        v.compSurfaceId cx cy)
        v.compSurfaceId cw ch
    CompOk c' ∧ Has c' v.frameSurfaceId fun s => s.x = fx ∧ s.y = fy ∧ s.w = fw ∧ s.h = fh ∧
      s.visible = v.visible ∧ s.buffer.isSome = true := by
  have hnew : (surfaceNew fw fh true).isSome = true := by
    rw [surfaceNew_granted hw hh]
    rfl
  have hmove : Acts c _ v.frameSurfaceId _ := acts_move (x := fx) (y := fy) hok
  have hresize : Acts _ _ v.frameSurfaceId _ := acts_resize (hmove.ok hok) hw hh
  have hclient : Acts _ _ v.compSurfaceId _ :=
    acts_move (x := cx) (y := cy) (hresize.ok (hmove.ok hok))
  obtain ⟨f, hlast⟩ : ∃ f, Acts _ (compositorResizeSurface _ v.compSurfaceId cw ch) v.compSurfaceId
      f :=
    acts_resize_any (hclient.ok (hresize.ok (hmove.ok hok)))
  refine ⟨hlast.ok (hclient.ok (hresize.ok (hmove.ok hok))), ?_⟩
  refine hlast.has_other hstep.apart (hclient.has_other hstep.apart ?_)
  refine hresize.has (P := fun s => s.x = fx ∧ s.y = fy ∧ s.visible = v.visible) ?_ ?_
  · intro s ⟨hx, hy, hvisible⟩
    exact ⟨hx, hy, rfl, rfl, hvisible, hnew⟩
  · exact hmove.has (fun s ⟨_, _, _, _, hvisible, _⟩ => ⟨rfl, rfl, hvisible⟩) hstep.frame

section

variable (hapart : v.compSurfaceId ≠ v.frameSurfaceId) (hframe : Has c v.frameSurfaceId (Matches v))
include hapart hframe

theorem showSurfaces_frame :
    CompOk (showSurfaces v c) ∧
      Has (showSurfaces v c) v.frameSurfaceId (Matches { v with visible := true }) := by
  have hfirst : Acts c _ v.frameSurfaceId _ := acts_show hok
  have hsecond : Acts _ _ v.compSurfaceId _ := acts_show (hfirst.ok hok)
  refine ⟨hsecond.ok (hfirst.ok hok), hsecond.has_other hapart (hfirst.has ?_ hframe)⟩
  intro s ⟨hx, hy, hw, hh, _, hbuffer⟩
  split
  · rename_i hvisible
    exact ⟨hx, hy, hw, hh, hvisible, hbuffer⟩
  · exact ⟨hx, hy, hw, hh, rfl, hbuffer⟩

theorem hideSurfaces_frame :
    let c' := compositorHideSurface (compositorHideSurface c v.frameSurfaceId) v.compSurfaceId
    CompOk c' ∧ Has c' v.frameSurfaceId (Matches { v with visible := false }) := by
  have hfirst : Acts c _ v.frameSurfaceId _ := acts_hide hok
  have hsecond : Acts _ _ v.compSurfaceId _ := acts_hide (hfirst.ok hok)
  refine ⟨hsecond.ok (hfirst.ok hok), hsecond.has_other hapart (hfirst.has ?_ hframe)⟩
  intro s ⟨hx, hy, hw, hh, _, hbuffer⟩
  split
  · exact ⟨hx, hy, hw, hh, rfl, hbuffer⟩
  · rename_i hhidden
    exact ⟨hx, hy, hw, hh, by simpa using hhidden, hbuffer⟩

end

theorem raise_frame (hframe : Has c id (Matches v)) (i : Int) :
    CompOk (compositorRaiseSurface c i) ∧ Has (compositorRaiseSurface c i) id (Matches v) := by
  obtain ⟨f, hacts, hf⟩ : ∃ f, Acts c (compositorRaiseSurface c i) i f ∧
      ∀ s, ∃ z, f s = { s with zOrder := z } := acts_raise hok
  refine ⟨hacts.ok hok, ?_⟩
  by_cases hi : i = id
  · subst hi
    refine hacts.has (fun s hs => ?_) hframe
    obtain ⟨z, hz⟩ := hf s
    rw [hz]
    exact hs
  · exact hacts.has_other hi hframe

theorem damage_frame (hframe : Has c id (Matches v)) (i : Int) :
    CompOk (compositorDamageSurface c i) ∧ Has (compositorDamageSurface c i) id (Matches v) := by
  have hacts : Acts c _ i _ := acts_damage hok
  refine ⟨hacts.ok hok, ?_⟩
  by_cases hi : i = id
  · subst hi
    exact hacts.has (fun s hs => hs) hframe
  · exact hacts.has_other hi hframe

end

/-! ### The operations on the one window -/

/-- The window and the surfaces change together. -/
theorem tidy_change (hscreen : ScreenOk wm) (hcomp : wm.comp = some c) (hone : wm.windows = [v])
    (hok : CompOk (g c)) (hstep : InStep (g c) (f v)) : Tidy ((wm.setWindow 0 f).onComp g) := by
  refine ⟨{ hscreen with }, g c, ?_, hok, Or.inr ⟨f v, ?_, hstep⟩⟩
  · unfold WindowManager.onComp WindowManager.setWindow
    rw [hcomp, map_some]
  · unfold WindowManager.onComp WindowManager.setWindow
    rw [hone]
    rfl

/-- An operation on a window: it is the only one. -/
theorem tidy_found (htidy : Tidy wm) {g : Nat → Window → WindowManager}
    (hg : ∀ c v, wm.comp = some c → CompOk c → wm.windows = [v] → v.id = id → InStep c v →
      Tidy (g 0 v)) :
    Tidy (match wmFindWindow wm id with
      | none => wm
      | some (slot, v) => g slot v) := by
  refine found_cases (fun _ => htidy) fun pre v post hat => ?_
  obtain ⟨-, c, hcomp, hok, hwindows⟩ := htidy
  rcases hwindows with hempty | ⟨u, hone, hstep⟩
  · exact absurd (hempty ▸ hat.mem) not_mem_nil
  · obtain ⟨rfl, hrest⟩ : pre = [] ∧ v :: post = [u] := by
      have hsplit := hat.split.symm.trans hone
      cases pre with
      | nil => exact ⟨rfl, hsplit⟩
      | cons a pre =>
        have hlength := congrArg length hsplit
        simp at hlength
    obtain ⟨rfl, -⟩ := cons.inj hrest
    exact hg c v hcomp hok hone hat.named hstep

section

variable (htidy : Tidy wm)
include htidy

theorem tidy_move : Tidy (wmMoveWindow wm id x y) := by
  refine tidy_found htidy fun c v hcomp hok hone _ hstep => ?_
  have hframe : Acts c _ v.frameSurfaceId _ := acts_move (x := x) (y := y) hok
  have hclient : Acts _ _ v.compSurfaceId _ :=
    acts_move (x := (moved v x y).clientX) (y := (moved v x y).clientY) (hframe.ok hok)
  refine tidy_change htidy.1 hcomp hone (hclient.ok (hframe.ok hok)) ?_
  refine { hstep with frame := ?_ }
  refine hclient.has_other hstep.apart (hframe.has ?_ hstep.frame)
  intro s ⟨_, _, hs⟩
  exact ⟨rfl, rfl, hs⟩

theorem tidy_resize : Tidy (wmResizeWindow wm id w h) := by
  refine tidy_found htidy fun c v hcomp hok hone _ hstep => ?_
  have hw : 0 < (resized v w h).w := by
    unfold resized updateClientRect minWidth
    simp only
    split <;> omega
  have hh : 0 < (resized v w h).h := by
    unfold resized updateClientRect minHeight
    simp only
    split <;> omega
  have hnew : (surfaceNew (resized v w h).w (resized v w h).h true).isSome = true := by
    rw [surfaceNew_granted hw hh]
    rfl
  have hframe : Acts c _ v.frameSurfaceId _ := acts_resize hok hw hh
  have hclient : Acts _ _ v.compSurfaceId _ := acts_move (x := (resized v w h).clientX)
    (y := (resized v w h).clientY) (hframe.ok hok)
  obtain ⟨f, hlast⟩ : ∃ f, Acts _ (compositorResizeSurface _ v.compSurfaceId (resized v w h).clientW
      (resized v w h).clientH) v.compSurfaceId f := acts_resize_any (hclient.ok (hframe.ok hok))
  refine tidy_change htidy.1 hcomp hone (hlast.ok (hclient.ok (hframe.ok hok))) ?_
  refine { hstep with size := ⟨hw, hh⟩, frame := ?_ }
  refine hlast.has_other hstep.apart (hclient.has_other hstep.apart (hframe.has ?_ hstep.frame))
  intro s ⟨hx, hy, _, _, hvisible, _⟩
  exact ⟨hx, hy, rfl, rfl, hvisible, hnew⟩

theorem tidy_setTitle (title : Option (List UInt8)) : Tidy (wmSetTitle wm id title) := by
  cases title with
  | none =>
    rw [setTitle_none]
    exact htidy
  | some title =>
    rw [setTitle_some]
    refine tidy_found htidy fun c v hcomp hok hone _ hstep => ?_
    obtain ⟨hok', hframe⟩ := damage_frame hok hstep.frame v.frameSurfaceId
    exact tidy_change htidy.1 hcomp hone hok' { hstep with frame := hframe }

theorem tidy_hide : Tidy (wmHideWindow wm id) := by
  refine tidy_found htidy fun c v hcomp hok hone _ hstep => ?_
  obtain ⟨hok', hframe⟩ := hideSurfaces_frame hok hstep.apart hstep.frame
  exact tidy_change htidy.1 hcomp hone hok'
    { hstep with seen := fun h => absurd h Bool.false_ne_true, frame := hframe }

/-- Stacking and flags are of no concern. -/
theorem tidy_focus : Tidy (wmFocusWindow wm id) := by
  refine tidy_found htidy fun c v hcomp hok hone hid hstep => ?_
  simp only
  split
  · exact htidy
  · obtain ⟨hok₁, hframe₁⟩ := raise_frame hok hstep.frame v.frameSurfaceId
    obtain ⟨hok₂, hframe₂⟩ := raise_frame hok₁ hframe₁ v.compSurfaceId
    obtain ⟨hok₃, hframe₃⟩ := damage_frame hok₂ hframe₂ v.frameSurfaceId
    have hblur : wm.windows.filter (fun u => u.focused ∧ u.id ≠ id) = [] := by
      rw [hone]
      simp [hid]
    have hwindows : (wm.windows.map (blur id)).modify 0 (fun u => { u with focused := true }) =
        [{ v with focused := true }] := by
      rw [hone]
      simp [blur, hid]
    refine ⟨{ htidy.1 with }, _, ?_, hok₃, Or.inr ⟨{ v with focused := true }, ?_, ?_⟩⟩
    · unfold sortWindowsByZ WindowManager.onComp WindowManager.setWindow
      simp only
      rw [hblur, hcomp]
      rfl
    · unfold sortWindowsByZ WindowManager.onComp WindowManager.setWindow
      simp only
      rw [hwindows]
      rfl
    · exact { hstep with frame := hframe₃ }

theorem tidy_show (hstate : ∀ v ∈ wm.windows, v.id = id → v.state ≠ .minimized) :
    Tidy (wmShowWindow wm id) := by
  refine tidy_found htidy fun c v hcomp hok hone hid hstep => ?_
  obtain ⟨hok', hframe⟩ := showSurfaces_frame hok hstep.apart hstep.frame
  have hv : v ∈ wm.windows := by
    rw [hone]
    exact mem_singleton_self v
  refine tidy_focus (tidy_change htidy.1 hcomp hone hok' ?_)
  exact { hstep with seen := fun _ => hstate v hv hid, frame := hframe }

end

theorem tidy_restore (htidy : Tidy wm) : Tidy (wmRestoreWindow wm id) := by
  refine tidy_found htidy fun c v hcomp hok hone hid hstep => ?_
  simp only
  generalize hfirst : (if v.state = .maximized ∨ v.state = .fullscreen then
    (wm.setWindow 0 atRestore).onComp (placeSurfaces (atRestore v)) else wm) = wm'
  -- the window is in step when it has its place, and then when it is visible
  have hback : Tidy wm' ∧ wm'.windows = [unspread v] := by
    by_cases hstate : v.state = .maximized ∨ v.state = .fullscreen
    · rw [if_pos hstate] at hfirst
      have hv : unspread v = atRestore v := if_pos hstate
      have hsize := hstep.saved hstate
      have hplaced : CompOk (placeSurfaces (atRestore v) c) ∧ _ :=
        placed_frame (v := v) hok hstep hsize.1 hsize.2
      rw [← hfirst, hv]
      refine ⟨tidy_change htidy.1 hcomp hone hplaced.1 ?_, ?_⟩
      · exact { hstep with size := hsize, frame := hplaced.2 }
      · unfold WindowManager.onComp WindowManager.setWindow
        rw [hone]
        rfl
    · rw [if_neg hstate] at hfirst
      have hv : unspread v = v := if_neg hstate
      rw [← hfirst, hv]
      exact ⟨htidy, hone⟩
  obtain ⟨htidy', hone'⟩ := hback
  obtain ⟨hscreen, c', hcomp', hok', hempty | ⟨u, hu, hstep'⟩⟩ := htidy'
  · rw [hempty] at hone'
    cases hone'
  obtain rfl : u = unspread v := head_eq_of_cons_eq (hu.symm.trans hone')
  obtain ⟨hok'', hframe⟩ := showSurfaces_frame hok' hstep'.apart hstep'.frame
  have hsame : showSurfaces (unspread v) = showSurfaces v := by
    unfold unspread
    split <;> rfl
  rw [hsame] at hok'' hframe
  refine tidy_focus (tidy_change hscreen hcomp' hone' hok'' ?_)
  refine ⟨hstep'.size, fun hfilling => ?_, fun _ hmin => ?_, hstep'.apart, hframe⟩
  · rcases hfilling with h | h <;> cases h
  · cases hmin

theorem tidy_spread {width height : Int} {state : WindowState} (hscreen : ScreenOk wm)
    (hcomp : wm.comp = some c) (hone : wm.windows = [v]) (hstep : InStep c v)
    (hstate : state ≠ .minimized) (hsize : 0 < width ∧ 0 < height)
    (hplaced : CompOk (g c) ∧ Has (g c) v.frameSurfaceId fun s => s.x = 0 ∧ s.y = 0 ∧
      s.w = width ∧ s.h = height ∧ s.visible = v.visible ∧ s.buffer.isSome = true) :
    Tidy ((wm.setWindow 0 fun v => spread v width height state).onComp g) := by
  refine tidy_change hscreen hcomp hone hplaced.1 ?_
  exact ⟨hsize, fun _ => hstep.size, fun _ => hstate, hstep.apart, hplaced.2⟩

section

variable (htidy : Tidy wm)
include htidy

theorem tidy_maximize : Tidy (wmMaximizeWindow wm id) := by
  refine tidy_found htidy fun c v hcomp hok hone hid hstep => ?_
  simp only
  split
  · exact tidy_restore htidy
  · obtain ⟨hwidth, htaskbar, hheight⟩ := htidy.1
    have hsize : 0 < int32 (wm.screenH - wm.taskbarH) := by
      rw [int32_of_range (by omega) (by omega)]
      omega
    refine tidy_spread htidy.1 hcomp hone hstep (by decide) ⟨hwidth, hsize⟩ ?_
    exact placed_frame (v := v) hok hstep hwidth hsize

theorem tidy_fullscreen : Tidy (wmFullscreenWindow wm id) := by
  refine tidy_found htidy fun c v hcomp hok hone hid hstep => ?_
  simp only
  split
  · exact tidy_restore htidy
  · obtain ⟨hwidth, -, hheight⟩ := htidy.1
    have hsize : 0 < wm.screenH := by omega
    refine tidy_spread htidy.1 hcomp hone hstep (by decide) ⟨hwidth, hsize⟩ ?_
    exact placed_frame (v := v) hok hstep hwidth hsize

theorem tidy_of_same (hsame : SameScene wm wm') : Tidy wm' := by
  obtain ⟨⟨hwidth, htaskbar, hheight⟩, c, hcomp, hrest⟩ := htidy
  refine ⟨⟨hsame.screenW ▸ hwidth, hsame.taskbarH.trans htaskbar, hsame.screenH ▸ hheight⟩,
    c, hsame.comp.trans hcomp, ?_⟩
  have hwindows : wm'.windows = wm.windows := congrArg Desk.windows hsame.desk
  rw [hwindows]
  exact hrest

theorem tidy_noFocus : Tidy wm.noFocus :=
  ⟨{ htidy.1 with }, htidy.2⟩

theorem tidy_minimize : Tidy (wmMinimizeWindow wm id) := by
  refine tidy_found htidy fun c v hcomp hok hone _ hstep => ?_
  simp only
  obtain ⟨hok', hframe⟩ := hideSurfaces_frame hok hstep.apart hstep.frame
  generalize hwm' : ((wm.setWindow 0 fun w =>
    { w with state := .minimized, visible := false }).onComp fun c =>
      compositorHideSurface (compositorHideSurface c v.frameSurfaceId) v.compSurfaceId) = wm'
  have htidy' : Tidy wm' := by
    rw [← hwm']
    refine tidy_change htidy.1 hcomp hone hok' ⟨hstep.size, fun h => ?_, ?_, hstep.apart, hframe⟩
    · rcases h with h | h <;> cases h
    · exact fun h => absurd h Bool.false_ne_true
  split
  · split
    · exact tidy_noFocus htidy'
    · exact tidy_focus (tidy_noFocus htidy')
  · exact htidy'

theorem tidy_lower : Tidy (wmLowerWindow wm id) := by
  refine tidy_found htidy fun c v hcomp hok hone hid hstep => ?_
  refine ⟨{ htidy.1 with }, c, hcomp, hok,
    Or.inr ⟨if v.zOrder > 0 then { v with zOrder := v.zOrder - 1 } else v, ?_, ?_⟩⟩
  · unfold sortWindowsByZ WindowManager.setWindow
    rw [hone]
    rfl
  · split
    · exact { hstep with }
    · exact hstep

theorem tidy_raise : Tidy (wmRaiseWindow wm id) := by
  refine tidy_found htidy fun c v hcomp hok hone _ hstep => ?_
  have hwindows (z : Int) :
      (sortWindowsByZ (wm.setWindow 0 fun u => { u with zOrder := z })).windows =
      [{ v with zOrder := z }] := by
    unfold sortWindowsByZ WindowManager.setWindow
    rw [hone]
    rfl
  simp only [hwindows, getElem?_cons_zero]
  obtain ⟨hok', hframe⟩ := raise_frame hok hstep.frame v.frameSurfaceId
  refine ⟨{ htidy.1 with }, _, ?_, hok', Or.inr ⟨_, hwindows _, ?_⟩⟩
  · unfold WindowManager.onComp sortWindowsByZ WindowManager.setWindow
    rw [hcomp]
    rfl
  · exact { hstep with frame := hframe }

theorem tidy_destroy : Tidy (wmDestroyWindow wm id) := by
  refine tidy_found htidy fun c v hcomp hok hone _ hstep => ?_
  have hok' : CompOk (destroySurfaces v c) := by
    have hfirst :
        CompOk (if v.compSurfaceId > 0 then compositorDestroySurface c v.compSurfaceId else c) := by
      split
      · exact destroy_ok hok
      · exact hok
    unfold destroySurfaces
    simp only
    split
    · exact destroy_ok hfirst
    · exact hfirst
  simp only
  generalize hwm' : ({ wm.onComp (destroySurfaces v) with
    windows := (wm.onComp (destroySurfaces v)).windows.eraseIdx 0 } : WindowManager) = wm'
  have hempty : wm'.windows = [] := by
    rw [← hwm']
    unfold WindowManager.onComp
    rw [hone]
    rfl
  have htidy' : Tidy wm' := by
    refine ⟨?_, destroySurfaces v c, ?_, hok', Or.inl hempty⟩
    · rw [← hwm']
      exact { htidy.1 with }
    · rw [← hwm']
      unfold WindowManager.onComp
      rw [hcomp]
      rfl
  split
  · split
    · exact tidy_noFocus htidy'
    · exact tidy_focus (tidy_noFocus htidy')
  · exact htidy'

theorem tidy_close : Tidy (wmCloseWindow wm id) := by
  unfold wmCloseWindow
  split
  · exact htidy
  · split
    · exact htidy
    · exact tidy_destroy htidy

end

theorem tidy_kept : KeptByClick Tidy where
  same htidy hsame := tidy_of_same htidy hsame
  move _ _ _ htidy := tidy_move htidy
  resize _ _ _ htidy := tidy_resize htidy
  restore _ htidy := tidy_restore htidy
  maximize _ htidy := tidy_maximize htidy
  focus _ htidy := tidy_focus htidy
  close _ htidy := tidy_close htidy
  minimize _ htidy := tidy_minimize htidy

/-! ### Creation -/

/-- A new surface on top of all others. -/
theorem create_top (hok : CompOk c) (hmakes : Makes c w h)
    (hlast : ∀ s ∈ c.surfaces, s.zOrder ≤ layerBase layer ∧ s.id < c.nextId) :
    ∃ c', compositorCreateSurface c x y w h layer = (c', c.nextId) ∧ CompOk c' ∧
      c'.surfaces.Perm (c.surfaces ++ [newSurface c x y w h layer]) ∧
        c'.nextId = int32 (c.nextId + 1) := by
  have hslot : (sortBy CompSurface.zOrder
      (c.surfaces ++ [newSurface c x y w h layer]))[c.surfaces.length]? =
        some (newSurface c x y w h layer) := sortBy_concat_last fun s hs => (hlast s hs).1
  have hperm : (sortBy CompSurface.zOrder (c.surfaces ++ [newSurface c x y w h layer])).Perm
      (c.surfaces ++ [newSurface c x y w h layer]) := sortBy_perm _
  have hcreate : compositorCreateSurface c x y w h layer = _ := create_eq hmakes
  rw [hslot] at hcreate
  refine ⟨_, hcreate, ⟨?_, fun answer ha => hok.memory answer (mem_of_mem_tail ha)⟩, hperm, rfl⟩
  rw [(hperm.map CompSurface.id).nodup_iff, map_append, nodup_append]
  refine ⟨hok.distinct, nodup_singleton _, ?_⟩
  intro i hi j hj heq
  obtain ⟨s, hs, rfl⟩ := mem_map.mp hi
  rw [map_singleton, mem_singleton] at hj
  have hlt := (hlast s hs).2
  have hnew : (newSurface c x y w h layer).id = c.nextId := rfl
  omega

theorem create_refused (hok : CompOk c) (hmakes : ¬ Makes c w h) :
    compositorCreateSurface c x y w h layer = (c, -1) := by
  have hgranted := granted_of_ok hok
  unfold compositorCreateSurface
  by_cases hcount : c.surfaces.length ≥ maxSurfaces
  · rw [if_pos hcount]
  · rw [if_neg hcount, if_pos]
    by_contra hsize
    exact hmakes ⟨by omega, by omega, by omega, hgranted⟩

/-- The surfaces of a window are its own if they come on top of the others. -/
theorem createSurfaces_frame (hok : CompOk c) (hsize : 0 < v.w ∧ 0 < v.h)
    (hvisible : v.visible = true)
    (hroom : c.surfaces.length + 2 ≤ maxSurfaces) (hpos : 0 < c.nextId)
    (hnext : c.nextId + 2 < 2 ^ 31)
    (hlast : ∀ s ∈ c.surfaces, s.zOrder ≤ layerBase .normal ∧ s.id < c.nextId) :
    ∃ c' client, createSurfaces c v = (c', c.nextId, client) ∧ client ≠ c.nextId ∧ CompOk c' ∧
      Has c' c.nextId (Matches v) := by
  have hnew : (surfaceNew v.w v.h true).isSome = true := by
    rw [surfaceNew_granted hsize.1 hsize.2]
    rfl
  obtain ⟨c₁, hframe, hok₁, hperm₁, hnext₁⟩ := create_top (x := v.x) (y := v.y) hok
    ⟨by omega, hsize.1, hsize.2, granted_of_ok hok⟩ hlast
  rw [int32_of_range (by omega) (by omega)] at hnext₁
  have hhas : Has c₁ c.nextId (Matches v) :=
    ⟨newSurface c v.x v.y v.w v.h .normal,
      hperm₁.mem_iff.mpr (mem_append_right _ (mem_singleton_self _)), rfl,
      rfl, rfl, rfl, rfl, hvisible.symm, hnew⟩
  have hlast₁ : ∀ s ∈ c₁.surfaces, s.zOrder ≤ layerBase .normal ∧ s.id < c₁.nextId := by
    intro s hs
    rcases mem_append.mp (hperm₁.mem_iff.mp hs) with hs | hs
    · obtain ⟨hz, hid⟩ := hlast s hs
      exact ⟨hz, by omega⟩
    · rw [mem_singleton.mp hs]
      exact ⟨le_refl _, by rw [hnext₁]; exact Int.lt_succ c.nextId⟩
  unfold createSurfaces
  rw [hframe]
  simp only
  by_cases hmakes : Makes c₁ v.clientW v.clientH
  · obtain ⟨c₂, hclient, hok₂, hperm₂, -⟩ :=
      create_top (x := v.clientX) (y := v.clientY) hok₁ hmakes hlast₁
    rw [hclient]
    have hhas₂ : Has c₂ c.nextId (Matches v) := by
      obtain ⟨s, hs, hmatch⟩ := hhas
      exact ⟨s, hperm₂.mem_iff.mpr (mem_append_left _ hs), hmatch⟩
    obtain ⟨hok', hhas'⟩ := raise_frame hok₂ hhas₂ c.nextId
    exact ⟨_, _, rfl, by omega, hok', hhas'⟩
  · rw [create_refused hok₁ hmakes]
    obtain ⟨hok', hhas'⟩ := raise_frame hok₁ hhas c.nextId
    exact ⟨_, _, rfl, by omega, hok', hhas'⟩

theorem tidy_sorted (htidy : Tidy wm) : Tidy (sortWindowsByZ wm) := by
  obtain ⟨hscreen, c, hcomp, hok, hwindows⟩ := htidy
  refine ⟨{ hscreen with }, c, hcomp, hok, ?_⟩
  unfold sortWindowsByZ
  rcases hwindows with hempty | ⟨v, hone, hstep⟩
  · left
    rw [hempty]
    rfl
  · right
    refine ⟨v, ?_, hstep⟩
    rw [hone]
    rfl

theorem tidy_create {owner : Option Nat} {title : Option (List UInt8)} {flags : Int}
    (htidy : Tidy wm) (hsafe : HitSafe wm (.create owner x y w h title flags)) :
    Tidy (wmCreateWindow wm owner x y w h title flags).1 := by
  obtain ⟨hempty, hroom⟩ := hsafe
  obtain ⟨hscreen, c, hcomp, hok, -⟩ := htidy
  obtain ⟨hcount, hpos, hnext, hlast⟩ := hroom c hcomp
  unfold wmCreateWindow
  rw [if_neg (by rw [hempty]; decide)]
  simp only
  have hw : 0 < (if w < minWidth then minWidth else w) := by
    unfold minWidth
    split <;> omega
  have hh : 0 < (if h < minHeight then minHeight else h) := by
    unfold minHeight
    split <;> omega
  generalize (if w < minWidth then minWidth else w) = w' at hw ⊢
  generalize (if h < minHeight then minHeight else h) = h' at hh ⊢
  obtain ⟨cx, cy, px, py, hplace⟩ := placeWindow_eq wm x y w' h'
  rw [hplace]
  generalize hv : newWindow _ owner px py w' h' title flags = v
  have hvw : v.w = w' := by rw [← hv]; rfl
  have hvh : v.h = h' := by rw [← hv]; rfl
  have hvisible : v.visible = true := by rw [← hv]; rfl
  have hstate : v.state = .normal := by rw [← hv]; rfl
  obtain ⟨c', client, hsurfaces, hapart, hok', hhas⟩ :=
    createSurfaces_frame hok (by rw [hvw, hvh]; exact ⟨hw, hh⟩) hvisible hcount hpos hnext hlast
  refine tidy_sorted (tidy_focus ?_)
  unfold addWindow
  rw [hcomp]
  simp only
  rw [hsurfaces]
  refine ⟨{ hscreen with }, c', rfl, hok',
    Or.inr ⟨{ v with frameSurfaceId := c.nextId, compSurfaceId := client }, ?_, ?_⟩⟩
  · simp only
    rw [hempty]
    rfl
  · refine ⟨by simp only; rw [hvw, hvh]; exact ⟨hw, hh⟩, ?_, ?_, hapart, hhas⟩
    · simp only
      rw [hstate]
      intro h
      rcases h with h | h <;> cases h
    · simp only
      rw [hstate]
      exact fun _ => by decide

/-! ### Runs -/

theorem tidy_step (op : WmOp) (htidy : Tidy wm) (hsafe : HitSafe wm op)
    (hstep : wmStep wm op = some wm') : Tidy wm' := by
  cases op <;> obtain rfl := some.inj hstep
  case create => exact tidy_create htidy hsafe
  case destroy => exact tidy_destroy htidy
  case focus => exact tidy_focus htidy
  case minimize => exact tidy_minimize htidy
  case restore => exact tidy_restore htidy
  case maximize => exact tidy_maximize htidy
  case fullscreen => exact tidy_fullscreen htidy
  case close => exact tidy_close htidy
  case setTitle => exact tidy_setTitle htidy _
  case resize => exact tidy_resize htidy
  case move => exact tidy_move htidy
  case «show» => exact tidy_show htidy hsafe
  case hide => exact tidy_hide htidy
  case raise => exact tidy_raise htidy
  case lower => exact tidy_lower htidy
  case mouseDown => exact tidy_kept.mouseDown htidy
  case mouseUp => exact tidy_kept.mouseUp htidy
  case mouseMove => exact tidy_kept.mouseMove htidy

/-- **The window hit is the window seen** in every state of a run whose steps are safe, on a
screen with room above the taskbar and with no memory refused. -/
theorem hit_topmost {screenW screenH : Int} (hok : CompOk c) (hwidth : 0 < screenW)
    (hheight : 36 < screenH ∧ screenH < 2 ^ 31) (ops : List WmOp)
    (hsafe : Along wmStep HitSafe (wmNew (some c) screenW screenH) ops) :
    Throughout wmStep HitsTopmost (wmNew (some c) screenW screenH) ops := by
  have hstart : Tidy (wmNew (some c) screenW screenH) :=
    ⟨⟨hwidth, rfl, hheight⟩, c, rfl, hok, Or.inl rfl⟩
  have hall := along_throughout (I := Tidy)
    (fun _ op _ htidy hsafe hstep => tidy_step op htidy hsafe hstep) hstart hsafe
  exact hall.mono fun _ htidy => hits_of_tidy htidy

/-- A compositor without surfaces. -/
def bareDesktop : Compositor :=
  { fb := { width := 800, height := 600, pixels := fun _ _ => 0 }
    back := { width := 800, height := 600, pixels := fun _ _ => 0 } }

theorem hit_topmost_moved :
    Throughout wmStep HitsTopmost (wmNew (some bareDesktop) 800 600)
      [.create none 0 0 200 200 none 0, .maximize 1, .minimize 1, .restore 1, .move 1 50 60] := by
  have hok : CompOk bareDesktop := ⟨nodup_nil, fun _ ha => absurd ha not_mem_nil⟩
  refine hit_topmost hok (by decide) (by decide) _ ⟨⟨rfl, fun c hc => ?_⟩, fun _ _ => ?_⟩
  · obtain rfl := some.inj hc
    exact ⟨by decide, by decide, by decide, fun s hs => absurd hs not_mem_nil⟩
  · exact ⟨trivial,
      fun _ _ => ⟨trivial, fun _ _ => ⟨trivial, fun _ _ => ⟨trivial, fun _ _ => trivial⟩⟩⟩⟩

/-- Of two windows in the same place the second is hit, and the frame of the first is seen. -/
theorem hit_beneath :
    ¬ Throughout wmStep HitsTopmost (wmNew (some bareDesktop) 800 600)
      [.create none 0 0 200 200 none 0, .create none 0 0 200 200 none 0] := by
  intro hall
  have hend : ∃ wm c, run wmStep (wmNew (some bareDesktop) 800 600)
      [.create none 0 0 200 200 none 0, .create none 0 0 200 200 none 0] = some wm ∧
        wm.comp = some c ∧ (topmost c wm.windows 1 1).map CompSurface.id = some 1 ∧
        (wmHitTest wm 1 1).2 = 2 ∧ (∃ v ∈ wm.windows, v.visible = true ∧ WindowCovers v 1 1) ∧
          ∀ v ∈ wm.windows, v.id = 2 → v.frameSurfaceId ≠ 1 ∧ v.compSurfaceId ≠ 1 :=
    ⟨_, _, rfl, rfl, by decide +kernel, by decide +kernel, by decide +kernel, by decide +kernel⟩
  obtain ⟨wm, c, hrun, hcomp, htop, hhit, hcovered, hother⟩ := hend
  obtain ⟨c', s, v, hcomp', htop', hv, hid, howns⟩ := hall.last hrun 1 1 hcovered
  obtain rfl := some.inj (hcomp.symm.trans hcomp')
  rw [htop', map_some, some.injEq] at htop
  obtain ⟨hframe, hclient⟩ := hother v hv (hid.trans hhit)
  rcases howns with h | h
  · exact hframe (h.symm.trans htop)
  · exact hclient (h.symm.trans htop)

end Nv0ken.Graphics
