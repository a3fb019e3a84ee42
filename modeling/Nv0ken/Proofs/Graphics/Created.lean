/-
What a creation returns.

A surface or a window is put into the first free slot, the array is sorted, and what is
returned is read from that slot.  It is the new one exactly if the sort left it there: if
nothing that was there before belongs behind it.  A window is then as it was asked for if it
is large enough and lies on the screen; otherwise it is enlarged and moved.
-/
import Nv0ken.Proofs.Graphics.Surfaces
import Nv0ken.Proofs.Graphics.Windows

namespace Nv0ken.Graphics

open Word StableSort Keyed List

variable {c : Compositor} {wm : WindowManager} {id x y w h : Int} {layer : SurfaceLayer}
  {v : Window}

/-! ### Surfaces -/

/-- The id returned is that of a surface as it was asked for, and of none that was there. -/
def SurfaceMade (c : Compositor) (x y w h : Int) (layer : SurfaceLayer) : Prop :=
  ∃ s, compositorGetSurface (compositorCreateSurface c x y w h layer).1
      (compositorCreateSurface c x y w h layer).2 = some s ∧
    s.x = x ∧ s.y = y ∧ s.w = w ∧ s.h = h ∧ s.layer = layer ∧
      ∀ t ∈ c.surfaces, t.id ≠ (compositorCreateSurface c x y w h layer).2

/-- No surface belongs behind a new one of the layer, and none has its id. -/
def SurfaceLast (c : Compositor) (layer : SurfaceLayer) : Prop :=
  ∀ t ∈ c.surfaces, t.zOrder ≤ layerBase layer ∧ t.id ≠ c.nextId

/-- The id returned is the one in the last slot, whatever stands there. -/
theorem created_slot (hmakes : Makes c w h) (x y : Int) (layer : SurfaceLayer) :
    ∃ s,
      (sortBy CompSurface.zOrder (c.surfaces ++ [newSurface c x y w h layer]))[c.surfaces.length]? =
        some s ∧
      (compositorCreateSurface c x y w h layer).2 = s.id ∧
        (s ∈ c.surfaces ∨ s = newSurface c x y w h layer) := by
  have hlt : c.surfaces.length <
      (sortBy CompSurface.zOrder (c.surfaces ++ [newSurface c x y w h layer])).length := by
    rw [(sortBy_perm _).length_eq]
    simp
  have hslot := getElem?_eq_getElem hlt
  refine ⟨_, hslot, ?_, ?_⟩
  · rw [create_eq hmakes, hslot]
    rfl
  · have hmem := (sortBy_perm _).mem_iff.mp (getElem_mem hlt)
    rwa [mem_append, mem_singleton] at hmem

/-- Under an id that is new, the new surface is found. -/
theorem getSurface_created (hmakes : Makes c w h) (hfresh : ∀ t ∈ c.surfaces, t.id ≠ c.nextId) :
    compositorGetSurface (compositorCreateSurface c x y w h layer).1 c.nextId =
      some (newSurface c x y w h layer) := by
  have hmem (t : CompSurface) : t ∈ (compositorCreateSurface c x y w h layer).1.surfaces ↔
      t ∈ c.surfaces ∨ t = newSurface c x y w h layer := by
    rw [create_eq hmakes, (sortBy_perm _).mem_iff, mem_append, mem_singleton]
  rcases find_cases (compositorCreateSurface c x y w h layer).1 c.nextId with
    ⟨-, hnone⟩ | ⟨pre, a, post, hat⟩
  · exact absurd rfl (hnone _ ((hmem _).mpr (Or.inr rfl)))
  · rcases (hmem a).mp hat.mem with hold | rfl
    · exact absurd hat.named (hfresh a hold)
    · exact getSurface_at hat

theorem surfaceMade_iff (hmakes : Makes c w h) :
    SurfaceMade c x y w h layer ↔ SurfaceLast c layer := by
  obtain ⟨s, hslot, hreturned, hs⟩ := created_slot hmakes x y layer
  unfold SurfaceMade
  rw [hreturned]
  constructor
  · intro ⟨_, _, _, _, _, _, _, hfresh⟩
    rcases hs with hold | rfl
    · exact absurd rfl (hfresh s hold)
    · exact fun t ht => ⟨le_of_sortBy_last hslot t (mem_append_left _ ht), hfresh t ht⟩
  · intro hlast
    obtain rfl : newSurface c x y w h layer = s :=
      Option.some.inj ((sortBy_concat_last fun t ht => (hlast t ht).1).symm.trans hslot)
    have hfresh : ∀ t ∈ c.surfaces, t.id ≠ c.nextId := fun t ht => (hlast t ht).2
    exact ⟨_, getSurface_created hmakes hfresh, rfl, rfl, rfl, rfl, rfl, hfresh⟩

/-! ### Windows -/

/-- The window returned has the position, size and title asked for, and it is none that was
there. -/
def WindowMade (wm : WindowManager) (owner : Option Nat) (x y w h : Int)
    (title : Option (List UInt8)) (flags : Int) : Prop :=
  ∃ slot v, (wmCreateWindow wm owner x y w h title flags).2 = some slot ∧
    (wmCreateWindow wm owner x y w h title flags).1.windows[slot]? = some v ∧
      v.x = x ∧ v.y = y ∧ v.w = w ∧ v.h = h ∧ v.title = title.getD [] ∧
        ∀ u ∈ wm.windows, u.id ≠ v.id

/-- No window belongs behind a new one, and none has its id. -/
def WindowLast (wm : WindowManager) : Prop :=
  ∀ u ∈ wm.windows, u.zOrder ≤ 100 + (wm.windows.length + 1) ∧ u.id ≠ wm.nextWinId

/-- The part of the screen windows are put on has a size. -/
def Screened (wm : WindowManager) : Prop :=
  0 ≤ wm.screenW ∧ wm.screenW < 2 ^ 31 ∧
    0 ≤ wm.screenH - wm.taskbarH ∧ wm.screenH - wm.taskbarH < 2 ^ 31

/-- A side of a window stays where it is asked for: it does not begin outside of the screen,
and it ends on the screen, or it begins at 0 and there is no room to move it. -/
def Stays (pos size limit : Int) : Prop :=
  0 ≤ pos ∧ (int32 (pos + size) ≤ limit ∨ (pos = 0 ∧ int32 (limit - size - borderW) < 0))

/-- The window is neither enlarged nor moved. -/
def WindowFits (wm : WindowManager) (x y w h : Int) : Prop :=
  minWidth ≤ w ∧ minHeight ≤ h ∧ Stays x w wm.screenW ∧ Stays y h (wm.screenH - wm.taskbarH)

/-- Where `wm_create_window` puts a side of a window. -/
def settled (pos size limit : Int) : Int :=
  let p := if int32 (pos + size) > limit then int32 (limit - size - borderW) else pos
  if p < 0 then 0 else p

theorem settled_nonneg (pos size limit : Int) : 0 ≤ settled pos size limit := by
  unfold settled
  dsimp only
  split_ifs <;> omega

theorem settled_eq_iff {pos size limit : Int} (hlow : 0 ≤ limit) (hhigh : limit < 2 ^ 31) :
    settled pos size limit = pos ↔ Stays pos size limit := by
  unfold settled Stays int32 borderW
  rw [Int.bmod_def, Int.bmod_def]
  dsimp only
  split_ifs <;> omega

theorem placeWindow_snd (hscreen : Screened wm) : ∃ px py,
    (placeWindow wm x y w h).2 =
      (settled px w wm.screenW, settled py h (wm.screenH - wm.taskbarH)) ∧
    (¬ (x < 0 ∧ y < 0) → px = x ∧ py = y) := by
  have hbottom : int32 (wm.screenH - wm.taskbarH) = wm.screenH - wm.taskbarH :=
    int32_of_range (by have := hscreen.2.2.1; omega) hscreen.2.2.2
  unfold placeWindow cascadePosition
  by_cases hcascade : x < 0 ∧ y < 0
  · refine ⟨wm.nextCascadeX, wm.nextCascadeY, ?_, fun hnot => absurd hcascade hnot⟩
    rw [if_pos hcascade]
    dsimp only
    by_cases hwrap : int32 (wm.nextCascadeX + 28) > wm.screenW.tdiv 2
    · rw [if_pos hwrap]
      dsimp only
      rw [hbottom]
      rfl
    · rw [if_neg hwrap]
      dsimp only
      rw [hbottom]
      rfl
  · refine ⟨x, y, ?_, fun _ => ⟨rfl, rfl⟩⟩
    rw [if_neg hcascade]
    dsimp only
    rw [hbottom]
    rfl

theorem placeWindow_iff (hscreen : Screened wm) :
    (x, y) = (placeWindow wm x y w h).2 ↔
      Stays x w wm.screenW ∧ Stays y h (wm.screenH - wm.taskbarH) := by
  obtain ⟨px, py, hplace, hasked⟩ := placeWindow_snd (x := x) (y := y) (w := w) (h := h) hscreen
  rw [hplace, Prod.mk.injEq, eq_comm, @eq_comm _ y]
  by_cases hcascade : x < 0 ∧ y < 0
  · refine iff_of_false (fun heq => ?_) fun hstays => absurd hcascade.1 (Int.not_lt.mpr hstays.1.1)
    have := settled_nonneg px w wm.screenW
    omega
  · obtain ⟨rfl, rfl⟩ := hasked hcascade
    obtain ⟨hw, hw', hh, hh'⟩ := hscreen
    exact and_congr (settled_eq_iff hw hw') (settled_eq_iff hh hh')

theorem blur_zOrder (u : Window) : (blur id u).zOrder = u.zOrder := by
  unfold blur
  split <;> rfl

/-- The array after the focus has gone to a window added behind the others. -/
theorem addedWindow_windows {wm' : WindowManager} (hadd : wm'.windows = wm.windows ++ [v])
    (hvisible : v.visible = true) (hfresh : ∀ u ∈ wm.windows, u.id ≠ v.id) :
    (sortWindowsByZ (wmFocusWindow wm' v.id)).windows =
      sortBy Window.zOrder (wm.windows.map (blur v.id) ++ [{ v with focused := true }]) := by
  have hat : At Window.id wm'.windows v.id wm.windows v [] := ⟨hadd, rfl, hfresh⟩
  have hwindows : (wmFocusWindow wm' v.id).windows = _ :=
    congrArg Desk.windows (focusWindow_split hat hvisible)
  unfold sortWindowsByZ
  rw [hwindows]
  exact sortBy_of_sorted (sortBy_sorted _)

/-- Whether a new window has the place and the size it was asked for. -/
theorem windowFits_iff (hscreen : Screened wm) (hvw : v.w = if w < minWidth then minWidth else w)
    (hvh : v.h = if h < minHeight then minHeight else h)
    (hvpos : (v.x, v.y) = (placeWindow wm x y v.w v.h).2) :
    (v.x = x ∧ v.y = y ∧ v.w = w ∧ v.h = h) ↔ WindowFits wm x y w h := by
  have hw : v.w = w ↔ minWidth ≤ w := by
    rw [hvw]
    split_ifs <;> omega
  have hh : v.h = h ↔ minHeight ≤ h := by
    rw [hvh]
    split_ifs <;> omega
  rw [WindowFits, ← placeWindow_iff hscreen, ← hw, ← hh]
  constructor
  · rintro ⟨rfl, rfl, hw, hh⟩
    exact ⟨hw, hh, by rw [hvpos, hw, hh]⟩
  · rintro ⟨hw, hh, hpos⟩
    rw [hw, hh, ← hpos, Prod.mk.injEq] at hvpos
    exact ⟨hvpos.1, hvpos.2, hw, hh⟩

theorem windowMade_iff (owner : Option Nat) (title : Option (List UInt8)) (flags : Int)
    (hroom : wm.windows.length < maxWindows) (hscreen : Screened wm) :
    WindowMade wm owner x y w h title flags ↔
      WindowLast wm ∧ WindowFits wm x y w h ∧ (title.getD []).length ≤ titleLength := by
  obtain ⟨wm', v, hid, hvisible, -, hz, htitle, hvw, hvh, hvpos, hadd, hcreate⟩ :=
    createWindow_eq owner x y w h title flags hroom
  have hfits := windowFits_iff hscreen hvw hvh hvpos
  have hadd' : wm'.windows = wm.windows ++ [v] := congrArg Desk.windows hadd
  have hlength : (wm.windows.map (blur v.id)).length = wm.windows.length := length_map _
  unfold WindowMade
  rw [hcreate]
  constructor
  · intro ⟨slot, u, hslot, hu, hux, huy, huw, huh, hutitle, hunew⟩
    obtain rfl := Option.some.inj hslot
    -- the ids are those from before and the new one, so this is the new one
    have huid : u.id = v.id := by
      have hmem : u.id ∈ wm'.windows.map Window.id := by
        refine (focusWindow_ids wm' v.id).mem_iff.mp (mem_map_of_mem ?_)
        exact (sortBy_perm _).mem_iff.mp (mem_of_getElem? hu)
      rw [hadd', map_append, mem_append] at hmem
      rcases hmem with hold | hnew
      · obtain ⟨t, ht, hteq⟩ := mem_map.mp hold
        exact absurd hteq (hunew t ht)
      · exact mem_singleton.mp hnew
    have hfresh : ∀ t ∈ wm.windows, t.id ≠ v.id := huid ▸ hunew
    rw [addedWindow_windows hadd' hvisible hfresh, ← hlength] at hu
    have hgreatest := le_of_sortBy_last hu
    have hmem := (sortBy_perm _).mem_iff.mp (mem_of_getElem? hu)
    rcases mem_append.mp hmem with hold | hnew
    · obtain ⟨t, ht, rfl⟩ := mem_map.mp hold
      exact absurd ((blur_id t).symm.trans huid) (hfresh t ht)
    obtain rfl := mem_singleton.mp hnew
    refine ⟨fun t ht => ⟨?_, hid ▸ hfresh t ht⟩, hfits.mp ⟨hux, huy, huw, huh⟩, ?_⟩
    · have hle := hgreatest _ (mem_append_left _ (mem_map_of_mem ht))
      rw [blur_zOrder] at hle
      exact hle.trans_eq hz
    · have hlen := congrArg length (htitle.symm.trans hutitle)
      rw [length_take] at hlen
      omega
  · intro ⟨hlast, hfit, hshort⟩
    have hfresh : ∀ t ∈ wm.windows, t.id ≠ v.id := fun t ht => hid ▸ (hlast t ht).2
    obtain ⟨hvx, hvy, hvw, hvh⟩ := hfits.mpr hfit
    refine ⟨_, { v with focused := true }, rfl, ?_, hvx, hvy, hvw, hvh, ?_, hfresh⟩
    · rw [addedWindow_windows hadd' hvisible hfresh, ← hlength]
      refine sortBy_concat_last fun b hb => ?_
      obtain ⟨t, ht, rfl⟩ := mem_map.mp hb
      rw [blur_zOrder]
      exact (hlast t ht).1.trans_eq hz.symm
    · exact htitle.trans (take_of_length_le hshort)

/-- **What is returned is what was made** exactly if nothing belongs behind it: for a surface
the z orders decide, for a window the places in the stack, the room for the title and whether
it fits the screen. -/
theorem created_iff (c : Compositor) (wm : WindowManager) (owner : Option Nat) (x y w h : Int)
    (layer : SurfaceLayer) (title : Option (List UInt8)) (flags : Int) :
    (Makes c w h → (SurfaceMade c x y w h layer ↔ SurfaceLast c layer)) ∧
      (wm.windows.length < maxWindows → Screened wm →
        (WindowMade wm owner x y w h title flags ↔
          WindowLast wm ∧ WindowFits wm x y w h ∧ (title.getD []).length ≤ titleLength)) :=
  ⟨surfaceMade_iff, windowMade_iff owner title flags⟩

theorem created_first :
    SurfaceMade smallScreen 0 0 200 100 .normal ∧
      WindowMade (wmNew none 800 600) none 0 0 200 100 (some [65]) 0 := by
  obtain ⟨hsurface, hwindow⟩ :=
    created_iff smallScreen (wmNew none 800 600) none 0 0 200 100 .normal (some [65]) 0
  refine ⟨(hsurface (by decide)).mpr ?_,
    (hwindow (by decide) (by unfold Screened; decide)).mpr ⟨?_, ?_, by decide⟩⟩
  · exact fun _ ht => absurd ht not_mem_nil
  · exact fun _ hu => absurd hu not_mem_nil
  · unfold WindowFits Stays
    decide

/-- A surface made while an overlay is there, and a window made after the first two of three
windows were destroyed. -/
theorem created_behind :
    ¬ SurfaceMade (compositorCreateSurface smallScreen 0 0 1 1 .overlay).1 0 0 2 2 .normal ∧
      ∃ wm, Run.run wmStep (wmNew none 800 600)
          [.create none 0 0 200 100 none 0, .create none 0 0 200 100 none 0,
            .create none 0 0 200 100 none 0, .destroy 1, .destroy 2] = some wm ∧
        ¬ WindowMade wm none 0 0 200 100 none 0 := by
  refine ⟨?_, _, rfl, ?_⟩
  · rw [surfaceMade_iff (by decide)]
    unfold SurfaceLast
    decide
  · rw [windowMade_iff none none 0 (by decide) (by unfold Screened; decide)]
    unfold WindowLast
    exact fun hmade => absurd hmade.1 (by decide)

end Nv0ken.Graphics
