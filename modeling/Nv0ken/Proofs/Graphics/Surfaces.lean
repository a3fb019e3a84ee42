/-
What the operations of the compositor do to the surface array.

Most of them change one surface where it stands.  Creating, raising and lowering sort the
array again.  The former leave `ranks`, the ids, z orders and layers in drawing order, as
they are; the latter are given as equations on an array that is split at the surface.
-/
import Nv0ken.Graphics.Server.Compositor
import Nv0ken.Lib.Keyed
import Nv0ken.Lib.Run

namespace Nv0ken.Graphics

open Word StableSort Keyed List Option

variable {c : Compositor} {id x y w h alpha px py : Int} {r : NvRect} {idx : Nat}
  {layer : SurfaceLayer} {pre post l : List CompSurface} {a b : CompSurface}

def NvRect.Contains (r : NvRect) (px py : Int) : Prop :=
  r.x ≤ px ∧ px < r.x + r.w ∧ r.y ≤ py ∧ py < r.y + r.h

instance : Decidable (r.Contains px py) := by
  unfold NvRect.Contains
  infer_instance

/-- The operations on a compositor. -/
inductive CompOp
  | create (x y w h : Int) (layer : SurfaceLayer)
  | destroy (id : Int)
  | move (id x y : Int)
  | resize (id w h : Int)
  | setAlpha (id alpha : Int)
  | show (id : Int)
  | hide (id : Int)
  | raise (id : Int)
  | lower (id : Int)
  | damage (x y w h : Int)
  | damageSurface (id : Int)
  | composite

def compStep (c : Compositor) : CompOp → Option Compositor
  | .create x y w h layer => some (compositorCreateSurface c x y w h layer).1
  | .destroy id => some (compositorDestroySurface c id)
  | .move id x y => some (compositorMoveSurface c id x y)
  | .resize id w h => some (compositorResizeSurface c id w h)
  | .setAlpha id alpha => some (compositorSetAlpha c id alpha)
  | .show id => some (compositorShowSurface c id)
  | .hide id => some (compositorHideSurface c id)
  | .raise id => some (compositorRaiseSurface c id)
  | .lower id => some (compositorLowerSurface c id)
  | .damage x y w h => some (compositorDamage c x y w h)
  | .damageSurface id => some (compositorDamageSurface c id)
  | .composite => some (compositorComposite c)

/-- A compositor as it is made. -/
theorem compositorNew_eq {framebuffer : Int → Int → Pixel} {fbW fbH : Int} {memory : List Bool}
    (hnew : compositorNew framebuffer fbW fbH memory = some c) :
    c.surfaces = [] ∧ c.damage = [] ∧ c.fullRedraw = true ∧ c.nextId = 1 := by
  unfold compositorNew at hnew
  split at hnew
  · cases hnew
  · obtain rfl := some.inj hnew
    exact ⟨rfl, rfl, rfl, rfl⟩

/-- A screen of four by four pixels. -/
def smallScreen : Compositor :=
  { fb := { width := 4, height := 4, pixels := fun _ _ => 0 }
    back := { width := 4, height := 4, pixels := fun _ _ => 0 } }

/-! ### Damage leaves the surfaces alone -/

@[simp] theorem compositorDamage_surfaces : (compositorDamage c x y w h).surfaces = c.surfaces := by
  unfold compositorDamage
  split
  · rfl
  · split <;> rfl

@[simp] theorem damageSlot_surfaces : (damageSlot c idx).surfaces = c.surfaces := by
  unfold damageSlot
  split
  · rfl
  · exact compositorDamage_surfaces

/-! ### A surface in its slot -/

/-- The surface that a lookup of the id finds, between those before and behind it. -/
structure SurfaceAt (c : Compositor) (id : Int) (pre : List CompSurface) (a : CompSurface)
    (post : List CompSurface) : Prop where
  surfaces : c.surfaces = pre ++ a :: post
  named : a.id = id
  first : ∀ b ∈ pre, b.id ≠ id

theorem SurfaceAt.keyed (hat : SurfaceAt c id pre a post) :
    At CompSurface.id c.surfaces id pre a post :=
  ⟨hat.surfaces, hat.named, hat.first⟩

theorem SurfaceAt.found (hat : SurfaceAt c id pre a post) : findSurface c id = some pre.length :=
  hat.keyed.findIdx

theorem find_cases (c : Compositor) (id : Int) :
    (findSurface c id = none ∧ ∀ b ∈ c.surfaces, b.id ≠ id) ∨
      ∃ pre a post, SurfaceAt c id pre a post := by
  rcases findIdx_cases CompSurface.id c.surfaces id with hnone | ⟨pre, a, post, hat⟩
  · exact Or.inl hnone
  · exact Or.inr ⟨pre, a, post, hat.split, hat.named, hat.first⟩

section

variable (hat : SurfaceAt c id pre a post)
include hat

theorem SurfaceAt.mem : a ∈ c.surfaces := hat.keyed.mem

theorem SurfaceAt.rest_sublist : (pre ++ post).Sublist c.surfaces := by
  rw [hat.surfaces]
  exact (Sublist.refl pre).append (sublist_cons_self a post)

theorem SurfaceAt.slot : c.surfaces[pre.length]? = some a :=
  hat.keyed.slot

theorem SurfaceAt.modify (f : CompSurface → CompSurface) :
    c.surfaces.modify pre.length f = pre ++ f a :: post := hat.keyed.modify f

end

/-! ### The operations on a surface that is not there -/

/-- The surface an operation is about. -/
def CompOp.target : CompOp → Option Int
  | .destroy id | .move id _ _ | .resize id _ _ | .setAlpha id _ | .show id | .hide id
  | .raise id | .lower id | .damageSurface id => some id
  | .create .. | .damage .. | .composite => none

theorem compStep_absent {op : CompOp} (htarget : op.target = some id)
    (hnone : findSurface c id = none) : compStep c op = some c := by
  cases op <;> cases htarget <;> unfold compStep
  case destroy => simp [compositorDestroySurface, hnone]
  case move => simp [compositorMoveSurface, hnone]
  case resize => simp [compositorResizeSurface, hnone]
  case setAlpha => simp [compositorSetAlpha, hnone]
  case «show» => simp [compositorShowSurface, hnone]
  case hide => simp [compositorHideSurface, hnone]
  case raise => simp [compositorRaiseSurface, hnone]
  case lower => simp [compositorLowerSurface, hnone]
  case damageSurface => simp [compositorDamageSurface, hnone]

/-- An operation finds its surface, or does nothing. -/
theorem target_cases (c : Compositor) (op : CompOp) :
    compStep c op = some c ∨ ∀ id, op.target = some id →
      ∃ pre a post, SurfaceAt c id pre a post := by
  cases htarget : op.target with
  | none => exact Or.inr nofun
  | some id =>
    rcases find_cases c id with ⟨hnone, -⟩ | hfound
    · exact Or.inl (compStep_absent htarget hnone)
    · refine Or.inr fun id' hid => ?_
      obtain rfl := some.inj hid
      exact hfound

/-! ### The operations that sort -/

/-- The compositor with these surfaces, sorted. -/
def Compositor.resorted (c : Compositor) (surfaces : List CompSurface) : Compositor :=
  { c with surfaces := sortBy CompSurface.zOrder surfaces }

theorem raise_eq (hat : SurfaceAt c id pre a post) :
    compositorRaiseSurface c id =
      damageSlot (c.resorted
        (pre ++ { a with zOrder := int32 (maxZ c.surfaces a.layer + 1) } :: post)) pre.length := by
  unfold compositorRaiseSurface Compositor.setSlot sortByZ Compositor.resorted
  rw [hat.found]
  simp only
  rw [hat.modify]

theorem foldl_max_spec (l : List CompSurface) (m : Int) (layer : SurfaceLayer) :
    m ≤ l.foldl (fun max s => if s.layer = layer ∧ s.zOrder > max then s.zOrder else max) m ∧
      ∀ s ∈ l, s.layer = layer → s.zOrder ≤
        l.foldl (fun max s => if s.layer = layer ∧ s.zOrder > max then s.zOrder else max) m := by
  induction l generalizing m with
  | nil => simp
  | cons s l ih =>
    rw [foldl_cons]
    obtain ⟨hle, hall⟩ := ih (if s.layer = layer ∧ s.zOrder > m then s.zOrder else m)
    refine ⟨?_, fun t ht hlayer => ?_⟩
    · by_cases hs : s.layer = layer ∧ s.zOrder > m
      · rw [if_pos hs] at hle ⊢
        exact hs.2.le.trans hle
      · rwa [if_neg hs] at hle ⊢
    · rcases mem_cons.mp ht with rfl | ht
      · by_cases hs : t.zOrder > m
        · rw [if_pos ⟨hlayer, hs⟩] at hle ⊢
          exact hle
        · rw [if_neg fun h => hs h.2] at hle ⊢
          exact (not_lt.mp hs).trans hle
      · exact hall t ht hlayer

theorem zero_le_maxZ (l : List CompSurface) (layer : SurfaceLayer) : 0 ≤ maxZ l layer :=
  (foldl_max_spec l 0 layer).1

theorem le_maxZ (ha : a ∈ l) : a.zOrder ≤ maxZ l a.layer :=
  (foldl_max_spec l 0 a.layer).2 a ha rfl

/-- The next z order of a layer, while there is room for it. -/
theorem int32_maxZ_succ {layer : SurfaceLayer} (hroom : maxZ l layer + 1 < 2 ^ 31) :
    int32 (maxZ l layer + 1) = maxZ l layer + 1 := by
  have hpos := zero_le_maxZ l layer
  exact int32_of_range (by omega) hroom

theorem getSurface_at (hat : SurfaceAt c id pre a post) : compositorGetSurface c id = some a := by
  unfold compositorGetSurface
  rw [hat.found, bind_some, hat.slot]

/-- The z orders around a surface. -/
theorem SurfaceAt.sorted (hat : SurfaceAt c id pre a post)
    (hsorted : Sorted CompSurface.zOrder c.surfaces) :
    Sorted CompSurface.zOrder (pre ++ post) ∧ (∀ b ∈ pre, b.zOrder ≤ a.zOrder) ∧
      ∀ b ∈ post, a.zOrder ≤ b.zOrder := by
  have hrest := hsorted.sublist hat.rest_sublist
  rw [hat.surfaces] at hsorted
  refine ⟨hrest, ?_, ?_⟩
  · exact fun b hb => (pairwise_append.mp hsorted).2.2 b hb a (by simp)
  · exact (pairwise_cons.mp (pairwise_append.mp hsorted).2.1).1

section

variable (hsorted : Sorted CompSurface.zOrder c.surfaces) (hat : SurfaceAt c id pre a post)
include hsorted hat

/-- Raising moves a surface behind those that have no greater z order than its layer has. -/
theorem raise_sorted (hroom : maxZ c.surfaces a.layer + 1 < 2 ^ 31) :
    (c.resorted (pre ++ { a with zOrder := int32 (maxZ c.surfaces a.layer + 1) } ::
      post)).surfaces =
      (pre ++ post.takeWhile fun b => b.zOrder ≤ maxZ c.surfaces a.layer) ++
        { a with zOrder := int32 (maxZ c.surfaces a.layer + 1) } ::
          post.dropWhile fun b => b.zOrder ≤ maxZ c.surfaces a.layer := by
  obtain ⟨hrest, hpre, -⟩ := hat.sorted hsorted
  have ha := le_maxZ hat.mem
  have hle : ∀ b ∈ pre, b.zOrder ≤ maxZ c.surfaces a.layer + 1 := by
    intro b hb
    have hba := hpre b hb
    omega
  unfold Compositor.resorted
  rw [int32_maxZ_succ hroom]
  rw [sortBy_raise hrest hle, append_assoc]
  simp only [Int.lt_add_one_iff]

theorem raise_rest (hb : b ∈ post.dropWhile fun b => b.zOrder ≤ maxZ c.surfaces a.layer) :
    maxZ c.surfaces a.layer < b.zOrder :=
  lt_of_mem_dropWhile (pairwise_append.mp (hat.sorted hsorted).1).2.1 hb

end

theorem lower_eq (hat : SurfaceAt c id pre a post) (hz : 0 < a.zOrder) :
    compositorLowerSurface c id =
      damageSlot (c.resorted (pre ++ { a with zOrder := a.zOrder - 1 } :: post)) pre.length := by
  unfold compositorLowerSurface Compositor.setSlot sortByZ Compositor.resorted
  rw [hat.found]
  simp only
  rw [hat.slot, hat.modify, if_pos (by simpa using hz)]

theorem lower_zero (hat : SurfaceAt c id pre a post) (hz : ¬ 0 < a.zOrder) :
    compositorLowerSurface c id = c := by
  unfold compositorLowerSurface
  rw [hat.found]
  simp only
  rw [hat.slot, if_neg (by simpa using hz)]

/-- The surface that a creation puts into the array. -/
def newSurface (c : Compositor) (x y w h : Int) (layer : SurfaceLayer) : CompSurface :=
  { id := c.nextId, x := x, y := y, w := w, h := h, zOrder := layerBase layer, visible := true,
    alpha := 255, layer := layer, buffer := surfaceNew w h true, dirty := true }

/-- A surface can be made. -/
def Makes (c : Compositor) (w h : Int) : Prop :=
  c.surfaces.length < maxSurfaces ∧ 0 < w ∧ 0 < h ∧ c.granted = true

instance : Decidable (Makes c w h) := by
  unfold Makes
  infer_instance

theorem surfaceNew_granted (hw : 0 < w) (hh : 0 < h) :
    surfaceNew w h true = some { width := w, height := h, pixels := fun _ _ => 0 } := by
  unfold surfaceNew
  rw [if_neg (by simp; omega)]

theorem create_eq (hmakes : Makes c w h) :
    compositorCreateSurface c x y w h layer =
      ({ c with
          surfaces := sortBy CompSurface.zOrder (c.surfaces ++ [newSurface c x y w h layer])
          nextId := int32 (c.nextId + 1)
          memory := c.memory.tail
          fullRedraw := true },
        ((sortBy CompSurface.zOrder
          (c.surfaces ++ [newSurface c x y w h layer]))[c.surfaces.length]?.map
            CompSurface.id).getD (-1)) := by
  obtain ⟨hcount, hw, hh, hgranted⟩ := hmakes
  unfold compositorCreateSurface newSurface
  rw [if_neg (by omega), if_neg (by omega), hgranted, surfaceNew_granted hw hh]
  rfl

/-- A creation that fails leaves everything but the memory as it was. -/
theorem create_none (hmakes : ¬ Makes c w h) :
    ∃ memory, compositorCreateSurface c x y w h layer = ({ c with memory := memory }, -1) := by
  unfold compositorCreateSurface
  by_cases hcount : c.surfaces.length ≥ maxSurfaces
  · rw [if_pos hcount]
    exact ⟨_, rfl⟩
  rw [if_neg hcount]
  by_cases hsize : w ≤ 0 ∨ h ≤ 0
  · rw [if_pos hsize]
    exact ⟨_, rfl⟩
  rw [if_neg hsize]
  have hgranted : c.granted = false := by
    by_contra hgranted
    exact hmakes ⟨by omega, by omega, by omega, by simpa using hgranted⟩
  have hnone : surfaceNew w h c.granted = none := by
    unfold surfaceNew
    rw [hgranted, if_pos (by simp)]
  rw [hnone]
  exact ⟨_, rfl⟩

theorem destroy_eq (hat : SurfaceAt c id pre a post) :
    compositorDestroySurface c id =
      { damageSlot c pre.length with surfaces := pre ++ post } := by
  unfold compositorDestroySurface
  rw [hat.found]
  simp only [damageSlot_surfaces]
  rw [hat.keyed.eraseIdx]

/-! ### The operations that do not -/

/-- The compositor with these surfaces. -/
def Compositor.holding (c : Compositor) (surfaces : List CompSurface) : Compositor :=
  { c with surfaces := surfaces }

section

variable (hat : SurfaceAt c id pre a post)
include hat

theorem SurfaceAt.damaged : SurfaceAt (damageSlot c pre.length) id pre a post :=
  ⟨damageSlot_surfaces.trans hat.surfaces, hat.named, hat.first⟩

theorem SurfaceAt.setSlot (f : CompSurface → CompSurface) :
    c.setSlot pre.length f = c.holding (pre ++ f a :: post) := by
  unfold Compositor.setSlot Compositor.holding
  rw [hat.modify]

theorem move_eq :
    compositorMoveSurface c id x y =
      damageSlot ((damageSlot c pre.length).holding
        (pre ++ { a with x := x, y := y, dirty := true } :: post)) pre.length := by
  unfold compositorMoveSurface
  rw [hat.found]
  simp only
  rw [hat.damaged.setSlot]

theorem setAlpha_eq :
    compositorSetAlpha c id alpha =
      damageSlot (c.holding (pre ++ { a with alpha := clampAlpha alpha, dirty := true } :: post))
        pre.length := by
  unfold compositorSetAlpha
  rw [hat.found]
  simp only
  rw [hat.setSlot]

theorem show_eq :
    compositorShowSurface c id =
      if a.visible then c
      else damageSlot (c.holding (pre ++ { a with visible := true, dirty := true } :: post))
        pre.length := by
  unfold compositorShowSurface
  rw [hat.found]
  simp only
  rw [hat.slot, hat.setSlot]
  cases hvisible : a.visible <;> simp [hvisible]

theorem hide_eq :
    compositorHideSurface c id =
      if a.visible then
        damageSlot (c.holding (pre ++ { a with visible := false } :: post)) pre.length
      else c := by
  unfold compositorHideSurface
  rw [hat.found]
  simp only
  rw [hat.slot, hat.setSlot]
  rfl

theorem damageSurface_eq :
    compositorDamageSurface c id =
      damageSlot (c.holding (pre ++ { a with dirty := true } :: post)) pre.length := by
  unfold compositorDamageSurface
  rw [hat.found]
  simp only
  rw [hat.setSlot]

/-- A resize that gets its buffer. -/
theorem resize_eq (hw : 0 < w) (hh : 0 < h) (hgranted : c.granted = true) :
    compositorResizeSurface c id w h =
      damageSlot ((damageSlot (({ c with memory := c.memory.tail }).holding
        (pre ++ { a with buffer := surfaceNew w h true } :: post)) pre.length).holding
          (pre ++ { a with buffer := surfaceNew w h true, w := w, h := h, dirty := true } :: post))
        pre.length := by
  have hat' : SurfaceAt { c with memory := c.memory.tail } id pre a post :=
    ⟨hat.surfaces, hat.named, hat.first⟩
  have hnext : SurfaceAt (({ c with memory := c.memory.tail }).holding
      (pre ++ { a with buffer := surfaceNew w h true } :: post)) id pre
        { a with buffer := surfaceNew w h true } post :=
    ⟨rfl, hat.named, hat.first⟩
  unfold compositorResizeSurface
  rw [if_neg (by omega), hat.found]
  simp only
  rw [hat'.setSlot, hgranted, surfaceNew_granted hw hh]
  rw [surfaceNew_granted hw hh] at hnext
  simp only [isNone_some, Bool.false_eq_true, if_false]
  rw [hnext.damaged.setSlot]

/-- One that does not. -/
theorem resize_refused (hw : 0 < w) (hh : 0 < h) (hgranted : c.granted = false) :
    compositorResizeSurface c id w h =
      ({ c with memory := c.memory.tail }).holding (pre ++ { a with buffer := none } :: post) := by
  have hat' : SurfaceAt { c with memory := c.memory.tail } id pre a post :=
    ⟨hat.surfaces, hat.named, hat.first⟩
  have hnone : surfaceNew w h false = none := by
    unfold surfaceNew
    rw [if_pos (by simp)]
  unfold compositorResizeSurface
  rw [if_neg (by omega), hat.found]
  simp only
  rw [hat'.setSlot, hgranted, hnone]
  rfl

end

/-- What the order of drawing is made from. -/
def rank (s : CompSurface) : Int × Int × SurfaceLayer := (s.id, s.zOrder, s.layer)

def ranks (c : Compositor) : List (Int × Int × SurfaceLayer) := c.surfaces.map rank

theorem ranks_setSlot {f : CompSurface → CompSurface} (hf : ∀ s, rank (f s) = rank s) :
    ranks (c.setSlot idx f) = ranks c := by
  unfold ranks Compositor.setSlot
  apply ext_getElem?
  intro i
  rw [getElem?_map, getElem?_map, getElem?_modify]
  cases c.surfaces[i]? with
  | none => rfl
  | some s =>
    by_cases hi : idx = i
    · simp [hi, hf]
    · simp [hi]

@[simp] theorem ranks_damageSlot : ranks (damageSlot c idx) = ranks c := by
  unfold ranks
  rw [damageSlot_surfaces]

theorem ranks_move : ranks (compositorMoveSurface c id x y) = ranks c := by
  unfold compositorMoveSurface
  split
  · rfl
  · simp only [ranks_damageSlot]
    exact (ranks_setSlot (by intro s; rfl)).trans ranks_damageSlot

theorem ranks_resize : ranks (compositorResizeSurface c id w h) = ranks c := by
  unfold compositorResizeSurface
  split
  · rfl
  · split
    · rfl
    · simp only
      split
      · exact ranks_setSlot (by intro s; rfl)
      · rw [ranks_damageSlot]
        refine (ranks_setSlot (by intro s; rfl)).trans ?_
        rw [ranks_damageSlot]
        exact ranks_setSlot (by intro s; rfl)

theorem ranks_setAlpha : ranks (compositorSetAlpha c id alpha) = ranks c := by
  unfold compositorSetAlpha
  split
  · rfl
  · rw [ranks_damageSlot]
    exact ranks_setSlot (by intro s; rfl)

theorem ranks_show : ranks (compositorShowSurface c id) = ranks c := by
  unfold compositorShowSurface
  split
  · rfl
  · split
    · rw [ranks_damageSlot]
      exact ranks_setSlot (by intro s; rfl)
    · rfl

theorem ranks_hide : ranks (compositorHideSurface c id) = ranks c := by
  unfold compositorHideSurface
  split
  · rfl
  · split
    · rw [ranks_damageSlot]
      exact ranks_setSlot (by intro s; rfl)
    · rfl

theorem ranks_damageSurface : ranks (compositorDamageSurface c id) = ranks c := by
  unfold compositorDamageSurface
  split
  · rfl
  · rw [ranks_damageSlot]
    exact ranks_setSlot (by intro s; rfl)

section

variable {β : Type*} {f : CompSurface → β} (hf : ∀ s, f { s with dirty := false } = f s)
include hf

/-- Composing touches nothing of a surface but its dirty flag. -/
theorem compositeRegion_map (r : NvRect) :
    (compositeRegion c r).surfaces.map f = c.surfaces.map f := by
  unfold compositeRegion
  split
  · rfl
  · simp only
    split
    · rfl
    · rw [List.map_map]
      apply map_congr_left
      intro s _
      unfold drawnClean
      simp only [Function.comp_apply]
      split
      · exact hf s
      · rfl

theorem composite_map (c : Compositor) :
    (compositorComposite c).surfaces.map f = c.surfaces.map f := by
  unfold compositorComposite
  split
  · exact compositeRegion_map hf _
  · have hfold (l : List NvRect) (c : Compositor) :
        (l.foldl compositeRegion c).surfaces.map f = c.surfaces.map f := by
      induction l generalizing c with
      | nil => rfl
      | cons r l ih => rw [foldl_cons, ih, compositeRegion_map hf]
    exact hfold c.damage c

end

theorem ranks_composite : ranks (compositorComposite c) = ranks c :=
  composite_map (fun _ => rfl) c

end Nv0ken.Graphics
