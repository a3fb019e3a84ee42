/-
Damage.

What is on the screen at a pixel is decided by the surfaces drawn there and their order:
`view`.  Between two compositions every change of it has to be recorded, or the pixel is
not drawn again.  `damage_sound` says when it is.

The operations record the rectangle of the surface they change before and after, and
merging rectangles loses nothing.  Raising and lowering are different: they sort the array
and record what then stands in the surface's old slot, which is the nearest of the surfaces
it was moved past.  So the others it was moved past must not matter.  A surface that loses
its buffer to a failed resize is not recorded at all.
-/
import Nv0ken.Proofs.Graphics.Surfaces

namespace Nv0ken.Graphics

open Run Word StableSort List Option

variable {c c' : Compositor} {id x y w h px py : Int} {layer : SurfaceLayer} {idx : Nat}
  {r : NvRect} {pre post l : List CompSurface} {a b : CompSurface}

/-! ### Views -/

/-- The compositor draws the surface. -/
def Drawn (s : CompSurface) : Prop := s.visible = true ∧ s.buffer.isSome = true

instance (s : CompSurface) : Decidable (Drawn s) := by
  unfold Drawn
  infer_instance

/-- The edges are those that `composite_region` computes. -/
def Covers (s : CompSurface) (px py : Int) : Prop :=
  s.x ≤ px ∧ px < int32 (s.x + s.w) ∧ s.y ≤ py ∧ py < int32 (s.y + s.h)

instance (s : CompSurface) : Decidable (Covers s px py) := by
  unfold Covers
  infer_instance

/-- Which surface it is, which of its pixels, and how opaque. -/
def lookOf (px py : Int) (s : CompSurface) : Int × Int × Int × UInt8 :=
  (s.id, px - s.x, py - s.y, s.alpha)

/-- The surfaces drawn at a pixel, in order. -/
def looks (l : List CompSurface) (px py : Int) : List (Int × Int × Int × UInt8) :=
  (l.filter fun s => Drawn s ∧ Covers s px py).map (lookOf px py)

def view (c : Compositor) (px py : Int) : List (Int × Int × Int × UInt8) := looks c.surfaces px py

def OnScreen (c : Compositor) (px py : Int) : Prop :=
  0 ≤ px ∧ px < c.fb.width ∧ 0 ≤ py ∧ py < c.fb.height

instance : Decidable (OnScreen c px py) := by
  unfold OnScreen
  infer_instance

/-- The pixel will be drawn again. -/
def Recorded (c : Compositor) (px py : Int) : Prop :=
  c.fullRedraw = true ∨ ∃ d ∈ c.damage, d.Contains px py

instance : Decidable (Recorded c px py) := by
  unfold Recorded
  infer_instance

/-- No sum of these coordinates leaves the range of `int`, also when such rectangles are
merged. -/
def NvRect.Fits (r : NvRect) : Prop :=
  0 < r.w ∧ 0 < r.h ∧ -2 ^ 30 ≤ r.x ∧ r.x + r.w < 2 ^ 30 ∧ -2 ^ 30 ≤ r.y ∧ r.y + r.h < 2 ^ 30

instance : Decidable r.Fits := by
  unfold NvRect.Fits
  infer_instance

def CompSurface.rect (s : CompSurface) : NvRect := { x := s.x, y := s.y, w := s.w, h := s.h }

theorem covers_iff (hfits : a.rect.Fits) : Covers a px py ↔ a.rect.Contains px py := by
  obtain ⟨hw, hh, hx, hx2, hy, hy2⟩ := hfits
  unfold CompSurface.rect at hw hh hx hx2 hy hy2
  simp only at hw hh hx hx2 hy hy2
  unfold Covers NvRect.Contains CompSurface.rect
  rw [int32_of_range (by omega) (by omega), int32_of_range (by omega) (by omega)]

theorem looks_append (l l' : List CompSurface) :
    looks (l ++ l') px py = looks l px py ++ looks l' px py := by
  unfold looks
  rw [filter_append, map_append]

theorem looks_cons (a : CompSurface) (l : List CompSurface) :
    looks (a :: l) px py = looks [a] px py ++ looks l px py := looks_append [a] l

theorem looks_eq_nil (hnone : ∀ s ∈ l, ¬ (Drawn s ∧ Covers s px py)) : looks l px py = [] := by
  unfold looks
  rw [filter_eq_nil_iff.mpr (by simpa using hnone), map_nil]

/-! ### Recording a rectangle -/

theorem boundingBox_spec {d : NvRect} (hr : r.Fits) (hd : d.Fits) :
    (boundingBox r d).Fits ∧
      ∀ px py, r.Contains px py ∨ d.Contains px py → (boundingBox r d).Contains px py := by
  unfold NvRect.Fits at hr hd
  unfold boundingBox
  simp only [int32_of_range (n := d.x + d.w) (by omega) (by omega),
    int32_of_range (n := d.y + d.h) (by omega) (by omega),
    int32_of_range (n := r.x + r.w) (by omega) (by omega),
    int32_of_range (n := r.y + r.h) (by omega) (by omega)]
  generalize hox : (if r.x < d.x then r.x else d.x) = ox
  generalize hoy : (if r.y < d.y then r.y else d.y) = oy
  generalize hx2 : (if r.x + r.w > d.x + d.w then r.x + r.w else d.x + d.w) = x2
  generalize hy2 : (if r.y + r.h > d.y + d.h then r.y + r.h else d.y + d.h) = y2
  rw [int32_of_range (by omega) (by omega), int32_of_range (by omega) (by omega)]
  refine ⟨⟨?_, ?_, ?_⟩, ?_⟩
  · simp only
    omega
  · simp only
    omega
  · simp only
    omega
  · intro px py hp
    unfold NvRect.Contains at hp ⊢
    simp only
    omega

/-- No pixel is lost when the loop merges. -/
theorem mergeDamage_spec {l l' : List NvRect} (hr : r.Fits) (hl : ∀ d ∈ l, d.Fits)
    (hmerge : mergeDamage r l = some l') :
    (∀ d ∈ l', d.Fits) ∧ ∀ px py, (r.Contains px py ∨ ∃ d ∈ l, d.Contains px py) →
      ∃ d ∈ l', d.Contains px py := by
  induction l generalizing l' with
  | nil => cases hmerge
  | cons d rest ih =>
    rw [mergeDamage] at hmerge
    obtain ⟨hd, hrest⟩ := forall_mem_cons.mp hl
    split at hmerge
    · obtain rfl := some.inj hmerge
      obtain ⟨hbox, hboth⟩ := boundingBox_spec hr hd
      refine ⟨forall_mem_cons.mpr ⟨hbox, hrest⟩, fun px py hp => ?_⟩
      rcases hp with hp | ⟨e, he, hp⟩
      · exact ⟨_, mem_cons_self, hboth px py (Or.inl hp)⟩
      · rcases mem_cons.mp he with rfl | he
        · exact ⟨_, mem_cons_self, hboth px py (Or.inr hp)⟩
        · exact ⟨e, mem_cons_of_mem _ he, hp⟩
    · obtain ⟨rest', hrest', rfl⟩ := map_eq_some_iff.mp hmerge
      obtain ⟨hfits, hcover⟩ := ih hrest hrest'
      refine ⟨forall_mem_cons.mpr ⟨hd, hfits⟩, fun px py hp => ?_⟩
      have hfound (hp : r.Contains px py ∨ ∃ d ∈ rest, d.Contains px py) :
          ∃ e ∈ d :: rest', e.Contains px py := by
        obtain ⟨e, he, hp⟩ := hcover px py hp
        exact ⟨e, mem_cons_of_mem _ he, hp⟩
      rcases hp with hp | ⟨e, he, hp⟩
      · exact hfound (Or.inl hp)
      · rcases mem_cons.mp he with rfl | he
        · exact ⟨e, mem_cons_self, hp⟩
        · exact hfound (Or.inr ⟨e, he, hp⟩)

/-- **Recording a rectangle** keeps what was recorded and adds the rectangle. -/
theorem compositorDamage_spec (hr : r.Fits) (hd : ∀ d ∈ c.damage, d.Fits) :
    (∀ d ∈ (compositorDamage c r.x r.y r.w r.h).damage, d.Fits) ∧
      ∀ px py, Recorded c px py ∨ r.Contains px py →
        Recorded (compositorDamage c r.x r.y r.w r.h) px py := by
  unfold compositorDamage
  rw [if_neg (by unfold NvRect.Fits at hr; omega)]
  split
  · exact ⟨hd, fun _ _ _ => Or.inl rfl⟩
  · change (∀ d ∈ (mergeDamage r c.damage).getD (c.damage ++ [r]), d.Fits) ∧
      ∀ px py, Recorded c px py ∨ r.Contains px py →
        Recorded { c with damage := (mergeDamage r c.damage).getD (c.damage ++ [r]) } px py
    cases hmerge : mergeDamage r c.damage with
    | none =>
      refine ⟨?_, fun px py hp => ?_⟩
      · intro d hmem
        rcases mem_append.mp hmem with hmem | hmem
        · exact hd d hmem
        · exact mem_singleton.mp hmem ▸ hr
      · rcases hp with (hfull | ⟨d, hmem, hp⟩) | hp
        · exact Or.inl hfull
        · exact Or.inr ⟨d, mem_append_left _ hmem, hp⟩
        · exact Or.inr ⟨r, mem_append_right _ (mem_singleton_self r), hp⟩
    | some l =>
      obtain ⟨hfits, hcover⟩ := mergeDamage_spec hr hd hmerge
      refine ⟨hfits, fun px py hp => ?_⟩
      rcases hp with (hfull | hmem) | hp
      · exact Or.inl hfull
      · exact Or.inr (hcover px py (Or.inr hmem))
      · exact Or.inr (hcover px py (Or.inl hp))

theorem compositorDamage_fb : (compositorDamage c x y w h).fb = c.fb := by
  unfold compositorDamage
  split
  · rfl
  · split <;> rfl

theorem damageSlot_fb : (damageSlot c idx).fb = c.fb := by
  unfold damageSlot
  split
  · rfl
  · exact compositorDamage_fb

/-- Recording what stands in a slot. -/
theorem damageSlot_spec (hslot : c.surfaces[idx]? = some a) (ha : a.rect.Fits)
    (hd : ∀ d ∈ c.damage, d.Fits) :
    (∀ d ∈ (damageSlot c idx).damage, d.Fits) ∧
      ∀ px py, Recorded c px py ∨ a.rect.Contains px py → Recorded (damageSlot c idx) px py := by
  unfold damageSlot
  rw [hslot]
  exact compositorDamage_spec ha hd

/-! ### Steps -/

structure DamageInv (c : Compositor) : Prop where
  sorted : Sorted CompSurface.zOrder c.surfaces
  fits : ∀ s ∈ c.surfaces, s.rect.Fits
  damage : ∀ d ∈ c.damage, d.Fits

/-- What is recorded stays so, and what changes on the screen is recorded. -/
structure SoundStep (c c' : Compositor) : Prop where
  fb : c'.fb = c.fb
  keeps : ∀ px py, Recorded c px py → Recorded c' px py
  changed : ∀ px py, OnScreen c px py → view c' px py ≠ view c px py → Recorded c' px py

theorem SoundStep.refl (c : Compositor) : SoundStep c c :=
  ⟨rfl, fun _ _ hp => hp, fun _ _ _ hne => absurd rfl hne⟩

variable {a' : CompSurface} {m : List CompSurface} {z : Int}

/-- One surface changed where it stands. -/
theorem soundStep_slot (hsurfaces : c.surfaces = pre ++ a :: post)
    (hsurfaces' : c'.surfaces = pre ++ a' :: post) (hfb : c'.fb = c.fb)
    (hkeeps : ∀ px py, Recorded c px py → Recorded c' px py)
    (hold : ∀ px py, OnScreen c px py → Drawn a → Covers a px py → Recorded c' px py)
    (hnew : ∀ px py, Drawn a' → Covers a' px py → Recorded c' px py) : SoundStep c c' := by
  refine ⟨hfb, hkeeps, fun px py hscreen hne => ?_⟩
  by_cases ha : Drawn a ∧ Covers a px py
  · exact hold px py hscreen ha.1 ha.2
  by_cases ha' : Drawn a' ∧ Covers a' px py
  · exact hnew px py ha'.1 ha'.2
  refine absurd ?_ hne
  unfold view
  rw [hsurfaces, hsurfaces', looks_append, looks_append, looks_cons a, looks_cons a',
    looks_eq_nil (l := [a]) (by simpa using ha), looks_eq_nil (l := [a']) (by simpa using ha')]

section

variable (hinv : DamageInv c)
include hinv

theorem fits_slot (hsurfaces : c.surfaces = pre ++ a :: post) (hfits : a'.rect.Fits) :
    ∀ s ∈ pre ++ a' :: post, s.rect.Fits := by
  have hall := hinv.fits
  rw [hsurfaces, forall_mem_append, forall_mem_cons] at hall
  exact forall_mem_append.mpr ⟨hall.1, forall_mem_cons.mpr ⟨hfits, hall.2.2⟩⟩

/-- One surface changed where it stands and recorded afterwards.  Its old rectangle was
recorded before, or is still the same. -/
theorem slot_recorded {c₁ : Compositor} (hsurfaces : c.surfaces = pre ++ a :: post)
    (hz : a'.zOrder = a.zOrder) (hfits : a'.rect.Fits) (hfb : c₁.fb = c.fb)
    (hd : ∀ d ∈ c₁.damage, d.Fits) (hkeeps : ∀ px py, Recorded c px py → Recorded c₁ px py)
    (hold : ∀ px py, a.rect.Contains px py → Recorded c₁ px py ∨ a'.rect.Contains px py) :
    DamageInv (damageSlot (c₁.holding (pre ++ a' :: post)) pre.length) ∧
      SoundStep c (damageSlot (c₁.holding (pre ++ a' :: post)) pre.length) := by
  have hslot : (c₁.holding (pre ++ a' :: post)).surfaces[pre.length]? = some a' := by
    simp [Compositor.holding]
  obtain ⟨hd', hrecorded⟩ := damageSlot_spec hslot hfits hd
  refine ⟨⟨?_, ?_, hd'⟩, soundStep_slot hsurfaces (damageSlot_surfaces.trans rfl)
    (damageSlot_fb.trans hfb) (fun px py hp => hrecorded px py (Or.inl (hkeeps px py hp))) ?_ ?_⟩
  · have hsorted := hinv.sorted
    rw [hsurfaces, sorted_iff_map, map_append] at hsorted
    rw [damageSlot_surfaces, Compositor.holding, sorted_iff_map, map_append, map_cons, hz]
    exact hsorted
  · rw [damageSlot_surfaces]
    exact fits_slot hinv hsurfaces hfits
  · intro px py _ _ hcovers
    rw [covers_iff (hinv.fits a (by simp [hsurfaces]))] at hcovers
    exact hrecorded px py (hold px py hcovers)
  · intro px py _ hcovers
    rw [covers_iff hfits] at hcovers
    exact hrecorded px py (Or.inr hcovers)

section

variable (hat : SurfaceAt c id pre a post)
include hat

/-- The same when the rectangle stays. -/
theorem slot_recorded_same (hz : a'.zOrder = a.zOrder) (hrect : a'.rect = a.rect) :
    DamageInv (damageSlot (c.holding (pre ++ a' :: post)) pre.length) ∧
      SoundStep c (damageSlot (c.holding (pre ++ a' :: post)) pre.length) :=
  slot_recorded hinv hat.surfaces hz (hrect ▸ hinv.fits a hat.mem) rfl hinv.damage
    (fun _ _ hp => hp) fun _ _ hp => Or.inr (hrect ▸ hp)

theorem sound_move (hfits : NvRect.Fits { x := x, y := y, w := a.w, h := a.h }) :
    DamageInv (compositorMoveSurface c id x y) ∧ SoundStep c (compositorMoveSurface c id x y) := by
  obtain ⟨hd, hrecorded⟩ := damageSlot_spec hat.slot (hinv.fits a hat.mem) hinv.damage
  rw [move_eq hat]
  exact slot_recorded hinv hat.surfaces rfl hfits damageSlot_fb hd
    (fun px py hp => hrecorded px py (Or.inl hp)) fun px py hp =>
      Or.inl (hrecorded px py (Or.inr hp))

theorem sound_resize (hw : 0 < w) (hh : 0 < h) (hgranted : c.granted = true)
    (hfits : NvRect.Fits { x := a.x, y := a.y, w := w, h := h }) :
    DamageInv (compositorResizeSurface c id w h) ∧
      SoundStep c (compositorResizeSurface c id w h) := by
  have hnext : SurfaceAt (({ c with memory := c.memory.tail }).holding
      (pre ++ { a with buffer := surfaceNew w h true } :: post)) id pre
        { a with buffer := surfaceNew w h true } post :=
    ⟨rfl, hat.named, hat.first⟩
  have ha : (CompSurface.rect { a with buffer := surfaceNew w h true }).Fits := hinv.fits a hat.mem
  obtain ⟨hd, hrecorded⟩ := damageSlot_spec hnext.slot ha hinv.damage
  rw [resize_eq hat hw hh hgranted]
  exact slot_recorded hinv hat.surfaces rfl hfits damageSlot_fb hd
    (fun px py hp => hrecorded px py (Or.inl hp)) fun px py hp =>
      Or.inl (hrecorded px py (Or.inr hp))

/-- The surface without a buffer is no longer drawn. -/
theorem sound_resize_refused (hw : 0 < w) (hh : 0 < h) (hgranted : c.granted = false)
    (hgone : Drawn a → ∀ px py, OnScreen c px py → Covers a px py → Recorded c px py) :
    DamageInv (compositorResizeSurface c id w h) ∧
      SoundStep c (compositorResizeSurface c id w h) := by
  rw [resize_refused hat hw hh hgranted]
  refine ⟨⟨?_, fits_slot hinv hat.surfaces (hinv.fits a hat.mem), hinv.damage⟩, ?_⟩
  · have hsorted := hinv.sorted
    rw [hat.surfaces, sorted_iff_map, map_append] at hsorted
    rw [Compositor.holding, sorted_iff_map, map_append]
    exact hsorted
  · refine soundStep_slot hat.surfaces rfl rfl (fun _ _ hp => hp) ?_ ?_
    · exact fun px py hscreen hdrawn hcovers => hgone hdrawn px py hscreen hcovers
    · exact fun px py hdrawn _ => absurd hdrawn.2 (by simp)

theorem sound_destroy :
    DamageInv (compositorDestroySurface c id) ∧ SoundStep c (compositorDestroySurface c id) := by
  have ha : a.rect.Fits := hinv.fits a hat.mem
  obtain ⟨hd, hrecorded⟩ := damageSlot_spec hat.slot ha hinv.damage
  have hsub := hat.rest_sublist
  rw [destroy_eq hat]
  refine ⟨⟨hinv.sorted.sublist hsub, fun s hs => hinv.fits s (hsub.subset hs), hd⟩,
    damageSlot_fb, fun px py hp => hrecorded px py (Or.inl hp), fun px py _ hne => ?_⟩
  by_cases hcovers : Drawn a ∧ Covers a px py
  · exact hrecorded px py (Or.inr ((covers_iff ha).mp hcovers.2))
  · refine absurd ?_ hne
    unfold view
    rw [hat.surfaces, looks_append, looks_append, looks_cons a,
      looks_eq_nil (l := [a]) (by simpa using hcovers)]
    rfl

end

end

/-! ### Moving past other surfaces -/

/-- The surfaces that raising moves `a` past, the nearest first. -/
def passedByRaise (c : Compositor) (idx : Nat) (a : CompSurface) : List CompSurface :=
  (c.surfaces.drop (idx + 1)).takeWhile fun b => b.zOrder ≤ maxZ c.surfaces a.layer

/-- The same for lowering. -/
def passedByLower (c : Compositor) (idx : Nat) (a : CompSurface) : List CompSurface :=
  (c.surfaces.take idx).reverse.takeWhile fun b => a.zOrder - 1 < b.zOrder

/-- Wherever `a` changes places with another than the nearest surface, the nearest one is
there too, or the pixel is recorded already. -/
def NearestHides (c : Compositor) (a : CompSurface) (passed : List CompSurface) : Prop :=
  ∀ near others, passed = near :: others → Drawn a → ∀ b ∈ others, Drawn b →
    ∀ px py, OnScreen c px py → Covers a px py → Covers b px py →
      Covers near px py ∨ Recorded c px py

theorem looks_setZ (z : Int) : looks [{ a with zOrder := z }] px py = looks [a] px py := by
  unfold looks
  by_cases ha : Drawn a ∧ Covers a px py
  · have ha' : Drawn { a with zOrder := z } ∧ Covers { a with zOrder := z } px py := ha
    rw [filter_singleton, filter_singleton, decide_eq_true ha, decide_eq_true ha']
    rfl
  · have ha' : ¬ (Drawn { a with zOrder := z } ∧ Covers { a with zOrder := z } px py) := ha
    rw [filter_singleton, filter_singleton, decide_eq_false ha, decide_eq_false ha']
    rfl

/-- Changing places shows only where both are drawn. -/
theorem looks_swap (hlook : looks [a'] px py = looks [a] px py)
    (hapart : ¬ (Drawn a ∧ Covers a px py) ∨ ∀ b ∈ m, ¬ (Drawn b ∧ Covers b px py)) :
    looks (m ++ [a']) px py = looks (a :: m) px py := by
  rw [looks_append, looks_cons a m, hlook]
  rcases hapart with ha | hm
  · rw [looks_eq_nil (l := [a]) (by simpa using ha), append_nil, nil_append]
  · rw [looks_eq_nil hm, append_nil, nil_append]

/-- The array sorted again, `a` moved past the surfaces of `m`, and the slot recorded in
which the nearest of them now stands. -/
theorem pass_recorded (slot : CompSurface) (hinv : DamageInv c) (hfits : ∀ s ∈ l, s.rect.Fits)
    (hslot : (c.resorted l).surfaces[idx]? = some slot)
    (hhead : ∀ near others, m = near :: others → slot = near) (hnear : NearestHides c a m)
    (hview : ∀ px py, (¬ (Drawn a ∧ Covers a px py) ∨ ∀ b ∈ m, ¬ (Drawn b ∧ Covers b px py)) →
      view (c.resorted l) px py = view c px py) :
    DamageInv (damageSlot (c.resorted l) idx) ∧ SoundStep c (damageSlot (c.resorted l) idx) := by
  have hfits' : ∀ s ∈ (c.resorted l).surfaces, s.rect.Fits :=
    fun s hs => hfits s ((sortBy_perm l).mem_iff.mp hs)
  have hslotFits : slot.rect.Fits := hfits' slot (mem_of_getElem? hslot)
  obtain ⟨hd, hrecorded⟩ := damageSlot_spec hslot hslotFits hinv.damage
  refine ⟨⟨?_, ?_, hd⟩, damageSlot_fb, fun px py hp => hrecorded px py (Or.inl hp),
    fun px py hscreen hne => ?_⟩
  · rw [damageSlot_surfaces]
    exact sortBy_sorted l
  · rw [damageSlot_surfaces]
    exact hfits'
  -- a pixel that looks different shows `a` and one of those it passed
  by_contra hnot
  refine hne ?_
  have hsame : view (damageSlot (c.resorted l) idx) px py = view (c.resorted l) px py := by
    unfold view
    rw [damageSlot_surfaces]
  rw [hsame]
  apply hview
  by_contra hboth
  rw [not_or, not_not] at hboth
  obtain ⟨ha, hm⟩ := hboth
  push Not at hm
  obtain ⟨b, hb, hdrawn, hcovers⟩ := hm
  cases hcases : m with
  | nil => simp [hcases] at hb
  | cons near others =>
    obtain rfl := hhead near others hcases
    rw [hcases] at hb
    have hor : Covers slot px py ∨ Recorded c px py := by
      rcases mem_cons.mp hb with rfl | hb
      · exact Or.inl hcovers
      · exact hnear slot others hcases ha.1 b hb hdrawn px py hscreen ha.2 hcovers
    rcases hor with hcovers | hp
    · exact hnot (hrecorded px py (Or.inr ((covers_iff hslotFits).mp hcovers)))
    · exact hnot (hrecorded px py (Or.inl hp))

section

variable (hinv : DamageInv c)
include hinv

/-- Moved up past the surfaces of `m`. -/
theorem pass_up {rest : List CompSurface} (hat : SurfaceAt c id pre a (m ++ rest))
    (hnear : NearestHides c a m)
    (hsorted : (c.resorted (pre ++ { a with zOrder := z } :: (m ++ rest))).surfaces =
      (pre ++ m) ++ { a with zOrder := z } :: rest) :
    let c' := damageSlot (c.resorted (pre ++ { a with zOrder := z } :: (m ++ rest))) pre.length
    DamageInv c' ∧ SoundStep c c' := by
  refine pass_recorded (m := m) (m.headD { a with zOrder := z }) hinv
    (fits_slot hinv hat.surfaces (hinv.fits a hat.mem))
    ?_ ?_ hnear fun px py hapart => ?_
  · rw [hsorted]
    cases m <;> simp
  · rintro near others rfl
    rfl
  · have hswap : looks (m ++ [{ a with zOrder := z }]) px py = looks (a :: m) px py :=
      looks_swap (looks_setZ z) hapart
    unfold view
    rw [hsorted, hat.surfaces, append_assoc, ← singleton_append, ← append_assoc m,
      looks_append, looks_append, hswap, ← looks_append, ← looks_append]
    simp

theorem sound_raise (hat : SurfaceAt c id pre a post) (hroom : maxZ c.surfaces a.layer + 1 < 2 ^ 31)
    (hnear : NearestHides c a (passedByRaise c pre.length a)) :
    DamageInv (compositorRaiseSurface c id) ∧ SoundStep c (compositorRaiseSurface c id) := by
  have hpassed : passedByRaise c pre.length a =
      post.takeWhile fun b => b.zOrder ≤ maxZ c.surfaces a.layer := by
    unfold passedByRaise
    rw [hat.surfaces]
    simp
  have hraised := raise_sorted hinv.sorted hat hroom
  rw [hpassed] at hnear
  rw [raise_eq hat]
  obtain ⟨m, rest, rfl, hm, hrest⟩ : ∃ m rest, post = m ++ rest ∧
      post.takeWhile (fun b => b.zOrder ≤ maxZ c.surfaces a.layer) = m ∧
        post.dropWhile (fun b => b.zOrder ≤ maxZ c.surfaces a.layer) = rest :=
    ⟨_, _, takeWhile_append_dropWhile.symm, rfl, rfl⟩
  rw [hm, hrest] at hraised
  rw [hm] at hnear
  exact pass_up hinv hat hnear hraised

/-- Moved down past the surfaces of `m`, the nearest of which is the last. -/
theorem pass_down {front : List CompSurface} (hat : SurfaceAt c id (front ++ m) a post)
    (hnear : NearestHides c a m.reverse)
    (hsorted : (c.resorted ((front ++ m) ++ { a with zOrder := z } :: post)).surfaces =
      (front ++ { a with zOrder := z } :: m) ++ post) :
    let c' := damageSlot (c.resorted ((front ++ m) ++ { a with zOrder := z } :: post))
      (front ++ m).length
    DamageInv c' ∧ SoundStep c c' := by
  refine pass_recorded (m := m.reverse) (m.getLastD { a with zOrder := z }) hinv
    (fits_slot hinv hat.surfaces (hinv.fits a hat.mem))
    ?_ ?_ hnear fun px py hapart => ?_
  · rw [hsorted]
    rcases eq_nil_or_concat m with rfl | ⟨m, near, rfl⟩ <;> simp
  · intro near others hm
    obtain rfl : m = others.reverse ++ [near] := by
      rw [← reverse_reverse m, hm, reverse_cons]
    simp
  · have hswap : looks (m ++ [a]) px py = looks ({ a with zOrder := z } :: m) px py := by
      refine looks_swap (looks_setZ z).symm ?_
      simpa [Drawn, Covers] using hapart
    unfold view
    rw [hsorted, hat.surfaces, append_assoc, append_assoc, ← singleton_append (x := a),
      ← append_assoc m, looks_append, looks_append, looks_append, looks_append, hswap]

theorem sound_lower (hat : SurfaceAt c id pre a post) (hz : 0 < a.zOrder)
    (hnear : NearestHides c a (passedByLower c pre.length a)) :
    DamageInv (compositorLowerSurface c id) ∧ SoundStep c (compositorLowerSurface c id) := by
  obtain ⟨hrest, -, hpost⟩ := hat.sorted hinv.sorted
  have hsorted : (c.resorted (pre ++ { a with zOrder := a.zOrder - 1 } :: post)).surfaces =
      insertLast CompSurface.zOrder pre { a with zOrder := a.zOrder - 1 } ++ post := by
    refine sortBy_lower hrest fun b hb => ?_
    have hab := hpost b hb
    simp only
    omega
  have hpassed : passedByLower c pre.length a =
      (pre.rtakeWhile fun b => a.zOrder - 1 < b.zOrder).reverse := by
    unfold passedByLower rtakeWhile
    rw [hat.surfaces]
    simp
  rw [hpassed] at hnear
  rw [lower_eq hat hz]
  unfold insertLast at hsorted
  obtain ⟨front, m, rfl, hfront, hm⟩ : ∃ front m, pre = front ++ m ∧
      pre.rdropWhile (fun b => a.zOrder - 1 < b.zOrder) = front ∧
        pre.rtakeWhile (fun b => a.zOrder - 1 < b.zOrder) = m :=
    ⟨_, _, (rdropWhile_append_rtakeWhile _ pre).symm, rfl, rfl⟩
  rw [hm] at hnear
  simp only [hfront, hm] at hsorted
  exact pass_down hinv hat hnear hsorted

end

/-! ### Whole runs -/

/-- The step computes no coordinate out of range, a surface that is drawn gets the buffer it
asks for, and one that is moved past others is hidden as `NearestHides` says. -/
def DamageSafe (c : Compositor) : CompOp → Prop
  | .create x y w h _ => Makes c w h → NvRect.Fits { x := x, y := y, w := w, h := h }
  | .move id x y => ∀ a, compositorGetSurface c id = some a →
      NvRect.Fits { x := x, y := y, w := a.w, h := a.h }
  | .resize id w h => 0 < w → 0 < h → ∀ a, compositorGetSurface c id = some a →
      if c.granted then NvRect.Fits { x := a.x, y := a.y, w := w, h := h }
      else Drawn a → ∀ px py, OnScreen c px py → Covers a px py → Recorded c px py
  | .raise id => ∀ idx a, findSurface c id = some idx → c.surfaces[idx]? = some a →
      maxZ c.surfaces a.layer + 1 < 2 ^ 31 ∧ NearestHides c a (passedByRaise c idx a)
  | .lower id => ∀ idx a, findSurface c id = some idx → c.surfaces[idx]? = some a →
      0 < a.zOrder → NearestHides c a (passedByLower c idx a)
  | .damage x y w h => 0 < w → 0 < h → NvRect.Fits { x := x, y := y, w := w, h := h }
  | _ => True

theorem sound_create (hinv : DamageInv c) (hsafe : DamageSafe c (.create x y w h layer)) :
    DamageInv (compositorCreateSurface c x y w h layer).1 ∧
      SoundStep c (compositorCreateSurface c x y w h layer).1 := by
  by_cases hmakes : Makes c w h
  · rw [create_eq hmakes]
    refine ⟨⟨sortBy_sorted _, fun s hs => ?_, hinv.damage⟩, rfl, fun _ _ _ => Or.inl rfl,
      fun _ _ _ _ => Or.inl rfl⟩
    rcases mem_append.mp ((sortBy_perm _).mem_iff.mp hs) with hs | hs
    · exact hinv.fits s hs
    · exact mem_singleton.mp hs ▸ hsafe hmakes
  · obtain ⟨memory, hnone⟩ := create_none hmakes
    rw [hnone]
    exact ⟨⟨hinv.sorted, hinv.fits, hinv.damage⟩, rfl, fun _ _ hp => hp,
      fun _ _ _ hne => absurd rfl hne⟩

theorem sound_damage (hinv : DamageInv c) (hsafe : DamageSafe c (.damage x y w h)) :
    DamageInv (compositorDamage c x y w h) ∧ SoundStep c (compositorDamage c x y w h) := by
  by_cases hsize : 0 < w ∧ 0 < h
  · obtain ⟨hd, hrecorded⟩ := compositorDamage_spec (hsafe hsize.1 hsize.2) hinv.damage
    refine ⟨⟨?_, ?_, hd⟩, ?_, fun px py hp => hrecorded px py (Or.inl hp), ?_⟩
    · rw [compositorDamage_surfaces]
      exact hinv.sorted
    · rw [compositorDamage_surfaces]
      exact hinv.fits
    · exact compositorDamage_fb
    · intro px py _ hne
      refine absurd ?_ hne
      unfold view
      rw [compositorDamage_surfaces]
  · have hsame : compositorDamage c x y w h = c := by
      unfold compositorDamage
      rw [if_pos (by omega)]
    rw [hsame]
    exact ⟨hinv, SoundStep.refl c⟩

theorem sound_step (op : CompOp) (hop : op ≠ .composite) (hinv : DamageInv c)
    (hsafe : DamageSafe c op) (hstep : compStep c op = some c') :
    DamageInv c' ∧ SoundStep c c' := by
  rcases target_cases c op with hsame | hfound
  · obtain rfl := some.inj (hsame.symm.trans hstep)
    exact ⟨hinv, SoundStep.refl c⟩
  cases op <;> obtain rfl := some.inj hstep
  -- where the call is for a surface, this is the surface
  all_goals try obtain ⟨pre, a, post, hat⟩ := hfound _ rfl
  case create x y w h layer => exact sound_create hinv hsafe
  case destroy id =>
    exact sound_destroy hinv hat
  case move id x y =>
    exact sound_move hinv hat (hsafe a (getSurface_at hat))
  case resize id w h =>
    by_cases hsize : 0 < w ∧ 0 < h
    · have hsafe := hsafe hsize.1 hsize.2 a (getSurface_at hat)
      by_cases hgranted : c.granted = true
      · rw [if_pos hgranted] at hsafe
        exact sound_resize hinv hat hsize.1 hsize.2 hgranted hsafe
      · rw [if_neg hgranted] at hsafe
        exact sound_resize_refused hinv hat hsize.1 hsize.2 (by simpa using hgranted) hsafe
    · have hsame : compositorResizeSurface c id w h = c := by
        unfold compositorResizeSurface
        rw [if_pos (by omega)]
      rw [hsame]
      exact ⟨hinv, SoundStep.refl c⟩
  case setAlpha id alpha =>
    rw [setAlpha_eq hat]
    exact slot_recorded_same hinv hat rfl rfl
  case «show» id =>
    rw [show_eq hat]
    split
    · exact ⟨hinv, SoundStep.refl c⟩
    · exact slot_recorded_same hinv hat rfl rfl
  case hide id =>
    rw [hide_eq hat]
    split
    · exact slot_recorded_same hinv hat rfl rfl
    · exact ⟨hinv, SoundStep.refl c⟩
  case raise id =>
    obtain ⟨hroom, hnear⟩ := hsafe pre.length a hat.found hat.slot
    exact sound_raise hinv hat hroom hnear
  case lower id =>
    by_cases hz : 0 < a.zOrder
    · exact sound_lower hinv hat hz (hsafe pre.length a hat.found hat.slot hz)
    · rw [lower_zero hat hz]
      exact ⟨hinv, SoundStep.refl c⟩
  case damage x y w h => exact sound_damage hinv hsafe
  case damageSurface id =>
    rw [damageSurface_eq hat]
    exact slot_recorded_same hinv hat rfl rfl
  case composite => exact absurd rfl hop

/-- A compositor and what it was when it last composed the screen. -/
structure Scene where
  comp : Compositor
  shown : Compositor

def sceneStep (s : Scene) : CompOp → Option Scene
  | .composite => some { comp := compositorComposite s.comp, shown := compositorComposite s.comp }
  | op => (compStep s.comp op).map fun c => { s with comp := c }

theorem sceneStep_of_ne {s : Scene} {op : CompOp} (hop : op ≠ .composite) :
    sceneStep s op = (compStep s.comp op).map fun c => { s with comp := c } := by
  cases op <;> first | rfl | exact absurd rfl hop

/-- Every pixel of the screen that would look different is recorded. -/
def DamageSound (s : Scene) : Prop :=
  ∀ px py, OnScreen s.comp px py → view s.comp px py ≠ view s.shown px py → Recorded s.comp px py

theorem damageInv_composite (hinv : DamageInv c) : DamageInv (compositorComposite c) := by
  refine ⟨?_, fun s hs => ?_, fun d hd => ?_⟩
  · rw [sorted_iff_map, composite_map (fun _ => rfl) c, ← sorted_iff_map]
    exact hinv.sorted
  · have hmem : s.rect ∈ (compositorComposite c).surfaces.map CompSurface.rect := mem_map_of_mem hs
    rw [composite_map (fun _ => rfl) c] at hmem
    obtain ⟨s', hs', hrect⟩ := mem_map.mp hmem
    exact hrect ▸ hinv.fits s' hs'
  · unfold compositorComposite at hd
    split at hd <;> cases hd

theorem DamageSound.step {s : Scene} (hsound : DamageSound s) (hstep : SoundStep s.comp c') :
    DamageSound { s with comp := c' } := by
  intro px py hscreen hne
  have hscreen : OnScreen s.comp px py := by
    unfold OnScreen at hscreen ⊢
    rwa [← hstep.fb]
  by_cases hsame : view c' px py = view s.comp px py
  · exact hstep.keeps px py (hsound px py hscreen (hsame ▸ hne))
  · exact hstep.changed px py hscreen hsame

theorem damage_step (s : Scene) (op : CompOp) (s' : Scene) (hinv : DamageInv s.comp ∧ DamageSound s)
    (hsafe : DamageSafe s.comp op) (hstep : sceneStep s op = some s') :
    DamageInv s'.comp ∧ DamageSound s' := by
  by_cases hop : op = .composite
  · subst hop
    obtain rfl := some.inj hstep
    exact ⟨damageInv_composite hinv.1, fun _ _ _ hne => absurd rfl hne⟩
  · rw [sceneStep_of_ne hop] at hstep
    obtain ⟨c, hc, rfl⟩ := map_eq_some_iff.mp hstep
    obtain ⟨hinv', hsound⟩ := sound_step op hop hinv.1 hsafe hc
    exact ⟨hinv', hinv.2.step hsound⟩

/-- **When damage is recorded.**  In every run of a compositor whose steps are safe, every
pixel of the screen at which the surfaces drawn, their order, places or opacities differ
from those at the last composition is recorded. -/
theorem damage_sound {framebuffer : Int → Int → Pixel} {fbW fbH : Int} {memory : List Bool}
    (hnew : compositorNew framebuffer fbW fbH memory = some c) (ops : List CompOp)
    (hsafe : Along sceneStep (fun s op => DamageSafe s.comp op) { comp := c, shown := c } ops) :
    Throughout sceneStep DamageSound { comp := c, shown := c } ops := by
  obtain ⟨hempty, hdamage, -⟩ := compositorNew_eq hnew
  have hstart : DamageInv c ∧ DamageSound { comp := c, shown := c } :=
    ⟨⟨by simp [hempty, Sorted], by simp [hempty], by simp [hdamage]⟩,
      fun _ _ _ hne => absurd rfl hne⟩
  exact (along_throughout damage_step hstart hsafe).mono fun s h => h.2

/-- The lower of two surfaces is moved and raised, and then hidden. -/
def rearranged : List CompOp :=
  [.create 0 0 2 2 .normal, .create 1 1 2 2 .normal, .composite, .move 1 1 0, .raise 1, .hide 1]

theorem damage_sound_rearranged :
    Throughout sceneStep DamageSound { comp := smallScreen, shown := smallScreen } rearranged := by
  refine damage_sound (show compositorNew (fun _ _ => 0) 4 4 [] = some smallScreen from rfl) _ ?_
  refine ⟨fun _ => by decide, fun s hs => ⟨fun _ => by decide, fun s' hs' => ⟨trivial, ?_⟩⟩⟩
  obtain rfl := some.inj hs
  obtain rfl := some.inj hs'
  intro s hs
  obtain rfl := some.inj hs
  refine ⟨fun a ha => ?_, fun s hs => ⟨fun idx a hidx ha => ?_, fun _ _ => ⟨trivial, ?_⟩⟩⟩
  · obtain rfl := some.inj ha
    decide
  · obtain rfl := some.inj hs
    obtain rfl := some.inj hidx
    obtain rfl := some.inj ha
    exact ⟨by decide, by rintro near others ⟨⟩ - b ⟨⟩⟩
  · exact fun _ _ => trivial

/-- The first of three surfaces is raised over a second that lies elsewhere and a third it
overlaps: only the place of the second is recorded. -/
theorem raise_unrecorded :
    ¬ Throughout sceneStep DamageSound { comp := smallScreen, shown := smallScreen }
      [.create 0 0 2 2 .normal, .create 2 2 1 1 .normal, .create 0 0 1 1 .normal, .composite,
        .raise 1] := by
  intro hall
  have hend : ∃ s, run sceneStep { comp := smallScreen, shown := smallScreen }
      [.create 0 0 2 2 .normal, .create 2 2 1 1 .normal, .create 0 0 1 1 .normal, .composite,
        .raise 1] = some s ∧ OnScreen s.comp 0 0 ∧ view s.comp 0 0 ≠ view s.shown 0 0 ∧
          ¬ Recorded s.comp 0 0 :=
    ⟨_, rfl, by decide +kernel, by decide +kernel, by decide +kernel⟩
  obtain ⟨s, hrun, hscreen, hview, hnot⟩ := hend
  exact hnot (hall.last hrun 0 0 hscreen hview)

end Nv0ken.Graphics
