/-
Composing a region of the screen.

Each surface does one of three things to a pixel: it leaves it, covers it or tints it
(`strokeAt`).  The pass begins with the background colour, 0x1A1A2EFF.  Its top byte, the
opacity, is 0x1A, so the fill only tints what the back buffer held before; whether that can
still be seen at the end depends on what is drawn over it.

All of this is monotone in the old pixel, so it is enough to look at the two extreme ones:
`composite_independent_iff`.
-/
import Nv0ken.Proofs.Graphics.Blit
import Nv0ken.Proofs.Graphics.Color

namespace Nv0ken.Graphics

open Word List

variable {c : Compositor} {r : NvRect} {s : CompSurface} {back : NvSurface} {px py : Int}
  {d e : Pixel}

/-! ### Strokes -/

/-- What drawing a surface does to a pixel. -/
inductive Stroke
  | keep
  | cover (p : Pixel)
  | tint (p : Pixel)

def Stroke.apply : Stroke → Pixel → Pixel
  | .keep, d => d
  | .cover p, _ => p
  | .tint p, d => colorBlend d p

/-- The strokes one after another. -/
def paint (strokes : List Stroke) (d : Pixel) : Pixel :=
  strokes.foldl (fun d stroke => stroke.apply d) d

/-- The stroke of a surface at a pixel of a buffer of the given size. -/
def strokeAt (r : NvRect) (width height px py : Int) (s : CompSurface) : Stroke :=
  match s.buffer with
  | none => .keep
  | some buffer =>
    let o := overlap r s
    if !s.visible ∨ o.w ≤ 0 ∨ o.h ≤ 0 then .keep
    else if s.alpha = 255 then
      let b := blitClip width height buffer.width buffer.height
        { dx := o.x, dy := o.y, sx := int32 (o.x - s.x), sy := int32 (o.y - s.y), w := o.w,
          h := o.h }
      if NvRect.Contains { x := b.dx, y := b.dy, w := b.w, h := b.h } px py then
        .cover (buffer.pixels (b.sx + (px - b.dx)) (b.sy + (py - b.dy)))
      else .keep
    else if o.Contains px py then
      .tint (fadedPixel (buffer.pixels (int32 (o.x - s.x) + (px - o.x))
        (int32 (o.y - s.y) + (py - o.y)))
        s.alpha)
    else .keep

theorem Stroke.apply_mono (stroke : Stroke) (h : Below d e) :
    Below (stroke.apply d) (stroke.apply e) := by
  cases stroke with
  | keep => exact h
  | cover p => exact below_refl p
  | tint p => exact colorBlend_mono h

theorem paint_mono (strokes : List Stroke) (h : Below d e) :
    Below (paint strokes d) (paint strokes e) := by
  induction strokes generalizing d e with
  | nil => exact h
  | cons stroke strokes ih => exact ih (stroke.apply_mono h)

/-- **Drawing a surface is one stroke** at each pixel. -/
theorem drawSurface_spec (r : NvRect) (back : NvSurface) (s : CompSurface) :
    (drawSurface r back s).width = back.width ∧ (drawSurface r back s).height = back.height ∧
      ∀ px py, (drawSurface r back s).pixels px py =
        (strokeAt r back.width back.height px py s).apply (back.pixels px py) := by
  unfold drawSurface strokeAt
  cases s.buffer with
  | none => exact ⟨rfl, rfl, fun _ _ => rfl⟩
  | some buffer =>
    by_cases hvisible : s.visible = true
    · by_cases hempty : (overlap r s).w ≤ 0 ∨ (overlap r s).h ≤ 0
      · simp only [hvisible, hempty, if_true, or_true, Bool.not_true, Bool.false_eq_true, if_false]
        exact ⟨trivial, trivial, fun _ _ => rfl⟩
      · simp only [hvisible, hempty, Bool.not_true, Bool.false_eq_true, if_false, or_self]
        by_cases halpha : s.alpha = 255
        · simp only [halpha, if_true]
          refine ⟨(surfaceBlit_size ..).1, (surfaceBlit_size ..).2, fun px py => ?_⟩
          rw [surfaceBlit_pixels]
          split <;> rfl
        · simp only [halpha, if_false]
          refine ⟨rfl, rfl, fun px py => ?_⟩
          rw [overRect_pixels]
          split <;> rfl
    · simp only [hvisible]
      exact ⟨rfl, rfl, fun _ _ => rfl⟩

/-! ### The pass -/

def strokes (c : Compositor) (r : NvRect) (px py : Int) : List Stroke :=
  c.surfaces.map (strokeAt r c.fb.width c.fb.height px py)

theorem foldl_drawSurface_spec (r : NvRect) (l : List CompSurface) (back : NvSurface) :
    (l.foldl (drawSurface r) back).width = back.width ∧
      (l.foldl (drawSurface r) back).height = back.height ∧
      ∀ px py, (l.foldl (drawSurface r) back).pixels px py =
        paint (l.map (strokeAt r back.width back.height px py)) (back.pixels px py) := by
  induction l generalizing back with
  | nil => exact ⟨rfl, rfl, fun _ _ => rfl⟩
  | cons s l ih =>
    obtain ⟨hw, hh, hpixels⟩ := drawSurface_spec r back s
    obtain ⟨hw', hh', hpixels'⟩ := ih (drawSurface r back s)
    refine ⟨hw'.trans hw, hh'.trans hh, fun px py => ?_⟩
    rw [foldl_cons, hpixels', hpixels, hw, hh]
    rfl

/-- A region of the screen. -/
structure OfScreen (fb : NvSurface) (r : NvRect) : Prop where
  x : 0 ≤ r.x ∧ 0 < r.w ∧ r.x + r.w ≤ fb.width
  y : 0 ≤ r.y ∧ 0 < r.h ∧ r.y + r.h ≤ fb.height
  width : fb.width < 2 ^ 31
  height : fb.height < 2 ^ 31

theorem OfScreen.of_size {fb back : NvSurface} (hr : OfScreen fb r) (hw : back.width = fb.width)
    (hh : back.height = fb.height) : OfScreen back r :=
  ⟨hw ▸ hr.x, hh ▸ hr.y, hw ▸ hr.width, hh ▸ hr.height⟩

theorem clipRegion_eq (hr : OfScreen c.fb r) : clipRegion c.fb r = r := by
  obtain ⟨hx, hy, hwidth, hheight⟩ := hr
  unfold clipRegion
  rw [if_neg (by omega), if_neg (by omega)]
  simp only
  rw [int32_of_range (n := r.x + r.w) (by omega) (by omega),
    int32_of_range (n := r.y + r.h) (by omega) (by omega), if_neg (by omega), if_neg (by omega)]

/-- The fill tints every pixel of the region. -/
theorem drawFillRect_spec (hr : OfScreen back r) (hcontains : r.Contains px py) :
    (drawFillRect back r clearColor).pixels px py = colorBlend (back.pixels px py) clearColor := by
  obtain ⟨hx, hy, hwidth, hheight⟩ := hr
  have hclear : ¬ colorA clearColor = 255 := by decide
  unfold drawFillRect
  simp only [hclear, if_false]
  rw [if_neg (by omega), int32_of_range (n := r.x + r.w) (by omega) (by omega),
    int32_of_range (n := r.y + r.h) (by omega) (by omega),
    if_neg (by omega), overRect_pixels, if_pos]
  unfold NvRect.Contains at hcontains ⊢
  simp only
  omega

theorem drawFillRect_size (back : NvSurface) (r : NvRect) (color : Pixel) :
    (drawFillRect back r color).width = back.width ∧
      (drawFillRect back r color).height = back.height := by
  unfold drawFillRect NvSurface.overRect
  simp only [apply_ite NvSurface.width, apply_ite NvSurface.height, ite_self, and_self]

/-- Copying a region of the screen to its place. -/
theorem blit_region {dst src : NvSurface} (hr : OfScreen dst r) (hw : src.width = dst.width)
    (hh : src.height = dst.height) (hcontains : r.Contains px py) :
    (surfaceBlit dst src r.x r.y r.x r.y r.w r.h).pixels px py = src.pixels px py := by
  obtain ⟨hx, hy, hwidth, hheight⟩ := hr
  obtain ⟨hx₀, hx₁, hy₀, hy₁⟩ := hcontains
  obtain ⟨d, e, m, n, hclip, hpx, hpy⟩ := @blitClip_exact dst.width dst.height src.width src.height
    r.x r.y r.x r.y r.w r.h (by simp only [SumsFit, IsInt]; omega)
      (by simp only [SumsFit, IsInt]; omega)
  have hin := (hpx px).mpr (by unfold OnBoth; omega)
  have hin' := (hpy py).mpr (by unfold OnBoth; omega)
  rw [surfaceBlit_pixels, hclip, if_pos ⟨hin.1, hin.2, hin'⟩]
  congr 1 <;> simp only <;> omega

/-- The back buffer after a pass over the region. -/
def drawnBack (c : Compositor) (r : NvRect) : NvSurface :=
  c.surfaces.foldl (drawSurface r) (drawFillRect c.back r clearColor)

theorem drawnBack_size (c : Compositor) (r : NvRect) :
    (drawnBack c r).width = c.back.width ∧ (drawnBack c r).height = c.back.height := by
  obtain ⟨hfw, hfh⟩ := drawFillRect_size c.back r clearColor
  obtain ⟨hdw, hdh, -⟩ := foldl_drawSurface_spec r c.surfaces (drawFillRect c.back r clearColor)
  exact ⟨hdw.trans hfw, hdh.trans hfh⟩

theorem compositeRegion_eq (hr : OfScreen c.fb r) :
    compositeRegion c r =
      { c with
        back := drawnBack c r
        surfaces := c.surfaces.map (drawnClean r)
        fb := surfaceBlit c.fb (drawnBack c r) r.x r.y r.x r.y r.w r.h } := by
  have hsize : ¬ (r.w ≤ 0 ∨ r.h ≤ 0) := by
    have hw := hr.x.2.1
    have hh := hr.y.2.1
    omega
  unfold compositeRegion
  rw [if_neg hsize]
  rw [clipRegion_eq hr, if_neg hsize]
  rfl

/-- **A pass tints each pixel of the region with the background and then with the strokes of
the surfaces.** -/
theorem compositeRegion_spec (hr : OfScreen c.fb r) (hw : c.back.width = c.fb.width)
    (hh : c.back.height = c.fb.height) (hcontains : r.Contains px py) :
    (compositeRegion c r).fb.pixels px py =
      paint (strokes c r px py) (colorBlend (c.back.pixels px py) clearColor) := by
  have hback : OfScreen c.back r := hr.of_size hw hh
  obtain ⟨hbw, hbh⟩ := drawnBack_size c r
  obtain ⟨hfw, hfh⟩ := drawFillRect_size c.back r clearColor
  obtain ⟨-, -, hpixels⟩ := foldl_drawSurface_spec r c.surfaces (drawFillRect c.back r clearColor)
  rw [compositeRegion_eq hr]
  rw [blit_region hr (hbw.trans hw) (hbh.trans hh) hcontains]
  unfold drawnBack strokes
  rw [hpixels, drawFillRect_spec hback hcontains, hfw, hfh, hw, hh]

/-! ### Independence of the back buffer -/

/-- The compositor with a back buffer of the screen's size that holds `pixels`. -/
def Compositor.withBack (c : Compositor) (pixels : Int → Int → Pixel) : Compositor :=
  { c with back := { width := c.fb.width, height := c.fb.height, pixels := pixels } }

/-- The compositor after a pass over the region, `pixels` being in its back buffer before. -/
def pass (c : Compositor) (r : NvRect) (pixels : Int → Int → Pixel) : Compositor :=
  compositeRegion (c.withBack pixels) r

/-- The strokes leave nothing to be seen of what was there before the background. -/
def Hides (strokes : List Stroke) : Prop :=
  paint strokes (colorBlend 0 clearColor) = paint strokes (colorBlend 0xFFFFFFFF clearColor)

instance (strokes : List Stroke) : Decidable (Hides strokes) := by
  unfold Hides
  infer_instance

/-- The pass makes the same pixels whatever was in the back buffer. -/
def Independent (c : Compositor) (r : NvRect) : Prop :=
  ∀ b b' px py, r.Contains px py → (pass c r b).fb.pixels px py = (pass c r b').fb.pixels px py

/-- A second pass changes nothing. -/
def Settled (c : Compositor) (r : NvRect) : Prop :=
  ∀ b px py, r.Contains px py →
    (compositeRegion (pass c r b) r).fb.pixels px py = (pass c r b).fb.pixels px py

theorem pass_spec (hr : OfScreen c.fb r) (b : Int → Int → Pixel) (hcontains : r.Contains px py) :
    (pass c r b).fb.pixels px py = paint (strokes c r px py) (colorBlend (b px py) clearColor) :=
  compositeRegion_spec (c := c.withBack b) hr rfl rfl hcontains

/-- What the strokes hide is exactly what cannot be seen. -/
theorem hides_iff (l : List Stroke) :
    (∀ d e, paint l (colorBlend d clearColor) = paint l (colorBlend e clearColor)) ↔ Hides l :=
  constant_iff fun _ _ h => paint_mono l (colorBlend_mono h)

/-- A surface that is not translucent hides everything. -/
theorem hides_of_cover {l : List Stroke} {p : Pixel} (h : Stroke.cover p ∈ l) : Hides l := by
  obtain ⟨l₁, l₂, rfl⟩ := append_of_mem h
  unfold Hides paint
  rw [foldl_append, foldl_append]
  rfl

theorem strokeAt_drawnClean (r' : NvRect) (width height : Int) :
    strokeAt r width height px py (drawnClean r' s) = strokeAt r width height px py s := by
  unfold drawnClean
  split <;> rfl

/-- The size of everything stays, and so do the strokes. -/
theorem pass_frame (hr : OfScreen c.fb r) (b : Int → Int → Pixel) :
    (pass c r b).fb.width = c.fb.width ∧ (pass c r b).fb.height = c.fb.height ∧
      (pass c r b).back.width = c.fb.width ∧ (pass c r b).back.height = c.fb.height ∧
        ∀ px py, (pass c r b).surfaces.map (strokeAt r c.fb.width c.fb.height px py) =
          strokes c r px py := by
  have hr' : OfScreen (c.withBack b).fb r := hr
  obtain ⟨hbw, hbh⟩ := drawnBack_size (c.withBack b) r
  obtain ⟨hfw, hfh⟩ := surfaceBlit_size c.fb (drawnBack (c.withBack b) r) r.x r.y r.x r.y r.w r.h
  unfold pass
  rw [compositeRegion_eq hr']
  refine ⟨hfw, hfh, hbw, hbh, fun px py => ?_⟩
  simp only [map_map]
  exact map_congr_left fun s _ => strokeAt_drawnClean r c.fb.width c.fb.height

/-- **When a pass is independent of the back buffer**: exactly if at every pixel of the region
the surfaces hide what is behind the background.  Then a second pass changes nothing. -/
theorem composite_independent_iff (hr : OfScreen c.fb r) :
    (Independent c r ↔ ∀ px py, r.Contains px py → Hides (strokes c r px py)) ∧
      (Independent c r → Settled c r) := by
  refine ⟨⟨?_, ?_⟩, ?_⟩
  · intro h px py hcontains
    rw [← hides_iff]
    intro d e
    have hde := h (fun _ _ => d) (fun _ _ => e) px py hcontains
    rwa [pass_spec hr _ hcontains, pass_spec hr _ hcontains] at hde
  · intro h b b' px py hcontains
    rw [pass_spec hr b hcontains, pass_spec hr b' hcontains]
    exact (hides_iff _).mpr (h px py hcontains) _ _
  · intro h b px py hcontains
    obtain ⟨hw, hh, hbw, hbh, hstrokes⟩ := pass_frame hr b
    have hagain :=
      compositeRegion_spec (hr.of_size hw hh) (hbw.trans hw.symm) (hbh.trans hh.symm) hcontains
    have hsame := h b (pass c r b).back.pixels px py hcontains
    rw [pass_spec hr _ hcontains, pass_spec hr _ hcontains] at hsame
    rw [hagain, pass_spec hr b hcontains, hsame]
    unfold strokes at hstrokes ⊢
    rw [hw, hh, hstrokes]

/-- The small screen with a surface of its size on it. -/
def coveredScreen : Compositor :=
  (compositorCreateSurface smallScreen 0 0 4 4 .normal).1

def leftHalf : NvRect := { x := 0, y := 0, w := 2, h := 4 }

theorem composite_covered :
    Independent coveredScreen leftHalf ∧ Settled coveredScreen leftHalf := by
  have hr : OfScreen coveredScreen.fb leftHalf := ⟨by decide, by decide, by decide, by decide⟩
  have hhides (px py : Int) (hcontains : leftHalf.Contains px py) :
      Hides (strokes coveredScreen leftHalf px py) := by
    refine hides_of_cover (p := 0) (mem_singleton.mpr ?_)
    exact (if_pos hcontains).symm
  obtain ⟨hiff, hsettled⟩ := composite_independent_iff hr
  exact ⟨hiff.mpr hhides, hsettled (hiff.mpr hhides)⟩

/-- On the bare screen the old pixels show through the background, and a second pass changes
the colour again. -/
theorem composite_bare : ¬ Independent smallScreen leftHalf ∧ ¬ Settled smallScreen leftHalf := by
  have hcontains : leftHalf.Contains 0 0 := by decide
  refine ⟨fun h => ?_, fun h => ?_⟩
  · have hpixel := h (fun _ _ => 0) (fun _ _ => 0xFFFFFFFF) 0 0 hcontains
    revert hpixel
    decide
  · have hpixel := h (fun _ _ => 0) 0 0 hcontains
    revert hpixel
    decide

end Nv0ken.Graphics
