/-
Copying and blending a block of pixels.

The clamps of `surface_blit` rewrite offsets and lengths in terms of each other.  Each pair of them
is put into exact arithmetic, the two axes side by side; together they leave the part of the block
that is on both surfaces.  `surface_blit_alpha` clamps to the destination only, and reads beside the
source where that part does not come from it.
-/
import Nv0ken.Proofs.Graphics.Surfaces

namespace Nv0ken.Graphics

open Word

variable {back : NvSurface} {r : NvRect} {px py : Int}

theorem overRect_pixels (x y w h : Int) (f : Int → Int → Pixel → Pixel) :
    (back.overRect x y w h f).pixels px py =
      if NvRect.Contains { x := x, y := y, w := w, h := h } px py then
        f (px - x) (py - y) (back.pixels px py)
      else back.pixels px py := rfl

/-- A rectangle without pixels. -/
theorem not_contains_of_empty (h : r.w ≤ 0 ∨ r.h ≤ 0) : ¬ r.Contains px py := by
  unfold NvRect.Contains
  omega

theorem surfaceBlit_pixels (dst src : NvSurface) (dx dy sx sy w h : Int) :
    let b := blitClip dst.width dst.height src.width src.height
      { dx := dx, dy := dy, sx := sx, sy := sy, w := w, h := h }
    (surfaceBlit dst src dx dy sx sy w h).pixels px py =
      if NvRect.Contains { x := b.dx, y := b.dy, w := b.w, h := b.h } px py then
        src.pixels (b.sx + (px - b.dx)) (b.sy + (py - b.dy))
      else dst.pixels px py := by
  unfold surfaceBlit
  simp only
  split
  · rename_i hempty
    rw [if_neg (not_contains_of_empty hempty)]
  · exact overRect_pixels ..

theorem surfaceBlit_size (dst src : NvSurface) (dx dy sx sy w h : Int) :
    (surfaceBlit dst src dx dy sx sy w h).width = dst.width ∧
      (surfaceBlit dst src dx dy sx sy w h).height = dst.height := by
  unfold surfaceBlit
  simp only
  split <;> exact ⟨rfl, rfl⟩

def IsInt (n : Int) : Prop := -2 ^ 31 ≤ n ∧ n < 2 ^ 31

theorem int32_of_isInt {n : Int} (h : IsInt n) : int32 n = n := int32_of_range h.1 h.2

/-- What `surface_blit` adds up on one axis are `int`s: the block goes to `d`, comes from `s` and is
`n` long. -/
def SumsFit (dw sw d s n : Int) : Prop :=
  let s' := s - min d 0
  let n' := n + min d 0
  let d'' := max d 0 - min s' 0
  let n'' := n' + min s' 0
  let cut := min n'' (dw - d'')
  IsInt s' ∧ IsInt n' ∧ IsInt d'' ∧ IsInt n'' ∧ IsInt (d'' + n'') ∧
    (dw < d'' + n'' → IsInt (dw - d'')) ∧
    IsInt (max s' 0 + cut) ∧ (sw < max s' 0 + cut → IsInt (sw - max s' 0))

/-- A position in the block that is on both surfaces. -/
def OnBoth (dw sw d s n p : Int) : Prop :=
  (0 ≤ p - d ∧ p - d < n) ∧ (0 ≤ p ∧ p < dw) ∧ 0 ≤ s + (p - d) ∧ s + (p - d) < sw

instance (dw sw d s n p : Int) : Decidable (OnBoth dw sw d s n p) :=
  inferInstanceAs (Decidable (_ ∧ _))

/-- A clamp at the beginning of the destination moves neither the end of the block nor the source
against it, and so does one at the beginning of the source. -/
theorem clamp_dst (d s n p : Int) : max d 0 + (n + min d 0) = d + n ∧
    s - min d 0 - max d 0 = s - d ∧ (max d 0 ≤ p ↔ d ≤ p ∧ 0 ≤ p) := by
  omega

theorem clamp_src (d s n p : Int) : d - min s 0 + (n + min s 0) = d + n ∧
    max s 0 - (d - min s 0) = s - d ∧ (d - min s 0 ≤ p ↔ d ≤ p ∧ 0 ≤ s - d + p) := by
  omega

theorem blitClip_exact {dw dh sw sh dx dy sx sy w h : Int} (hx : SumsFit dw sw dx sx w)
    (hy : SumsFit dh sh dy sy h) :
    ∃ d e m n, blitClip dw dh sw sh ⟨dx, dy, sx, sy, w, h⟩ =
      ⟨d, e, sx - dx + d, sy - dy + e, m, n⟩ ∧
      (∀ p, d ≤ p ∧ p < d + m ↔ OnBoth dw sw dx sx w p) ∧
      ∀ p, e ≤ p ∧ p < e + n ↔ OnBoth dh sh dy sy h p := by
  simp only [SumsFit] at hx hy
  unfold blitClip OnBoth
  extract_lets b₁ b₂ b₃ b₄ b₅ b₆ b₇
  have h₂ : b₂ =
      ⟨max dx 0, max dy 0, sx - min dx 0, sy - min dy 0, w + min dx 0, h + min dy 0⟩ := by
    grind [int32_of_isInt]
  clear_value b₂
  have hxs := clamp_dst dx sx w
  have hys := clamp_dst dy sy h
  generalize sx - min dx 0 = sx', w + min dx 0 = w', max dx 0 = dx' at *
  generalize sy - min dy 0 = sy', h + min dy 0 = h', max dy 0 = dy' at *
  have h₄ : b₄ =
      ⟨dx' - min sx' 0, dy' - min sy' 0, max sx' 0, max sy' 0, w' + min sx' 0, h' + min sy' 0⟩ := by
    grind [int32_of_isInt]
  clear_value b₄
  have hxt := clamp_src dx' sx' w'
  have hyt := clamp_src dy' sy' h'
  generalize max sx' 0 = s, w' + min sx' 0 = m, dx' - min sx' 0 = d at *
  generalize max sy' 0 = t, h' + min sy' 0 = n, dy' - min sy' 0 = e at *
  have h₆ : b₆ = ⟨d, e, s, t, min m (dw - d), min n (dh - e)⟩ := by
    grind [int32_of_isInt]
  clear_value b₆
  refine ⟨d, e, min (min m (dw - d)) (sw - s), min (min n (dh - e)) (sh - t), ?_, fun p => ?_,
    fun p => ?_⟩
  · have hs : s = sx - dx + d := by have := hxs 0; have := hxt 0; omega
    have ht : t = sy - dy + e := by have := hys 0; have := hyt 0; omega
    grind [int32_of_isInt]
  · have hp := hxs p
    have hp' := hxt p
    omega
  · have hp := hys p
    have hp' := hyt p
    omega

/-- **What `surface_blit` does**, if no sum overflows: the pixels of the block that are on both
surfaces are copied, and no other pixel changes. -/
theorem blit_exact (dst src : NvSurface) (dx dy sx sy w h : Int)
    (hx : SumsFit dst.width src.width dx sx w) (hy : SumsFit dst.height src.height dy sy h)
    (px py : Int) :
    (surfaceBlit dst src dx dy sx sy w h).pixels px py =
      if OnBoth dst.width src.width dx sx w px ∧ OnBoth dst.height src.height dy sy h py then
        src.pixels (sx + (px - dx)) (sy + (py - dy))
      else dst.pixels px py := by
  obtain ⟨d, e, m, n, hclip, hpx, hpy⟩ := blitClip_exact hx hy
  rw [surfaceBlit_pixels, hclip]
  refine if_congr ?_ ?_ rfl
  · rw [← hpx, ← hpy]
    exact and_assoc.symm
  · congr 1
    · show sx - dx + d + (px - d) = _
      omega
    · show sy - dy + e + (py - e) = _
      omega

/-- A block that begins outside the destination and ends outside the source. -/
theorem blit_exact_corner :
    (surfaceBlit ⟨4, 4, fun _ _ => 0⟩ ⟨4, 4, fun _ _ => 7⟩ (-1) (-1) 0 0 8 8).pixels 2 2 = 7 := by
  rw [blit_exact _ _ _ _ _ _ _ _ (by simp [SumsFit, IsInt]) (by simp [SumsFit, IsInt])]
  decide

/-! ### Blending a block -/

def NvSurface.Inside (s : NvSurface) (p : Int × Int) : Prop :=
  (0 ≤ p.1 ∧ p.1 < s.width) ∧ 0 ≤ p.2 ∧ p.2 < s.height

/-- What `surface_blit_alpha` adds up on one axis are `int`s. -/
def AlphaSumsFit (dw d s n : Int) : Prop :=
  let n' := n + min d 0
  IsInt (s - min d 0) ∧ IsInt n' ∧ IsInt (max d 0 + n') ∧ (dw < max d 0 + n' → IsInt (dw - max d 0))

/-- On this axis, the block is not on the destination. -/
def Unseen (dw d n : Int) : Prop := min (d + n) dw ≤ max d 0

/-- On this axis, what is copied to the destination is on the source. -/
def FromSource (dw sw d s n : Int) : Prop := 0 ≤ s - min d 0 ∧ s - d + min (d + n) dw ≤ sw

/-- **`surface_blit_alpha` stays on both surfaces exactly if the part of the block that is on the
destination comes from the source**: it clamps to the destination only. -/
theorem alpha_inside_iff (dst src : NvSurface) (dx dy sx sy w h : Int)
    (hx : AlphaSumsFit dst.width dx sx w) (hy : AlphaSumsFit dst.height dy sy h) :
    (∀ p ∈ blitAlphaPixels dst dx dy sx sy w h, src.Inside p.1 ∧ dst.Inside p.2) ↔
      Unseen dst.width dx w ∨ Unseen dst.height dy h ∨
        FromSource dst.width src.width dx sx w ∧ FromSource dst.height src.height dy sy h := by
  simp only [AlphaSumsFit] at hx hy
  unfold blitAlphaPixels
  have hclip : blitAlphaClip dst.width dst.height ⟨dx, dy, sx, sy, w, h⟩ =
      ⟨max dx 0, max dy 0, sx - min dx 0, sy - min dy 0, min (w + min dx 0) (dst.width - max dx 0),
        min (h + min dy 0) (dst.height - max dy 0)⟩ := by
    unfold blitAlphaClip
    grind [int32_of_isInt]
  rw [hclip]
  unfold Unseen FromSource
  simp only
  split
  · simp only [List.not_mem_nil, false_implies, implies_true, true_iff]
    omega
  · simp only [List.forall_mem_flatMap, List.forall_mem_map, Grid.mem_upTo, NvSurface.Inside]
    refine ⟨fun hall => ?_, fun hsource row hrow col hcol => by omega⟩
    have hfirst := hall 0 (by omega) 0 (by omega)
    have hlast := hall (min (h + min dy 0) (dst.height - max dy 0) - 1) (by omega)
      (min (w + min dx 0) (dst.width - max dx 0) - 1) (by omega)
    omega

/-- A block that is read beyond a smaller source. -/
theorem read_outside_source :
    ¬ ∀ p ∈ blitAlphaPixels ⟨2, 1, fun _ _ => 0⟩ 0 0 0 0 2 1,
      NvSurface.Inside ⟨1, 1, fun _ _ => 0⟩ p.1 ∧ NvSurface.Inside ⟨2, 1, fun _ _ => 0⟩ p.2 := by
  unfold NvSurface.Inside
  decide

theorem alpha_inside_corner :
    (blitAlphaPixels ⟨4, 4, fun _ _ => 0⟩ (-1) (-1) 0 0 5 5).length = 16 ∧
      ∀ p ∈ blitAlphaPixels ⟨4, 4, fun _ _ => 0⟩ (-1) (-1) 0 0 5 5,
        NvSurface.Inside ⟨5, 5, fun _ _ => 7⟩ p.1 ∧ NvSurface.Inside ⟨4, 4, fun _ _ => 0⟩ p.2 := by
  refine ⟨by decide, (alpha_inside_iff _ _ _ _ _ _ _ _ ?_ ?_).2 (by simp [FromSource])⟩
  · simp [AlphaSumsFit, IsInt]
  · simp [AlphaSumsFit, IsInt]

end Nv0ken.Graphics
