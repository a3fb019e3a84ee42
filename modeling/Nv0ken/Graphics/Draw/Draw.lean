/-
Surfaces and the drawing the compositor does on them, from `graphics/draw/draw.c`.

A pixel is addressed by its coordinates; the pitch says only where in memory a row begins.
A loop over the pixels of a rectangle visits each of them once, so it is written as the
surface that has a new value inside the rectangle and the old one outside.  Sums of
coordinates are `int`s.
-/
import Nv0ken.Graphics.Draw.Color
import Nv0ken.Lib.Grid
import Nv0ken.Lib.Word

namespace Nv0ken.Graphics

open Word

/-- `NvSurface`. -/
structure NvSurface where
  width : Int
  height : Int
  pixels : Int → Int → Pixel

/-- `NvRect`, and the compositor's `DamageRect`. -/
structure NvRect where
  x : Int
  y : Int
  w : Int
  h : Int
  deriving DecidableEq, Repr

/-- `alloc` is the answer of the allocator. -/
def surfaceNew (width height : Int) (alloc : Bool) : Option NvSurface :=
  if width ≤ 0 ∨ height ≤ 0 ∨ !alloc then none
  else some { width := width, height := height, pixels := fun _ _ => 0 }

/-- The loop over the pixels from `(x, y)` on, `w` to the right and `h` down; `f` is told
how far from the corner it is. -/
def NvSurface.overRect (s : NvSurface) (x y w h : Int) (f : Int → Int → Pixel → Pixel) :
    NvSurface :=
  { s with
    pixels := fun px py =>
      if x ≤ px ∧ px < x + w ∧ y ≤ py ∧ py < y + h then f (px - x) (py - y) (s.pixels px py)
      else s.pixels px py }

/-- Where a block of pixels comes from and goes to. -/
structure Blit where
  dx : Int
  dy : Int
  sx : Int
  sy : Int
  w : Int
  h : Int

/-- The part of the block that is on both surfaces. -/
def blitClip (dw dh sw sh : Int) (b : Blit) : Blit :=
  let b := if b.dx < 0 then
    { b with sx := int32 (b.sx - b.dx), w := int32 (b.w + b.dx), dx := 0 } else b
  let b := if b.dy < 0 then
    { b with sy := int32 (b.sy - b.dy), h := int32 (b.h + b.dy), dy := 0 } else b
  let b := if b.sx < 0 then
    { b with dx := int32 (b.dx - b.sx), w := int32 (b.w + b.sx), sx := 0 } else b
  let b := if b.sy < 0 then
    { b with dy := int32 (b.dy - b.sy), h := int32 (b.h + b.sy), sy := 0 } else b
  let b := if int32 (b.dx + b.w) > dw then { b with w := int32 (dw - b.dx) } else b
  let b := if int32 (b.dy + b.h) > dh then { b with h := int32 (dh - b.dy) } else b
  let b := if int32 (b.sx + b.w) > sw then { b with w := int32 (sw - b.sx) } else b
  if int32 (b.sy + b.h) > sh then { b with h := int32 (sh - b.sy) } else b

def surfaceBlit (dst src : NvSurface) (dx dy sx sy w h : Int) : NvSurface :=
  let b := blitClip dst.width dst.height src.width src.height
    { dx := dx, dy := dy, sx := sx, sy := sy, w := w, h := h }
  if b.w ≤ 0 ∨ b.h ≤ 0 then dst
  else dst.overRect b.dx b.dy b.w b.h fun i j _ => src.pixels (b.sx + i) (b.sy + j)

/-- The part of the block that is on the destination. -/
def blitAlphaClip (dw dh : Int) (b : Blit) : Blit :=
  let b := if b.dx < 0 then
    { b with sx := int32 (b.sx - b.dx), w := int32 (b.w + b.dx), dx := 0 } else b
  let b := if b.dy < 0 then
    { b with sy := int32 (b.sy - b.dy), h := int32 (b.h + b.dy), dy := 0 } else b
  let b := if int32 (b.dx + b.w) > dw then { b with w := int32 (dw - b.dx) } else b
  if int32 (b.dy + b.h) > dh then { b with h := int32 (dh - b.dy) } else b

/-- The pixels the loops of `surface_blit_alpha` read, with those they write. -/
def blitAlphaPixels (dst : NvSurface) (dx dy sx sy w h : Int) : List ((Int × Int) × Int × Int) :=
  let b :=
    blitAlphaClip dst.width dst.height { dx := dx, dy := dy, sx := sx, sy := sy, w := w, h := h }
  if b.w ≤ 0 ∨ b.h ≤ 0 then []
  else (Grid.upTo 0 b.h).flatMap fun row => (Grid.upTo 0 b.w).map fun col =>
    ((b.sx + col, b.sy + row), b.dx + col, b.dy + row)

def drawFillRect (s : NvSurface) (r : NvRect) (color : Pixel) : NvSurface :=
  if r.w ≤ 0 ∨ r.h ≤ 0 then s
  else
    let x1 := int32 (r.x + r.w)
    let y1 := int32 (r.y + r.h)
    let x0 := if r.x < 0 then 0 else r.x
    let y0 := if r.y < 0 then 0 else r.y
    let x1 := if x1 > s.width then s.width else x1
    let y1 := if y1 > s.height then s.height else y1
    if x0 ≥ x1 ∨ y0 ≥ y1 then s
    else if colorA color = 255 then s.overRect x0 y0 (x1 - x0) (y1 - y0) fun _ _ _ => color
    else s.overRect x0 y0 (x1 - x0) (y1 - y0) fun _ _ p => colorBlend p color

end Nv0ken.Graphics
