/-
The compositor, `graphics/server/compositor.c`.

The slots of the surface array in use are a list, in the order of the array, which is the
order of drawing.  A pointer into the array is a position in it: it is not moved when the
array is sorted, so what is read through it afterwards is whatever then stands there.

`memory` holds the answers of the allocator to the requests to come, one for each object made;
it grants what is asked beyond its end.  An opacity is set through a clamp to one byte and kept as
one.
-/
import Nv0ken.Graphics.Draw.Draw
import Nv0ken.Lib.StableSort

namespace Nv0ken.Graphics

open Word StableSort

/-- `COMPOSITOR_MAX_SURFACES`. -/
def maxSurfaces : Nat := 64

/-- `COMPOSITOR_MAX_DAMAGE`. -/
def maxDamage : Nat := 32

/-- `SurfaceLayer`. -/
inductive SurfaceLayer
  | normal
  | overlay
  | cursor
  | wallpaper
  | notification
  deriving DecidableEq, Repr

/-- `CompSurface`. -/
structure CompSurface where
  id : Int
  x : Int
  y : Int
  w : Int
  h : Int
  zOrder : Int
  visible : Bool
  alpha : UInt8
  layer : SurfaceLayer
  buffer : Option NvSurface
  dirty : Bool

structure Compositor where
  fb : NvSurface
  back : NvSurface
  surfaces : List CompSurface := []
  nextId : Int := 1
  damage : List NvRect := []
  fullRedraw : Bool := true
  memory : List Bool := []

/-- `framebuffer` is the screen; memory is asked for the compositor, for `fb` and for
`back`. -/
def compositorNew (framebuffer : Int → Int → Pixel) (fbW fbH : Int) (memory : List Bool) :
    Option Compositor :=
  match surfaceNew fbW fbH ((memory.take 3).all id) with
  | none => none
  | some back =>
    some {
      fb := { width := fbW, height := fbH, pixels := framebuffer }
      back := back
      memory := memory.drop 3 }

/-! ### Surfaces -/

/-- The answer to the next request for memory. -/
def Compositor.granted (c : Compositor) : Bool := c.memory.headD true

def findSurface (c : Compositor) (id : Int) : Option Nat := c.surfaces.findIdx? fun s => s.id = id

def compositorGetSurface (c : Compositor) (id : Int) : Option CompSurface :=
  (findSurface c id).bind fun idx => c.surfaces[idx]?

def sortByZ (c : Compositor) : Compositor :=
  { c with surfaces := sortBy CompSurface.zOrder c.surfaces }

/-- The slot with other contents. -/
def Compositor.setSlot (c : Compositor) (idx : Nat) (f : CompSurface → CompSurface) : Compositor :=
  { c with surfaces := c.surfaces.modify idx f }

def layerBase : SurfaceLayer → Int
  | .wallpaper => 0
  | .normal => 100
  | .overlay => 200
  | .notification => 300
  | .cursor => 400

/-- The rectangle around two. -/
def boundingBox (r d : NvRect) : NvRect :=
  let dx2 := int32 (d.x + d.w)
  let dy2 := int32 (d.y + d.h)
  let nx2 := int32 (r.x + r.w)
  let ny2 := int32 (r.y + r.h)
  let ox := if r.x < d.x then r.x else d.x
  let oy := if r.y < d.y then r.y else d.y
  let ow := int32 ((if nx2 > dx2 then nx2 else dx2) - ox)
  let oh := int32 ((if ny2 > dy2 then ny2 else dy2) - oy)
  { x := ox, y := oy, w := ow, h := oh }

/-- The loop over the recorded rectangles, up to the first one to merge with. -/
def mergeDamage (r : NvRect) : List NvRect → Option (List NvRect)
  | [] => none
  | d :: rest =>
    let o := boundingBox r d
    let mergedArea := int32 (o.w * o.h)
    let sumArea := int32 (int32 (r.w * r.h) + int32 (d.w * d.h))
    if mergedArea ≤ (int32 (sumArea * 3)).tdiv 2 then some (o :: rest)
    else (mergeDamage r rest).map fun rest => d :: rest

def compositorDamage (c : Compositor) (x y w h : Int) : Compositor :=
  if w ≤ 0 ∨ h ≤ 0 then c
  else if c.damage.length ≥ maxDamage then { c with fullRedraw := true }
  else
    let r := { x := x, y := y, w := w, h := h }
    { c with damage := (mergeDamage r c.damage).getD (c.damage ++ [r]) }

/-- The damage of whatever stands in the slot. -/
def damageSlot (c : Compositor) (idx : Nat) : Compositor :=
  match c.surfaces[idx]? with
  | none => c
  | some s => compositorDamage c s.x s.y s.w s.h

/-- The id is read out of the last slot after the sort; it is -1 when nothing is made. -/
def compositorCreateSurface (c : Compositor) (x y w h : Int) (layer : SurfaceLayer) :
    Compositor × Int :=
  if c.surfaces.length ≥ maxSurfaces then (c, -1)
  else if w ≤ 0 ∨ h ≤ 0 then (c, -1)
  else
    match surfaceNew w h c.granted with
    | none => ({ c with memory := c.memory.tail }, -1)
    | some buffer =>
      let s : CompSurface :=
        { id := c.nextId, x := x, y := y, w := w, h := h, zOrder := layerBase layer,
          visible := true, alpha := 255, layer := layer, buffer := some buffer, dirty := true }
      let c' := sortByZ
        { c with
          surfaces := c.surfaces ++ [s]
          nextId := int32 (c.nextId + 1)
          memory := c.memory.tail }
      ({ c' with fullRedraw := true },
        (c'.surfaces[c.surfaces.length]?.map CompSurface.id).getD (-1))

def compositorDestroySurface (c : Compositor) (id : Int) : Compositor :=
  match findSurface c id with
  | none => c
  | some idx =>
    let c := damageSlot c idx
    { c with surfaces := c.surfaces.eraseIdx idx }

def compositorMoveSurface (c : Compositor) (id x y : Int) : Compositor :=
  match findSurface c id with
  | none => c
  | some idx =>
    let c := damageSlot c idx
    let c := c.setSlot idx fun s => { s with x := x, y := y, dirty := true }
    damageSlot c idx

/-- The old buffer is gone before it is known whether there is a new one. -/
def compositorResizeSurface (c : Compositor) (id w h : Int) : Compositor :=
  if w ≤ 0 ∨ h ≤ 0 then c
  else
    match findSurface c id with
    | none => c
    | some idx =>
      let buffer := surfaceNew w h c.granted
      let c := { c with memory := c.memory.tail }
      let c := c.setSlot idx fun s => { s with buffer := buffer }
      if buffer.isNone then c
      else
        let c := damageSlot c idx
        let c := c.setSlot idx fun s => { s with w := w, h := h, dirty := true }
        damageSlot c idx

def clampAlpha (alpha : Int) : UInt8 :=
  if alpha < 0 then 0 else if alpha > 255 then 255 else UInt8.ofNat alpha.toNat

def compositorSetAlpha (c : Compositor) (id alpha : Int) : Compositor :=
  match findSurface c id with
  | none => c
  | some idx =>
    damageSlot (c.setSlot idx fun s => { s with alpha := clampAlpha alpha, dirty := true }) idx

def compositorShowSurface (c : Compositor) (id : Int) : Compositor :=
  match findSurface c id with
  | none => c
  | some idx =>
    if c.surfaces[idx]?.any fun s => !s.visible then
      damageSlot (c.setSlot idx fun s => { s with visible := true, dirty := true }) idx
    else c

def compositorHideSurface (c : Compositor) (id : Int) : Compositor :=
  match findSurface c id with
  | none => c
  | some idx =>
    if c.surfaces[idx]?.any fun s => s.visible then
      damageSlot (c.setSlot idx fun s => { s with visible := false }) idx
    else c

/-- The greatest `z_order` of the layer, or 0. -/
def maxZ (surfaces : List CompSurface) (layer : SurfaceLayer) : Int :=
  surfaces.foldl (fun max s => if s.layer = layer ∧ s.zOrder > max then s.zOrder else max) 0

/-- The slot the damage is read from is the one the surface stood in before the sort. -/
def compositorRaiseSurface (c : Compositor) (id : Int) : Compositor :=
  match findSurface c id with
  | none => c
  | some idx =>
    let c := c.setSlot idx fun s => { s with zOrder := int32 (maxZ c.surfaces s.layer + 1) }
    damageSlot (sortByZ c) idx

/-- As for raising. -/
def compositorLowerSurface (c : Compositor) (id : Int) : Compositor :=
  match findSurface c id with
  | none => c
  | some idx =>
    if c.surfaces[idx]?.any fun s => s.zOrder > 0 then
      damageSlot (sortByZ (c.setSlot idx fun s => { s with zOrder := s.zOrder - 1 })) idx
    else c

def compositorDamageSurface (c : Compositor) (id : Int) : Compositor :=
  match findSurface c id with
  | none => c
  | some idx => damageSlot (c.setSlot idx fun s => { s with dirty := true }) idx

/-! ### Compositing -/

/-- The colour the region is cleared with. -/
def clearColor : Pixel := 0x1A1A2EFF

/-- What a region and a surface have in common: corner and size. -/
def overlap (r : NvRect) (s : CompSurface) : NvRect :=
  let sx2 := int32 (s.x + s.w)
  let sy2 := int32 (s.y + s.h)
  let rx2 := int32 (r.x + r.w)
  let ry2 := int32 (r.y + r.h)
  let ox := if r.x > s.x then r.x else s.x
  let oy := if r.y > s.y then r.y else s.y
  let ox2 := if rx2 < sx2 then rx2 else sx2
  let oy2 := if ry2 < sy2 then ry2 else sy2
  { x := ox, y := oy, w := int32 (ox2 - ox), h := int32 (oy2 - oy) }

/-- A pixel of a surface, made as opaque as the surface is. -/
def fadedPixel (sp : Pixel) (alpha : UInt8) : Pixel :=
  colorWithAlpha sp (colorA sp * alpha.toUInt32 / 255).toUInt8

/-- One turn of the loop over the surfaces. -/
def drawSurface (r : NvRect) (back : NvSurface) (s : CompSurface) : NvSurface :=
  match s.buffer with
  | none => back
  | some buffer =>
    if !s.visible then back
    else
      let o := overlap r s
      if o.w ≤ 0 ∨ o.h ≤ 0 then back
      else
        let srcX := int32 (o.x - s.x)
        let srcY := int32 (o.y - s.y)
        if s.alpha = 255 then surfaceBlit back buffer o.x o.y srcX srcY o.w o.h
        else
          back.overRect o.x o.y o.w o.h fun px py p =>
            colorBlend p (fadedPixel (buffer.pixels (srcX + px) (srcY + py)) s.alpha)

/-- The part of a region that is on the screen. -/
def clipRegion (fb : NvSurface) (r : NvRect) : NvRect :=
  let (rx, rw) := if r.x < 0 then (0, int32 (r.w + r.x)) else (r.x, r.w)
  let (ry, rh) := if r.y < 0 then (0, int32 (r.h + r.y)) else (r.y, r.h)
  let rw := if int32 (rx + rw) > fb.width then int32 (fb.width - rx) else rw
  let rh := if int32 (ry + rh) > fb.height then int32 (fb.height - ry) else rh
  { x := rx, y := ry, w := rw, h := rh }

/-- The surface is drawn, so it is no longer dirty. -/
def drawnClean (r : NvRect) (s : CompSurface) : CompSurface :=
  if s.visible ∧ s.buffer.isSome ∧ ¬ ((overlap r s).w ≤ 0 ∨ (overlap r s).h ≤ 0) then
    { s with dirty := false }
  else s

def compositeRegion (c : Compositor) (r : NvRect) : Compositor :=
  if r.w ≤ 0 ∨ r.h ≤ 0 then c
  else
    let r := clipRegion c.fb r
    if r.w ≤ 0 ∨ r.h ≤ 0 then c
    else
      let back := c.surfaces.foldl (drawSurface r) (drawFillRect c.back r clearColor)
      { c with
        back := back
        surfaces := c.surfaces.map (drawnClean r)
        fb := surfaceBlit c.fb back r.x r.y r.x r.y r.w r.h }

def compositorComposite (c : Compositor) : Compositor :=
  if c.fullRedraw then
    { compositeRegion c { x := 0, y := 0, w := c.fb.width, h := c.fb.height } with
      fullRedraw := false, damage := [] }
  else
    { c.damage.foldl compositeRegion c with damage := [] }

end Nv0ken.Graphics
