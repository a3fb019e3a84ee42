/-
Pixels, `graphics/draw/color.h`.

A pixel is a 32-bit number in the format 0xAARRGGBB: the top byte is its opacity.
-/
import Mathlib.Data.UInt

namespace Nv0ken.Graphics

abbrev Pixel := UInt32

/-- `COLOR_A`. -/
def colorA (c : Pixel) : UInt32 := (c >>> 24) &&& 0xFF

/-- `COLOR_R`. -/
def colorR (c : Pixel) : UInt32 := (c >>> 16) &&& 0xFF

/-- `COLOR_G`. -/
def colorG (c : Pixel) : UInt32 := (c >>> 8) &&& 0xFF

/-- `COLOR_B`. -/
def colorB (c : Pixel) : UInt32 := c &&& 0xFF

/-- `COLOR_ARGB`. -/
def colorARGB (a r g b : UInt8) : Pixel :=
  (a.toUInt32 <<< 24) ||| (r.toUInt32 <<< 16) ||| (g.toUInt32 <<< 8) ||| b.toUInt32

def colorWithAlpha (color : Pixel) (alpha : UInt8) : Pixel :=
  (color &&& (0x00FFFFFF : UInt32)) ||| (alpha.toUInt32 <<< 24)

def colorBlend (dst src : Pixel) : Pixel :=
  let sa := colorA src
  if sa = 0 then dst
  else if sa = 255 then src
  else
    let da := 255 - sa
    let r := ((colorR src * sa + colorR dst * da) / 255).toUInt8
    let g := ((colorG src * sa + colorG dst * da) / 255).toUInt8
    let b := ((colorB src * sa + colorB dst * da) / 255).toUInt8
    let a := (sa + colorA dst * da / 255).toUInt8
    colorARGB a r g b

end Nv0ken.Graphics
