/-
Widgets and scroll bars: `graphics/widgets/widget.c` and `scrollbar.c`.

A widget is its rectangle and the flags that event handlers look at; drawing and the dirty
flag are left out.  A scroll bar tells its owner about a new value by a callback, which is
modelled by the value it passes.  Quotients are those of C, rounded towards zero.  Numbers
are integers without a bound, and a quotient by zero is zero: what is proved of these
functions holds of the code where `ThumbDefined` says that the divisor is not zero and every
number that comes up is one of an `int`.
-/
import Mathlib.Algebra.Group.Int.Defs
import Mathlib.Algebra.Group.Nat.Defs
import Mathlib.Data.Int.Order.Basic

namespace Nv0ken.Widgets

structure Widget where
  x : Int
  y : Int
  w : Int
  h : Int
  hidden : Bool := false
  focused : Bool := false
  deriving DecidableEq, Repr

/-- `WidgetEvent`, as far as the handlers below tell events apart. -/
inductive Event
  | mouseDown (x y : Int) (mods : Nat)
  | mouseUp (x y : Int)
  | mouseMove (x y : Int)
  | scroll (dy : Int)
  | keyDown (key cp mods : Nat)
  | focusIn
  | focusOut
  | other
  deriving DecidableEq, Repr

/-! The codes of the keys that stand for no character. -/

def keyLeft : Nat := 0xFF51
def keyRight : Nat := 0xFF53
def keyUp : Nat := 0xFF52
def keyDown : Nat := 0xFF54
def keyPageUp : Nat := 0xFF55
def keyPageDown : Nat := 0xFF56
def keyHome : Nat := 0xFF50
def keyEnd : Nat := 0xFF57
def keyBackspace : Nat := 0xFF08
def keyDelete : Nat := 0xFFFF

def widgetHit (w : Widget) (x y : Int) : Bool :=
  !w.hidden && (x ≥ w.x ∧ x < w.x + w.w ∧ y ≥ w.y ∧ y < w.y + w.h)

inductive Orientation
  | vertical
  | horizontal
  deriving DecidableEq, Repr

def arrowSize : Int := 14
def minThumb : Int := 20

structure Scrollbar where
  base : Widget
  orient : Orientation
  minVal : Int := 0
  maxVal : Int := 100
  pageSize : Int := 10
  value : Int := 0
  thumbPos : Int := 0
  thumbSize : Int := 0
  dragging : Bool := false
  dragOffset : Int := 0
  deriving DecidableEq, Repr

/-- The length of the bar along its axis. -/
def Scrollbar.extent (sb : Scrollbar) : Int :=
  match sb.orient with
  | .vertical => sb.base.h
  | .horizontal => sb.base.w

/-- A point along the axis of the bar, from its beginning. -/
def Scrollbar.along (sb : Scrollbar) (x y : Int) : Int :=
  match sb.orient with
  | .vertical => y - sb.base.y
  | .horizontal => x - sb.base.x

def computeThumb (sb : Scrollbar) : Scrollbar :=
  let trackLen := sb.extent - arrowSize * 2
  let trackLen := if trackLen ≤ 0 then 1 else trackLen
  let range := sb.maxVal - sb.minVal
  if range ≤ 0 then { sb with thumbPos := 0, thumbSize := trackLen }
  else
    let size := (sb.pageSize * trackLen).tdiv (range + sb.pageSize)
    let size := if size < minThumb then minThumb else size
    let size := if size > trackLen then trackLen else size
    let scrollRange := range - sb.pageSize
    if scrollRange ≤ 0 then { sb with thumbPos := 0, thumbSize := size }
    else
      { sb with
        thumbPos := ((sb.value - sb.minVal) * (trackLen - size)).tdiv scrollRange
        thumbSize := size }

/-- The number is one of an `int`. -/
def IsInt (n : Int) : Prop := -2 ^ 31 ≤ n ∧ n < 2 ^ 31

instance (n : Int) : Decidable (IsInt n) := inferInstanceAs (Decidable (_ ∧ _))

/-- Every step of `compute_thumb` is defined. -/
def ThumbDefined (sb : Scrollbar) : Prop :=
  let track := sb.extent - arrowSize * 2
  let trackLen := if track ≤ 0 then 1 else track
  let range := sb.maxVal - sb.minVal
  IsInt track ∧ IsInt range ∧
    (0 < range →
      range + sb.pageSize ≠ 0 ∧ IsInt (range + sb.pageSize) ∧ IsInt (sb.pageSize * trackLen) ∧
        IsInt ((sb.pageSize * trackLen).tdiv (range + sb.pageSize)) ∧
        IsInt (range - sb.pageSize) ∧
        (sb.pageSize < range →
          IsInt (sb.value - sb.minVal) ∧
            IsInt ((sb.value - sb.minVal) * (trackLen - (computeThumb sb).thumbSize))))

instance (sb : Scrollbar) : Decidable (ThumbDefined sb) := by
  unfold ThumbDefined
  infer_instance

def setValueFromThumb (sb : Scrollbar) : Scrollbar :=
  let trackLen := sb.extent - arrowSize * 2
  let scrollRange := trackLen - sb.thumbSize
  if scrollRange ≤ 0 then { sb with value := sb.minVal }
  else
    let range := sb.maxVal - sb.minVal - sb.pageSize
    if range ≤ 0 then { sb with value := sb.minVal }
    else
      let value := sb.minVal + (sb.thumbPos * range).tdiv scrollRange
      let value := if value < sb.minVal then sb.minVal else value
      let value := if value > sb.maxVal - sb.pageSize then sb.maxVal - sb.pageSize else value
      { sb with value := value }

def scrollbarNew (x y w h : Int) (orient : Orientation) : Scrollbar :=
  computeThumb { base := { x := x, y := y, w := w, h := h }, orient := orient }

def scrollbarSetRange (sb : Scrollbar) (min max page : Int) : Scrollbar :=
  let value := if sb.value < min then min else sb.value
  let value := if value > max then max else value
  computeThumb { sb with minVal := min, maxVal := max, pageSize := page, value := value }

def scrollbarSetValue (sb : Scrollbar) (value : Int) : Scrollbar :=
  let value := if value < sb.minVal then sb.minVal else value
  let value := if value > sb.maxVal - sb.pageSize then sb.maxVal - sb.pageSize else value
  computeThumb { sb with value := value }

/-- `scrollbar_set_value` and the callback. -/
def scrollTo (sb : Scrollbar) (value : Int) : Scrollbar × Option Int :=
  let sb := scrollbarSetValue sb value
  (sb, some sb.value)

/-- The bar, and the value passed to the callback if it is called. -/
def scrollbarOnEvent (sb : Scrollbar) : Event → Scrollbar × Option Int
  | .mouseDown x y _ =>
    let pos := sb.along x y
    if pos < arrowSize then scrollTo sb (sb.value - sb.pageSize.tdiv 4)
    else if pos ≥ sb.extent - arrowSize then scrollTo sb (sb.value + sb.pageSize.tdiv 4)
    else
      let thumbStart := arrowSize + sb.thumbPos
      let thumbEnd := thumbStart + sb.thumbSize
      if pos ≥ thumbStart ∧ pos < thumbEnd then
        ({ sb with dragging := true, dragOffset := pos - thumbStart }, none)
      else
        -- page jump
        let dir : Int := if pos < thumbStart then -1 else 1
        scrollTo sb (sb.value + dir * sb.pageSize)
  | .mouseUp _ _ => ({ sb with dragging := false }, none)
  | .mouseMove x y =>
    if sb.dragging then
      let pos := sb.along x y - arrowSize - sb.dragOffset
      let track := sb.extent - arrowSize * 2 - sb.thumbSize
      let track := if track < 1 then 1 else track
      let pos := if pos < 0 then 0 else pos
      let pos := if pos > track then track else pos
      let sb := setValueFromThumb { sb with thumbPos := pos }
      (sb, some sb.value)
    else (sb, none)
  | .scroll dy => scrollTo sb (sb.value + dy * 3)
  | _ => (sb, none)

end Nv0ken.Widgets
