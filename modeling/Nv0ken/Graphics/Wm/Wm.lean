/-
The window manager, `graphics/wm/wm.c`.

As in the compositor the slots of the window array in use are a list, and a pointer into the
array is a position in it that stays where it is when the array is sorted.  The compositor a
manager draws through belongs to its state.  What is sent to the clients is left out; of the
owner of a window only which client it is matters, and whether there is one.
-/
import Nv0ken.Graphics.Server.Compositor

namespace Nv0ken.Graphics

open Word StableSort

/-- `WM_MAX_WINDOWS`. -/
def maxWindows : Nat := 64

/-- `WM_MIN_WIDTH`. -/
def minWidth : Int := 120

/-- `WM_MIN_HEIGHT`. -/
def minHeight : Int := 80

/-- `WM_TITLEBAR_H`. -/
def titlebarH : Int := 28

/-- `WM_BORDER_W`. -/
def borderW : Int := 4

/-- `WM_RESIZE_HANDLE`. -/
def resizeHandle : Int := 8

/-- `WM_SNAP_THRESHOLD`. -/
def snapThreshold : Int := 16

/-- The length of a title without its final 0. -/
def titleLength : Nat := 127

inductive WindowState
  | normal
  | minimized
  | maximized
  | fullscreen
  deriving DecidableEq, Repr

inductive HitZone
  | none
  | titlebar
  | client
  | resizeN
  | resizeS
  | resizeE
  | resizeW
  | resizeNE
  | resizeNW
  | resizeSE
  | resizeSW
  | close
  | minimize
  | maximize
  deriving DecidableEq, Repr

/-- `drag_mode`: a resize carries the zone it began in. -/
inductive DragMode
  | none
  | move
  | resize (hit : HitZone)
  deriving DecidableEq, Repr

structure Window where
  id : Int
  title : List UInt8 := []
  x : Int
  y : Int
  w : Int
  h : Int
  clientX : Int := 0
  clientY : Int := 0
  clientW : Int := 0
  clientH : Int := 0
  restoreX : Int := 0
  restoreY : Int := 0
  restoreW : Int := 0
  restoreH : Int := 0
  state : WindowState := .normal
  flags : Nat
  focused : Bool := false
  visible : Bool := true
  compSurfaceId : Int := 0
  frameSurfaceId : Int := 0
  owner : Option Nat := none
  zOrder : Int
  deriving DecidableEq, Repr

/-- `nextCascadeX` and `nextCascadeY` are static variables of the source file. -/
structure WindowManager where
  comp : Option Compositor
  screenW : Int
  screenH : Int
  taskbarH : Int := 36
  windows : List Window := []
  nextWinId : Int := 1
  focusedId : Int := -1
  dragWinId : Int := -1
  dragMode : DragMode := .none
  dragStartMx : Int := 0
  dragStartMy : Int := 0
  dragStartWx : Int := 0
  dragStartWy : Int := 0
  dragStartWw : Int := 0
  dragStartWh : Int := 0
  snapPreviewX : Int := 0
  snapPreviewY : Int := 0
  snapPreviewW : Int := 0
  snapPreviewH : Int := 0
  snapPreviewActive : Bool := false
  nextCascadeX : Int := 60
  nextCascadeY : Int := 60

def wmNew (comp : Option Compositor) (screenW screenH : Int) : WindowManager :=
  { comp := comp, screenW := screenW, screenH := screenH }

/-! ### Layout helpers -/

/-- `WIN_FLAG_RESIZABLE`. -/
def Window.resizable (w : Window) : Bool := w.flags.testBit 0

/-- `WIN_FLAG_DECORATED`. -/
def Window.decorated (w : Window) : Bool := w.flags.testBit 1

/-- The room inside the decorations, of a window that has any. -/
def clientRect (w : Window) : NvRect :=
  if w.decorated then
    { x := int32 (w.x + borderW)
      y := int32 (w.y + titlebarH)
      w := int32 (w.w - borderW * 2)
      h := int32 (w.h - titlebarH - borderW) }
  else { x := w.x, y := w.y, w := w.w, h := w.h }

def updateClientRect (w : Window) : Window :=
  let r := clientRect w
  { w with
    clientX := r.x
    clientY := r.y
    clientW := if r.w < 0 then 0 else r.w
    clientH := if r.h < 0 then 0 else r.h }

def sortWindowsByZ (wm : WindowManager) : WindowManager :=
  { wm with windows := sortBy Window.zOrder wm.windows }

def cascadePosition (wm : WindowManager) : WindowManager × Int × Int :=
  let x := wm.nextCascadeX
  let y := wm.nextCascadeY
  let nextX := int32 (x + 28)
  let nextY := int32 (y + 28)
  let wm :=
    if nextX > wm.screenW.tdiv 2 then { wm with nextCascadeX := 60, nextCascadeY := 60 }
    else { wm with nextCascadeX := nextX, nextCascadeY := nextY }
  (wm, x, y)

/-- The compositor, if there is one, after some calls. -/
def WindowManager.onComp (wm : WindowManager) (f : Compositor → Compositor) : WindowManager :=
  { wm with comp := wm.comp.map f }

/-- The slot with other contents. -/
def WindowManager.setWindow (wm : WindowManager) (slot : Nat) (f : Window → Window) :
    WindowManager :=
  { wm with windows := wm.windows.modify slot f }

/-- No window in focus, as far as the manager itself knows. -/
def WindowManager.noFocus (wm : WindowManager) : WindowManager := { wm with focusedId := -1 }

/-- The slot a window stands in and its contents. -/
def wmFindWindow (wm : WindowManager) (winId : Int) : Option (Nat × Window) :=
  (wm.windows.findIdx? fun w => w.id = winId).bind fun slot =>
    wm.windows[slot]?.map fun w => (slot, w)

/-! ### Focus -/

/-- What the loop over the windows does to one of them. -/
def blur (winId : Int) (w : Window) : Window :=
  if w.focused ∧ w.id ≠ winId then { w with focused := false } else w

def wmFocusWindow (wm : WindowManager) (winId : Int) : WindowManager :=
  match wmFindWindow wm winId with
  | none => wm
  | some (slot, w) =>
    if !w.visible then wm
    else
      let blurred := wm.windows.filter fun v => v.focused ∧ v.id ≠ winId
      let wm := { wm with windows := wm.windows.map (blur winId) }
      let wm := wm.onComp fun c =>
        blurred.foldl (fun c v => compositorDamageSurface c v.frameSurfaceId) c
      let wm := wm.setWindow slot fun w => { w with focused := true }
      let wm := { wm with focusedId := winId }
      let wm := wm.onComp fun c =>
        let c := compositorRaiseSurface c w.frameSurfaceId
        let c := compositorRaiseSurface c w.compSurfaceId
        compositorDamageSurface c w.frameSurfaceId
      sortWindowsByZ wm

/-! ### Creation and destruction -/

/-- The corner a new window of this size is put at. -/
def placeWindow (wm : WindowManager) (x y w h : Int) : WindowManager × Int × Int :=
  let (wm, x, y) := if x < 0 ∧ y < 0 then cascadePosition wm else (wm, x, y)
  let x := if int32 (x + w) > wm.screenW then int32 (wm.screenW - w - borderW) else x
  let y :=
    if int32 (y + h) > int32 (wm.screenH - wm.taskbarH) then
      int32 (wm.screenH - wm.taskbarH - h - borderW)
    else y
  (wm, if x < 0 then 0 else x, if y < 0 then 0 else y)

/-- The surfaces of a new window: the frame's and the client's id. -/
def createSurfaces (c : Compositor) (win : Window) : Compositor × Int × Int :=
  let (c, frame) := compositorCreateSurface c win.x win.y win.w win.h .normal
  let (c, client) :=
    compositorCreateSurface c win.clientX win.clientY win.clientW win.clientH .normal
  (compositorRaiseSurface c frame, frame, client)

/-- A window for the next slot, without surfaces yet. -/
def newWindow (wm : WindowManager) (owner : Option Nat) (x y w h : Int)
    (title : Option (List UInt8)) (flags : Int) : Window :=
  updateClientRect
    { id := wm.nextWinId
      x := x
      y := y
      w := w
      h := h
      flags := if flags > 0 then flags.toNat else 3
      owner := owner
      zOrder := 100 + (wm.windows.length + 1)
      title := (title.getD []).take titleLength }

/-- The window goes into the slot and gets its surfaces. -/
def addWindow (wm : WindowManager) (win : Window) : WindowManager :=
  let wm := { wm with nextWinId := int32 (wm.nextWinId + 1) }
  match wm.comp with
  | none => { wm with windows := wm.windows ++ [win] }
  | some c =>
    let (c, frame, client) := createSurfaces c win
    { wm with
      comp := some c
      windows := wm.windows ++ [{ win with frameSurfaceId := frame, compSurfaceId := client }] }

/-- What is returned is the slot the window was put in before the array was sorted. -/
def wmCreateWindow (wm : WindowManager) (owner : Option Nat) (x y w h : Int)
    (title : Option (List UInt8)) (flags : Int) : WindowManager × Option Nat :=
  if wm.windows.length ≥ maxWindows then (wm, none)
  else
    let w := if w < minWidth then minWidth else w
    let h := if h < minHeight then minHeight else h
    let (wm, x, y) := placeWindow wm x y w h
    let slot := wm.windows.length
    let win := newWindow wm owner x y w h title flags
    (sortWindowsByZ (wmFocusWindow (addWindow wm win) win.id), some slot)

/-- The surfaces of a window go with it. -/
def destroySurfaces (w : Window) (c : Compositor) : Compositor :=
  let c := if w.compSurfaceId > 0 then compositorDestroySurface c w.compSurfaceId else c
  if w.frameSurfaceId > 0 then compositorDestroySurface c w.frameSurfaceId else c

def wmDestroyWindow (wm : WindowManager) (winId : Int) : WindowManager :=
  match wmFindWindow wm winId with
  | none => wm
  | some (slot, w) =>
    let wm := wm.onComp (destroySurfaces w)
    let wm := { wm with windows := wm.windows.eraseIdx slot }
    if wm.focusedId = winId then
      let wm := wm.noFocus
      match wm.windows.getLast? with
      | none => wm
      | some v => wmFocusWindow wm v.id
    else wm

/-! ### State changes -/

def wmMinimizeWindow (wm : WindowManager) (winId : Int) : WindowManager :=
  match wmFindWindow wm winId with
  | none => wm
  | some (slot, w) =>
    let wm := wm.setWindow slot fun w => { w with state := .minimized, visible := false }
    let wm := wm.onComp fun c =>
      compositorHideSurface (compositorHideSurface c w.frameSurfaceId) w.compSurfaceId
    if wm.focusedId = winId then
      let wm := wm.noFocus
      match wm.windows.reverse.find? fun v => v.visible ∧ v.id ≠ winId with
      | none => wm
      | some v => wmFocusWindow wm v.id
    else wm

/-- The surfaces of a window are put where the window and its client area are. -/
def placeSurfaces (w : Window) (c : Compositor) : Compositor :=
  let c := compositorMoveSurface c w.frameSurfaceId w.x w.y
  let c := compositorResizeSurface c w.frameSurfaceId w.w w.h
  let c := compositorMoveSurface c w.compSurfaceId w.clientX w.clientY
  compositorResizeSurface c w.compSurfaceId w.clientW w.clientH

def showSurfaces (w : Window) (c : Compositor) : Compositor :=
  compositorShowSurface (compositorShowSurface c w.frameSurfaceId) w.compSurfaceId

/-- A window in its saved place. -/
def atRestore (w : Window) : Window :=
  updateClientRect { w with x := w.restoreX, y := w.restoreY, w := w.restoreW, h := w.restoreH }

def wmRestoreWindow (wm : WindowManager) (winId : Int) : WindowManager :=
  match wmFindWindow wm winId with
  | none => wm
  | some (slot, w) =>
    let wm :=
      if w.state = .maximized ∨ w.state = .fullscreen then
        (wm.setWindow slot atRestore).onComp (placeSurfaces (atRestore w))
      else wm
    let wm := wm.setWindow slot fun w => { w with state := .normal, visible := true }
    let wm := wm.onComp (showSurfaces w)
    wmFocusWindow wm winId

/-- A window with its place saved, spread over the screen from its corner. -/
def spread (w : Window) (width height : Int) (state : WindowState) : Window :=
  updateClientRect
    { w with
      restoreX := w.x, restoreY := w.y, restoreW := w.w, restoreH := w.h
      x := 0, y := 0, w := width, h := height, state := state }

def wmMaximizeWindow (wm : WindowManager) (winId : Int) : WindowManager :=
  match wmFindWindow wm winId with
  | none => wm
  | some (slot, w) =>
    if w.state = .maximized then wmRestoreWindow wm winId
    else
      let f := fun w => spread w wm.screenW (int32 (wm.screenH - wm.taskbarH)) .maximized
      (wm.setWindow slot f).onComp (placeSurfaces (f w))

/-- Here both surfaces are put over the whole screen. -/
def fillSurfaces (w : Window) (width height : Int) (c : Compositor) : Compositor :=
  let c := compositorMoveSurface c w.frameSurfaceId 0 0
  let c := compositorResizeSurface c w.frameSurfaceId width height
  let c := compositorMoveSurface c w.compSurfaceId 0 0
  compositorResizeSurface c w.compSurfaceId width height

def wmFullscreenWindow (wm : WindowManager) (winId : Int) : WindowManager :=
  match wmFindWindow wm winId with
  | none => wm
  | some (slot, w) =>
    if w.state = .fullscreen then wmRestoreWindow wm winId
    else
      let f := fun w => spread w wm.screenW wm.screenH .fullscreen
      (wm.setWindow slot f).onComp (fillSurfaces w wm.screenW wm.screenH)

/-- An owner is asked to close the window itself. -/
def wmCloseWindow (wm : WindowManager) (winId : Int) : WindowManager :=
  match wmFindWindow wm winId with
  | none => wm
  | some (_, w) => if w.owner.isSome then wm else wmDestroyWindow wm winId

def wmSetTitle (wm : WindowManager) (winId : Int) (title : Option (List UInt8)) : WindowManager :=
  match wmFindWindow wm winId, title with
  | some (slot, w), some title =>
    (wm.setWindow slot fun w => { w with title := title.take titleLength }).onComp fun c =>
      compositorDamageSurface c w.frameSurfaceId
  | _, _ => wm

/-- A window of another size. -/
def resized (w : Window) (nw nh : Int) : Window :=
  updateClientRect
    { w with
      w := if nw < minWidth then minWidth else nw
      h := if nh < minHeight then minHeight else nh }

def wmResizeWindow (wm : WindowManager) (winId nw nh : Int) : WindowManager :=
  match wmFindWindow wm winId with
  | none => wm
  | some (slot, w) =>
    let w := resized w nw nh
    (wm.setWindow slot fun w => resized w nw nh).onComp fun c =>
      let c := compositorResizeSurface c w.frameSurfaceId w.w w.h
      let c := compositorMoveSurface c w.compSurfaceId w.clientX w.clientY
      compositorResizeSurface c w.compSurfaceId w.clientW w.clientH

/-- A window in another place. -/
def moved (w : Window) (x y : Int) : Window := updateClientRect { w with x := x, y := y }

def wmMoveWindow (wm : WindowManager) (winId x y : Int) : WindowManager :=
  match wmFindWindow wm winId with
  | none => wm
  | some (slot, w) =>
    let w := moved w x y
    (wm.setWindow slot fun w => moved w x y).onComp fun c =>
      let c := compositorMoveSurface c w.frameSurfaceId x y
      compositorMoveSurface c w.compSurfaceId w.clientX w.clientY

def wmShowWindow (wm : WindowManager) (winId : Int) : WindowManager :=
  match wmFindWindow wm winId with
  | none => wm
  | some (slot, w) =>
    let wm := wm.setWindow slot fun w => { w with visible := true }
    wmFocusWindow (wm.onComp (showSurfaces w)) winId

def wmHideWindow (wm : WindowManager) (winId : Int) : WindowManager :=
  match wmFindWindow wm winId with
  | none => wm
  | some (slot, w) =>
    (wm.setWindow slot fun w => { w with visible := false }).onComp fun c =>
      compositorHideSurface (compositorHideSurface c w.frameSurfaceId) w.compSurfaceId

/-- The greatest place in the stack, or 0. -/
def maxWindowZ (windows : List Window) : Int :=
  windows.foldl (fun max v => if v.zOrder > max then v.zOrder else max) 0

/-- The surface raised at the end is that of whatever then stands in the window's old slot. -/
def wmRaiseWindow (wm : WindowManager) (winId : Int) : WindowManager :=
  match wmFindWindow wm winId with
  | none => wm
  | some (slot, _) =>
    let maxZ := maxWindowZ wm.windows
    let wm := sortWindowsByZ (wm.setWindow slot fun w => { w with zOrder := int32 (maxZ + 1) })
    match wm.windows[slot]? with
    | none => wm
    | some v => wm.onComp fun c => compositorRaiseSurface c v.frameSurfaceId

def wmLowerWindow (wm : WindowManager) (winId : Int) : WindowManager :=
  match wmFindWindow wm winId with
  | none => wm
  | some (slot, _) =>
    sortWindowsByZ (wm.setWindow slot fun w =>
      if w.zOrder > 0 then { w with zOrder := w.zOrder - 1 } else w)

/-! ### Hit testing -/

/-- The loop stops at the window. -/
def hits (x y : Int) (w : Window) : Bool :=
  w.visible ∧ w.state ≠ .minimized ∧ w.x ≤ x ∧ x < int32 (w.x + w.w) ∧ w.y ≤ y ∧
    y < int32 (w.y + w.h)

def hitZone (w : Window) (x y : Int) : HitZone :=
  if !w.decorated then .client
  else if y ≥ w.y ∧ y < int32 (w.y + titlebarH) then
    if x ≥ int32 (w.x + w.w - 24) ∧ x < int32 (w.x + w.w - 4) then .close
    else if x ≥ int32 (w.x + w.w - 48) ∧ x < int32 (w.x + w.w - 28) then .maximize
    else if x ≥ int32 (w.x + w.w - 72) ∧ x < int32 (w.x + w.w - 52) then .minimize
    else .titlebar
  else if !w.resizable then .client
  else
    let right := x ≥ int32 (w.x + w.w - resizeHandle)
    let bottom := y ≥ int32 (w.y + w.h - resizeHandle)
    let left := x < int32 (w.x + resizeHandle)
    let top := y < int32 (w.y + resizeHandle)
    if top ∧ left then .resizeNW
    else if top ∧ right then .resizeNE
    else if bottom ∧ left then .resizeSW
    else if bottom ∧ right then .resizeSE
    else if top then .resizeN
    else if bottom then .resizeS
    else if left then .resizeW
    else if right then .resizeE
    else .client

/-- The zone and the id of the window hit, or -1. -/
def wmHitTest (wm : WindowManager) (x y : Int) : HitZone × Int :=
  match wm.windows.reverse.find? (hits x y) with
  | none => (.none, -1)
  | some w => (hitZone w x y, w.id)

/-! ### Mouse input -/

/-- The start of a drag at the point. -/
def startDrag (wm : WindowManager) (winId x y : Int) (w : Window) (mode : DragMode) :
    WindowManager :=
  { wm with
    dragWinId := winId, dragMode := mode, dragStartMx := x, dragStartMy := y
    dragStartWx := w.x, dragStartWy := w.y }

def wmMouseDown (wm : WindowManager) (x y : Int) : WindowManager :=
  let (hz, winId) := wmHitTest wm x y
  let wm := if winId > 0 ∧ winId ≠ wm.focusedId then wmFocusWindow wm winId else wm
  match if winId > 0 then wmFindWindow wm winId else none with
  | none => wm
  | some (_, w) =>
    match hz with
    | .close => wmCloseWindow wm winId
    | .maximize => wmMaximizeWindow wm winId
    | .minimize => wmMinimizeWindow wm winId
    | .titlebar => startDrag wm winId x y w .move
    | .client | .none => wm
    | .resizeN | .resizeS | .resizeE | .resizeW | .resizeNE | .resizeNW | .resizeSE | .resizeSW =>
      { startDrag wm winId x y w (.resize hz) with dragStartWw := w.w, dragStartWh := w.h }

/-- The window dragged goes to where the preview showed it. -/
def snapToPreview (wm : WindowManager) (w : Window) : WindowManager :=
  let wm := wmMoveWindow wm w.id wm.snapPreviewX wm.snapPreviewY
  if wm.snapPreviewW ≠ w.w ∨ wm.snapPreviewH ≠ w.h then
    wmResizeWindow wm w.id wm.snapPreviewW wm.snapPreviewH
  else wm

def wmMouseUp (wm : WindowManager) : WindowManager :=
  let wm :=
    if wm.dragMode = .move ∧ wm.dragWinId > 0 then
      match wmFindWindow wm wm.dragWinId with
      | none => wm
      | some (_, w) => if wm.snapPreviewActive then snapToPreview wm w else wm
    else wm
  { wm with dragWinId := -1, dragMode := .none, snapPreviewActive := false }

/-- The preview of a window snapped to a half of the screen. -/
def snapPreview (wm : WindowManager) (x : Int) : WindowManager :=
  { wm with
    snapPreviewX := x, snapPreviewY := 0, snapPreviewW := wm.screenW.tdiv 2
    snapPreviewH := int32 (wm.screenH - wm.taskbarH), snapPreviewActive := true }

def dragMove (wm : WindowManager) (x y : Int) (w : Window) : WindowManager :=
  let wm := if w.state = .maximized then wmRestoreWindow wm wm.dragWinId else wm
  let nx := int32 (wm.dragStartWx + (x - wm.dragStartMx))
  let ny := int32 (wm.dragStartWy + (y - wm.dragStartMy))
  let wm := { wm with snapPreviewActive := false }
  if x ≤ snapThreshold then snapPreview wm 0
  else if x ≥ int32 (wm.screenW - snapThreshold) then snapPreview wm (wm.screenW.tdiv 2)
  else if y ≤ snapThreshold then { wmMaximizeWindow wm wm.dragWinId with dragWinId := -1 }
  else
    let ny := if ny < 0 then 0 else ny
    let ny :=
      if int32 (ny + titlebarH) > int32 (wm.screenH - wm.taskbarH) then
        int32 (wm.screenH - wm.taskbarH - titlebarH)
      else ny
    wmMoveWindow wm wm.dragWinId nx ny

/-- A drag at the west side moves the corner too, one at the north side likewise. -/
def dragResize (wm : WindowManager) (x y : Int) (w : Window) (hit : HitZone) : WindowManager :=
  let dx := int32 (x - wm.dragStartMx)
  let dy := int32 (y - wm.dragStartMy)
  let east := hit = .resizeE ∨ hit = .resizeNE ∨ hit = .resizeSE
  let west := hit = .resizeW ∨ hit = .resizeNW ∨ hit = .resizeSW
  let south := hit = .resizeS ∨ hit = .resizeSE ∨ hit = .resizeSW
  let north := hit = .resizeN ∨ hit = .resizeNE ∨ hit = .resizeNW
  let nw := if east then int32 (wm.dragStartWw + dx) else w.w
  let (nx, nw) :=
    if west then (int32 (wm.dragStartWx + dx), int32 (wm.dragStartWw - dx)) else (w.x, nw)
  let nh := if south then int32 (wm.dragStartWh + dy) else w.h
  let (ny, nh) :=
    if north then (int32 (wm.dragStartWy + dy), int32 (wm.dragStartWh - dy)) else (w.y, nh)
  let nx := if nw < minWidth ∧ west then int32 (w.x + w.w - minWidth) else nx
  let nw := if nw < minWidth then minWidth else nw
  let ny := if nh < minHeight ∧ north then int32 (w.y + w.h - minHeight) else ny
  let nh := if nh < minHeight then minHeight else nh
  wmResizeWindow (wmMoveWindow wm wm.dragWinId nx ny) wm.dragWinId nw nh

def wmMouseMove (wm : WindowManager) (x y : Int) : WindowManager :=
  if wm.dragWinId > 0 then
    match wmFindWindow wm wm.dragWinId with
    | none => wm
    | some (_, w) =>
      match wm.dragMode with
      | .none => wm
      | .move => dragMove wm x y w
      | .resize hit => dragResize wm x y w hit
  else wm

end Nv0ken.Graphics
