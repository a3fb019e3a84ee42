/-
The id and the owner of a window.

`wm_create_window` stores an id and the reference it is given, and no other operation writes
either.  So what depends on the ids and owners of the windows only is kept by every operation,
if it is by the coming and going of windows (`stack_step`): the windows have their owners among
those given (`owners_step`), and no id occurs twice (`ids_distinct`).
-/
import Nv0ken.Proofs.Graphics.Windows

namespace Nv0ken.Graphics

open Run Word StableSort List

variable {wm wm' : WindowManager} {id x y w h : Int} {f : Window → Window}
  {S : Int → Option Nat → Prop} {P : Int → List Window → Prop}

/-- Every window has its id and owner among those given. -/
def Owned (S : Int → Option Nat → Prop) (windows : List Window) : Prop :=
  ∀ v ∈ windows, S v.id v.owner

/-- A change of a window that leaves its id and owner alone. -/
def KeepsOwner (f : Window → Window) : Prop := ∀ v, (f v).id = v.id ∧ (f v).owner = v.owner

/-- What is kept when windows are changed but for their ids and owners, moved, or taken away. -/
structure KeptByStack (P : Int → List Window → Prop) : Prop where
  modify : ∀ {next ws f}, KeepsOwner f → P next ws → ∀ slot, P next (ws.modify slot f)
  sorted : ∀ {next ws}, P next ws → P next (sortBy Window.zOrder ws)
  erase : ∀ {next ws}, P next ws → ∀ slot, P next (ws.eraseIdx slot)
  blur : ∀ {next ws}, P next ws → ∀ id, P next (ws.map (blur id))

def Stack (P : Int → List Window → Prop) (wm : WindowManager) : Prop := P wm.nextWinId wm.windows

section

variable (hP : KeptByStack P) (hown : Stack P wm)
include hP hown

theorem stack_focus (id : Int) : Stack P (wmFocusWindow wm id) := by
  unfold wmFocusWindow
  split
  · exact hown
  · split
    · exact hown
    · refine hP.sorted (hP.modify ?_ (hP.blur hown id) _)
      exact fun v => ⟨rfl, rfl⟩

theorem stack_destroy (id : Int) : Stack P (wmDestroyWindow wm id) := by
  unfold wmDestroyWindow
  split
  · exact hown
  · simp only
    split
    · split
      · exact hP.erase hown _
      · refine stack_focus hP ?_ _
        exact hP.erase hown _
    · exact hP.erase hown _

omit hP in
/-- An operation that changes the window it finds. -/
theorem stack_found {g : Nat → Window → WindowManager} (hg : ∀ slot v, Stack P (g slot v)) :
    Stack P (match wmFindWindow wm id with
      | none => wm
      | some (slot, v) => g slot v) := by
  split
  · exact hown
  · exact hg _ _

theorem stack_minimize (id : Int) : Stack P (wmMinimizeWindow wm id) := by
  refine stack_found hown fun slot v => ?_
  have hset := hP.modify (f := fun v => { v with state := .minimized, visible := false })
    (fun v => ⟨rfl, rfl⟩) hown slot
  simp only
  split
  · split
    · exact hset
    · refine stack_focus hP ?_ _
      exact hset
  · exact hset

theorem stack_restore (id : Int) : Stack P (wmRestoreWindow wm id) := by
  refine stack_found hown fun slot v => stack_focus hP ?_ id
  refine hP.modify ?_ ?_ slot
  · exact fun v => ⟨rfl, rfl⟩
  · split
    · refine hP.modify ?_ hown slot
      exact fun v => ⟨rfl, rfl⟩
    · exact hown

theorem stack_maximize (id : Int) : Stack P (wmMaximizeWindow wm id) := by
  refine stack_found hown fun slot v => ?_
  split
  · exact stack_restore hP hown id
  · refine hP.modify ?_ hown slot
    exact fun v => ⟨rfl, rfl⟩

theorem stack_close (id : Int) : Stack P (wmCloseWindow wm id) := by
  refine stack_found hown fun slot v => ?_
  split
  · exact hown
  · exact stack_destroy hP hown id

end

theorem stack_kept (hP : KeptByStack P) : KeptByClick (Stack P) where
  same {wm wm'} hown hsame := by
    have hwindows : wm'.windows = wm.windows := congrArg Desk.windows hsame.desk
    have hnext : wm'.nextWinId = wm.nextWinId := congrArg Desk.nextWinId hsame.desk
    rw [Stack, hwindows, hnext]
    exact hown
  move id x y hown := by
    refine stack_found hown fun slot v => hP.modify ?_ hown slot
    exact fun v => ⟨rfl, rfl⟩
  resize id w h hown := by
    refine stack_found hown fun slot v => hP.modify ?_ hown slot
    exact fun v => ⟨rfl, rfl⟩
  restore id hown := stack_restore hP hown id
  maximize id hown := stack_maximize hP hown id
  focus id hown := stack_focus hP hown id
  close id hown := stack_close hP hown id
  minimize id hown := stack_minimize hP hown id

/-- A new window has the next id and the owner it is created for. -/
theorem stack_create (hP : KeptByStack P) (hown : Stack P wm) (owner : Option Nat) (x y w h : Int)
    (title : Option (List UInt8)) (flags : Int)
    (hnew : ∀ v, v.id = wm.nextWinId → v.owner = owner →
      P (int32 (wm.nextWinId + 1)) (wm.windows ++ [v])) :
    Stack P (wmCreateWindow wm owner x y w h title flags).1 := by
  unfold wmCreateWindow
  split
  · exact hown
  · obtain ⟨cx, cy, px, py, hplace⟩ := placeWindow_eq wm x y (if w < minWidth then minWidth else w)
      (if h < minHeight then minHeight else h)
    simp only [hplace]
    refine hP.sorted (stack_focus hP ?_ _)
    generalize hv : newWindow _ owner px py _ _ title flags = v
    generalize hwm' : ({ wm with nextCascadeX := cx, nextCascadeY := cy } : WindowManager) =
      wm' at hv
    obtain ⟨frame, client, hadd⟩ := addWindow_desk wm' v
    have hwindows : (addWindow wm' v).windows = _ := congrArg Desk.windows hadd
    have hnext : (addWindow wm' v).nextWinId = _ := congrArg Desk.nextWinId hadd
    rw [Stack, hwindows, hnext]
    subst hv hwm'
    exact hnew _ rfl rfl

/-- **No operation but the creation of a window gives an id and an owner.** -/
theorem stack_step (hP : KeptByStack P) (op : WmOp) (hown : Stack P wm)
    (hstep : wmStep wm op = some wm')
    (hnew : ∀ owner x y w h title flags, op = .create owner x y w h title flags →
      ∀ v, v.id = wm.nextWinId → v.owner = owner →
        P (int32 (wm.nextWinId + 1)) (wm.windows ++ [v])) : Stack P wm' := by
  have hkept := stack_kept hP
  cases op <;> obtain rfl := Option.some.inj hstep
  case create => exact stack_create hP hown _ _ _ _ _ _ _ (hnew _ _ _ _ _ _ _ rfl)
  case destroy => exact stack_destroy hP hown _
  case focus => exact hkept.focus _ hown
  case minimize => exact hkept.minimize _ hown
  case restore => exact hkept.restore _ hown
  case maximize => exact hkept.maximize _ hown
  case fullscreen =>
    refine stack_found hown fun slot v => ?_
    split
    · exact hkept.restore _ hown
    · refine hP.modify ?_ hown slot
      exact fun v => ⟨rfl, rfl⟩
  case close => exact hkept.close _ hown
  case setTitle id title =>
    unfold wmSetTitle
    split
    · refine hP.modify ?_ hown _
      exact fun v => ⟨rfl, rfl⟩
    · exact hown
  case resize => exact hkept.resize _ _ _ hown
  case move => exact hkept.move _ _ _ hown
  case «show» =>
    refine stack_found hown fun slot v => stack_focus hP ?_ _
    refine hP.modify ?_ hown slot
    exact fun v => ⟨rfl, rfl⟩
  case hide =>
    refine stack_found hown fun slot v => hP.modify ?_ hown slot
    exact fun v => ⟨rfl, rfl⟩
  case raise =>
    refine stack_found hown fun slot v => ?_
    have hset : Stack P (sortWindowsByZ (wm.setWindow slot fun v =>
        { v with zOrder := int32 (maxWindowZ wm.windows + 1) })) := by
      refine hP.sorted (hP.modify ?_ hown slot)
      exact fun v => ⟨rfl, rfl⟩
    simp only
    split <;> exact hset
  case lower =>
    refine stack_found hown fun slot v => hP.sorted (hP.modify ?_ hown slot)
    intro v
    by_cases hz : v.zOrder > 0
    · simp only [hz, if_true, and_self]
    · simp only [hz, if_false, and_self]
  case mouseDown => exact hkept.mouseDown hown
  case mouseUp => exact hkept.mouseUp hown
  case mouseMove => exact hkept.mouseMove hown

/-! ### Owners -/

theorem map_modify_of_eq {α : Type} {g : Window → α} (hg : ∀ v, g (f v) = g v) (ws : List Window)
    (slot : Nat) : (ws.modify slot f).map g = ws.map g := by
  induction ws generalizing slot with
  | nil => cases slot <;> rfl
  | cons v ws ih =>
    cases slot with
    | zero => exact congrArg (· :: ws.map g) (hg v)
    | succ slot => exact congrArg (g v :: ·) (ih slot)

theorem keepsOwner_blur (id : Int) : KeepsOwner (blur id) := by
  intro v
  unfold blur
  split <;> exact ⟨rfl, rfl⟩

theorem owned_stack : KeptByStack fun _ ws => Owned S ws where
  modify {_ ws _} hf hown slot := by
    have hsame := map_modify_of_eq (g := fun v => S v.id v.owner)
      (fun v => by rw [(hf v).1, (hf v).2]) ws slot
    have hall : ∀ p ∈ ws.map fun v => S v.id v.owner, p := forall_mem_map.mpr hown
    exact forall_mem_map.mp (hsame ▸ hall)
  sorted hown v hv := hown v ((sortBy_perm _).mem_iff.mp hv)
  erase hown slot v hv := hown v ((eraseIdx_sublist _ slot).subset hv)
  blur hown id := by
    refine forall_mem_map.mpr fun v hv => ?_
    rw [(keepsOwner_blur id v).1, (keepsOwner_blur id v).2]
    exact hown v hv

theorem owned_create (hown : Owned S wm.windows) (owner : Option Nat) (x y w h : Int)
    (title : Option (List UInt8)) (flags : Int) (hnew : S wm.nextWinId owner) :
    Owned S (wmCreateWindow wm owner x y w h title flags).1.windows := by
  refine stack_create owned_stack hown owner x y w h title flags fun v hid howner => ?_
  exact forall_mem_append.mpr ⟨hown, forall_mem_singleton.mpr (by rwa [hid, howner])⟩

/-- **No operation but the creation of a window writes an owner.** -/
theorem owners_step (op : WmOp) (hown : Owned S wm.windows) (hstep : wmStep wm op = some wm')
    (hnew : ∀ owner x y w h title flags, op = .create owner x y w h title flags →
      S wm.nextWinId owner) : Owned S wm'.windows := by
  refine stack_step owned_stack op hown hstep fun owner x y w h title flags hop v hid howner => ?_
  have hadded := hnew owner x y w h title flags hop
  exact forall_mem_append.mpr ⟨hown, forall_mem_singleton.mpr (by rwa [hid, howner])⟩

/-! ### Ids -/

theorem ids_stack : KeptByStack fun next ws => DeskIds ⟨ws, 0, next⟩ where
  modify hf h slot := by
    refine h.of_sub rfl (Perm.subperm (.of_eq ?_))
    exact map_modify_of_eq (fun v => (hf v).1) _ slot
  sorted h := h.of_sub rfl ((sortBy_perm _).map _).subperm
  erase h slot := h.of_sub rfl ((eraseIdx_sublist _ slot).map _).subperm
  blur h id := by
    refine h.of_sub rfl (Perm.subperm (.of_eq ?_))
    exact Keyed.map_key_map fun v => (keepsOwner_blur id v).1

/-- **No id occurs twice** in any state of a run, as long as the ids do not run out. -/
theorem ids_distinct (comp : Option Compositor) (screenW screenH : Int) (ops : List WmOp)
    (hlast : Along wmStep (fun wm _ => wm.nextWinId < 2 ^ 31 - 1)
      (wmNew comp screenW screenH) ops) :
    Throughout wmStep (fun wm => wm.desk.Distinct) (wmNew comp screenW screenH) ops := by
  have hall := along_throughout (I := Stack fun next ws => DeskIds ⟨ws, 0, next⟩)
    (fun wm op _ hids hlast hstep => stack_step ids_stack op hids hstep
      fun _ _ _ _ _ _ _ _ v hid _ => ids_add hids hid hlast)
    ((ids_new comp screenW screenH).of_sub rfl (.refl _)) hlast
  exact hall.mono fun _ hids => hids.distinct

end Nv0ken.Graphics
