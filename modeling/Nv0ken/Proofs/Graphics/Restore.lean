/-
The place a window comes back to.

A window that is maximised or made fullscreen remembers its place, and a restored one takes
it up again.  There is one place to remember it in, and it is written whenever the screen
is filled, also when the window fills it already; and a minimised window is not put back when
it is restored.  So requests on a window may be mixed freely except that a window that fills
the screen must be restored before it is minimised or made to fill it in the other way.
-/
import Nv0ken.Proofs.Graphics.Windows

namespace Nv0ken.Graphics

open Run Word

variable {wm wm' : WindowManager} {d : Desk} {id i : Int} {v : Window} {r : NvRect}
  {f : Window → Window} {state : WindowState}

/-- The requests that change the place of a window. -/
inductive PlaceOp
  | maximize
  | fullscreen
  | minimize
  | restore

def placeStep (id : Int) (wm : WindowManager) : PlaceOp → Option WindowManager
  | .maximize => some (wmMaximizeWindow wm id)
  | .fullscreen => some (wmFullscreenWindow wm id)
  | .minimize => some (wmMinimizeWindow wm id)
  | .restore => some (wmRestoreWindow wm id)

def Window.rect (v : Window) : NvRect := { x := v.x, y := v.y, w := v.w, h := v.h }

def Window.restoreRect (v : Window) : NvRect :=
  { x := v.restoreX, y := v.restoreY, w := v.restoreW, h := v.restoreH }

/-- The window fills the screen. -/
def Filling (v : Window) : Prop := v.state = .maximized ∨ v.state = .fullscreen

instance : Decidable (Filling v) := by
  unfold Filling
  infer_instance

/-- A window in the normal state is in this place. -/
def InPlace (id : Int) (r : NvRect) (wm : WindowManager) : Prop :=
  ∀ v ∈ wm.windows, v.id = id → v.state = .normal → v.rect = r

/-- The place remembered is not lost: a window that fills the screen is not minimised and not
made to fill it in the other way, unless it fills the place it had before. -/
def PlaceSafe (id : Int) (wm : WindowManager) (op : PlaceOp) : Prop :=
  ∀ v ∈ wm.windows, v.id = id →
    match op with
    | .maximize => v.state = .fullscreen → v.rect = v.restoreRect
    | .fullscreen => v.state = .maximized → v.rect = v.restoreRect
    | .minimize => Filling v → v.rect = v.restoreRect
    | .restore => True

/-! ### What a window remembers -/

/-- The place is the window's own, or the one it remembers if it fills the screen. -/
def Remembers (r : NvRect) (v : Window) : Prop :=
  if Filling v then v.restoreRect = r else v.rect = r

/-- The window with the id remembers the place. -/
def Desk.Remembers (d : Desk) (id : Int) (r : NvRect) : Prop :=
  ∀ v ∈ d.windows, v.id = id → Graphics.Remembers r v

theorem remembers_focus (h : d.Remembers id r) : (d.focus i).Remembers id r := by
  intro u hu hid
  obtain ⟨v, hv, focused, rfl⟩ := mem_focus hu
  exact h v hv hid

theorem remembers_update (h : ∀ v ∈ d.windows, v.id = id → Remembers r (f v)) :
    (d.update id f).Remembers id r := by
  intro u hu hid
  obtain ⟨v, hv, rfl⟩ := mem_update hu
  by_cases hvid : v.id = id
  · rw [if_pos hvid]
    exact h v hv hvid
  · rw [if_neg hvid] at hid
    exact absurd hid hvid

/-- Restoring puts a window into the place it remembers. -/
theorem remembers_restored (h : Remembers r v) : Remembers r (restored v) := by
  unfold Remembers at h ⊢
  unfold restored
  by_cases hfilling : Filling v
  · have hback : unspread v = atRestore v := if_pos hfilling
    rw [if_pos hfilling] at h
    rw [hback]
    exact h
  · have hsame : unspread v = v := if_neg hfilling
    rw [if_neg hfilling] at h
    rw [hsame]
    exact h

theorem remembers_spread {width height : Int}
    (hstate : state = .maximized ∨ state = .fullscreen) (h : v.rect = r) :
    Remembers r (spread v width height state) := by
  have hfilling : Filling (spread v width height state) := hstate
  unfold Remembers
  rw [if_pos hfilling]
  exact h

theorem remembers_minimized (h : v.rect = r) : Remembers r (minimized v) := by
  exact h

/-- A window whose place is its own, one way or the other. -/
theorem rect_of_remembers (h : Remembers r v) (hsafe : Filling v → v.rect = v.restoreRect) :
    v.rect = r := by
  unfold Remembers at h
  by_cases hfilling : Filling v
  · rw [if_pos hfilling] at h
    rw [hsafe hfilling, h]
  · rwa [if_neg hfilling] at h

/-! ### The requests -/

/-- The ids stay distinct, and the window remembers its place. -/
def PlaceInv (id : Int) (r : NvRect) (wm : WindowManager) : Prop :=
  wm.desk.Distinct ∧ wm.desk.Remembers id r

theorem place_restore (hinv : PlaceInv id r wm) : PlaceInv id r (wmRestoreWindow wm id) := by
  obtain ⟨hids, hplace⟩ := hinv
  unfold PlaceInv
  rw [restoreWindow_desk hids]
  have hupdate : (wm.desk.update id restored).Distinct := update_distinct hids unspread_id
  refine ⟨focus_distinct hupdate, remembers_focus (remembers_update ?_)⟩
  intro v hv hid
  exact remembers_restored (hplace v hv hid)

theorem place_spread {width height : Int} (hinv : PlaceInv id r wm)
    (hstate : state = .maximized ∨ state = .fullscreen)
    (hsafe : ∀ v ∈ wm.windows, v.id = id → Filling v → v.rect = v.restoreRect)
    (hdesk : wm'.desk = wm.desk.update id fun v => spread v width height state) :
    PlaceInv id r wm' := by
  obtain ⟨hids, hplace⟩ := hinv
  unfold PlaceInv
  rw [hdesk]
  refine ⟨update_distinct hids fun _ => rfl, remembers_update ?_⟩
  intro v hv hid
  exact remembers_spread hstate (rect_of_remembers (hplace v hv hid) (hsafe v hv hid))

theorem place_minimize (hinv : PlaceInv id r wm)
    (hsafe : ∀ v ∈ wm.windows, v.id = id → Filling v → v.rect = v.restoreRect) :
    PlaceInv id r (wmMinimizeWindow wm id) := by
  obtain ⟨hids, hplace⟩ := hinv
  have hplace' : (wm.desk.update id minimized).Remembers id r := by
    refine remembers_update fun v hv hid => ?_
    exact remembers_minimized (rect_of_remembers (hplace v hv hid) (hsafe v hv hid))
  refine minimizeWindow_keeps (P := fun d => d.Distinct ∧ d.Remembers id r) hids ⟨hids, hplace⟩
    ⟨update_distinct hids fun _ => rfl, hplace'⟩ (fun _ h => h) ?_
  intro d i ⟨hids', hremembers⟩
  exact ⟨focus_distinct hids', remembers_focus hremembers⟩

theorem place_step (op : PlaceOp) (hinv : PlaceInv id r wm) (hsafe : PlaceSafe id wm op)
    (hstep : placeStep id wm op = some wm') : PlaceInv id r wm' := by
  cases op <;> obtain rfl := Option.some.inj hstep
  case restore => exact place_restore hinv
  case minimize => exact place_minimize hinv hsafe
  case maximize =>
    rcases maximizeWindow_desk hinv.1 with heq | ⟨hdesk, hstate⟩
    · rw [heq]
      exact place_restore hinv
    · refine place_spread hinv (Or.inl rfl) (fun v hv hid hfilling => ?_) hdesk
      exact hsafe v hv hid (hfilling.resolve_left (hstate v hv hid))
  case fullscreen =>
    rcases fullscreenWindow_desk hinv.1 with heq | ⟨hdesk, hstate⟩
    · rw [heq]
      exact place_restore hinv
    · refine place_spread hinv (Or.inr rfl) (fun v hv hid hfilling => ?_) hdesk
      exact hsafe v hv hid (hfilling.resolve_right (hstate v hv hid))

/-- **Coming back.**  Whenever safe requests on a window leave it in the normal state, it is
where it was when they began. -/
theorem restored_in_place (hids : wm.desk.Distinct) (hv : v ∈ wm.windows)
    (hstate : v.state = .normal) (ops : List PlaceOp)
    (hsafe : Along (placeStep v.id) (PlaceSafe v.id) wm ops) :
    Throughout (placeStep v.id) (InPlace v.id v.rect) wm ops := by
  have hstart : PlaceInv v.id v.rect wm := by
    refine ⟨hids, fun u hu hid => ?_⟩
    obtain rfl := List.inj_on_of_nodup_map hids hu hv hid
    have hnot : ¬ Filling u := by
      unfold Filling
      simp [hstate]
    unfold Remembers
    rw [if_neg hnot]
  have hall := along_throughout (I := PlaceInv v.id v.rect)
    (fun wm op wm' hinv hsafe hstep => place_step op hinv hsafe hstep) hstart hsafe
  refine hall.mono fun wm hinv u hu hid hnormal => ?_
  refine rect_of_remembers (hinv.2 u hu hid) fun hfilling => ?_
  rcases hfilling with h | h <;> exact absurd (hnormal.symm.trans h) (by decide)

/-- A manager without a compositor and with one window. -/
def oneWindow : WindowManager :=
  (wmCreateWindow (wmNew none 800 600) none 10 20 200 100 none 0).1

theorem restored_in_place_minimized :
    Throughout (placeStep 1) (InPlace 1 { x := 10, y := 20, w := 200, h := 100 }) oneWindow
      [.minimize, .maximize, .restore] := by
  have hsafe : Along (placeStep 1) (PlaceSafe 1) oneWindow [.minimize, .maximize, .restore] := by
    refine ⟨?_, fun s hs => ⟨?_, fun s' hs' => ⟨fun _ _ _ => trivial, fun _ _ => trivial⟩⟩⟩
    · unfold PlaceSafe
      decide
    · obtain rfl := Option.some.inj hs
      unfold PlaceSafe
      decide
  have hv : ∃ v ∈ oneWindow.windows, v.id = 1 ∧ v.state = .normal ∧
      v.rect = { x := 10, y := 20, w := 200, h := 100 } := by decide
  obtain ⟨v, hmem, hid, hstate, hrect⟩ := hv
  rw [← hid, ← hrect]
  rw [← hid] at hsafe
  exact restored_in_place (by unfold Desk.Distinct; decide) hmem hstate _ hsafe

/-- A maximised window that is minimised comes back as large as the screen. -/
theorem restored_maximized :
    ¬ Throughout (placeStep 1) (InPlace 1 { x := 10, y := 20, w := 200, h := 100 }) oneWindow
      [.maximize, .minimize, .restore] := by
  intro hall
  have hend : ∃ s, run (placeStep 1) oneWindow [.maximize, .minimize, .restore] = some s ∧
      ∃ v ∈ s.windows, v.id = 1 ∧ v.state = .normal ∧
        ¬ v.rect = { x := 10, y := 20, w := 200, h := 100 } :=
    ⟨_, rfl, by decide⟩
  obtain ⟨s, hrun, v, hv, hid, hstate, hrect⟩ := hend
  exact hrect (hall.last hrun v hv hid hstate)

end Nv0ken.Graphics
