/-
Memory safety of the terminal.

A session is a new terminal, then bytes in chunks of any size and resizes in any order.  The
invariant of `Valid` holds in every state of it, so the cursor and the scroll region stay on the
screen and every access to a cell is one of the array, as long as the arithmetic does not overflow;
and only then is the session defined at all (`session_safe_iff`).

The overflow that matters is the one of `param_push_digit`: no bound is put on the digits of a
parameter, and a count that has become negative makes `scroll_up` move cells from before the array.
-/
import Nv0ken.Proofs.Terminal.Dispatch

namespace Nv0ken.Terminal

open Grid Word List Option
open Run (run Along)

variable {v v' : Vt100} {cols rows : Int} {mem : Mem}

/-! ### A new terminal -/

theorem clearCell_frame {r : Int} {u : Vt100} {c : Int} (h : clearCell r v c = some u) :
    u = v.withCells u.cells := by
  unfold clearCell at h
  cases hcell : screenCell v c r with
  | none =>
    rw [hcell] at h
    obtain rfl := some.inj h
    exact withCells_cells.symm
  | some i =>
    rw [hcell] at h
    obtain ⟨cells, -, rfl⟩ := map_eq_some_iff.mp h
    rw [cells_withCells]

/-- A clearing that is defined has written every cell of its rows, so all of them are in the
array. -/
theorem area_of_cleared (hcols : 0 < v.cols) (hrows : 0 < v.rows)
    (h : screenClearRows v 0 (v.rows - 1) = some v') : v.cols * v.rows ≤ 2 ^ 31 := by
  have htrans : ∀ {f : Vt100 → Int → Option Vt100},
      (∀ u x u', f u x = some u' → u' = u.withCells u'.cells) →
      ∀ s x s', s = v.withCells s.cells → f s x = some s' → s' = v.withCells s'.cells := by
    intro f hf s x s' hs hstep
    conv_lhs => rw [hf s x s' hstep, hs, withCells_withCells]
  have hline : ∀ (u : Vt100) (r : Int) (u' : Vt100), screenClearLine u r 0 (u.cols - 1) = some u' →
      u' = u.withCells u'.cells := by
    intro u r u' hu
    have hloop : Run.Throughout (clearCell r) (fun w => w = u.withCells w.cells) u
        (upTo 0 (min (u.cols - 1 + 1) u.cols)) := by
      refine Run.along_throughout (P := fun _ _ => True) ?_ withCells_cells.symm
        (Run.along_true _ _)
      intro s x s' hs _ hstep
      conv_lhs => rw [clearCell_frame hstep, hs, withCells_withCells]
    exact hloop.last hu
  -- the last cell of the last row
  obtain ⟨u, u', huframe, hu⟩ := Run.performed_of_run (I := fun u => u = v.withCells u.cells)
    (htrans hline) (v.rows - 1) withCells_cells.symm h (by rw [mem_upTo]; omega)
  have hsame : u.cols = v.cols ∧ u.rows = v.rows := by
    rw [huframe]
    exact ⟨rfl, rfl⟩
  obtain ⟨w, w', hwframe, hw⟩ := Run.performed_of_run (I := fun w => w = u.withCells w.cells)
    (fun s x s' hs hstep => by conv_lhs => rw [clearCell_frame hstep, hs, withCells_withCells])
    (u.cols - 1) withCells_cells.symm hu (by rw [mem_upTo]; omega)
  have hwsame : w.cols = v.cols ∧ w.rows = v.rows := by
    rw [hwframe]
    exact hsame
  have hin : ¬ (u.cols - 1 < 0 ∨ w.cols ≤ u.cols - 1 ∨ v.rows - 1 < 0 ∨ w.rows ≤ v.rows - 1) := by
    omega
  unfold clearCell screenCell at hw
  rw [if_neg hin] at hw
  obtain ⟨cells, hstore, -⟩ := map_eq_some_iff.mp hw
  unfold storeAt at hstore
  rw [ite_none_right_eq_some, hwsame.1, Int.sub_mul, Int.mul_comm v.rows] at hstore
  omega

theorem vt100Init_valid {cells : List VtCell} (hcols : 0 < cols) (hrows : 0 < rows)
    (hrows' : rows < 2 ^ 31)
    (harea : cols * rows ≤ 2 ^ 31) (hsize : (cells.length : Int) = cols * rows) :
    Valid (vt100Init cols rows cells) := by
  refine ⟨⟨hcols, hrows, harea, hsize⟩, ⟨rfl, Nat.le_refl 0, Or.inl rfl⟩, hrows', rfl,
    ⟨Int.le_refl 0, hcols⟩,
    ⟨Int.le_refl 0, hrows⟩, ⟨Int.le_refl 0, ?_, ?_⟩, ?_, ⟨length_replicate, Nat.zero_le _⟩, ?_⟩
  · show 0 ≤ rows - 1
    omega
  · show rows - 1 < rows
    omega
  · intro p hp
    rw [eq_of_mem_replicate hp]
    decide
  · intro b hb
    exact absurd hb not_mem_nil

theorem vt100New_valid {fresh : Nat → VtCell} {scrollback : Int} (hrows : rows < 2 ^ 31)
    (h : vt100New mem fresh cols rows scrollback = some (some v)) : Valid v := by
  unfold vt100New at h
  by_cases hpos : cols ≤ 0 ∨ rows ≤ 0
  · rw [if_pos hpos] at h
    cases h
  rw [if_neg hpos] at h
  by_cases hmem : ¬ mem 728
  · rw [if_pos hmem] at h
    cases h
  rw [if_neg hmem] at h
  by_cases hscreen : ¬ mem (screenBytes cols rows)
  · rw [if_pos hscreen] at h
    cases h
  rw [if_neg hscreen] at h
  obtain ⟨u, hu, hring⟩ := map_eq_some_iff.mp h
  have harea : cols * rows ≤ 2 ^ 31 :=
    area_of_cleared (by show 0 < cols; omega) (by show 0 < rows; omega) hu
  have hnonneg : 0 < cols * rows := Int.mul_pos (by omega) (by omega)
  have hbytes : screenBytes cols rows / 16 = (cols * rows).toNat := by
    unfold screenBytes
    rw [Int.mul_assoc, u64_of_lt (by omega)]
    omega
  have hinit : Valid (vt100Init cols rows ((range (screenBytes cols rows / 16)).map fresh)) := by
    refine vt100Init_valid (by omega) (by omega) hrows harea ?_
    rw [length_map, length_range]
    omega
  obtain ⟨u', hu', hdrawn⟩ := screenClearRows_drawn hinit.toSized 0 (rows - 1)
  obtain rfl := some.inj (hu'.symm.trans hu)
  have hvalid := hinit.drawn hdrawn
  by_cases hsb : 0 < scrollback ∧ mem (16 * scrollback).toNat
  · rw [if_pos hsb] at hring
    obtain rfl := some.inj hring
    have hempty : u'.sbCount = 0 ∧ u'.sbHead = 0 := by
      have hframe := (screenClearRows_some (a := 0) (b := rows - 1) hinit.toSized)
      obtain ⟨w, hw, hcleared⟩ := hframe
      obtain rfl := some.inj (hu'.symm.trans hw)
      rw [hcleared.frame]
      exact ⟨rfl, rfl⟩
    refine { hvalid with slots := length_replicate, count := ?_, head := Or.inr ?_ }
    · show u'.sbCount ≤ scrollback.toNat
      omega
    · show u'.sbHead < scrollback.toNat
      omega
  · rw [if_neg hsb] at hring
    obtain rfl := some.inj hring
    exact hvalid

/-! ### A resize -/

/-- The new screen has an `int` number of cells, if there is memory for it. -/
def ResizeOk (mem : Mem) (cols rows : Int) : Prop :=
  0 < cols → 0 < rows → mem (screenBytes cols rows) = true → cols * rows < 2 ^ 31

instance (mem : Mem) (cols rows : Int) : Decidable (ResizeOk mem cols rows) :=
  inferInstanceAs (Decidable (_ → _ → _ → _))

/-- Copying the part of the old screen that fits the new one. -/
theorem copyScreen_some (h : Valid v) {new : List VtCell} (hlen : (new.length : Int) = cols * rows)
    (hsmall : cols * rows < 2 ^ 31) :
    ∃ screen, run (copyCells v.screen v.cols cols (min cols v.cols)) new
      (upTo 0 (min rows v.rows)) = some screen ∧
      screen.length = new.length := by
  have hcells : v.cells = v.screen := by
    unfold Vt100.cells
    rw [h.main, if_neg Bool.false_ne_true]
  have hold := h.small
  have hcell : ∀ r, 0 ≤ r ∧ r < min rows v.rows → ∀ c, 0 ≤ c ∧ c < min cols v.cols →
      ∀ cells : List VtCell, cells.length = new.length →
      ∃ cells', (loadAt v.screen (r * v.cols + c)).bind (storeAt cells (r * cols + c)) =
        some cells' ∧
        cells'.length = new.length := by
    intro r hr c hc cells hcellslen
    have hfrom := h.index (r := r) (c := c) hr.1 (by omega) hc.1 (by omega)
    have hto := place_lt cols rows hr.1 (by omega) hc.1 (by omega)
    rw [hcells] at hfrom hold
    have hin : (r * v.cols + c).toNat < v.screen.length := by omega
    unfold loadAt storeAt
    rw [if_pos ⟨hfrom.1, by omega⟩, getElem?_eq_getElem hin, bind_some,
      if_pos ⟨hto.1, by omega, by omega⟩]
    exact ⟨_, rfl, by rw [length_set, hcellslen]⟩
  have hrow : ∀ r, 0 ≤ r ∧ r < min rows v.rows → ∀ cells : List VtCell, cells.length = new.length →
      ∃ cells', copyCells v.screen v.cols cols (min cols v.cols) cells r = some cells' ∧
        cells'.length = new.length := by
    intro r hr cells hcellslen
    refine Run.run_keeps (I := fun cells : List VtCell => cells.length = new.length)
      (P := fun _ c => 0 ≤ c ∧ c < min cols v.cols)
        (fun cells c hlen hc => hcell r hr c hc cells hlen)
      hcellslen (Run.along_of_forall ?_ cells)
    intro c hc _
    exact mem_upTo.mp hc
  refine Run.run_keeps (I := fun cells : List VtCell => cells.length = new.length)
    (P := fun _ r => 0 ≤ r ∧ r < min rows v.rows) (fun cells r hlen hr => hrow r hr cells hlen)
    rfl (Run.along_of_forall ?_ new)
  intro r hr _
  exact mem_upTo.mp hr

theorem vt100Resize_some (h : Valid v) (hok : ResizeOk mem cols rows) :
    ∃ v', vt100Resize mem v cols rows = some v' ∧ Valid v' := by
  unfold vt100Resize
  by_cases hpos : cols ≤ 0 ∨ rows ≤ 0
  · rw [if_pos hpos]
    exact ⟨v, rfl, h⟩
  rw [if_neg hpos]
  by_cases hmem : mem (screenBytes cols rows)
  · have hcols : 0 < cols := by omega
    have hrows : 0 < rows := by omega
    have harea : cols * rows < 2 ^ 31 := hok hcols hrows hmem
    have hrowsle : 1 * rows ≤ cols * rows :=
      Int.mul_le_mul_of_nonneg_right hcols (Int.le_of_lt hrows)
    have hlen : ((replicate (cols * rows).toNat cellBlank).length : Int) = cols * rows := by
      rw [length_replicate]
      omega
    obtain ⟨screen, hrun, hscreen⟩ := copyScreen_some h hlen harea
    rw [if_neg (by rw [hmem]; exact fun hne => hne rfl), checked_of_range (by omega) harea,
      bind_eq_bind, bind_some]
    show ∃ v', (run _ _ _).bind _ = some v' ∧ Valid v'
    rw [hrun]
    have hcol := h.col
    have hrow := h.row
    refine ⟨_, rfl, ⟨hcols, hrows, Int.le_of_lt harea, ?_⟩,
      ⟨h.slots, h.count, h.head⟩, by show rows < _; omega,
      h.main, ?_, ?_, ⟨Int.le_refl 0, by show 0 ≤ rows - 1; omega, by show rows - 1 < rows; omega⟩,
        h.params,
      h.paramSlots, h.interm⟩
    · unfold Vt100.cells
      simp only [h.main]
      show (screen.length : Int) = cols * rows
      rw [hscreen, hlen]
    all_goals
      dsimp only
      split <;> omega
  · rw [if_pos hmem]
    exact ⟨v, rfl, h⟩

theorem vt100Resize_none (hok : ¬ ResizeOk mem cols rows) : vt100Resize mem v cols rows = none := by
  unfold ResizeOk at hok
  simp only [Classical.not_imp] at hok
  obtain ⟨hcols, hrows, hmem, harea⟩ := hok
  unfold vt100Resize
  rw [if_neg (by omega), if_neg (by rw [hmem]; exact fun hne => hne rfl), checked_eq_none harea]
  rfl

/-! ### Sessions -/

/-- Nothing the event asks for overflows. -/
def EventOk (v : Vt100) : Event → Prop
  | .feed mem buf => Along (feedByte mem) ByteOk v buf
  | .resize mem cols rows => ResizeOk mem cols rows

instance decidableEventOk (v : Vt100) : (e : Event) → Decidable (EventOk v e)
  | .feed mem buf => inferInstanceAs (Decidable (Along (feedByte mem) ByteOk v buf))
  | .resize mem cols rows => inferInstanceAs (Decidable (ResizeOk mem cols rows))

/-- The cursor and the scroll region are on the screen, and the array has a cell for every place. -/
structure Inside (v : Vt100) : Prop where
  col : 0 ≤ v.cursorCol ∧ v.cursorCol < v.cols
  row : 0 ≤ v.cursorRow ∧ v.cursorRow < v.rows
  region : 0 ≤ v.scrollTop ∧ v.scrollTop ≤ v.scrollBot ∧ v.scrollBot < v.rows
  size : (v.cells.length : Int) = v.cols * v.rows

theorem Valid.inside (h : Valid v) : Inside v := ⟨h.col, h.row, h.region, h.size⟩

theorem perform_some (h : Valid v) {e : Event} (hok : EventOk v e) :
    ∃ v', perform v e = some v' ∧ Valid v' := by
  cases e with
  | feed mem buf => exact Run.run_keeps (fun u c hu hc => feedByte_some hu mem hc) h hok
  | resize mem cols rows => exact vt100Resize_some h hok

theorem perform_none (h : Valid v) {e : Event} (hok : ¬ EventOk v e) : perform v e = none := by
  cases e with
  | feed mem buf =>
    rw [eq_none_iff_forall_ne_some]
    intro v' hv'
    exact hok (Run.along_of_run (fun u c hu hc => feedByte_some hu mem hc)
      (fun u c hu hc => feedByte_none hu mem hc) h hv').1
  | resize mem cols rows => exact vt100Resize_none hok

/-- The states a session can reach. -/
def Reachable (v : Vt100) : Prop :=
  ∃ mem fresh cols rows scrollback first events, rows < 2 ^ 31 ∧
    vt100New mem fresh cols rows scrollback = some (some first) ∧ run perform first events = some v

theorem Reachable.valid (h : Reachable v) : Valid v := by
  obtain ⟨mem, fresh, cols, rows, scrollback, first, events, hrows, hnew, hrun⟩ := h
  exact (Run.along_of_run (fun u e hu he => perform_some hu he)
    (fun u e hu he => perform_none hu he) (vt100New_valid hrows hnew) hrun).2

/-- **A session is safe exactly as long as no arithmetic in it overflows**: then every access is to
a cell of the screen, the cursor is on the screen and the scroll region is one of its rows. -/
theorem session_safe_iff {mem : Mem} {fresh : Nat → VtCell} {scrollback : Int}
    (hrows : rows < 2 ^ 31)
    (hnew : vt100New mem fresh cols rows scrollback = some (some v)) (events : List Event) :
    (∃ v', run perform v events = some v' ∧ Inside v') ↔ Along perform EventOk v events := by
  have hvalid := vt100New_valid hrows hnew
  constructor
  · rintro ⟨v', hrun, -⟩
    exact (Run.along_of_run (fun u e hu he => perform_some hu he)
      (fun u e hu he => perform_none hu he)
      hvalid hrun).1
  · intro halong
    obtain ⟨v', hrun, hkept⟩ := Run.run_keeps (fun u e hu he => perform_some hu he) hvalid halong
    exact ⟨v', hrun, hkept.inside⟩

/-- A blank screen, as `vt100_new` makes it in memory that is blank already. -/
def blankTerminal (cols rows : Int) (scrollback : Nat) : Vt100 :=
  { vt100Init cols rows (List.replicate (cols * rows).toNat cellBlank) with
    scrollback := List.replicate scrollback { cells := none, cols := 0 }
    sbCap := scrollback }

/-- A session with printing, a scroll region, scrolling and a resize. -/
theorem session_safe_iff_some :
    vt100New (fun _ => true) (fun _ => cellBlank) 3 2 1 = some (some (blankTerminal 3 2 1)) ∧
      ∃ v', run perform (blankTerminal 3 2 1)
        [.feed (fun _ => true) [0x41, 0x0A, 0x1B, 0x5B, 0x32, 0x72, 0x1B, 0x5B, 0x33, 0x53],
          .resize (fun _ => true) 2 3, .feed (fun _ => false) [0x42, 0x0A]] = some v' ∧
            Inside v' := by
  have hnew : vt100New (fun _ => true) (fun _ => cellBlank) 3 2 1 =
      some (some (blankTerminal 3 2 1)) := by
    decide +kernel
  exact ⟨hnew, (session_safe_iff (by decide) hnew _).mpr (by decide +kernel)⟩

/-- The parameter of `ESC [ 4294967295 S` does not fit an `int`.  Where the machine wraps it round,
the count is `-1`, and the copy of `scroll_up` starts one row before the array. -/
theorem long_parameter_undefined :
    vt100New (fun _ => true) (fun _ => cellBlank) 2 2 0 = some (some (blankTerminal 2 2 0)) ∧
      run perform (blankTerminal 2 2 0) [.feed (fun _ => true)
        [0x1B, 0x5B, 0x34, 0x32, 0x39, 0x34, 0x39, 0x36, 0x37, 0x32, 0x39, 0x35, 0x53]] = none ∧
      int32 4294967295 = -1 ∧ scrollUp (fun _ => true) (blankTerminal 2 2 0) 0 1 (-1) = none := by
  refine ⟨?_, ?_, ?_, ?_⟩
  · decide +kernel
  · decide +kernel
  · decide
  · decide +kernel

end Nv0ken.Terminal
