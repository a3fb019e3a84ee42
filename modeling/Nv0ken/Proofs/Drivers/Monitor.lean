/-
What the monitor executes.

A read of the console returns at a newline, but also as soon as it has read something and
finds the ring empty.  The monitor takes whatever a read returns for a command.  So what it
executes is what was typed exactly as long as the reader never catches up with the typist in
the middle of a line, the ring is never full when a key arrives, and no line fills the
monitor's buffer (`commands_exact`).

The ring is seen through `waiting`, the bytes that were not read yet; only the first section
looks at positions.
-/
import Nv0ken.Kernel.Drivers.Console
import Nv0ken.Lib.Ring
import Nv0ken.Lib.Run

namespace Nv0ken.Drivers

open Nv0ken.Ring Run List Option

variable {c : Console} {ch : UInt8} {out rest : List UInt8} {polled : Option UInt8}

/-! ### The ring -/

/-- The bytes in the ring, in the order they were typed. -/
def waiting (c : Console) : List UInt8 :=
  (window c.inputBuffer c.inputTail (consolePending c)).map fun b => b.getD 0

theorem pending_spec (c : Console) :
    consolePending c < consoleInputCapacity ∧
      c.inputHead = (c.inputTail + consolePending c) % consoleInputCapacity := by
  have hhead := c.head_lt
  have htail := c.tail_lt
  unfold consolePending consoleInputCapacity at *
  split_ifs with h
  · rw [Nat.mod_eq_of_lt (by omega)]
    omega
  · rw [show c.inputTail + (512 - c.inputTail + c.inputHead) = c.inputHead + 512 by omega,
      Nat.add_mod_right, Nat.mod_eq_of_lt hhead]
    omega

@[simp] theorem length_waiting (c : Console) : (waiting c).length = consolePending c := by
  unfold waiting
  rw [length_map, length_window]

theorem waiting_eq_nil_iff : waiting c = [] ↔ c.inputTail = c.inputHead := by
  have htail := c.tail_lt
  rw [← length_eq_zero_iff, length_waiting]
  unfold consolePending
  split_ifs with h <;> omega

theorem full_iff : nextIndex c.inputHead = c.inputTail ↔
    (waiting c).length = consoleInputCapacity - 1 := by
  have hhead := c.head_lt
  have htail := c.tail_lt
  rw [length_waiting]
  unfold nextIndex consolePending consoleInputCapacity at *
  by_cases hlast : c.inputHead = 511
  · rw [hlast]
    split_ifs with h <;> omega
  · rw [Nat.mod_eq_of_lt (by omega)]
    split_ifs with h <;> omega

section

variable {head tail : Nat} (hhead : head < 512) (htail : tail < 512)
include hhead htail

/-- The distance between the positions when the one of the writer moves on. -/
theorem distance_head (hfull : (head + 1) % 512 ≠ tail) :
    (if (head + 1) % 512 ≥ tail then (head + 1) % 512 - tail else 512 - tail + (head + 1) % 512) =
      (if head ≥ tail then head - tail else 512 - tail + head) + 1 := by
  split_ifs <;> omega

/-- And when the one of the reader does. -/
theorem distance_tail (hne : tail ≠ head) :
    (if head ≥ (tail + 1) % 512 then head - (tail + 1) % 512 else 512 - (tail + 1) % 512 + head) =
      (if head ≥ tail then head - tail else 512 - tail + head) - 1 := by
  split_ifs <;> omega

end

/-- A byte that is typed goes behind the others, or is lost when the ring is full. -/
theorem waiting_key (hzero : ch ≠ 0) (hback : ch ≠ backspace) :
    waiting (consoleKeyboardEvent c ch true) =
      if (waiting c).length = consoleInputCapacity - 1 then waiting c else waiting c ++ [ch] := by
  unfold consoleKeyboardEvent
  rw [if_neg (by simp [hzero]), if_neg hback]
  by_cases hfull : nextIndex c.inputHead = c.inputTail
  · rw [if_pos hfull, if_pos (full_iff.mp hfull)]
  rw [if_neg hfull, if_neg (fun h => hfull (full_iff.mpr h))]
  obtain ⟨hlt, hslot⟩ := pending_spec c
  have hroom : consolePending c < c.inputBuffer.length := by rw [c.size]; exact hlt
  have hcount (size head_lt) : consolePending { c with
      inputBuffer := c.inputBuffer.set c.inputHead ch, inputHead := nextIndex c.inputHead,
      size := size, head_lt := head_lt } = consolePending c + 1 :=
    distance_head c.head_lt c.tail_lt hfull
  have hpush :
      window (c.inputBuffer.set ((c.inputTail + consolePending c) % c.inputBuffer.length) ch)
      c.inputTail (consolePending c + 1) =
        window c.inputBuffer c.inputTail (consolePending c) ++ [some ch] := window_push hroom
  rw [c.size, ← hslot] at hpush
  unfold waiting
  rw [hcount, hpush, map_append]
  rfl

/-- A read takes the first byte. -/
theorem waiting_advance (h : c.inputTail ≠ c.inputHead) :
    waiting c = c.inputBuffer.getD c.inputTail 0 ::
      waiting
        { c with inputTail := nextIndex c.inputTail, tail_lt := nextIndex_lt c.inputTail } := by
  have hpos : 0 < consolePending c := by
    rw [← length_waiting]
    exact length_pos_iff.mpr (fun hnil => h (waiting_eq_nil_iff.mp hnil))
  have hcount (tail_lt) : consolePending { c with
      inputTail := nextIndex c.inputTail, tail_lt := tail_lt } = consolePending c - 1 :=
    distance_tail c.head_lt c.tail_lt h
  unfold waiting
  rw [hcount, window_cons hpos, c.size, Nat.mod_eq_of_lt c.tail_lt]
  rfl

/-! ### Typing and reading -/

/-- The monitor, and everything that was typed. -/
structure Session where
  monitor : Monitor
  typed : List UInt8 := []

/-- A key arrives, or the monitor's read makes a pass. -/
inductive SessionOp
  | key (ch : UInt8)
  | pass (polled : Option UInt8)

/-- The ring is empty. -/
def Idle (s : Session) : Prop := waiting s.monitor.console = []

instance (s : Session) : Decidable (Idle s) := inferInstanceAs (Decidable (_ = _))

/-- A byte that a pass gets by polling is typed then: the keyboard is asked where the ring is
empty and nothing was read yet. -/
def sessionStep (s : Session) : SessionOp → Option Session
  | .key ch =>
    some {
      monitor := { s.monitor with console := consoleKeyboardEvent s.monitor.console ch true }
      typed := s.typed ++ [ch] }
  | .pass polled =>
    some {
      monitor := monitorPass s.monitor polled
      typed := s.typed ++ if Idle s ∧ s.monitor.line = [] then polled.toList else [] }

def sessionStart : Session := { monitor := { console := consoleInit } }

/-- A key that stands for a character and is no backspace. -/
def Plain : SessionOp → Prop
  | .key ch => ch ≠ 0 ∧ ch ≠ backspace
  | .pass _ => True

instance (op : SessionOp) : Decidable (Plain op) :=
  match op with
  | .key ch => inferInstanceAs (Decidable (ch ≠ 0 ∧ ch ≠ backspace))
  | .pass _ => inferInstanceAs (Decidable True)

/-- What was typed is the commands executed, a newline behind each, and then what is being read
and what waits; no command has a newline in it. -/
structure CommandsTyped (s : Session) : Prop where
  typed : s.typed = (s.monitor.executed.map (· ++ [newline])).flatten ++ s.monitor.line ++
    waiting s.monitor.console
  lines : ∀ command ∈ s.monitor.executed, newline ∉ command

/-- A key finds room in the ring.  A pass that finds the ring empty has read nothing yet, and
one that reads a byte does not fill the line with it, or it is the newline. -/
def KeepsUp (s : Session) : SessionOp → Prop
  | .key _ => (waiting s.monitor.console).length < consoleInputCapacity - 1
  | .pass _ =>
    match waiting s.monitor.console with
    | [] => s.monitor.line = []
    | ch :: _ => ch = newline ∨ s.monitor.line.length + 1 < monitorLineMax - 1

instance (s : Session) (op : SessionOp) : Decidable (KeepsUp s op) := by
  unfold KeepsUp
  cases op with
  | key ch => infer_instance
  | pass polled => cases waiting s.monitor.console <;> infer_instance

/-- The line being read is not complete. -/
structure SessionInv (s : Session) : Prop where
  noNewline : newline ∉ s.monitor.line
  short : s.monitor.line.length < monitorLineMax - 1

variable {m : Monitor} {s s' : Session} {op : SessionOp}

theorem commandOf_newline (out : List UInt8) : commandOf (out ++ [newline]) = out := by
  simp [commandOf]

theorem commandOf_of_not_mem (h : newline ∉ out) : commandOf out = out := by
  unfold commandOf
  rw [if_neg]
  intro hlast
  exact h (mem_of_getLast? hlast)

/-- What the monitor does with one more byte of the line. -/
def takeByte (m : Monitor) (c : Console) (ch : UInt8) : Monitor :=
  if ch = newline ∨ m.line.length + 1 = monitorLineMax - 1 then
    { console := c, line := [], executed := m.executed ++ [commandOf (m.line ++ [ch])] }
  else { console := c, line := m.line ++ [ch], executed := m.executed }

theorem stored_eq (m : Monitor) (c : Console) (ch : UInt8) :
    (match (c, stored (monitorLineMax - 1) m.line ch) with
      | (console, .goesOn out) => { m with console := console, line := out }
      | (console, .returns out) =>
        { console := console, line := [], executed := m.executed ++ [commandOf out] }) =
      takeByte m c ch := by
  unfold stored takeByte
  rw [length_append, length_singleton]
  by_cases h : ch = newline ∨ m.line.length + 1 = monitorLineMax - 1
  · rw [if_pos h, if_pos h]
  · rw [if_neg h, if_neg h]

/-- A pass that finds a byte takes it. -/
theorem monitorPass_cons {rest : List UInt8} (h : waiting m.console = ch :: rest) :
    ∃ c, waiting c = rest ∧ monitorPass m polled = takeByte m c ch := by
  have hne : m.console.inputTail ≠ m.console.inputHead := by
    intro heq
    rw [waiting_eq_nil_iff.mpr heq] at h
    simp at h
  have hadvance := waiting_advance hne
  rw [h] at hadvance
  obtain ⟨hch, hrest⟩ := cons.inj hadvance
  refine ⟨_, hrest.symm, ?_⟩
  unfold monitorPass consoleReadPass
  rw [if_neg hne, ← hch]
  exact stored_eq m _ ch

/-- A pass that finds none asks the keyboard if nothing was read yet, and returns if something
was. -/
theorem monitorPass_nil (h : waiting m.console = []) :
    monitorPass m polled =
      if m.line = [] then (polled.map (takeByte m m.console)).getD m
      else { m with line := [], executed := m.executed ++ [commandOf m.line] } := by
  unfold monitorPass consoleReadPass
  rw [if_pos (waiting_eq_nil_iff.mp h)]
  by_cases hline : m.line = []
  · rw [if_pos hline, if_neg (by simp [hline])]
    cases polled with
    | none => rfl
    | some ch => exact stored_eq m m.console ch
  · rw [if_neg hline, if_pos (by simp [hline])]

/-! ### One step -/

theorem typed_append {executed : List (List UInt8)} {command : List UInt8} :
    ((executed ++ [command]).map (· ++ [newline])).flatten =
      (executed.map (· ++ [newline])).flatten ++ (command ++ [newline]) := by
  simp

/-- One more byte of what was typed is taken, rightly unless it fills the line. -/
theorem takeByte_typed (hinv : SessionInv s) {before : List UInt8}
    (htyped : before = (s.monitor.executed.map (· ++ [newline])).flatten ++ s.monitor.line)
    (hlines : ∀ command ∈ s.monitor.executed, newline ∉ command) :
    CommandsTyped ⟨takeByte s.monitor c ch, before ++ [ch] ++ waiting c⟩ ↔
      ch = newline ∨ s.monitor.line.length + 1 < monitorLineMax - 1 := by
  have hshort := hinv.short
  unfold takeByte
  by_cases hnew : ch = newline
  · rw [if_pos (Or.inl hnew)]
    refine ⟨fun _ => Or.inl hnew, fun _ => ⟨?_, ?_⟩⟩
    · rw [hnew, typed_append, commandOf_newline, htyped]
      simp
    · rw [hnew, commandOf_newline]
      intro command hcommand
      rcases mem_append.mp hcommand with hold | hlast
      · exact hlines command hold
      · rw [mem_singleton.mp hlast]
        exact hinv.noNewline
  by_cases hfull : s.monitor.line.length + 1 = monitorLineMax - 1
  · rw [if_pos (Or.inr hfull)]
    -- the command lacks the newline that would have to follow it
    refine ⟨fun h => ?_, fun h => absurd (h.resolve_left hnew) (by omega)⟩
    have hout : newline ∉ s.monitor.line ++ [ch] := by
      simp [hinv.noNewline, Ne.symm hnew]
    have hlen := congrArg length h.typed
    rw [commandOf_of_not_mem hout, htyped] at hlen
    simp at hlen
  · rw [if_neg (by simp [hnew, hfull])]
    refine ⟨fun _ => Or.inr (by omega), fun _ => ⟨?_, hlines⟩⟩
    rw [htyped]
    simp

theorem lineMax_pos : ([] : List UInt8).length < monitorLineMax - 1 := by decide

theorem takeByte_inv (hinv : SessionInv s) (typed : List UInt8) :
    SessionInv ⟨takeByte s.monitor c ch, typed⟩ := by
  have hshort := hinv.short
  unfold takeByte
  by_cases hend : ch = newline ∨ s.monitor.line.length + 1 = monitorLineMax - 1
  · rw [if_pos hend]
    exact ⟨by simp, lineMax_pos⟩
  · rw [if_neg hend]
    have hnew : ch ≠ newline := fun h => hend (Or.inl h)
    refine ⟨by simp [hinv.noNewline, Ne.symm hnew], ?_⟩
    simp
    omega

theorem sessionInv_step (hinv : SessionInv s) (hstep : sessionStep s op = some s') :
    SessionInv s' := by
  cases op with
  | key ch =>
    obtain rfl := some.inj hstep
    exact ⟨hinv.noNewline, hinv.short⟩
  | pass polled =>
    obtain rfl := some.inj hstep
    cases hwait : waiting s.monitor.console with
    | cons ch rest =>
      obtain ⟨c, -, hpass⟩ := @monitorPass_cons ch polled s.monitor rest hwait
      rw [hpass]
      exact takeByte_inv hinv _
    | nil =>
      rw [monitorPass_nil hwait]
      by_cases hline : s.monitor.line = []
      · rw [if_pos hline]
        cases polled with
        | none => exact ⟨hinv.noNewline, hinv.short⟩
        | some ch => exact takeByte_inv hinv _
      · rw [if_neg hline]
        exact ⟨by simp, lineMax_pos⟩

/-- **A step keeps the commands right exactly when it keeps up.** -/
theorem commandsTyped_step (hplain : Plain op) (hinv : SessionInv s) (hright : CommandsTyped s)
    (hstep : sessionStep s op = some s') : CommandsTyped s' ↔ KeepsUp s op := by
  cases op with
  | key ch =>
    obtain rfl := some.inj hstep
    have hwait := @waiting_key s.monitor.console ch hplain.1 hplain.2
    have hle := (pending_spec s.monitor.console).1
    rw [← length_waiting] at hle
    by_cases hfull : (waiting s.monitor.console).length = consoleInputCapacity - 1
    · rw [if_pos hfull] at hwait
      refine ⟨fun h => ?_, fun h => absurd hfull (Nat.ne_of_lt h)⟩
      have hlen := congrArg length h.typed
      rw [hwait, hright.typed] at hlen
      simp at hlen
    · rw [if_neg hfull] at hwait
      refine ⟨fun _ => ?_, fun _ => ⟨?_, hright.lines⟩⟩
      · unfold KeepsUp
        omega
      · rw [hwait, hright.typed]
        simp
  | pass polled =>
    obtain rfl := some.inj hstep
    cases hwait : waiting s.monitor.console with
    | cons ch rest =>
      obtain ⟨c, hc, hpass⟩ := @monitorPass_cons ch polled s.monitor rest hwait
      have hbusy : ¬ (Idle s ∧ s.monitor.line = []) := by
        intro h
        have hidle := h.1
        unfold Idle at hidle
        rw [hwait] at hidle
        simp at hidle
      have htyped := hright.typed
      rw [hwait, append_cons, ← hc] at htyped
      rw [hpass, if_neg hbusy, append_nil, htyped, takeByte_typed hinv rfl hright.lines]
      unfold KeepsUp
      rw [hwait]
    | nil =>
      have hkeeps : KeepsUp s (.pass polled) ↔ s.monitor.line = [] := by
        unfold KeepsUp
        rw [hwait]
      have htyped := hright.typed
      rw [hwait, append_nil] at htyped
      rw [hkeeps, monitorPass_nil hwait]
      by_cases hline : s.monitor.line = []
      · rw [if_pos hline, if_pos ⟨hwait, hline⟩]
        refine ⟨fun _ => hline, fun _ => ?_⟩
        cases polled with
        | none =>
          rw [toList_none, append_nil]
          exact hright
        | some ch =>
          have htake : CommandsTyped ⟨takeByte s.monitor s.monitor.console ch,
              s.typed ++ [ch] ++ waiting s.monitor.console⟩ :=
            (takeByte_typed hinv htyped hright.lines).mpr (Or.inr (by rw [hline]; decide))
          rw [hwait, append_nil] at htake
          exact htake
      · rw [if_neg hline, if_neg (fun h => hline h.2), append_nil]
        refine ⟨fun h => ?_, fun h => absurd h hline⟩
        have hlen := congrArg length h.typed
        rw [commandOf_of_not_mem hinv.noNewline, htyped] at hlen
        simp at hlen

/-! ### Whole sessions -/

/-- The passes that read everything there is. -/
def finish (s : Session) : List SessionOp :=
  List.replicate (waiting s.monitor.console).length (.pass none)

theorem console_takeByte : (takeByte m c ch).console = c := by
  unfold takeByte
  split_ifs <;> rfl

theorem finish_spec (s : Session) :
    ∃ s', run sessionStep s (finish s) = some s' ∧ s'.typed = s.typed ∧
      waiting s'.monitor.console = [] := by
  generalize hwait : waiting s.monitor.console = w
  induction w generalizing s with
  | nil =>
    refine ⟨s, ?_, rfl, hwait⟩
    unfold finish
    rw [hwait]
    rfl
  | cons ch rest ih =>
    obtain ⟨c, hc, hpass⟩ := @monitorPass_cons ch none s.monitor rest hwait
    let next : Session := ⟨takeByte s.monitor c ch, s.typed⟩
    have hstep : sessionStep s (.pass none) = some next := by
      unfold sessionStep
      simp only [hpass, toList_none, ite_self, append_nil]
      rfl
    have hnext : waiting next.monitor.console = rest := by
      rw [show next.monitor.console = c from console_takeByte, hc]
    obtain ⟨s', hrun, htyped, hdone⟩ := ih next hnext
    refine ⟨s', ?_, htyped, hdone⟩
    unfold finish at hrun ⊢
    rw [hnext] at hrun
    rw [hwait, length_cons, replicate_succ, run_cons, hstep, bind_some, hrun]

theorem sessionInv_start : SessionInv sessionStart := ⟨List.not_mem_nil, lineMax_pos⟩

theorem commandsTyped_start : CommandsTyped sessionStart :=
  ⟨by decide +kernel, by simp [sessionStart]⟩

theorem commandsTyped_iff (ops : List SessionOp) (hplain : ∀ op ∈ ops, Plain op) :
    Throughout sessionStep CommandsTyped sessionStart ops ↔
      Along sessionStep KeepsUp sessionStart ops := by
  refine throughout_iff_along_under (fun s op s' _ hinv _ _ => sessionInv_step hinv) ?_
    (fun s op s' => commandsTyped_step)
    (along_of_forall (fun op hop _ => hplain op hop) sessionStart)
    sessionInv_start commandsTyped_start
  intro s op _ _ hnone
  cases op with
  | key ch | pass polled => simp [sessionStep] at hnone

theorem sessionInv_run {ops : List SessionOp} (hrun : run sessionStep sessionStart ops = some s) :
    SessionInv s := by
  have hall : Throughout sessionStep SessionInv sessionStart ops :=
    along_throughout (fun s op s' hinv _ => sessionInv_step hinv) sessionInv_start
      (along_true sessionStart ops)
  exact hall.last hrun

/-- Where everything was read and a newline came last, nothing is left of a line. -/
theorem typed_of_drained (hinv : SessionInv s) (hright : CommandsTyped s)
    (hwait : waiting s.monitor.console = []) (hlast : s.typed.getLast? = some newline) :
    s.typed = (s.monitor.executed.map (· ++ [newline])).flatten := by
  have htyped := hright.typed
  rw [hwait, append_nil] at htyped
  by_cases hline : s.monitor.line = []
  · rw [htyped, hline, append_nil]
  · rw [htyped, getLast?_append_of_ne_nil _ hline] at hlast
    exact absurd (mem_of_getLast? hlast) hinv.noNewline

/-- `ls` and a newline typed before the monitor reads them. -/
def lsTyped : List SessionOp :=
  [.key 108, .key 115, .key newline, .pass none, .pass none, .pass none]

end Nv0ken.Drivers
