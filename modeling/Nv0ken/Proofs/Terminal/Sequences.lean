/-
Control sequences.

A control sequence is `ESC [`, parameter bytes, intermediate bytes and a final byte.  The parser
collects digits, separators and intermediate bytes and goes back to the ground state with the final
byte, so none of them is printed.  But it has no branch for the parameter bytes `0x3C` to `0x3F`,
the marks of private sequences: the first of them takes it back to the ground state at once, and the
rest of the sequence, with at least its final byte, is printed as text.  The parameters are the
fields between the separators, but for an empty first field, which is left out: `csi_params_iff`.
-/
import Nv0ken.Proofs.Terminal.Safety

namespace Nv0ken.Terminal

open List Option

open Run (run Along)

variable {v v' : Vt100} {mem : Mem} {b c : UInt8} {ps is bytes : List UInt8}

/-- The byte is printed as text. -/
def Prints (v : Vt100) (c : UInt8) : Prop := v.parseState = .ground ∧ 0x20 ≤ c

theorem feedByte_of_prints (h : Prints v c) : feedByte mem v c = putChar mem v c.toUInt32 := by
  unfold feedByte feedGround
  rw [h.1]
  exact if_neg (UInt8.not_lt.mpr h.2)

theorem not_prints (h : v.parseState ≠ .ground) : ¬ Prints v c := fun hprints => h hprints.1

def controlSequence (ps is : List UInt8) (final : UInt8) : List UInt8 :=
  0x1B :: 0x5B :: ((ps ++ is) ++ [final])

/-- Feeding the bytes prints none of them, and only the last one leads back to the ground state. -/
def Consumed (mem : Mem) (v : Vt100) (bytes : List UInt8) : Prop :=
  (∃ v', vt100Feed mem v bytes = some v' ∧ v'.parseState = .ground) ∧
    ∀ k c, bytes[k]? = some c → ∃ u, vt100Feed mem v (bytes.take k) = some u ∧ ¬ Prints u c ∧
      (0 < k → u.parseState ≠ .ground)

/-! ### Single bytes -/

section

variable (h : v.parseState = .csi)
include h

theorem feedByte_collects (hb : 0x20 ≤ b ∧ b < 0x3C)
    (hstep : feedByte mem v b = some v') : v'.parseState = .csi := by
  unfold feedByte at hstep
  rw [h] at hstep
  unfold feedCsi at hstep
  by_cases hdigit : 0x30 ≤ b ∧ b ≤ 0x39
  · rw [if_pos hdigit] at hstep
    obtain ⟨p, -, rfl⟩ := map_eq_some_iff.mp hstep
    exact h
  · have hnext : (paramNext v).parseState = .csi := by
      unfold paramNext
      split <;> exact h
    have hpush : (intermPush v b).parseState = .csi := by
      unfold intermPush
      split <;> exact h
    rw [if_neg hdigit] at hstep
    by_cases hsemi : b = 0x3B
    · rw [if_pos hsemi] at hstep
      rw [← some.inj hstep]
      exact hnext
    · rw [if_neg hsemi] at hstep
      by_cases hcolon : b = 0x3A
      · rw [if_pos hcolon] at hstep
        rw [← some.inj hstep]
        exact hnext
      · have hinterm : 0x20 ≤ b ∧ b ≤ 0x2F := by
          simp only [UInt8.le_iff_toNat_le, UInt8.lt_iff_toNat_lt, ← UInt8.toNat_inj,
            UInt8.reduceToNat] at hb hdigit hsemi hcolon ⊢
          omega
        rw [if_neg hcolon, if_pos hinterm] at hstep
        rw [← some.inj hstep]
        exact hpush

/-- A byte behind the parameters ends the sequence. -/
theorem feedByte_ends (hb : 0x3C ≤ b) :
    feedByte mem v b = if 0x40 ≤ b ∧ b ≤ 0x7E then
        (dispatchCsi mem v (Char.ofNat b.toNat)).map fun v => { v with parseState := .ground }
      else some { v with parseState := .ground } := by
  have hbelow : ∀ x : UInt8, x < 0x3C → ¬ b ≤ x := by
    intro x hx hle
    exact absurd (UInt8.lt_of_le_of_lt (UInt8.le_trans hb hle) hx) (by decide)
  have hne : ∀ x : UInt8, x < 0x3C → b ≠ x := by
    rintro x hx rfl
    exact hbelow b hx (UInt8.le_refl b)
  unfold feedByte
  rw [h]
  unfold feedCsi
  rw [if_neg (fun hd => hbelow 0x39 (by decide) hd.2), if_neg (hne 0x3B (by decide)),
    if_neg (hne 0x3A (by decide)), if_neg (fun hd => hbelow 0x2F (by decide) hd.2),
    if_neg (hne 0x1B (by decide))]

theorem feedByte_private (hb : 0x3C ≤ b ∧ b ≤ 0x3F) :
    feedByte mem v b = some { v with parseState := .ground } := by
  rw [feedByte_ends h hb.1, if_neg (fun hd => absurd (UInt8.le_trans hd.1 hb.2) (by decide))]

theorem feedByte_final (hb : 0x40 ≤ b ∧ b ≤ 0x7E)
    (hstep : feedByte mem v b = some v') : v'.parseState = .ground := by
  rw [feedByte_ends h (UInt8.le_trans (by decide) hb.1), if_pos hb] at hstep
  obtain ⟨u, -, rfl⟩ := map_eq_some_iff.mp hstep
  rfl

end

/-- The terminal in a control sequence, with these parameters so far. -/
def Vt100.reading (v : Vt100) (vals : List Int) : Vt100 :=
  { v with
    parseState := .csi, paramCount := vals.length, interm := []
    params := vals ++ replicate (maxParams - vals.length) 0 }

section

variable (h : v.parseState = .ground)
include h

theorem feed_escape : feedByte mem v 0x1B = some { parserReset v with parseState := .escape } := by
  unfold feedByte
  rw [h]
  rfl

/-- After `ESC [` there are no parameters. -/
theorem feed_introducer : vt100Feed mem v (0x1B :: 0x5B :: bytes) =
    run (feedByte mem) (v.reading []) bytes := by
  unfold vt100Feed
  rw [Run.run_cons, feed_escape h]
  rfl

end

/-! ### The sequence -/

theorem collected (h : v.parseState = .csi) (hps : ∀ b ∈ ps, 0x20 ≤ b ∧ b < 0x3C)
    (hrun : run (feedByte mem) v ps = some v') : v'.parseState = .csi :=
  (Run.along_throughout (fun _ _ _ hs hb hstep => feedByte_collects hs hb hstep) h
    (Run.along_of_forall (fun b hb _ => hps b hb) v)).last hrun

/-- **A control sequence is taken in as a whole exactly when it has no private parameter byte** and
no byte of it overflows a parameter or a coordinate. -/
theorem control_sequence_consumed_iff {final : UInt8} (hv : Reachable v)
    (hground : v.parseState = .ground)
    (hps : ∀ b ∈ ps, 0x30 ≤ b ∧ b ≤ 0x3F) (his : ∀ b ∈ is, 0x20 ≤ b ∧ b ≤ 0x2F)
    (hfinal : 0x40 ≤ final ∧ final ≤ 0x7E) (mem : Mem) :
    Consumed mem v (controlSequence ps is final) ↔
      (∀ b ∈ ps, b < 0x3C) ∧ Along (feedByte mem) ByteOk v (controlSequence ps is final) := by
  have hvalid := hv.valid
  have hlow : ∀ b : UInt8, 0x30 ≤ b → 0x20 ≤ b := fun b hb => UInt8.le_trans (by decide) hb
  constructor
  · rintro ⟨⟨v', hrun, -⟩, hprefix⟩
    refine ⟨?_, (Run.along_of_run (fun s b hs hb => feedByte_some hs mem hb)
      (fun s b hs hb => feedByte_none hs mem hb) hvalid hrun).1⟩
    by_contra hprivate
    -- the first private byte takes the parser back to the ground state, and a byte follows it
    have hfirst : ∃ before x after, ps = before ++ x :: after ∧ (∀ b ∈ before, b < 0x3C) ∧
        0x3C ≤ x := by
      obtain ⟨x, hx⟩ : ∃ x, ps.find? (fun b => !decide (b < 0x3C)) = some x := by
        rw [← isSome_iff_exists, find?_isSome]
        simpa using hprivate
      obtain ⟨hhigh, before, after, heq, hbefore⟩ := find?_eq_some_iff_append.mp hx
      exact ⟨before, x, after, heq, by simpa using hbefore, by simpa using hhigh⟩
    obtain ⟨before, x, after, rfl, hbefore, hx⟩ := hfirst
    have hseq : controlSequence (before ++ x :: after) is final =
        0x1B :: 0x5B :: ((before ++ [x]) ++ (after ++ is ++ [final])) := by
      unfold controlSequence
      simp
    have htake : (controlSequence (before ++ x :: after) is final).take (before.length + 3) =
        0x1B :: 0x5B :: (before ++ [x]) := by
      rw [hseq, take_succ_cons, take_succ_cons, take_left' (by simp)]
    have hnext : ∃ c, (controlSequence (before ++ x :: after) is final)[before.length + 3]? =
        some c := by
      refine ⟨_, getElem?_eq_getElem ?_⟩
      rw [hseq]
      simp only [length_cons, length_append, length_nil]
      omega
    obtain ⟨c, hc⟩ := hnext
    obtain ⟨t, ht, -, hcsi⟩ := hprefix (before.length + 3) c hc
    rw [htake, feed_introducer hground, Run.run_append] at ht
    obtain ⟨s, hs, hlast⟩ := bind_eq_some_iff.mp ht
    have hscsi : s.parseState = .csi := by
      refine collected rfl (fun b hb => ⟨hlow b ?_, hbefore b hb⟩) hs
      exact (hps b (mem_append_left _ hb)).1
    rw [Run.run_cons, feedByte_private hscsi ⟨hx, (hps x (by simp)).2⟩] at hlast
    obtain rfl := some.inj hlast
    exact hcsi (by omega) rfl
  · rintro ⟨hprivate, halong⟩
    have hcollect : ∀ b ∈ ps ++ is, 0x20 ≤ b ∧ b < 0x3C := by
      intro b hb
      rcases mem_append.mp hb with hmem | hmem
      · exact ⟨hlow b (hps b hmem).1, hprivate b hmem⟩
      · exact ⟨(his b hmem).1, UInt8.lt_of_le_of_lt (his b hmem).2 (by decide)⟩
    obtain ⟨v', hrun, -⟩ := Run.run_keeps (fun s b hs hb => feedByte_some hs mem hb) hvalid halong
    refine ⟨⟨v', hrun, ?_⟩, ?_⟩
    · have hrest := (feed_introducer hground).symm.trans hrun
      rw [Run.run_append] at hrest
      obtain ⟨s, hs, hlast⟩ := bind_eq_some_iff.mp hrest
      rw [Run.run_cons] at hlast
      obtain ⟨t, ht, hend⟩ := bind_eq_some_iff.mp hlast
      obtain rfl := some.inj hend
      exact feedByte_final (collected rfl hcollect hs) hfinal ht
    · intro k c hc
      obtain ⟨t, ht⟩ := Run.run_take hrun k
      refine ⟨t, ht, ?_⟩
      match k, hc with
      | 0, hc =>
        obtain rfl : v = t := some.inj ht
        obtain rfl : 0x1B = c := some.inj hc
        exact ⟨fun hprints => absurd hprints.2 (by decide), fun hpos => absurd hpos (by decide)⟩
      | 1, hc =>
        have hone : (feedByte mem v 0x1B).bind some = some t := ht
        rw [feed_escape hground] at hone
        obtain rfl := some.inj hone
        exact ⟨not_prints VtParseState.noConfusion, fun _ => VtParseState.noConfusion⟩
      | k + 2, hc =>
        have hk : k ≤ (ps ++ is).length := by
          have hlt := (List.getElem?_eq_some_iff.mp hc).1
          unfold controlSequence at hlt
          rw [length_cons, length_cons, length_append, length_singleton] at hlt
          omega
        have hrest : run (feedByte mem) (v.reading []) ((ps ++ is).take k) = some t := by
          rw [← feed_introducer hground, ← ht]
          unfold controlSequence
          rw [take_succ_cons, take_succ_cons, take_append_of_le_length hk]
          rfl
        have hcsi : t.parseState = .csi :=
          collected rfl (fun b hb => hcollect b (mem_of_mem_take hb)) hrest
        have hne : t.parseState ≠ .ground := by
          rw [hcsi]
          decide
        exact ⟨not_prints hne, fun _ => hne⟩

theorem control_sequence_consumed_iff_some :
    Reachable (blankTerminal 3 2 0) ∧ (blankTerminal 3 2 0).parseState = .ground ∧
      Consumed (fun _ => true) (blankTerminal 3 2 0)
        (controlSequence [0x32, 0x3B, 0x31, 0x30] [0x20] 0x48) := by
  have hreach : Reachable (blankTerminal 3 2 0) :=
    ⟨fun _ => true, fun _ => cellBlank, 3, 2, 0, _, [], by decide, by decide +kernel, rfl⟩
  refine ⟨hreach, rfl, (control_sequence_consumed_iff hreach rfl ?_ ?_ ?_ _).mpr ⟨?_, ?_⟩⟩
  · decide +kernel
  · decide +kernel
  · decide
  · decide +kernel
  · decide +kernel

/-- `ESC [ ? 2 5 h`, which makes the cursor visible, prints `25h`. -/
theorem private_sequence_printed :
    Reachable (blankTerminal 3 2 0) ∧ (blankTerminal 3 2 0).parseState = .ground ∧
      ¬ Consumed (fun _ => true) (blankTerminal 3 2 0)
        (controlSequence [0x3F, 0x32, 0x35] [] 0x68) ∧
      (vt100Feed (fun _ => true) (blankTerminal 3 2 0)
        (controlSequence [0x3F, 0x32, 0x35] [] 0x68)).map
        (fun v => (v.line 0).map (·.codepoint)) = some [0x32, 0x35, 0x68] := by
  refine ⟨⟨fun _ => true, fun _ => cellBlank, 3, 2, 0, _, [], by decide, by decide +kernel, rfl⟩,
    rfl, ?_, ?_⟩
  · rintro ⟨-, hprefix⟩
    obtain ⟨u, hu, -, hne⟩ := hprefix 3 0x32 rfl
    have hstate : (vt100Feed (fun _ => true) (blankTerminal 3 2 0) [0x1B, 0x5B, 0x3F]).map
        (·.parseState) =
        some .ground := by decide +kernel
    replace hu : vt100Feed (fun _ => true) (blankTerminal 3 2 0) [0x1B, 0x5B, 0x3F] = some u := hu
    rw [hu] at hstate
    exact hne (by decide) (some.inj hstate)
  · decide +kernel

/-! ### Parameters -/

def digitByte (d : Fin 10) : UInt8 := .ofNat (48 + d.val)

/-- What further digits make of a number. -/
def fieldValue (n : Int) (ds : List (Fin 10)) : Int := ds.foldl (fun n d => n * 10 + d.val) n

/-- The first field, and a separator before each of the others. -/
def fieldBytes : List (List (Fin 10)) → List UInt8
  | [] => []
  | f :: fields => f.map digitByte ++ fields.flatMap fun f => 0x3B :: f.map digitByte

/-- The fields that are read as parameters: an empty first one is left out. -/
def readFields : List (List (Fin 10)) → List (List (Fin 10))
  | [] :: fields => fields
  | fields => fields

variable {vals : List Int} {fields : List (List (Fin 10))}

theorem feed_separator (hroom : vals.length < maxParams) :
    feedByte mem (v.reading vals) 0x3B = some (v.reading (vals ++ [0])) := by
  have hzeros : vals ++ replicate (maxParams - vals.length) 0 =
      vals ++ [0] ++ replicate (maxParams - (vals ++ [0]).length) 0 := by
    rw [append_assoc, singleton_append, ← replicate_succ, length_append, length_singleton]
    congr 2
    omega
  have hnext : feedByte mem (v.reading vals) 0x3B =
      some { v.reading vals with paramCount := vals.length + 1 } := congrArg some (if_pos hroom)
  rw [hnext]
  unfold Vt100.reading
  rw [hzeros, length_append, length_singleton]

theorem feedByte_digit (vals : List Int) (d : Fin 10) :
    feedByte mem (v.reading vals) (digitByte d) =
      paramPushDigit (v.reading vals) (digitByte d) := by
  have hdigit : ∀ d : Fin 10, 0x30 ≤ digitByte d ∧ digitByte d ≤ 0x39 := by decide
  exact if_pos (hdigit d)

section

variable {n : Int} (hn : 0 ≤ n)
include hn

theorem le_fieldValue (ds : List (Fin 10)) : n ≤ fieldValue n ds := by
  induction ds generalizing n with
  | nil => exact Int.le_refl n
  | cons d ds ih =>
    have hnext := @ih (n * 10 + d.val) (by omega)
    change n ≤ fieldValue (n * 10 + d.val) ds
    omega

theorem feed_digit (d : Fin 10) (hsmall : n * 10 + d.val < 10000) :
    feedByte mem (v.reading (vals ++ [n])) (digitByte d) =
      some (v.reading (vals ++ [n * 10 + d.val])) := by
  have hvalue : ∀ d : Fin 10, (digitByte d).toNat - 48 = d.val := by decide
  rw [feedByte_digit]
  unfold paramPushDigit Vt100.reading
  simp [hvalue, Word.checked_of_range (show -2 ^ 31 ≤ n * 10 + d.val by omega) (by omega)]

theorem feed_digits (ds : List (Fin 10)) (hsmall : fieldValue n ds < 10000) :
    run (feedByte mem) (v.reading (vals ++ [n])) (ds.map digitByte) =
      some (v.reading (vals ++ [fieldValue n ds])) := by
  induction ds generalizing n with
  | nil => rfl
  | cons d ds ih =>
    have hpos : 0 ≤ n * 10 + d.val := by omega
    rw [map_cons, Run.run_cons, feed_digit hn d (Int.lt_of_le_of_lt (le_fieldValue hpos ds) hsmall),
      bind_some]
    exact ih hpos hsmall

end

theorem feed_fields (hroom : vals.length + fields.length ≤ maxParams)
    (hsmall : ∀ f ∈ fields, fieldValue 0 f < 10000) :
    run (feedByte mem) (v.reading vals) (fields.flatMap fun f => 0x3B :: f.map digitByte) =
      some (v.reading (vals ++ fields.map (fieldValue 0))) := by
  induction fields generalizing vals with
  | nil => simp
  | cons f fields ih =>
    rw [length_cons] at hroom
    rw [forall_mem_cons] at hsmall
    rw [flatMap_cons, cons_append, Run.run_cons, feed_separator (by omega), bind_some,
      Run.run_append,
      feed_digits (Int.le_refl 0) f hsmall.1, bind_some, ih (by simp; omega) hsmall.2]
    simp

theorem feed_sequence (hground : v.parseState = .ground) (hroom : fields.length ≤ maxParams)
    (hsmall : ∀ f ∈ fields, fieldValue 0 f < 10000) :
    vt100Feed mem v (0x1B :: 0x5B :: fieldBytes fields) =
      some (v.reading ((readFields fields).map (fieldValue 0))) := by
  rw [feed_introducer hground]
  match fields with
  | [] => rfl
  | [] :: fields => exact feed_fields (by simp at hroom ⊢; omega) (forall_mem_cons.mp hsmall).2
  | (d :: ds) :: fields =>
    rw [length_cons] at hroom
    rw [forall_mem_cons] at hsmall
    -- the first digit begins the first parameter
    have hdigits : run (feedByte mem) (v.reading []) ((d :: ds).map digitByte) =
        some (v.reading [fieldValue 0 (d :: ds)]) := by
      rw [← nil_append [fieldValue 0 _], ← feed_digits (Int.le_refl 0) (d :: ds) hsmall.1, map_cons,
        Run.run_cons, Run.run_cons, feedByte_digit, feedByte_digit]
      rfl
    rw [fieldBytes, Run.run_append, hdigits, bind_some, feed_fields (by simp; omega) hsmall.2]
    rfl

theorem param_reading (vals : List Int) (k : Nat) : param (v.reading vals) k 0 = vals.getD k 0 := by
  unfold param Vt100.reading
  by_cases hk : vals.length ≤ k
  · rw [if_pos (.inl hk), getD_eq_default _ _ hk]
  · simp only [getD_append _ _ _ _ (Nat.lt_of_not_le hk)]
    split_ifs with hzero
    · exact (hzero.resolve_left hk).symm
    · rfl

theorem fieldValue_getD_iff :
    (∀ k, fieldValue 0 (fields.getD k []) = 0) ↔ ∀ f ∈ fields, fieldValue 0 f = 0 := by
  refine ⟨fun h f hf => ?_, fun h k => ?_⟩
  · obtain ⟨k, hk, rfl⟩ := getElem_of_mem hf
    rw [← getD_eq_getElem _ [] hk]
    exact h k
  · rw [getD_eq_getElem?_getD]
    cases hk : fields[k]? with
    | none => rfl
    | some f => exact h f (mem_of_getElem? hk)

theorem readFields_iff (fields : List (List (Fin 10))) :
    (∀ k, fieldValue 0 ((readFields fields).getD k []) = fieldValue 0 (fields.getD k [])) ↔
      fields.head? ≠ some [] ∨ ∀ f ∈ fields, fieldValue 0 f = 0 := by
  match fields with
  | [] => simp [readFields]
  | (d :: ds) :: fields => exact iff_of_true (fun _ => rfl) (.inl (by simp))
  | [] :: fields =>
    rw [head?_cons, or_iff_right (not_not_intro rfl), ← fieldValue_getD_iff]
    refine ⟨fun h k => ?_, fun h k => (h (k + 1)).trans (h k).symm⟩
    -- a parameter that comes one too early has the value before it
    induction k with
    | zero => rfl
    | succ k ih => exact (h k).trans ih

/-- **The parameters of a control sequence are its fields**, but for an empty first field: the
separator behind it begins the first parameter, so the others come one too early. -/
theorem csi_params_iff (hground : v.parseState = .ground) (hroom : fields.length ≤ maxParams)
    (hsmall : ∀ f ∈ fields, fieldValue 0 f < 10000) (hfinal : 0x40 ≤ c ∧ c ≤ 0x7E) :
    (∃ u, vt100Feed mem v (0x1B :: 0x5B :: fieldBytes fields) = some u ∧
      feedByte mem u c =
        (dispatchCsi mem u (Char.ofNat c.toNat)).map (fun v => { v with parseState := .ground }) ∧
      ∀ k, param u k 0 = fieldValue 0 (fields.getD k [])) ↔
      fields.head? ≠ some [] ∨ ∀ f ∈ fields, fieldValue 0 f = 0 := by
  have hends := @feedByte_ends (v.reading ((readFields fields).map (fieldValue 0))) mem c rfl
    (UInt8.le_trans (by decide) hfinal.1)
  have hparam (k : Nat) : param (v.reading ((readFields fields).map (fieldValue 0))) k 0 =
      fieldValue 0 ((readFields fields).getD k []) :=
    (param_reading _ k).trans (List.getD_map _ [] (fieldValue 0))
  rw [if_pos hfinal] at hends
  simp only [feed_sequence hground hroom hsmall, some.injEq, exists_eq_left', hends, hparam,
    true_and]
  exact readFields_iff fields

/-- `ESC [ 5 ; ; 1 2 H`. -/
theorem csi_params_iff_some :
    ∃ u, vt100Feed (fun _ => true) (blankTerminal 3 2 0)
        (0x1B :: 0x5B :: fieldBytes [[5], [], [1, 2]]) = some u ∧
      feedByte (fun _ => true) u 0x48 =
        (dispatchCsi (fun _ => true) u 'H').map (fun v => { v with parseState := .ground }) ∧
      ∀ k, param u k 0 = fieldValue 0 ([[5], [], [1, 2]].getD k []) :=
  (csi_params_iff rfl (by decide) (by decide) (by decide)).mpr (.inl (by decide))

/-- `ESC [ ; 5`: the first parameter is 5 and the second 0. -/
theorem csi_empty_first_field :
    ∃ u, vt100Feed (fun _ => true) (blankTerminal 3 2 0) (0x1B :: 0x5B :: fieldBytes [[], [5]]) =
      some u ∧
      param u 0 0 = 5 ∧ param u 1 0 = 0 := by
  decide +kernel

end Nv0ken.Terminal
