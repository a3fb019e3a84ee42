/-
Messages on a byte stream.

A stream of messages has no marks between them: each begins with a header of a fixed
size, and the header says how much follows.  `Framing` is such a format, over any
alphabet, and `Frames bytes fs rest` says that `bytes` is the complete messages `fs`
followed by the unfinished message `rest`.

Every stream is divided in exactly one way (`exists_frames`, `Frames.unique`), and the
division can be made piece by piece: what is left of one piece is put in front of the
next (`Frames.append`).  So a receiver that keeps the unfinished message and divides
whatever arrives finds the same messages however the stream is cut.

The fields of a header are little-endian words.
-/
import Mathlib.Data.Nat.Digits.Lemmas

namespace Nv0ken.Wire

open List

/-! ### Little-endian words -/

/-- The low `n` bytes of `v`, least significant first. -/
def leBytes : Nat → Nat → List UInt8
  | 0, _ => []
  | n + 1, v => UInt8.ofNat v :: leBytes n (v / 256)

/-- The number the bytes spell, least significant first. -/
def leValue (bytes : List UInt8) : Nat := Nat.ofDigits 256 (bytes.map UInt8.toNat)

@[simp] theorem length_leBytes (n v : Nat) : (leBytes n v).length = n := by
  induction n generalizing v with
  | zero => rfl
  | succ n ih => rw [leBytes, length_cons, ih]

theorem leValue_leBytes (n v : Nat) : leValue (leBytes n v) = v % 256 ^ n := by
  induction n generalizing v with
  | zero => simp [leBytes, leValue, Nat.mod_one]
  | succ n ih =>
    have hhead : (UInt8.ofNat v).toNat = v % 256 := UInt8.toNat_ofNat'
    have htail : Nat.ofDigits 256 ((leBytes n (v / 256)).map UInt8.toNat) = v / 256 % 256 ^ n :=
      ih (v / 256)
    rw [leBytes, leValue, map_cons, Nat.ofDigits_cons, htail, hhead, Nat.pow_succ', Nat.mod_mul]

theorem leValue_lt (bytes : List UInt8) : leValue bytes < 256 ^ bytes.length := by
  have hdigits : ∀ d ∈ bytes.map UInt8.toNat, d < 256 := by
    intro d hd
    obtain ⟨b, -, rfl⟩ := mem_map.mp hd
    exact b.toNat_lt
  rw [← length_map UInt8.toNat]
  exact Nat.ofDigits_lt_base_pow_length (by decide) hdigits

/-! ### Framing -/

/-- A format of messages: `header` bytes, and then as many as they announce. -/
structure Framing (β : Type*) where
  header : Nat
  /-- How many bytes the header at the front announces. -/
  announced : List β → Nat
  header_pos : 0 < header
  /-- The header alone decides. -/
  announced_append : ∀ {a : List β} (b : List β), header ≤ a.length →
    announced (a ++ b) = announced a

namespace Framing

variable {β : Type*} {F : Framing β} {a b f rest rest' : List β} {fs fs' : List (List β)}

/-- One whole message. -/
def IsFrame (F : Framing β) (f : List β) : Prop := f.length = F.header + F.announced f

/-- The message at the front has not arrived in full. -/
def Unfinished (F : Framing β) (bytes : List β) : Prop :=
  F.header ≤ bytes.length → bytes.length < F.header + F.announced bytes

/-- Where there is a header at the front, the whole of its message is at most `n` bytes. -/
def Within (F : Framing β) (n : Nat) (bytes : List β) : Prop :=
  F.header ≤ bytes.length → F.header + F.announced bytes ≤ n

/-- `Frames F bytes fs rest`: the bytes are the messages `fs` and the unfinished `rest`. -/
inductive Frames (F : Framing β) : List β → List (List β) → List β → Prop
  | done {rest : List β} (h : F.Unfinished rest) : Frames F rest [] rest
  | frame {f bytes rest : List β} {fs : List (List β)} (hf : F.IsFrame f)
      (h : Frames F bytes fs rest) : Frames F (f ++ bytes) (f :: fs) rest

theorem IsFrame.header_le (hf : F.IsFrame f) : F.header ≤ f.length := by
  rw [hf]
  exact Nat.le_add_right _ _

theorem IsFrame.announced_append (hf : F.IsFrame f) (b : List β) :
    F.announced (f ++ b) = F.announced f :=
  F.announced_append b hf.header_le

/-- A stream that begins with a whole message is not an unfinished one. -/
theorem IsFrame.not_unfinished (hf : F.IsFrame f) (b : List β) : ¬ F.Unfinished (f ++ b) := by
  intro h
  have hsize : f.length = F.header + F.announced f := hf
  rw [Unfinished, hf.announced_append, length_append] at h
  omega

/-- A message that has not arrived to its last byte is unfinished. -/
theorem IsFrame.unfinished_front (hf : F.IsFrame (a ++ b)) (hb : b ≠ []) : F.Unfinished a := by
  intro ha
  have hpos := length_pos_of_ne_nil hb
  have hsize : (a ++ b).length = F.header + F.announced (a ++ b) := hf
  rw [F.announced_append b ha, length_append] at hsize
  omega

theorem unfinished_nil (F : Framing β) : F.Unfinished [] := by
  intro h
  have := F.header_pos
  rw [length_nil] at h
  omega

section

variable (h : F.Frames a fs rest)
include h

theorem Frames.unfinished : F.Unfinished rest := by
  induction h with
  | done h => exact h
  | frame hf h ih => exact ih

theorem Frames.isFrame : ∀ f ∈ fs, F.IsFrame f := by
  induction h with
  | done _ => exact fun f hf => absurd hf not_mem_nil
  | frame hf _ ih => exact forall_mem_cons.mpr ⟨hf, ih⟩

theorem Frames.length_le : fs.length + rest.length ≤ a.length := by
  induction h with
  | done h => simp
  | frame hf h ih =>
    have := hf.header_le
    have := F.header_pos
    rw [length_cons, length_append]
    omega

end

theorem Within.front {n : Nat} (h : F.Within n (a ++ b)) : F.Within n a := by
  intro ha
  rw [← F.announced_append b ha]
  exact h (by rw [length_append]; omega)

/-- The header at the front of a stream is that of its first message, or of the unfinished
one. -/
theorem Frames.within {n : Nat} (h : F.Frames a fs rest) (hfs : ∀ f ∈ fs, f.length ≤ n)
    (hrest : F.Within n rest) : F.Within n a := by
  cases h with
  | done _ => exact hrest
  | @frame f bytes _ fs hf _ =>
    intro _
    rw [hf.announced_append, ← hf]
    exact hfs f (mem_cons_self)

/-- Every stream is divided in some way. -/
theorem exists_frames (F : Framing β) (bytes : List β) : ∃ fs rest, F.Frames bytes fs rest := by
  induction hn : bytes.length using Nat.strong_induction_on generalizing bytes with
  | _ n ih =>
    by_cases hdone : F.Unfinished bytes
    · exact ⟨[], bytes, .done hdone⟩
    · -- the first message has arrived: divide what follows it
      rw [Unfinished, Classical.not_imp, Nat.not_lt] at hdone
      obtain ⟨hhead, hlen⟩ := hdone
      have hpos := F.header_pos
      generalize hsize : F.header + F.announced bytes = size at hlen
      obtain ⟨fs, rest, hfs⟩ :=
        ih (bytes.drop size).length (by rw [length_drop]; omega) (bytes.drop size) rfl
      have htake : (bytes.take size).length = size := length_take_of_le hlen
      have hannounced : F.announced (bytes.take size) = F.announced bytes := by
        conv_rhs => rw [← take_append_drop size bytes]
        exact (F.announced_append _ (by omega)).symm
      refine ⟨bytes.take size :: fs, rest, ?_⟩
      have hframe : F.IsFrame (bytes.take size) := by
        rw [IsFrame, htake, hannounced, hsize]
      have h := Frames.frame hframe hfs
      rwa [take_append_drop] at h

/-- Two messages at the front of one stream are the same message. -/
theorem IsFrame.eq_of_append {g : List β} (hf : F.IsFrame f) (hg : F.IsFrame g)
    (h : f ++ a = g ++ b) : f = g ∧ a = b := by
  have hannounced : F.announced f = F.announced g := by
    rw [← hf.announced_append a, h, hg.announced_append b]
  have hlen : f.length = g.length := by rw [hf, hg, hannounced]
  exact append_inj h hlen

/-- **Every stream is divided in one way only.** -/
theorem Frames.unique (h : F.Frames a fs rest) (h' : F.Frames a fs' rest') :
    fs = fs' ∧ rest = rest' := by
  induction h generalizing fs' with
  | done hdone =>
    cases h' with
    | done _ => exact ⟨rfl, rfl⟩
    | frame hf _ => exact absurd hdone (hf.not_unfinished _)
  | @frame f bytes rest fs hf h ih =>
    generalize ha : f ++ bytes = a at h'
    cases h' with
    | done hdone => exact absurd (ha ▸ hdone) (hf.not_unfinished _)
    | frame hg h' =>
      obtain ⟨rfl, rfl⟩ := hf.eq_of_append hg ha
      obtain ⟨rfl, rfl⟩ := ih h'
      exact ⟨rfl, rfl⟩

/-- **Division goes on from what was left over**: the unfinished message of `a` is put in
front of `b`. -/
theorem Frames.append (h : F.Frames a fs rest) (h' : F.Frames (rest ++ b) fs' rest') :
    F.Frames (a ++ b) (fs ++ fs') rest' := by
  induction h with
  | done _ => exact h'
  | frame hf _ ih =>
    rw [append_assoc]
    exact .frame hf (ih h')

/-- Whole messages one after another leave nothing over. -/
theorem frames_flatten (hfs : ∀ f ∈ fs, F.IsFrame f) : F.Frames fs.flatten fs [] := by
  induction fs with
  | nil => exact .done F.unfinished_nil
  | cons f fs ih =>
    rw [forall_mem_cons] at hfs
    exact .frame hfs.1 (ih hfs.2)

end Framing

end Nv0ken.Wire
