/-
Buffers of a fixed length.

A buffer is a list whose length never changes while bytes are copied into it; copying
past its end is a fault, never a longer list.  `overwrite` is the copy itself,
`copyInto` and `copyOut` are the checked forms programs use, and `byteAt` reads a
position with zero past the end, so that "the buffer and zeros behind it" needs no
case distinction.
-/
import Mathlib.Data.List.Basic

namespace Nv0ken.Buffer

open List

/-- Why an operation has no result. -/
inductive Fault
  /-- A loop that does not end. -/
  | diverges
  /-- A read or write outside a buffer. -/
  | outOfBounds
  deriving DecidableEq, Repr

variable {buf src : List UInt8} {off n i : Nat}

/-- `src` copied over the buffer from position `off` on. -/
def overwrite (buf : List UInt8) (off : Nat) (src : List UInt8) : List UInt8 :=
  buf.take off ++ src ++ buf.drop (off + src.length)

/-- `n` positions from `off` on. -/
def slice (buf : List UInt8) (off n : Nat) : List UInt8 := (buf.drop off).take n

/-- The byte at a position, zero behind the end. -/
def byteAt (buf : List UInt8) (i : Nat) : UInt8 := buf[i]?.getD 0

/-- A copy into the buffer; one of no bytes touches nothing, wherever it points. -/
def copyInto (buf : List UInt8) (off : Nat) (src : List UInt8) : Except Fault (List UInt8) :=
  if src = [] then .ok buf
  else if off + src.length ≤ buf.length then .ok (overwrite buf off src)
  else .error .outOfBounds

/-- A copy out of the buffer. -/
def copyOut (buf : List UInt8) (off n : Nat) : Except Fault (List UInt8) :=
  if n = 0 then .ok []
  else if off + n ≤ buf.length then .ok (slice buf off n)
  else .error .outOfBounds

/-- The buffer made longer with zeros, up to `n` positions. -/
def zeroExtend (buf : List UInt8) (n : Nat) : List UInt8 := buf ++ List.replicate (n - buf.length) 0

/-! ### Length -/

@[simp] theorem length_overwrite (h : off + src.length ≤ buf.length) :
    (overwrite buf off src).length = buf.length := by
  unfold overwrite
  simp only [length_append, length_take, length_drop]
  omega

@[simp] theorem length_zeroExtend : (zeroExtend buf n).length = max buf.length n := by
  unfold zeroExtend
  simp only [length_append, length_replicate]
  omega

/-! ### Positions -/

theorem byteAt_of_le (h : buf.length ≤ i) : byteAt buf i = 0 := by
  unfold byteAt
  rw [getElem?_eq_none h]
  rfl

theorem byteAt_overwrite (h : off + src.length ≤ buf.length) :
    byteAt (overwrite buf off src) i =
      if off ≤ i ∧ i < off + src.length then byteAt src (i - off) else byteAt buf i := by
  have htake : (buf.take off).length = off := by
    rw [length_take]
    omega
  unfold byteAt overwrite
  rw [append_assoc]
  by_cases hlow : i < off
  · rw [if_neg (by omega), getElem?_append_left (by omega), getElem?_take_of_lt hlow]
  · rw [getElem?_append_right (by omega), htake]
    by_cases hhigh : i < off + src.length
    · rw [if_pos ⟨Nat.not_lt.mp hlow, hhigh⟩, getElem?_append_left (by omega)]
    · rw [if_neg (by omega), getElem?_append_right (by omega), getElem?_drop]
      congr 2
      omega

@[simp] theorem byteAt_zeroExtend : byteAt (zeroExtend buf n) i = byteAt buf i := by
  unfold zeroExtend
  by_cases hlow : i < buf.length
  · unfold byteAt
    rw [getElem?_append_left hlow]
  · rw [byteAt_of_le (Nat.not_lt.mp hlow)]
    unfold byteAt
    rw [getElem?_append_right (Nat.not_lt.mp hlow), getElem?_replicate]
    split <;> rfl

theorem byteAt_take : byteAt (buf.take n) i = if i < n then byteAt buf i else 0 := by
  unfold byteAt
  rw [getElem?_take]
  by_cases hin : i < n
  · rw [if_pos hin, if_pos hin]
  · rw [if_neg hin, if_neg hin]
    rfl

/-- Buffers of one length are equal when they agree position by position. -/
theorem ext_byteAt {a b : List UInt8} (hlen : a.length = b.length)
    (h : ∀ i, i < a.length → byteAt a i = byteAt b i) : a = b := by
  apply ext_getElem hlen
  intro i ha hb
  have := h i ha
  unfold byteAt at this
  rwa [getElem?_eq_getElem ha, getElem?_eq_getElem hb] at this

/-! ### The checked forms -/

theorem ok_of_map {ε α β : Type} {x : Except ε α} {f : α → β} {b : β} (h : x.map f = .ok b) :
    ∃ a, x = .ok a ∧ f a = b := by
  cases x with
  | error e => cases h
  | ok a => exact ⟨a, rfl, Except.ok.inj h⟩

theorem copyInto_of_le (h : off + src.length ≤ buf.length) :
    copyInto buf off src = .ok (overwrite buf off src) := by
  unfold copyInto
  by_cases hnil : src = []
  · rw [if_pos hnil, hnil]
    unfold overwrite
    simp
  · rw [if_neg hnil, if_pos h]

theorem ok_of_toOption {ε α : Type} {x : Except ε α} {a : α} (h : x.toOption = some a) :
    x = .ok a := by
  cases x with
  | error e => cases h
  | ok b => exact congrArg Except.ok (Option.some.inj h)

/-- A copy that starts inside the buffer and succeeds stays inside it. -/
theorem copyInto_ok {out : List UInt8} (hoff : off ≤ buf.length)
    (h : copyInto buf off src = .ok out) : off + src.length ≤ buf.length := by
  unfold copyInto at h
  by_cases hnil : src = []
  · subst hnil
    exact hoff
  · rw [if_neg hnil] at h
    by_contra hout
    rw [if_neg hout] at h
    cases h

theorem copyOut_of_le (h : off + n ≤ buf.length) : copyOut buf off n = .ok (slice buf off n) := by
  unfold copyOut
  by_cases hzero : n = 0
  · rw [if_pos hzero, hzero]
    unfold slice
    simp
  · rw [if_neg hzero, if_pos h]

end Nv0ken.Buffer
