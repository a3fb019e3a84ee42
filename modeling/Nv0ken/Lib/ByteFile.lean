/-
The byte file.

What a file is for, whatever it is stored in: a sequence of bytes that can be read,
written at any position and cut or stretched to any length.  A write behind the end and
a stretching truncation fill the gap with zeros, whatever stood there in the file's
past: a file has no memory of the bytes that were cut off.

Files are compared through `read`: `eq_of_read` says that reading tells two files of
one length apart.
-/
import Nv0ken.Lib.Buffer

namespace Nv0ken.ByteFile

open Buffer List

variable {f g bytes : List UInt8} {off n i b : Nat}

/-- At most `n` bytes from `off` on, fewer when the file ends before. -/
def read (f : List UInt8) (off n : Nat) : List UInt8 := slice f off n

/-- The bytes put at `off`, the file stretched as far as it must be. -/
def write (f : List UInt8) (off : Nat) (bytes : List UInt8) : List UInt8 :=
  overwrite (zeroExtend f (off + bytes.length)) off bytes

/-- The file made `n` bytes long. -/
def truncate (f : List UInt8) (n : Nat) : List UInt8 := (zeroExtend f n).take n

theorem le_length_zeroExtend : n ≤ (zeroExtend f n).length := by
  rw [length_zeroExtend]
  exact Nat.le_max_right _ _

@[simp] theorem length_write : (write f off bytes).length = max f.length (off + bytes.length) := by
  unfold write
  rw [length_overwrite le_length_zeroExtend, length_zeroExtend]

@[simp] theorem length_truncate : (truncate f n).length = n := by
  unfold truncate
  rw [length_take, length_zeroExtend]
  omega

theorem byteAt_write : byteAt (write f off bytes) i =
    if off ≤ i ∧ i < off + bytes.length then byteAt bytes (i - off) else byteAt f i := by
  unfold write
  rw [byteAt_overwrite le_length_zeroExtend, byteAt_zeroExtend]

theorem byteAt_truncate : byteAt (truncate f n) i = if i < n then byteAt f i else 0 := by
  unfold truncate
  rw [byteAt_take, byteAt_zeroExtend]

/-- A write at the end appends. -/
theorem write_at_end : write f f.length bytes = f ++ bytes := by
  unfold write overwrite zeroExtend
  have htake : (f ++ replicate (f.length + bytes.length - f.length) 0).take f.length = f :=
    take_left' rfl
  rw [htake, drop_of_length_le (by simp), append_nil]

theorem write_nil (hoff : off ≤ f.length) : write f off [] = f := by
  unfold write overwrite zeroExtend
  simp [Nat.sub_eq_zero_of_le hoff]

/-- **Only a write at the end appends**, unless it writes nothing. -/
theorem write_eq_append_iff (hoff : off ≤ f.length) :
    write f off bytes = f ++ bytes ↔ bytes = [] ∨ off = f.length := by
  constructor
  · intro h
    have hlen := congrArg length h
    rw [length_write, length_append] at hlen
    by_cases hnil : bytes = []
    · exact Or.inl hnil
    · have : bytes.length ≠ 0 := fun h => hnil (length_eq_zero_iff.mp h)
      exact Or.inr (by omega)
  · rintro (rfl | rfl)
    · rw [write_nil hoff, append_nil]
    · exact write_at_end

/-- A file is what can be read out of it. -/
theorem eq_of_read (hlen : f.length = g.length) (hb : f.length ≤ b)
    (h : ∀ i, i < b → read f i 1 = read g i 1) : f = g := by
  apply ext_getElem hlen
  intro i hf hg
  have hread := h i (by omega)
  unfold read slice at hread
  rw [drop_eq_getElem_cons hf, drop_eq_getElem_cons hg] at hread
  exact (cons.inj hread).1

end Nv0ken.ByteFile
