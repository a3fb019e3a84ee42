/-
Byte-addressed memory.

A memory maps every address to a byte.  Programs read and write it in words of a
few bytes, least significant byte first, and in blocks.  Everything proved of it is
one of two kinds: a read returns what was last written there (`load_store_same`,
`memset_apply`, `memcpy_apply`), or a write elsewhere does not matter
(`load_store_of_disjoint`, `Frame`).

`Frame S m m'` is the second kind stated once for a whole computation: outside `S`
nothing changed.  An operation that is known to write only inside `S` needs no other
lemma for everything that lives outside it.
-/
import Mathlib.Data.Set.Basic
import Mathlib.Algebra.Order.Group.Nat

namespace Nv0ken

/-- A byte at every address. -/
abbrev Mem := Nat → UInt8

namespace Mem

variable {m m' m'' : Mem} {a b d n k v x s : Nat} {S T : Set Nat}

/-- The `n`-byte little-endian word at `a`. -/
def load (m : Mem) : Nat → Nat → Nat
  | _, 0 => 0
  | a, n + 1 => (m a).toNat + 256 * load m (a + 1) n

/-- Write the low `n` bytes of `v` at `a`, least significant first. -/
def store (m : Mem) (a n v : Nat) : Mem :=
  fun x => if a ≤ x ∧ x < a + n then UInt8.ofNat (v / 256 ^ (x - a)) else m x

/-- Write one byte. -/
def setByte (m : Mem) (a : Nat) (v : UInt8) : Mem := fun x => if x = a then v else m x

/-- Write a list of bytes at `a`. -/
def writeBytes (m : Mem) (a : Nat) (bytes : List UInt8) : Mem :=
  fun x => if a ≤ x ∧ x < a + bytes.length then bytes.getD (x - a) 0 else m x

/-- Outside `S` the two memories are the same. -/
def Frame (S : Set Nat) (m m' : Mem) : Prop := ∀ x, x ∉ S → m' x = m x

/-! ### Words -/

theorem load_congr (h : ∀ i, i < n → m (a + i) = m' (b + i)) : load m a n = load m' b n := by
  induction n generalizing a b with
  | zero => rfl
  | succ n ih =>
    have hhead : m a = m' b := h 0 (Nat.succ_pos n)
    have htail : load m (a + 1) n = load m' (b + 1) n := by
      refine ih fun i hi => ?_
      have := h (i + 1) (by omega)
      rwa [show a + (i + 1) = a + 1 + i by omega, show b + (i + 1) = b + 1 + i by omega] at this
    rw [load, load, hhead, htail]

theorem load_lt (m : Mem) (a n : Nat) : load m a n < 256 ^ n := by
  induction n generalizing a with
  | zero => simp [load]
  | succ n ih =>
    have hbyte : (m a).toNat < 256 := (m a).toNat_lt
    have hrest := ih (a + 1)
    rw [load]
    omega

theorem store_of_mem (h : a ≤ x ∧ x < a + n) :
    store m a n v x = UInt8.ofNat (v / 256 ^ (x - a)) := if_pos h

theorem store_of_not_mem (h : ¬(a ≤ x ∧ x < a + n)) : store m a n v x = m x := if_neg h

/-- The upper bytes of a stored word are the word shifted down. -/
private theorem load_store_tail (h : k + b = n) :
    load (store m a n v) (a + k) b = v / 256 ^ k % 256 ^ b := by
  induction b generalizing k with
  | zero => simp [load, Nat.mod_one]
  | succ b ih =>
    have hbyte : store m a n v (a + k) = UInt8.ofNat (v / 256 ^ k) := by
      rw [store_of_mem (by omega), Nat.add_sub_cancel_left]
    have hrest := ih (k := k + 1) (by omega)
    rw [load, hbyte, show a + k + 1 = a + (k + 1) by omega, hrest, pow_succ' 256 b, Nat.mod_mul,
      Nat.div_div_eq_div_mul]
    rfl

theorem load_store_same (m : Mem) (a n v : Nat) : load (store m a n v) a n = v % 256 ^ n := by
  have h := load_store_tail (m := m) (a := a) (n := n) (v := v) (k := 0) (b := n) (by omega)
  simpa using h

theorem load_store_of_disjoint (h : a + n ≤ b ∨ b + k ≤ a) :
    load (store m a n v) b k = load m b k := by
  refine load_congr fun i hi => store_of_not_mem ?_
  omega

/-! ### Blocks -/

/-- The byte loop of `memset`. -/
def memset (m : Mem) (d : Nat) (v : UInt8) : Nat → Mem
  | 0 => m
  | n + 1 => memset (m.setByte d v) (d + 1) v n

/-- The byte loop of `memcpy`, front to back. -/
def memcpy (m : Mem) (d s : Nat) : Nat → Mem
  | 0 => m
  | n + 1 => memcpy (m.setByte d (m s)) (d + 1) (s + 1) n

theorem memset_apply (m : Mem) (d : Nat) (v : UInt8) (n x : Nat) :
    memset m d v n x = if d ≤ x ∧ x < d + n then v else m x := by
  induction n generalizing m d with
  | zero =>
    rw [memset, if_neg (by omega)]
  | succ n ih =>
    rw [memset, ih, setByte]
    by_cases hx : x = d
    · rw [if_neg (by omega), if_pos hx, if_pos (by omega)]
    · by_cases hin : d + 1 ≤ x ∧ x < d + 1 + n
      · rw [if_pos hin, if_pos (by omega)]
      · rw [if_neg hin, if_neg hx, if_neg (by omega)]

theorem memcpy_outside (h : ¬(d ≤ x ∧ x < d + n)) : memcpy m d s n x = m x := by
  induction n generalizing m d s with
  | zero => rfl
  | succ n ih =>
    rw [memcpy, ih (by omega), setByte, if_neg (by omega)]

/-- A copy to a place that does not start inside the source reads the source as it was. -/
theorem memcpy_apply (h : d ≤ s ∨ s + n ≤ d) (hx : d ≤ x ∧ x < d + n) :
    memcpy m d s n x = m (s + (x - d)) := by
  induction n generalizing m d s with
  | zero => omega
  | succ n ih =>
    rw [memcpy]
    by_cases hxd : x = d
    · rw [memcpy_outside (by omega), setByte, if_pos hxd, hxd, Nat.sub_self, Nat.add_zero]
    · rw [ih (by omega) (by omega), setByte, if_neg (by omega)]
      congr 1
      omega

/-! ### Frames -/

theorem Frame.refl (S : Set Nat) (m : Mem) : Frame S m m := fun _ _ => rfl

theorem Frame.trans (h : Frame S m m') (h' : Frame S m' m'') : Frame S m m'' :=
  fun x hx => (h' x hx).trans (h x hx)

theorem Frame.mono (h : Frame S m m') (hST : S ⊆ T) : Frame T m m' :=
  fun x hx => h x fun hS => hx (hST hS)

theorem Frame.load (h : Frame S m m') (hS : ∀ i, i < n → a + i ∉ S) : load m' a n = load m a n :=
  load_congr fun i hi => h _ (hS i hi)

theorem store_frame (hS : ∀ i, i < n → a + i ∈ S) : Frame S m (store m a n v) := by
  intro x hx
  refine store_of_not_mem fun hin => hx ?_
  have := hS (x - a) (by omega)
  rwa [show a + (x - a) = x by omega] at this

theorem memset_frame {w : UInt8} (hS : ∀ i, i < n → d + i ∈ S) : Frame S m (memset m d w n) := by
  intro x hx
  rw [memset_apply, if_neg]
  intro hin
  have := hS (x - d) (by omega)
  rw [show d + (x - d) = x by omega] at this
  exact hx this

theorem memcpy_frame (hS : ∀ i, i < n → d + i ∈ S) : Frame S m (memcpy m d s n) := by
  intro x hx
  refine memcpy_outside fun hin => hx ?_
  have := hS (x - d) (by omega)
  rwa [show d + (x - d) = x by omega] at this

theorem writeBytes_frame {bytes : List UInt8} (hS : ∀ i, i < bytes.length → a + i ∈ S) :
    Frame S m (writeBytes m a bytes) := by
  intro x hx
  refine if_neg fun hin => hx ?_
  have := hS (x - a) (by omega)
  rwa [show a + (x - a) = x by omega] at this

end Mem

end Nv0ken
