/-
What the checksum function returns.

The 32-bit sum of a packet is its ordinary sum as long as that fits in 32 bits, which it does for
everything below 64 KiB.  Folding the carries keeps it modulo `65535` and ends below `65536`, so the
complement that is returned completes the sum to a positive multiple of `65535`:
`netChecksum_completes` and, with the addresses, the protocol and the length in front,
`netChecksumPseudoIpv4_completes`.
-/
import Nv0ken.Kernel.Net.Checksum
import Nv0ken.Lib.OnesSum

namespace Nv0ken.Net

open OnesSum

variable {sum : UInt32} {bytes : List UInt8}

/-! ### The sum -/

theorem word_toNat (hi lo : UInt8) :
    (hi.toUInt32 <<< 8 ||| lo.toUInt32).toNat = hi.toNat * 256 + lo.toNat := by
  have hhi := hi.toNat_lt
  have hlo := lo.toNat_lt
  have hshift : (hi.toUInt32 <<< 8).toNat = 2 ^ 8 * hi.toNat := by
    rw [UInt32.toNat_shiftLeft, Nat.shiftLeft_eq]
    show hi.toNat * 2 ^ 8 % 2 ^ 32 = _
    omega
  rw [UInt32.toNat_or, hshift, UInt8.toNat_toUInt32, ← Nat.two_pow_add_eq_or_of_lt hlo]
  omega

theorem high_toNat (hi : UInt8) : (hi.toUInt32 <<< 8).toNat = hi.toNat * 256 := by
  have h := word_toNat hi 0
  simpa using h

theorem sumBytes_toNat (h : sum.toNat + total bytes < 2 ^ 32) :
    (sumBytes sum bytes).toNat = sum.toNat + total bytes := by
  induction bytes using words.induct generalizing sum with
  | case1 hi lo rest ih =>
    have htotal : total (hi :: lo :: rest) = hi.toNat * 256 + lo.toNat + total rest := by
      unfold total
      rw [words, List.sum_cons]
    have hadd : (sum + (hi.toUInt32 <<< 8 ||| lo.toUInt32)).toNat
        = sum.toNat + (hi.toNat * 256 + lo.toNat) := by
      rw [UInt32.toNat_add, word_toNat, Nat.mod_eq_of_lt (by omega)]
    rw [sumBytes, ih (by omega)]
    omega
  | case2 hi =>
    have htotal : total [hi] = hi.toNat * 256 := by
      unfold total
      rw [words, List.sum_singleton]
    rw [sumBytes, UInt32.toNat_add, high_toNat, htotal, Nat.mod_eq_of_lt (by omega)]
  | case3 => rfl

/-! ### Folding the carries -/

theorem lowHalf_toNat (v : UInt32) : (v &&& 0xFFFF).toNat = v.toNat % 65536 := by
  exact Nat.and_two_pow_sub_one_eq_mod v.toNat 16

theorem highHalf_toNat (v : UInt32) : (v >>> 16).toNat = v.toNat / 65536 := by
  rw [UInt32.toNat_shiftRight, Nat.shiftRight_eq_div_pow]
  rfl

theorem foldStep_toNat (sum : UInt32) :
    ((sum &&& (0xFFFF : UInt32)) + (sum >>> 16)).toNat = sum.toNat % 65536 + sum.toNat / 65536 := by
  have hlt := sum.toNat_lt
  rw [UInt32.toNat_add, lowHalf_toNat, highHalf_toNat, Nat.mod_eq_of_lt (by omega)]

/-- A sum without carry is left as it is, and the step changes no such sum either. -/
theorem foldCarry_succ (fuel : Nat) (sum : UInt32) :
    foldCarry (fuel + 1) sum = foldCarry fuel ((sum &&& (0xFFFF : UInt32)) + (sum >>> 16)) ∨
      sum.toNat < 65536 ∧ foldCarry (fuel + 1) sum = sum := by
  by_cases h : sum >>> 16 = 0
  · right
    have hzero : sum.toNat / 65536 = 0 := by rw [← highHalf_toNat, h, UInt32.toNat_zero]
    exact ⟨by omega, by rw [foldCarry, if_pos h]⟩
  · left
    rw [foldCarry, if_neg h]

/-- **Two rounds fold every carry**, and change the sum by multiples of `65535` only. -/
theorem foldCarry_two (sum : UInt32) :
    (foldCarry 2 sum).toNat < 65536 ∧ (foldCarry 2 sum).toNat % 65535 = sum.toNat % 65535 ∧
      ((foldCarry 2 sum).toNat = 0 ↔ sum.toNat = 0) := by
  have hlt := sum.toNat_lt
  have hfirst := foldStep_toNat sum
  rcases foldCarry_succ 1 sum with h | ⟨hsmall, h⟩
  · rw [h]
    generalize (sum &&& (0xFFFF : UInt32)) + (sum >>> 16) = next at hfirst
    have hsecond := foldStep_toNat next
    rcases foldCarry_succ 0 next with h | ⟨hsmall, h⟩
    · rw [h, foldCarry, hsecond]
      omega
    · rw [h]
      omega
  · rw [h]
    omega

/-! ### The complement -/

theorem complement_toNat (h : sum.toNat < 65536) :
    (~~~ sum).toUInt16.toNat = 65535 - sum.toNat := by
  rw [UInt32.toNat_toUInt16, UInt32.toNat_not]
  show (2 ^ 32 - 1 - sum.toNat) % 65536 = _
  omega

/-- The complement of the folded sum completes it. -/
theorem complement_completes (sum : UInt32) :
    0 < sum.toNat + (~~~ foldCarry 2 sum).toUInt16.toNat ∧
      65535 ∣ sum.toNat + (~~~ foldCarry 2 sum).toUInt16.toNat := by
  obtain ⟨hlt, hmod, hzero⟩ := foldCarry_two sum
  rw [complement_toNat hlt]
  omega

/-- **The checksum of up to 64 KiB completes their sum.** -/
theorem netChecksum_completes (h : bytes.length ≤ 65535) :
    0 < total bytes + (netChecksum bytes).toNat ∧
      65535 ∣ total bytes + (netChecksum bytes).toNat := by
  have hle := total_le bytes
  have hsum : (sumBytes 0 bytes).toNat = total bytes := by
    rw [sumBytes_toNat (by show 0 + _ < _; omega)]
    exact Nat.zero_add _
  rw [← hsum]
  exact complement_completes _

/-- The two halves of an address as numbers. -/
def halves (addr : UInt32) : Nat := addr.toNat / 65536 + addr.toNat % 65536

theorem pseudoSum_toNat (src dst : UInt32) (proto : UInt8) {length : Nat} (h : length ≤ 65535) :
    (pseudoSum src dst proto length).toNat = halves src + halves dst + proto.toNat + length := by
  have hhalves : ∀ addr : UInt32,
      ((addr >>> 16 &&& 0xFFFF) + (addr &&& (0xFFFF : UInt32))).toNat = halves addr := by
    intro addr
    have hlt := addr.toNat_lt
    unfold halves
    rw [UInt32.toNat_add, lowHalf_toNat, lowHalf_toNat, highHalf_toNat,
      Nat.mod_eq_of_lt (show addr.toNat / 65536 < 65536 by omega), Nat.mod_eq_of_lt (by omega)]
  have hle : ∀ addr, halves addr < 131072 := by
    intro addr
    have hlt := addr.toNat_lt
    unfold halves
    omega
  have hsrc := hle src
  have hdst := hle dst
  have hproto := proto.toNat_lt
  have hlength : (UInt16.ofNat length).toUInt32.toNat = length := by
    exact Nat.mod_eq_of_lt (by omega)
  unfold pseudoSum
  rw [UInt32.toNat_add, UInt32.toNat_add, UInt32.toNat_add, hhalves, hhalves, UInt8.toNat_toUInt32]
  omega

theorem netChecksumPseudoIpv4_completes (src dst : UInt32) (proto : UInt8)
    (h : bytes.length ≤ 65000) :
    65535 ∣ halves src + halves dst + proto.toNat + bytes.length + total bytes +
      (netChecksumPseudoIpv4 src dst proto bytes).toNat := by
  have hle := total_le bytes
  have hpseudo := pseudoSum_toNat src dst proto (show bytes.length ≤ 65535 by omega)
  have hproto := proto.toNat_lt
  have hsrc := src.toNat_lt
  have hdst := dst.toNat_lt
  have hsum : (sumBytes (pseudoSum src dst proto bytes.length) bytes).toNat
      = halves src + halves dst + proto.toNat + bytes.length + total bytes := by
    rw [sumBytes_toNat, hpseudo]
    rw [hpseudo]
    unfold halves
    omega
  rw [← hsum]
  exact (complement_completes _).2

end Nv0ken.Net
