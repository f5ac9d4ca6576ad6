import ZydecoDb.Lib.Run
import Mathlib.Data.Rat.Defs

namespace Lib

def ratioLog2 (num den : Nat) : Int :=
  let e : Int := (Nat.log2 num : Int) - Nat.log2 den
  let fits := if 0 ≤ e then den * 2 ^ e.toNat ≤ num else den ≤ num * 2 ^ (-e).toNat
  if fits then e else e - 1

def divNearestEven (num den : Nat) : Nat :=
  let q := num / den
  let r := num % den
  if 2 * r < den then q
  else if den < 2 * r then q + 1
  else if q % 2 = 0 then q else q + 1

/-- The double nearest to `num / den`, ties to even, as the rational it stands for. The quotients taken
here lie in the range of the normal doubles. -/
def f64OfRatio (num den : Nat) : Rat :=
  if num = 0 then 0
  else
    let shift := 52 - ratioLog2 num den
    if 0 ≤ shift then mkRat (divNearestEven (num * 2 ^ shift.toNat) den) (2 ^ shift.toNat)
    else (divNearestEven num (den * 2 ^ (-shift).toNat) * 2 ^ (-shift).toNat : Nat)

def f64OfNat (n : Nat) : Rat := f64OfRatio n 1

def f64Div (a b : Rat) : Rat :=
  f64OfRatio (a.num.toNat * b.den) (a.den * b.num.toNat)

example : f64OfNat (2 ^ 53 + 1) = 2 ^ 53 := by decide +kernel

/-- The bits of the double nearest to a positive number, ties to even. A mantissa rounded up to the
next power carries into the exponent. -/
def f64BitsOfNat (n : Nat) : Nat :=
  if n = 0 then 0
  else
    let e := Nat.log2 n
    let mantissa := if e ≤ 52 then n * 2 ^ (52 - e) else divNearestEven n (2 ^ (e - 52))
    (e + 1022) * 2 ^ 52 + mantissa

/-- A double's bits cast to an unsigned 64-bit integer: the fraction is cut off, what lies below or is
no number gives zero, what lies above the largest. -/
def f64BitsToU64 (bits : Nat) : Nat :=
  let e := bits / 2 ^ 52 % 2 ^ 11
  let fraction := bits % 2 ^ 52
  if 2 ^ 63 ≤ bits then 0
  else if e = 2047 then if fraction = 0 then 2 ^ 64 - 1 else 0
  else if e < 1023 then 0
  else if e < 1075 then (2 ^ 52 + fraction) / 2 ^ (1075 - e)
  else min ((2 ^ 52 + fraction) * 2 ^ (e - 1075)) (2 ^ 64 - 1)

example : f64BitsOfNat (2 ^ 64 - 1) = 0x43F0000000000000 := by decide +kernel

example : f64Div (f64OfNat 1) (f64OfNat 3) = mkRat 6004799503160661 (2 ^ 54) := by decide +kernel

end Lib
