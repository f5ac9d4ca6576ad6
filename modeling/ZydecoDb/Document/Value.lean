import ZydecoDb.Lib.Float64
import ZydecoDb.Keys

namespace ZydecoDb

open Lib

/-- A JSON number as the parser keeps it: an unsigned integer, a negative integer, or the bits of a
double. -/
inductive Number
  | posInt (n : UInt64)
  | negInt (n : Int64)
  | float (bits : UInt64)
deriving DecidableEq, Repr

def Number.asF64 : Number → UInt64
  | .posInt n => .ofNat (f64BitsOfNat n.toNat)
  | .negInt n =>
    if n < 0 then .ofNat (2 ^ 63 + f64BitsOfNat n.toInt.natAbs)
    else .ofNat (f64BitsOfNat n.toInt.toNat)
  | .float bits => bits

inductive Value
  | null
  | bool (b : Bool)
  | number (n : Number)
  | string (s : Bytes)
  | array (items : List Value)
  | object (members : List (Bytes × Value))

end ZydecoDb
