import ZydecoDb.Document.IndexViews

namespace ZydecoDb

open Lib ZDocBuilder ValueView

/-! What a filter means on a JSON value, with no bytes in between. -/

def Value.cmpScalar : Value → Value → Option Ordering
  | .null, .null => some .eq
  | .bool x, .bool y => some (cmp x y)
  | .number m, .number n => f64PartialCmp m.asF64 n.asF64
  | .string s, .string t => some (byteCmp s t)
  | a, b =>
    if a.isScalar && b.isScalar then some (cmp a.indexValue.typeRank b.indexValue.typeRank) else none

mutual

def Value.same (a : Value) : Value → Bool
  | .array items =>
    match a with
    | .array xs => xs.length = items.length && itemsSame xs items
    | _ => false
  | .object members =>
    match a with
    | .object ms => ms.length = members.length && ms.all fun m => memberSame m.1 m.2 members
    | _ => false
  | .null => a.cmpScalar .null = some .eq
  | .bool b => a.cmpScalar (.bool b) = some .eq
  | .number n => a.cmpScalar (.number n) = some .eq
  | .string s => a.cmpScalar (.string s) = some .eq

def itemsSame : List Value → List Value → Bool
  | x :: xs, b :: items => x.same b && itemsSame xs items
  | _, [] => true
  | [], _ :: _ => false

def memberSame (k : Bytes) (v : Value) : List (Bytes × Value) → Bool
  | [] => false
  | (key, b) :: members => if k = key then v.same b else memberSame k v members

end

def Value.typeName : Value → TypeName
  | .null => .null
  | .bool _ => .bool
  | .number _ => .number
  | .string _ => .string
  | .array _ => .array
  | .object _ => .object

def Value.items : Value → Option (List Value)
  | .array items => some items
  | _ => none

def Value.text : Value → Option Bytes
  | .string s => some s
  | _ => none

def sameField (field : Option Value) (target : Value) : Bool :=
  match field with
  | some v => v.same target
  | none => target.isNull

def orderedField (field : Option Value) (target : Value) (accept : List Ordering) : Bool :=
  match field.bind fun v => v.cmpScalar target with
  | some ord => accept.contains ord
  | none => false

section Holds

variable (isMatch : Bytes → Bool → Bytes → Bool)

mutual

def Filter.holds : Filter → Value → Option Bytes → Bool
  | .matchAll, _, _ => true
  | .and fs, v, docId => allHold fs v docId
  | .or fs, v, docId => anyHold fs v docId
  | .not f, v, docId => !f.holds v docId
  | .field path atoms, v, docId =>
    match docId with
    | some id =>
      if path = idField then atomsHold atoms (some (.string (utf8Lossy id)))
      else atomsHold atoms (atSegments (path.splitOn 0x2E) v)
    | none => atomsHold atoms (atSegments (path.splitOn 0x2E) v)

def allHold : List Filter → Value → Option Bytes → Bool
  | [], _, _ => true
  | f :: fs, v, docId => f.holds v docId && allHold fs v docId

def anyHold : List Filter → Value → Option Bytes → Bool
  | [], _, _ => false
  | f :: fs, v, docId => f.holds v docId || anyHold fs v docId

def Atom.holds : Atom → Option Value → Bool
  | .eq target, field => sameField field target
  | .ne target, field => !sameField field target
  | .gt target, field => orderedField field target [.gt]
  | .gte target, field => orderedField field target [.gt, .eq]
  | .lt target, field => orderedField field target [.lt]
  | .lte target, field => orderedField field target [.lt, .eq]
  | .fieldExists want, field => field.isSome = want
  | .isIn list, field => list.any (sameField field)
  | .nin list, field => !list.any (sameField field)
  | .type name, field => field.map Value.typeName = some name
  | .all operands, field =>
    match field.bind Value.items with
    | some items => operands.all fun op => items.any fun e => e.same op
    | none => false
  | .elemMatch sub, field =>
    match field.bind Value.items with
    | some items => items.any fun e => sub.holds e none
    | none => false
  | .regex pattern caseInsensitive, field =>
    match field.bind Value.text with
    | some s => isMatch pattern caseInsensitive s
    | none => false

def atomsHold : List Atom → Option Value → Bool
  | [], _ => true
  | atom :: atoms, field => atom.holds field && atomsHold atoms field

end

end Holds

end ZydecoDb
