import ZydecoDb.Document.IndexOrder
import ZydecoDb.Document.ZDoc

namespace ZydecoDb

open Lib

section Lossy

def utf8Replacement : Bytes := [0xEF, 0xBF, 0xBD]

/-- The length of the sequence at the front, and whether it is a character. What is no character ends
before the first byte that cannot continue it. -/
def utf8Chunk (b0 : UInt8) (rest : Bytes) : Nat × Bool :=
  if b0 < 0x80 then (1, true)
  else if 0xC2 ≤ b0 && b0 ≤ 0xDF then
    if utf8Continues (rest.headD 0) then (2, true) else (1, false)
  else if utf8Lead3 b0 (rest.headD 0) then
    if utf8Continues (rest.getD 1 0) then (3, true) else (2, false)
  else if utf8Lead4 b0 (rest.headD 0) then
    if utf8Continues (rest.getD 1 0) then
      if utf8Continues (rest.getD 2 0) then (4, true) else (3, false)
    else (2, false)
  else (1, false)

def utf8LossyLoop : Nat → Bytes → Bytes
  | 0, _ => []
  | _ + 1, [] => []
  | fuel + 1, b0 :: rest =>
    let chunk := utf8Chunk b0 rest
    (if chunk.2 then (b0 :: rest).take chunk.1 else utf8Replacement) ++
      utf8LossyLoop fuel ((b0 :: rest).drop chunk.1)

def utf8Lossy (bytes : Bytes) : Bytes := utf8LossyLoop bytes.length bytes

example : utf8Lossy [0x61, 0xFF, 0xE2, 0x82, 0x61] =
    [0x61] ++ utf8Replacement ++ utf8Replacement ++ [0x61] := by decide

end Lossy

def idField : Bytes := [0x5F, 0x69, 0x64]

def f64IsNan (bits : UInt64) : Bool := 0x7FF0000000000000 < bits.toNat % 2 ^ 63

def f64IsZero (bits : UInt64) : Bool := bits.toNat % 2 ^ 63 = 0

def f64PartialCmp (a b : UInt64) : Option Ordering :=
  if f64IsNan a || f64IsNan b then none
  else if f64IsZero a && f64IsZero b then some .eq
  else some (cmp (f64Order a) (f64Order b))

inductive TypeName
  | string
  | number
  | bool
  | null
  | array
  | object
  | binary
deriving DecidableEq, Repr

mutual

inductive Filter
  | matchAll
  | and (fs : List Filter)
  | or (fs : List Filter)
  | not (f : Filter)
  | field (path : Bytes) (atoms : List Atom)

inductive Atom
  | eq (target : Value)
  | ne (target : Value)
  | gt (target : Value)
  | gte (target : Value)
  | lt (target : Value)
  | lte (target : Value)
  | isIn (list : List Value)
  | nin (list : List Value)
  | fieldExists (want : Bool)
  | type (name : TypeName)
  | all (operands : List Value)
  | elemMatch (sub : Filter)
  | regex (pattern : Bytes) (caseInsensitive : Bool)

end

def Value.isScalar : Value → Bool
  | .null | .bool _ | .number _ | .string _ => true
  | .array _ | .object _ => false

def Value.isNull : Value → Bool
  | .null => true
  | _ => false

namespace ValueView

def asBool (data : ValueView) : Option Bool :=
  if typeByte data = typeBoolFalse then some false
  else if typeByte data = typeBoolTrue then some true
  else none

def scalarRank (data : ValueView) : Option Nat :=
  let tag := typeByte data
  if tag = typeNull then some 0
  else if tag = typeBoolFalse ∨ tag = typeBoolTrue then some 1
  else if tag = typeI64 ∨ tag = typeF64 then some 2
  else if tag = typeString then some 3
  else none

def cmpScalarView (a : ValueView) (b : Value) : Option Ordering :=
  if b.isScalar then
    (scalarRank a).bind fun rank =>
      if rank ≠ b.indexValue.typeRank then some (cmp rank b.indexValue.typeRank)
      else match b with
        | .bool y => (asBool a).map fun x => cmp x y
        | .number n => (asF64 a).bind fun x => f64PartialCmp x n.asF64
        | .string t => (asStr a).map fun s => byteCmp s t
        | _ => some .eq
  else none

mutual

def valueEqView (a : ValueView) : Value → Bool
  | .array items =>
    typeByte a = typeArray &&
      (match arrayLen a with
      | some n => n = items.length && itemsEqView a 0 items
      | none => false)
  | .object members =>
    typeByte a = typeObject &&
      (match objectLen a with
      | some n => n = members.length && (List.range n).all fun i =>
          match getAt a i with
          | some (k, v) => memberEqView k v members
          | none => false
      | none => false)
  | .null => cmpScalarView a .null = some .eq
  | .bool b => cmpScalarView a (.bool b) = some .eq
  | .number n => cmpScalarView a (.number n) = some .eq
  | .string s => cmpScalarView a (.string s) = some .eq

def itemsEqView (a : ValueView) (i : Nat) : List Value → Bool
  | [] => true
  | b :: items =>
    (match arrayGet a i with
    | some av => valueEqView av b
    | none => false) && itemsEqView a (i + 1) items

def memberEqView (k : Bytes) (v : ValueView) : List (Bytes × Value) → Bool
  | [] => false
  | (key, b) :: members => if k = key then valueEqView v b else memberEqView k v members

end

def eqMatch (field : Option ValueView) (target : Value) : Bool :=
  match field with
  | some v => valueEqView v target
  | none => target.isNull

def orderingMatch (field : Option ValueView) (target : Value) (accept : List Ordering) : Bool :=
  match field.bind fun v => cmpScalarView v target with
  | some ord => accept.contains ord
  | none => false

def typeMatch (field : Option ValueView) (name : TypeName) : Bool :=
  match field with
  | none => false
  | some v =>
    match name with
    | .string => typeByte v = typeString
    | .number => typeByte v = typeI64 || typeByte v = typeF64
    | .bool => typeByte v = typeBoolFalse || typeByte v = typeBoolTrue
    | .null => typeByte v = typeNull
    | .array => typeByte v = typeArray
    | .object => typeByte v = typeObject
    | .binary => false

def asArray (data : ValueView) : Option ValueView := if typeByte data = typeArray then some data else none

def elements (data : ValueView) : List ValueView :=
  (List.range ((arrayLen data).getD 0)).filterMap (arrayGet data)

end ValueView

def strEq (id : Bytes) : Value → Bool
  | .string s => s = id
  | _ => false

def strOrdering (id : Bytes) (target : Value) (accept : List Ordering) : Bool :=
  match target with
  | .null | .bool _ | .number _ => accept.contains .gt
  | .string s => accept.contains (byteCmp id s)
  | .array _ | .object _ => false

section Matches

open ValueView

-- the regular expression engine: pattern, case flag, text
variable (isMatch : Bytes → Bool → Bytes → Bool)

def Atom.matchesStr (id : Bytes) : Atom → Bool
  | .eq target => strEq id target
  | .ne target => !strEq id target
  | .gt target => strOrdering id target [.gt]
  | .gte target => strOrdering id target [.gt, .eq]
  | .lt target => strOrdering id target [.lt]
  | .lte target => strOrdering id target [.lt, .eq]
  | .fieldExists want => want
  | .isIn list => list.any (strEq id)
  | .nin list => !list.any (strEq id)
  | .type name => name = .string
  | .all _ | .elemMatch _ => false
  | .regex pattern caseInsensitive => isMatch pattern caseInsensitive id

mutual

def Filter.matches : Filter → ValueView → Option Bytes → Bool
  | .matchAll, _, _ => true
  | .and fs, doc, docId => allMatch fs doc docId
  | .or fs, doc, docId => anyMatch fs doc docId
  | .not f, doc, docId => !f.matches doc docId
  | .field path atoms, doc, docId =>
    match docId with
    | some id =>
      if path = idField then atoms.all (Atom.matchesStr isMatch (utf8Lossy id))
      else atomsMatch atoms (getPath doc path)
    | none => atomsMatch atoms (getPath doc path)

def allMatch : List Filter → ValueView → Option Bytes → Bool
  | [], _, _ => true
  | f :: fs, doc, docId => f.matches doc docId && allMatch fs doc docId

def anyMatch : List Filter → ValueView → Option Bytes → Bool
  | [], _, _ => false
  | f :: fs, doc, docId => f.matches doc docId || anyMatch fs doc docId

def Atom.matches : Atom → Option ValueView → Bool
  | .eq target, field => eqMatch field target
  | .ne target, field => !eqMatch field target
  | .gt target, field => orderingMatch field target [.gt]
  | .gte target, field => orderingMatch field target [.gt, .eq]
  | .lt target, field => orderingMatch field target [.lt]
  | .lte target, field => orderingMatch field target [.lt, .eq]
  | .fieldExists want, field => field.isSome = want
  | .isIn list, field =>
    match field with
    | some v => list.any (valueEqView v)
    | none => list.any Value.isNull
  | .nin list, field =>
    match field with
    | some v => !list.any (valueEqView v)
    | none => !list.any Value.isNull
  | .type name, field => typeMatch field name
  | .all operands, field =>
    match field.bind asArray with
    | some arr => operands.all fun op => (elements arr).any fun e => valueEqView e op
    | none => false
  | .elemMatch sub, field =>
    match field.bind asArray with
    | some arr => (elements arr).any fun e => sub.matches e none
    | none => false
  | .regex pattern caseInsensitive, field =>
    match field.bind asStr with
    | some s => isMatch pattern caseInsensitive s
    | none => false

def atomsMatch : List Atom → Option ValueView → Bool
  | [], _ => true
  | atom :: atoms, field => atom.matches field && atomsMatch atoms field

end

end Matches

mutual

def Filter.topLevelFields : Filter → List (Bytes × List Atom)
  | .field path atoms => [(path, atoms)]
  | .and fs => topLevelOf fs
  | .matchAll | .or _ | .not _ => []

def topLevelOf : List Filter → List (Bytes × List Atom)
  | [] => []
  | f :: fs => f.topLevelFields ++ topLevelOf fs

end

end ZydecoDb
