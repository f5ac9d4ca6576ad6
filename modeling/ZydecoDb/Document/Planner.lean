import ZydecoDb.Document.Filter

namespace ZydecoDb

open Lib

inductive AccessPath
  | byId (id : Bytes)
  | indexScan (lo hi : Bytes) (fields : List Bytes) (directions : List Bool) (eqPrefixLen : Nat)
  | collectionScan
deriving DecidableEq, Repr

structure Constraint where
  eq : Option Value
  lo : Option Value
  hi : Option Value

namespace Constraint

def default : Constraint := ⟨none, none, none⟩

def hasRange (c : Constraint) : Bool := c.lo.isSome || c.hi.isSome

def add (c : Constraint) : Atom → Constraint
  | .eq v => if v.isScalar then { c with eq := some v } else c
  | .gt v | .gte v => if v.isScalar then { c with lo := some v } else c
  | .lt v | .lte v => if v.isScalar then { c with hi := some v } else c
  | _ => c

end Constraint

abbrev Constraints : Type := SortedMap Bytes Constraint

def collectConstraints (filter : Filter) : Constraints :=
  filter.topLevelFields.foldl (fun map fp =>
    map.insert fp.1 (fp.2.foldl Constraint.add ((map.get fp.1).getD .default))) .empty

def eqLen (constraints : Constraints) : List Bytes → Nat
  | [] => 0
  | f :: fields =>
    match constraints.get f with
    | some c => if c.eq.isSome then eqLen constraints fields + 1 else 0
    | none => 0

def rangeAfter (constraints : Constraints) (fields : List Bytes) (n : Nat) : Bool :=
  ((fields[n]?.bind fun f => constraints.get f).map Constraint.hasRange).getD false

abbrev Best : Type := Option (Nat × Bool × IndexMeta)

def considerIndex (constraints : Constraints) (best : Best) (idx : IndexMeta) : Best :=
  let n := eqLen constraints idx.fields
  let range := rangeAfter constraints idx.fields n
  if n + range.toNat = 0 then best
  else match best with
    | none => some (n, range, idx)
    | some (m, r, old) =>
      if m < n ∨ (m = n ∧ r = false ∧ range = true) then some (n, range, idx) else some (m, r, old)

def bestIndex (constraints : Constraints) (indexes : List IndexMeta) : Best :=
  indexes.foldl (considerIndex constraints) none

def eqValue (constraints : Constraints) (f : Bytes) : Value :=
  ((constraints.get f).bind Constraint.eq).getD .null

def rangeBounds (base : Bytes) (ascending : Bool) (c : Constraint) : Bytes × Bytes :=
  let first := if ascending then c.lo else c.hi
  let last := if ascending then c.hi else c.lo
  (match first with
    | some v => base ++ encodeValueDirected v ascending
    | none => base,
   match last with
    | some v => prefixUpperBound (base ++ encodeValueDirected v ascending)
    | none => prefixUpperBound base)

def scanBase (storagePrefix : Bytes) (collectionId : UInt32) (idx : IndexMeta) (n : Nat)
    (constraints : Constraints) : Bytes :=
  indexPrefix storagePrefix collectionId idx.id ++
    encodeFieldsWithDirections ((idx.fields.take n).map (eqValue constraints)) (idx.ascending.take n)

def scanBounds (storagePrefix : Bytes) (collectionId : UInt32) (idx : IndexMeta) (n : Nat)
    (constraints : Constraints) : Bytes × Bytes :=
  let base := scanBase storagePrefix collectionId idx n constraints
  match idx.fields[n]?.bind fun f => constraints.get f with
  | some c =>
    if c.hasRange then rangeBounds base (idx.ascending.getD n true) c
    else (base, prefixUpperBound base)
  | none => (base, prefixUpperBound base)

def buildIndexScan (storagePrefix : Bytes) (collectionId : UInt32) (idx : IndexMeta) (n : Nat)
    (constraints : Constraints) : AccessPath :=
  let bounds := scanBounds storagePrefix collectionId idx n constraints
  .indexScan bounds.1 bounds.2 idx.fields idx.ascending n

def idProbe (constraints : Constraints) : Option Bytes :=
  match (constraints.get idField).bind Constraint.eq with
  | some (.string s) => some s
  | _ => none

/-- The access path of a filter: the id where it is held equal to a string, else the index with the
most fields held equal, one with a range before one without. -/
def plan (filter : Filter) (storagePrefix : Bytes) (coll : CollectionMeta) : AccessPath :=
  let constraints := collectConstraints filter
  match idProbe constraints with
  | some s => .byId s
  | none =>
    match bestIndex constraints coll.indexes with
    | some (n, _, idx) => buildIndexScan storagePrefix coll.id idx n constraints
    | none => .collectionScan

def equalityIndex (coll : CollectionMeta) (field : Bytes) : Option IndexMeta :=
  coll.indexes.find? fun i => i.fields.head? = some field

def hasEqualityIndex (coll : CollectionMeta) (field : Bytes) : Bool :=
  field = idField || (equalityIndex coll field).isSome

def planEquality (storagePrefix : Bytes) (coll : CollectionMeta) (field : Bytes) (value : Value) :
    DocResult AccessPath :=
  if field = idField then
    match value with
    | .string s => .ok (.byId s)
    | _ => .error (.badFilter "lookup: '_id' join value must be a string")
  else if !value.isScalar then .error (.badFilter "lookup: join value must be scalar")
  else match equalityIndex coll field with
    | some idx => .ok (buildIndexScan storagePrefix coll.id idx 1
        (SortedMap.empty.insert field { Constraint.default with eq := some value }))
    | none => .error (.badFilter ("lookup: no index on '" ++ ofText field ++
        "' for collection '" ++ ofText coll.name ++ "'; create an index with '" ++
        ofText field ++ "' as the leading field"))

end ZydecoDb
