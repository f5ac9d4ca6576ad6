import ZydecoDb.Document.FilterSemantics
import ZydecoDb.Lib.RunningSums

namespace ZydecoDb

open Lib ZDocBuilder ValueView

inductive GroupId
  | null
  | field (path : Bytes)
deriving DecidableEq

inductive AccumulatorOp
  | sum (path : Bytes)
  | count
  | size (path : Bytes)
deriving DecidableEq

structure AccumulatorSpec where
  outputField : Bytes
  op : AccumulatorOp
deriving DecidableEq

structure GroupSpec where
  id : GroupId
  accumulators : List AccumulatorSpec

structure GroupLimits where
  maxGroups : Nat
  maxMemoryBytes : UInt64

structure GroupSizes where
  groupState : Nat
  vec : Nat
  accumulatorState : Nat

def badAggregation (message : String) : DocError := .badFilter ("aggregation: " ++ message)

def i64Min : Int := -9223372036854775808
def i64Max : Int := 9223372036854775807

def checkedAdd (a b : Int) : Option Int :=
  if i64Min ≤ a + b ∧ a + b ≤ i64Max then some (a + b) else none

def checkedUsize (n : Nat) : Option Nat := if n < 2 ^ 64 then some n else none

def ensureFinite (bits : UInt64) (context : String) : DocResult Unit :=
  if f64IsFinite bits then .ok () else .error (badAggregation (context ++ " must be finite"))

def i64Number (n : Int) : Number := .ofI64 (Int64.ofInt n)

inductive SumState
  | integer (sum : Int)
  | float (sum : UInt64)

inductive AccumulatorState
  | sum (s : SumState)
  | count (n : Int)
  | size (n : Int)

section Walks

variable {σ : Type} (visit : ValueView → σ → DocResult σ)

def eachElement (data : ValueView) : Nat → Nat → σ → DocResult σ
  | 0, _, s => .ok s
  | n + 1, i, s =>
    match arrayGet data i with
    | none => .error (.corrupt "truncated ZDoc array element")
    | some elem => (visit elem s).bind (eachElement data n (i + 1))

def maxAccumulatorPathDepth : Nat := maxZdocDepth

def pathTooDeep : DocError := .corrupt "accumulator path exceeds maximum depth"

def forEachAtPath : Nat → List Bytes → ValueView → σ → DocResult σ
  | 0, _, _, _ => .error pathTooDeep
  | _ + 1, [], root, s => visit root s
  | levels + 1, seg :: segs, root, s =>
    if typeByte root = typeObject then
      match objectGet root seg with
      | some child => forEachAtPath levels segs child s
      | none => .ok s
    else if typeByte root = typeArray then
      eachElement (forEachAtPath levels (seg :: segs)) root ((arrayLen root).getD 0) 0 s
    else .ok s

end Walks

section Accumulators

-- addition of doubles
variable (f64Add : UInt64 → UInt64 → UInt64)

def SumState.add (s : SumState) (value : ValueView) : DocResult SumState :=
  if typeByte value = typeI64 then
    match asI64 value with
    | none => .error (.corrupt "truncated ZDoc integer")
    | some i =>
      match s with
      | .integer sum =>
        match checkedAdd sum i.toInt with
        | some n => .ok (.integer n)
        | none => .error (badAggregation "$sum integer overflow")
      | .float sum =>
        let next := f64Add sum (Number.ofI64 i).asF64
        (ensureFinite next "$sum").map fun _ => .float next
  else if typeByte value = typeF64 then
    match asF64 value with
    | none => .error (.corrupt "truncated ZDoc float")
    | some x =>
      (ensureFinite x "$sum input").bind fun _ =>
        let next := match s with
          | .integer sum => f64Add (i64Number sum).asF64 x
          | .float sum => f64Add sum x
        (ensureFinite next "$sum").map fun _ => .float next
  else .ok s

def sumAddTerminal : Nat → ValueView → SumState → DocResult SumState
  | 0, _, _ => .error pathTooDeep
  | levels + 1, value, s =>
    if typeByte value = typeArray then
      eachElement (sumAddTerminal levels) value ((arrayLen value).getD 0) 0 s
    else s.add f64Add value

def sizeTerminal (value : ValueView) (total : Int) : DocResult Int :=
  if typeByte value = typeArray then
    let len := (arrayLen value).getD 0
    if i64Max < len then .error (badAggregation "$size array length overflow")
    else match checkedAdd total len with
      | some n => .ok n
      | none => .error (badAggregation "$size integer overflow")
  else .ok total

namespace AccumulatorState

def new (spec : AccumulatorSpec) : AccumulatorState :=
  match spec.op with
  | .sum _ => .sum (.integer 0)
  | .count => .count 0
  | .size _ => .size 0

def update (state : AccumulatorState) (spec : AccumulatorSpec) (root : ValueView) :
    DocResult AccumulatorState :=
  match state, spec.op with
  | .count n, .count =>
    match checkedAdd n 1 with
    | some m => .ok (.count m)
    | none => .error (badAggregation "$count integer overflow")
  | .sum s, .sum path =>
    let segments := path.splitOn 0x2E
    (forEachAtPath (sumAddTerminal f64Add (maxAccumulatorPathDepth + 1 - segments.length))
      (maxAccumulatorPathDepth + 1) segments root s).map .sum
  | .size total, .size path =>
    (forEachAtPath sizeTerminal (maxAccumulatorPathDepth + 1) (path.splitOn 0x2E) root total).map .size
  | _, _ => .error (.corrupt "aggregation accumulator mismatch")

def intoValue : AccumulatorState → DocResult Value
  | .count n => .ok (.number (i64Number n))
  | .size n => .ok (.number (i64Number n))
  | .sum (.integer n) => .ok (.number (i64Number n))
  | .sum (.float bits) =>
    match Number.fromF64 bits with
    | some n => .ok (.number n)
    | none => .error (badAggregation "$sum produced a non-finite number")

end AccumulatorState

end Accumulators

def groupValue : Option ValueView → DocResult Value
  | none => .ok .null
  | some value =>
    let tag := typeByte value
    if tag = typeNull then .ok .null
    else if tag = typeBoolFalse then .ok (.bool false)
    else if tag = typeBoolTrue then .ok (.bool true)
    else if tag = typeI64 then
      match asI64 value with
      | some i => .ok (.number (.ofI64 i))
      | none => .error (.corrupt "truncated ZDoc integer")
    else if tag = typeF64 then
      match asF64 value with
      | none => .error (.corrupt "truncated ZDoc float")
      | some bits =>
        (ensureFinite bits "group key").bind fun _ =>
          match Number.fromF64 bits with
          | some n => .ok (.number n)
          | none => .error (badAggregation "group key must be finite")
    else if tag = typeString then
      match asStr value with
      | some s => .ok (.string s)
      | none => .error (.corrupt "invalid ZDoc string")
    else if tag = typeArray ∨ tag = typeObject then
      .error (badAggregation "group key must be scalar or null, not an object or array")
    else .error (.corrupt ("unknown ZDoc type byte " ++ toString tag.toNat))

def groupKey (root : ValueView) (id : GroupId) : DocResult (Bytes × Value) :=
  let field := match id with
    | .null => none
    | .field path => getPath root path
  (groupValue field).map fun key => (encodeView field, key)

structure GroupState where
  id : Value
  accumulators : List AccumulatorState

structure GroupEngine where
  groups : SortedMap Bytes GroupState
  memoryBytes : Nat

namespace GroupEngine

variable (f64Add : UInt64 → UInt64 → UInt64) (sizes : GroupSizes) (spec : GroupSpec)
  (limits : GroupLimits)

def new : GroupEngine := ⟨.empty, 0⟩

def memoryOverflow : DocError := badAggregation "memory accounting overflow"

def estimatedGroupBytes (encodedKey : Bytes) (key : Value) (accumulatorCount : Nat) :
    DocResult Nat :=
  let stringBytes := match key with
    | .string s => s.length
    | _ => 0
  let total := do
    let accumulatorBytes ← checkedUsize (accumulatorCount * sizes.accumulatorState)
    let n ← checkedUsize (sizes.groupState + sizes.vec)
    let n ← checkedUsize (n + encodedKey.length)
    let n ← checkedUsize (n + stringBytes)
    checkedUsize (n + accumulatorBytes)
  match total with
  | some n => .ok n
  | none => .error memoryOverflow

def openGroup (engine : GroupEngine) (encodedKey : Bytes) (id : Value) : DocResult GroupEngine :=
  if limits.maxGroups ≤ engine.groups.size then
    .error (badAggregation ("group count exceeds " ++ toString limits.maxGroups))
  else
    (estimatedGroupBytes sizes encodedKey id spec.accumulators.length).bind fun added =>
      match checkedUsize (engine.memoryBytes + added) with
      | none => .error memoryOverflow
      | some nextMemory =>
        if limits.maxMemoryBytes.toNat < nextMemory then
          .error (badAggregation
            ("group state exceeds " ++ toString limits.maxMemoryBytes.toNat ++ " bytes"))
        else .ok ⟨engine.groups.insert encodedKey
          ⟨id, spec.accumulators.map AccumulatorState.new⟩, nextMemory⟩

def updateAll : List AccumulatorState → List AccumulatorSpec → ValueView →
    DocResult (List AccumulatorState)
  | state :: states, acc :: accs, root =>
    (state.update f64Add acc root).bind fun state =>
      (updateAll states accs root).map (state :: ·)
  | states, _, _ => .ok states

def add (engine : GroupEngine) (root : ValueView) : DocResult GroupEngine :=
  (groupKey root spec.id).bind fun (encodedKey, id) =>
    (if engine.groups.contains encodedKey then .ok engine
      else openGroup sizes spec limits engine encodedKey id).bind fun engine =>
        match engine.groups.get encodedKey with
        | none => .error (.corrupt "aggregation group disappeared")
        | some state =>
          (updateAll f64Add state.accumulators spec.accumulators root).map fun accumulators =>
            { engine with groups := engine.groups.insert encodedKey { state with accumulators } }

def rowMembers : List AccumulatorState → List AccumulatorSpec → List (Bytes × Value) →
    DocResult (List (Bytes × Value))
  | state :: states, acc :: accs, row =>
    state.intoValue.bind fun v => rowMembers states accs (insertPair acc.outputField v row)
  | _, _, row => .ok row

def row (group : GroupState) : DocResult Value :=
  (rowMembers group.accumulators spec.accumulators [(idField, group.id)]).map .object

def rows : List (Bytes × GroupState) → DocResult (List Value)
  | [] => .ok []
  | (_, group) :: groups => (row spec group).bind fun r => (rows groups).map (r :: ·)

def finish (engine : GroupEngine) : DocResult (List Value × Nat) :=
  (rows spec engine.groups.entries).map fun rows => (rows, engine.memoryBytes)

def addAll : List ValueView → GroupEngine → DocResult GroupEngine
  | [], engine => .ok engine
  | root :: roots, engine => (engine.add f64Add sizes spec limits root).bind (addAll roots)

end GroupEngine

def groupStage (f64Add : UInt64 → UInt64 → UInt64) (sizes : GroupSizes) (spec : GroupSpec)
    (limits : GroupLimits) (docs : List ValueView) : DocResult (List Value × Nat) :=
  (GroupEngine.addAll f64Add sizes spec limits docs .new).bind (GroupEngine.finish spec)

end ZydecoDb
