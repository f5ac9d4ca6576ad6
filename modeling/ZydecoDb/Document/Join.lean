import ZydecoDb.Document.Query

namespace ZydecoDb

open Lib ZDocBuilder ValueView

inductive JoinStrategy
  | inlj
  | hash
deriving DecidableEq, Repr

structure LookupSpec where
  localField : Bytes
  foreignField : Bytes
  asField : Bytes
  filter : Filter

structure AggregationLimits where
  maxScanDocs : Nat
  maxMemoryBytes : Nat
  maxMatchesPerOuter : Nat
  maxHashBytes : Nat
deriving DecidableEq, Repr

def hashEntryOverhead : Nat := 48

abbrev HashSide : Type := SortedMap Bytes (List (Bytes × Bytes))

def lookupError (message : String) : DocError := .badFilter ("lookup: " ++ message)

def encodeJoinKey (v : Value) : Bytes := encodeValue v

def selectStrategy (inner : CollectionMeta) (docCount : Nat) (foreignField : Bytes)
    (limits : AggregationLimits) : DocResult JoinStrategy :=
  if hasEqualityIndex inner foreignField then .ok .inlj
  else if docCount ≤ limits.maxScanDocs then .ok .hash
  else .error (lookupError ("no index on '" ++ ofText foreignField ++ "' for collection '" ++
    ofText inner.name ++ "'; create an index with '" ++ ofText foreignField ++
    "' as the leading field (inner doc_count=" ++ toString docCount ++ " exceeds max_scan_docs=" ++
    toString limits.maxScanDocs ++ ")"))

def viewToScalar (v : ValueView) : DocResult (Option Value) :=
  let tag := typeByte v
  if tag = typeNull then .ok (some .null)
  else if tag = typeBoolFalse then .ok (some (.bool false))
  else if tag = typeBoolTrue then .ok (some (.bool true))
  else if tag = typeI64 then
    match asI64 v with
    | some i => .ok (some (.number (.ofI64 i)))
    | none => .error (.corrupt "truncated ZDoc integer")
  else if tag = typeF64 then
    match asF64 v with
    | some bits => .ok ((Number.fromF64 bits).map .number)
    | none => .error (.corrupt "truncated ZDoc float")
  else if tag = typeString then
    match asStr v with
    | some s => .ok (some (.string s))
    | none => .error (.corrupt "invalid ZDoc string")
  else .ok none

section

variable (parseJson : Bytes → DocResult Value) (isMatch : Bytes → Bool → Bytes → Bool)
  (snap : SnapshotHandle) (nowMs : Nat) (storagePrefix : Bytes)

def localJoinValue (stored field : Bytes) : DocResult (Option Value) :=
  let view := if stored.head? = some vkZdoc then .ok (stripValueKind stored)
    else (parseJson (stripValueKind stored)).map fromValue
  view.bind fun view =>
    match getPath view field with
    | some v => viewToScalar v
    | none => .ok none

def storedToDoc (stored docId : Bytes) : DocResult Value :=
  match stored with
  | [] => .error (.corrupt "empty stored document body")
  | kind :: payload =>
    let doc := if kind = vkZdoc then
        match toValue payload with
        | .ok v => .ok v
        | .error e => .error (.corrupt ("document " ++ ofText (utf8Lossy docId) ++ ": " ++ e.display))
      else parseJson payload
    doc.map fun doc =>
      match doc with
      | .object members =>
        if (members.lookup idField).isSome then .object members
        else .object (insertPair idField (.string (utf8Lossy docId)) members)
      | doc => doc

def fetchInnerLoop (inner : CollectionMeta) (filter : Filter) (maxMatches : Nat) :
    List Bytes → List Value → DocResult (List Value)
  | [], docs => .ok docs
  | docId :: rest, docs =>
    match snap.get (docKey storagePrefix inner.id docId) nowMs with
    | none => fetchInnerLoop inner filter maxMatches rest docs
    | some stored =>
      (withStoredView parseJson stored).bind fun view =>
        if filter.matches isMatch view (some docId) then
          if maxMatches ≤ docs.length then
            .error (lookupError ("more than " ++ toString maxMatches ++ " matches for one outer document"))
          else (storedToDoc parseJson stored docId).bind fun doc =>
            fetchInnerLoop inner filter maxMatches rest (docs ++ [doc])
        else fetchInnerLoop inner filter maxMatches rest docs

def fetchInnerMatches (inner : CollectionMeta) (path : AccessPath) (filter : Filter)
    (maxMatches : Nat) : DocResult (List Value) :=
  match path with
  | .byId id => fetchInnerLoop parseJson isMatch snap nowMs storagePrefix inner filter maxMatches [id] []
  | .indexScan lo hi _ _ _ =>
    fetchInnerLoop parseJson isMatch snap nowMs storagePrefix inner filter maxMatches
      ((snap.scan lo hi nowMs).map Prod.snd) []
  | .collectionScan => .error (.corrupt "lookup inner side planned as collection scan")

def foreignJoinValue (spec : LookupSpec) (docId stored : Bytes) : DocResult (Option Value) :=
  if spec.foreignField = idField then .ok (some (.string (utf8Lossy docId)))
  else localJoinValue parseJson stored spec.foreignField

def addToHashSide (spec : LookupSpec) (limits : AggregationLimits) (state : HashSide × Nat)
    (docId stored : Bytes) : DocResult ((HashSide × Nat) × Bool) :=
  (foreignJoinValue parseJson spec docId stored).bind fun joinValue =>
    match joinValue with
    | none => .ok (state, true)
    | some v =>
      let key := encodeJoinKey v
      let next := state.2 + (hashEntryOverhead + stored.length + docId.length +
        if state.1.contains key then 0 else key.length)
      if limits.maxHashBytes < next then
        .error (lookupError ("hash join exceeds " ++ toString limits.maxHashBytes ++ " bytes"))
      else .ok ((state.1.insert key ((state.1.get key).getD [] ++ [(docId, stored)]), next), true)

def buildHashSide (inner : CollectionMeta) (spec : LookupSpec) (limits : AggregationLimits) :
    DocResult HashSide :=
  (visitPlannedMatchesBoundedColl parseJson isMatch snap nowMs storagePrefix inner spec.filter
    limits.maxScanDocs (addToHashSide parseJson spec limits) (.empty, 0)).map fun r => r.1.1

def fetchHashMatches (side : HashSide) (value : Value) (maxMatches : Nat) : DocResult (List Value) :=
  match side.get (encodeJoinKey value) with
  | none => .ok []
  | some entries =>
    if maxMatches < entries.length then
      .error (lookupError ("more than " ++ toString maxMatches ++ " matches for one outer document"))
    else entries.mapM fun e => storedToDoc parseJson e.2 e.1

def joinValueForOuter (spec : LookupSpec) (docId stored : Bytes) : DocResult (Option Value) :=
  if spec.localField = idField then .ok (some (.string (utf8Lossy docId)))
  else localJoinValue parseJson stored spec.localField

def Value.isString : Value → Bool
  | .string _ => true
  | _ => false

def lookupMatches (strategy : JoinStrategy) (inner : CollectionMeta) (side : HashSide)
    (spec : LookupSpec) (limits : AggregationLimits) (joinValue : Option Value) :
    DocResult (List Value) :=
  match joinValue with
  | none => .ok []
  | some v =>
    if spec.foreignField = idField ∧ v.isString = false then .ok []
    else match strategy with
      | .inlj =>
        (planEquality storagePrefix inner spec.foreignField v).bind fun path =>
          fetchInnerMatches parseJson isMatch snap nowMs storagePrefix inner path spec.filter
            limits.maxMatchesPerOuter
      | .hash => fetchHashMatches parseJson side v limits.maxMatchesPerOuter

-- the length of a document's JSON text
variable (jsonLen : Value → Nat)

def spliceMatches (spec : LookupSpec) (postFilter : Filter) (stored docId : Bytes)
    (inners : List Value) (maxMemoryBytes : Nat) (state : List Value × Nat) :
    DocResult (List Value × Nat) :=
  (storedToDoc parseJson stored docId).bind fun doc =>
    match doc with
    | .object members =>
      let doc := Value.object (insertPair spec.asField (.array inners) members)
      if !postFilter.matches isMatch (fromValue doc) (some docId) then .ok state
      else
        let next := state.2 + jsonLen doc
        if maxMemoryBytes < next then
          .error (lookupError ("join state exceeds " ++ toString maxMemoryBytes ++ " bytes"))
        else .ok (state.1 ++ [doc], next)
    | _ => .error (.corrupt "stored document is not an object")

structure JoinResult where
  docs : List Value
  stats : MatchVisitStats
  memoryBytes : Nat
  strategy : JoinStrategy

def executeLookup (outer inner : CollectionMeta) (innerDocCount : Nat) (filter : Filter)
    (spec : LookupSpec) (postFilter : Filter) (limits : AggregationLimits) : DocResult JoinResult :=
  (selectStrategy inner innerDocCount spec.foreignField limits).bind fun strategy =>
    (if strategy = .hash then
      buildHashSide parseJson isMatch snap nowMs storagePrefix inner spec limits
    else .ok .empty).bind fun side =>
      (visitPlannedMatchesBoundedColl parseJson isMatch snap nowMs storagePrefix outer filter
        limits.maxScanDocs (fun state docId stored =>
          (joinValueForOuter parseJson spec docId stored).bind fun joinValue =>
            (lookupMatches parseJson isMatch snap nowMs storagePrefix strategy inner side spec limits
              joinValue).bind fun inners =>
              (spliceMatches parseJson isMatch jsonLen spec postFilter stored docId inners
                limits.maxMemoryBytes state).map fun state => (state, true)) ([], 0)).map fun r =>
        ⟨r.1.1, r.2, r.1.2, strategy⟩

end

end ZydecoDb
