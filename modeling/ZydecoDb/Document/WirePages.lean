import ZydecoDb.Document.Wire

namespace ZydecoDb

open Lib Wire

structure UpdatePayload where
  collection : Utf8String
  filter : Bytes
  update : Bytes
  multi : Bool
  relaxed : Bool
  upsert : Bool
deriving DecidableEq, Repr

namespace UpdatePayload

def flags (p : UpdatePayload) : UInt8 :=
  (if p.relaxed then flagRelaxed else 0) ||| (if p.upsert then flagUpsert else 0)

def encode (p : UpdatePayload) : Bytes :=
  putLp p.collection.bytes ++ (putLp p.filter ++ (putLp p.update ++
    ([putBool p.multi] ++ [p.flags])))

def reader : DocReader UpdatePayload := do
  let collection ← lpString
  let filter ← lp
  let update ← lp
  let multi ← bool
  let flags ← Reader.optU8
  checkWriteFlags flags (flagRelaxed ||| flagUpsert)
  pure ⟨collection, filter, update, multi, flags &&& flagRelaxed ≠ 0, flags &&& flagUpsert ≠ 0⟩

def decode (p : Bytes) : Except (Fault DocError) UpdatePayload := reader.decode p

end UpdatePayload

structure DeletePayload where
  collection : Utf8String
  filter : Bytes
  multi : Bool
  relaxed : Bool
deriving DecidableEq, Repr

namespace DeletePayload

def encode (p : DeletePayload) : Bytes :=
  putLp p.collection.bytes ++ (putLp p.filter ++ ([putBool p.multi] ++ [relaxedFlags p.relaxed]))

def reader : DocReader DeletePayload := do
  let collection ← lpString
  let filter ← lp
  let multi ← bool
  let flags ← Reader.optU8
  checkWriteFlags flags flagRelaxed
  pure ⟨collection, filter, multi, flags &&& flagRelaxed ≠ 0⟩

def decode (p : Bytes) : Except (Fault DocError) DeletePayload := reader.decode p

end DeletePayload

def countModeCount : UInt8 := 0x00
def countModeDistinct : UInt8 := 0x01

inductive CountPayload
  | count (collection : Utf8String) (filter : Bytes)
  | distinct (collection : Utf8String) (filter : Bytes) (field : Utf8String)
deriving DecidableEq, Repr

namespace CountPayload

def encode : CountPayload → Bytes
  | .count collection filter => [countModeCount] ++ (putLp collection.bytes ++ putLp filter)
  | .distinct collection filter field =>
    [countModeDistinct] ++ (putLp collection.bytes ++ (putLp filter ++ putLp field.bytes))

def reader : DocReader CountPayload := do
  let mode ← u8
  if mode = countModeCount then do
    let p ← collectionAndBytes
    pure (.count p.1 p.2)
  else if mode = countModeDistinct then do
    let collection ← lpString
    let filter ← lp
    let field ← lpString
    pure (.distinct collection filter field)
  else Reader.refuse (.protocol ("unknown count mode 0x" ++ hexDigits mode))

def decode (p : Bytes) : Except (Fault DocError) CountPayload := reader.decode p

end CountPayload

structure AggregatePayload where
  collection : Utf8String
  pipeline : Bytes
deriving DecidableEq, Repr

namespace AggregatePayload

def encode (p : AggregatePayload) : Bytes := putLp p.collection.bytes ++ putLp p.pipeline

def reader : DocReader AggregatePayload := do
  let p ← collectionAndBytes
  pure ⟨p.1, p.2⟩

def decode (p : Bytes) : Except (Fault DocError) AggregatePayload := reader.decode p

end AggregatePayload

def appendAggregateRows (maxResultBytes : Nat) : Bytes → List Bytes → DocResult Bytes
  | out, [] => .ok out
  | out, json :: rest =>
    if Reader.usizeRange ≤ 4 + json.length ∨ Reader.usizeRange ≤ out.length + (4 + json.length) then
      .error (.badFilter "aggregation: result size overflow")
    else if maxResultBytes < out.length + (4 + json.length) then
      .error (.badFilter ("aggregation: result exceeds " ++ toString maxResultBytes ++ " bytes"))
    else appendAggregateRows maxResultBytes (out ++ putLp json) rest

def encodeAggregateResponse (rows : List Bytes) (maxResultBytes : Nat) : DocResult Bytes :=
  if maxResultBytes < 4 then
    .error (.badFilter ("aggregation: result exceeds " ++ toString maxResultBytes ++ " bytes"))
  else appendAggregateRows maxResultBytes (toBe 4 rows.length) rows

def aggregateResponseReader : DocReader (List Bytes) := do
  let count ← u32
  Reader.times lp count

def decodeAggregateResponse (p : Bytes) : Except (Fault DocError) (List Bytes) :=
  aggregateResponseReader.decode p

structure WatchPayload where
  collection : Utf8String
  resumeToken : Bytes
deriving DecidableEq, Repr

namespace WatchPayload

def encode (p : WatchPayload) : Bytes := putLp p.collection.bytes ++ putLp p.resumeToken

def reader : DocReader WatchPayload := do
  let p ← collectionAndBytes
  pure ⟨p.1, p.2⟩

def decode (p : Bytes) : Except (Fault DocError) WatchPayload := reader.decode p

end WatchPayload

def watchFrameAck : UInt8 := 0x01
def watchFrameEvent : UInt8 := 0x02
def watchFrameHeartbeat : UInt8 := 0x03

inductive WatchFrame
  | ack (resumeToken : Bytes)
  | event (resumeToken : Bytes) (op : UInt8) (docId body : Bytes)
  | heartbeat (resumeToken : Bytes)
deriving DecidableEq, Repr

def encodeWatchAck (resumeToken : Bytes) : Bytes := [watchFrameAck] ++ putLp resumeToken

def encodeWatchEvent (resumeToken : Bytes) (op : UInt8) (docId body : Bytes) : Bytes :=
  [watchFrameEvent] ++ (putLp resumeToken ++ ([op] ++ (putLp docId ++ putLp body)))

def encodeWatchHeartbeat (resumeToken : Bytes) : Bytes := [watchFrameHeartbeat] ++ putLp resumeToken

namespace WatchFrame

def encode : WatchFrame → Bytes
  | .ack resumeToken => encodeWatchAck resumeToken
  | .event resumeToken op docId body => encodeWatchEvent resumeToken op docId body
  | .heartbeat resumeToken => encodeWatchHeartbeat resumeToken

def reader : DocReader WatchFrame := do
  let kind ← u8
  if kind = watchFrameAck then do
    let resumeToken ← lp
    pure (.ack resumeToken)
  else if kind = watchFrameEvent then do
    let resumeToken ← lp
    let op ← u8
    let docId ← lp
    let body ← lp
    pure (.event resumeToken op docId body)
  else if kind = watchFrameHeartbeat then do
    let resumeToken ← lp
    pure (.heartbeat resumeToken)
  else Reader.refuse (.protocol ("unknown watch frame 0x" ++ hexDigits kind))

end WatchFrame

def decodeWatchFrame (p : Bytes) : Except (Fault DocError) WatchFrame := WatchFrame.reader.decode p

structure QueryRow where
  docId : Bytes
  body : Option Bytes
  revision : Option UInt64
deriving DecidableEq, Repr

structure QueryPage where
  rows : List QueryRow
  nextCursor : Option Bytes
deriving DecidableEq, Repr

structure DecodedRow where
  docId : Bytes
  body : Bytes
  revision : Option UInt64
deriving DecidableEq, Repr

def QueryRow.encode (withRevision : Bool) (row : QueryRow) : Bytes :=
  putLp row.docId ++ (putLp (row.body.getD []) ++
    if withRevision then toBe 8 (row.revision.getD 0).toNat else [])

def encodeQueryPageInner (withRevision : Bool) (page : QueryPage) : Bytes :=
  toBe 4 page.rows.length ++ (page.rows.flatMap (QueryRow.encode withRevision) ++
    putLp (page.nextCursor.getD []))

def encodeQueryPage (page : QueryPage) : Bytes := encodeQueryPageInner false page

def encodeQueryPageWithRevision (page : QueryPage) : Bytes := encodeQueryPageInner true page

def rowReader (withRevision : Bool) : DocReader DecodedRow := do
  let docId ← lp
  let body ← lp
  if withRevision then do
    let revision ← u64
    pure ⟨docId, body, some revision⟩
  else pure ⟨docId, body, none⟩

def pageReader (withRevision : Bool) : DocReader (List DecodedRow × Option Bytes) := do
  let count ← u32
  let rows ← Reader.times (rowReader withRevision) count
  let cursor ← lp
  pure (rows, if cursor = [] then none else some cursor)

def decodeQueryPage (p : Bytes) : Except (Fault DocError) (List DecodedRow × Option Bytes) :=
  (pageReader false).decode p

def decodeQueryPageWithRevision (p : Bytes) :
    Except (Fault DocError) (List DecodedRow × Option Bytes) :=
  (pageReader true).decode p

def encodeDocGetRev (collection : Utf8String) (docId : Bytes) : Bytes :=
  (QueryPayload.byId collection docId).encode

def decodeDocGetRev (p : Bytes) : Except (Fault DocError) (Utf8String × Bytes) := do
  match ← QueryPayload.decode p with
  | .byId collection docId => .ok (collection, docId)
  | .indexRange .. => .error (.refused (.protocol "DocGetRev expects ById query payload"))

def encodeDocGetRevResponse (body : Bytes) (revision : UInt64) : Bytes :=
  putLp body ++ toBe 8 revision.toNat

def docGetRevResponseReader : DocReader (Bytes × UInt64) := do
  let body ← lp
  let revision ← u64
  pure (body, revision)

def decodeDocGetRevResponse (p : Bytes) : Except (Fault DocError) (Bytes × UInt64) :=
  docGetRevResponseReader.decode p

structure DocPutIfMatchPayload where
  collection : Utf8String
  docId : Bytes
  body : Bytes
  relaxed : Bool
  ifMatch : UInt64
  expiresAt : UInt64
deriving DecidableEq, Repr

namespace DocPutIfMatchPayload

def encode (p : DocPutIfMatchPayload) : Bytes :=
  putLp p.collection.bytes ++ (putLp p.docId ++ (putLp p.body ++ ([relaxedFlags p.relaxed] ++
    (toBe 8 p.ifMatch.toNat ++ putOptU64 p.expiresAt))))

def reader : DocReader DocPutIfMatchPayload := do
  let collection ← lpString
  let docId ← lp
  let body ← lp
  let flags ← u8
  checkWriteFlags flags flagRelaxed
  let ifMatch ← u64
  let expiresAt ← optU64
  pure ⟨collection, docId, body, flags &&& flagRelaxed ≠ 0, ifMatch, expiresAt⟩

def decode (p : Bytes) : Except (Fault DocError) DocPutIfMatchPayload := reader.decode p

end DocPutIfMatchPayload

structure DocUpdateIfMatchPayload where
  collection : Utf8String
  docId : Bytes
  update : Bytes
  relaxed : Bool
  ifMatch : UInt64
deriving DecidableEq, Repr

namespace DocUpdateIfMatchPayload

def encode (p : DocUpdateIfMatchPayload) : Bytes :=
  putLp p.collection.bytes ++ (putLp p.docId ++ (putLp p.update ++ ([relaxedFlags p.relaxed] ++
    toBe 8 p.ifMatch.toNat)))

def reader : DocReader DocUpdateIfMatchPayload := do
  let collection ← lpString
  let docId ← lp
  let update ← lp
  let flags ← u8
  checkWriteFlags flags flagRelaxed
  let ifMatch ← u64
  pure ⟨collection, docId, update, flags &&& flagRelaxed ≠ 0, ifMatch⟩

def decode (p : Bytes) : Except (Fault DocError) DocUpdateIfMatchPayload := reader.decode p

end DocUpdateIfMatchPayload

end ZydecoDb
