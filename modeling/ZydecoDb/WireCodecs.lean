import ZydecoDb.Document.PageRoundTrip
import ZydecoDb.FrameRoundTrip

namespace ZydecoDb

open Lib Lib.Reader Wire

/-- An encoder and its decoder, with the payloads whose fields the wire has room for and what the
decoder makes of each. -/
structure WireCodec where
  Payload : Type
  Decoded : Type
  Err : Type
  encode : Payload → Except Err Bytes
  decode : Bytes → Except (Fault Err) Decoded
  Fits : Payload → Prop
  view : Payload → Decoded

inductive WireKind
  | docPut | docDel | indexDef | query | find | update | delete | count
  | aggregate | aggregateResponse | watch | watchFrame | queryPage | queryPageWithRevision
  | docGetRev | docGetRevResponse | docPutIfMatch | docUpdateIfMatch
  | put | key | request
deriving DecidableEq, Repr

namespace WireKind

def codec : WireKind → WireCodec
  | docPut =>
    ⟨DocPutPayload, DocPutPayload, DocError, fun p => .ok p.encode, DocPutPayload.decode,
      DocPutPayload.Fits, id⟩
  | docDel =>
    ⟨DocDelPayload, DocDelPayload, DocError, fun p => .ok p.encode, DocDelPayload.decode,
      DocDelPayload.Fits, id⟩
  | indexDef =>
    ⟨IndexDefPayload, IndexDefPayload, DocError, fun p => .ok p.encode, IndexDefPayload.decode,
      IndexDefPayload.Fits, IndexDefPayload.explicit⟩
  | query =>
    ⟨QueryPayload, QueryPayload, DocError, fun p => .ok p.encode, QueryPayload.decode,
      QueryPayload.Fits, id⟩
  | find =>
    ⟨FindPayload, FindPayload, DocError, fun p => .ok p.encode, FindPayload.decode,
      FindPayload.Fits, id⟩
  | update =>
    ⟨UpdatePayload, UpdatePayload, DocError, fun p => .ok p.encode, UpdatePayload.decode,
      UpdatePayload.Fits, id⟩
  | delete =>
    ⟨DeletePayload, DeletePayload, DocError, fun p => .ok p.encode, DeletePayload.decode,
      DeletePayload.Fits, id⟩
  | count =>
    ⟨CountPayload, CountPayload, DocError, fun p => .ok p.encode, CountPayload.decode,
      CountPayload.Fits, id⟩
  | aggregate =>
    ⟨AggregatePayload, AggregatePayload, DocError, fun p => .ok p.encode, AggregatePayload.decode,
      AggregatePayload.Fits, id⟩
  | aggregateResponse =>
    ⟨List Bytes × Nat, List Bytes, DocError, fun p => encodeAggregateResponse p.1 p.2,
      decodeAggregateResponse, fun p => p.1.length < 2 ^ 32 ∧ ∀ row ∈ p.1, Short row, Prod.fst⟩
  | watch =>
    ⟨WatchPayload, WatchPayload, DocError, fun p => .ok p.encode, WatchPayload.decode,
      WatchPayload.Fits, id⟩
  | watchFrame =>
    ⟨WatchFrame, WatchFrame, DocError, fun p => .ok p.encode, decodeWatchFrame, WatchFrame.Fits, id⟩
  | queryPage =>
    ⟨QueryPage, List DecodedRow × Option Bytes, DocError, fun p => .ok (encodeQueryPage p),
      decodeQueryPage, QueryPage.Fits, QueryPage.decoded false⟩
  | queryPageWithRevision =>
    ⟨QueryPage, List DecodedRow × Option Bytes, DocError,
      fun p => .ok (encodeQueryPageWithRevision p), decodeQueryPageWithRevision, QueryPage.Fits,
      QueryPage.decoded true⟩
  | docGetRev =>
    ⟨Utf8String × Bytes, Utf8String × Bytes, DocError, fun p => .ok (encodeDocGetRev p.1 p.2),
      decodeDocGetRev, fun p => Short p.1.bytes ∧ Short p.2, id⟩
  | docGetRevResponse =>
    ⟨Bytes × UInt64, Bytes × UInt64, DocError, fun p => .ok (encodeDocGetRevResponse p.1 p.2),
      decodeDocGetRevResponse, fun p => Short p.1, id⟩
  | docPutIfMatch =>
    ⟨DocPutIfMatchPayload, DocPutIfMatchPayload, DocError, fun p => .ok p.encode,
      DocPutIfMatchPayload.decode, DocPutIfMatchPayload.Fits, id⟩
  | docUpdateIfMatch =>
    ⟨DocUpdateIfMatchPayload, DocUpdateIfMatchPayload, DocError, fun p => .ok p.encode,
      DocUpdateIfMatchPayload.decode, DocUpdateIfMatchPayload.Fits, id⟩
  | put =>
    ⟨PutPayload, PutPayload, ProtocolError, fun p => .ok p.encode, PutPayload.decode,
      fun p => Short p.key ∧ Short p.value, id⟩
  | key =>
    ⟨KeyPayload, KeyPayload, ProtocolError, fun p => .ok p.encode, KeyPayload.decode,
      fun p => Short p.key, id⟩
  | request =>
    ⟨RequestEnvelope, RequestEnvelope, ProtocolError, fun p => .ok p.encode, RequestEnvelope.decode,
      fun p => Short p.payload, id⟩

/-- A decoder reads every encoding back, as long as the encoding is a buffer at all: a vector holds
fewer than `2 ^ 63` bytes. -/
def RoundTrips (c : WireCodec) : Prop :=
  ∀ p bytes, c.Fits p → c.encode p = .ok bytes → bytes.length < 2 ^ 63 →
    c.decode bytes = .ok (c.view p)

theorem lt_usizeRange {n : Nat} (h : n < 2 ^ 63) : n < usizeRange :=
  Nat.lt_trans h (by decide)

theorem roundTrips_of_readsLast {α : Type} {Err β : Type} {reader : Reader Err β} {enc : α → Bytes}
    {Fits : α → Prop} {view : α → β} (h : ∀ p, Fits p → ReadsLast reader (enc p) (view p)) :
    RoundTrips ⟨α, β, Err, fun p => .ok (enc p), reader.decode, Fits, view⟩ := by
  intro p bytes hfits henc hlen
  cases henc
  exact (h p hfits).decode (lt_usizeRange hlen)

/-- Each codec gives back what it encoded, or what its defaults make of it. -/
theorem roundTrips (k : WireKind) : RoundTrips k.codec := by
  cases k with
  | docPut => exact roundTrips_of_readsLast DocPutPayload.reads
  | docDel => exact roundTrips_of_readsLast fun p h => (p.reads h).last
  | indexDef => exact roundTrips_of_readsLast IndexDefPayload.reads
  | query => exact roundTrips_of_readsLast QueryPayload.reads
  | find | update | delete | count | aggregate =>
    exact roundTrips_of_readsLast fun p h => (p.reads h).last
  | aggregateResponse =>
    intro p bytes hfits henc hlen
    have hbytes := encodeAggregateResponse_ok henc
    have h := (reads_aggregateResponse hfits.1 hfits.2).last
    rw [← hbytes] at h
    exact h.decode (lt_usizeRange hlen)
  | watch => exact roundTrips_of_readsLast fun p h => (p.reads h).last
  | watchFrame => exact roundTrips_of_readsLast fun p h => (p.reads h).last
  | queryPage => exact roundTrips_of_readsLast fun p h => (p.reads false h).last
  | queryPageWithRevision => exact roundTrips_of_readsLast fun p h => (p.reads true h).last
  | docGetRev =>
    intro p bytes hfits henc hlen
    cases henc
    exact decodeDocGetRev_encode hfits.1 hfits.2 (lt_usizeRange hlen)
  | docGetRevResponse =>
    intro p bytes hfits henc hlen
    cases henc
    exact (reads_docGetRevResponse p.2 hfits).last.decode (lt_usizeRange hlen)
  | docPutIfMatch => exact roundTrips_of_readsLast DocPutIfMatchPayload.reads
  | docUpdateIfMatch => exact roundTrips_of_readsLast fun p h => (p.reads h).last
  | put =>
    intro p bytes hfits henc _
    cases henc
    exact p.decode_encode hfits.1 hfits.2
  | key =>
    intro p bytes hfits henc _
    cases henc
    exact p.decode_encode hfits
  | request =>
    intro p bytes hfits henc _
    cases henc
    exact p.decode_encode hfits

theorem decode_inside (k : WireKind) (bytes : Bytes) :
    k.codec.decode bytes ≠ .error .outOfBounds := by
  cases k with
  | docGetRev => exact decodeDocGetRev_ne_outOfBounds bytes
  | put => exact PutPayload.decode_ne_outOfBounds bytes
  | key => exact KeyPayload.decode_ne_outOfBounds bytes
  | request => exact RequestEnvelope.decode_ne_outOfBounds bytes
  | _ => exact Reader.decode_ne_outOfBounds _ bytes

/-- Every payload whose fields fit comes back from its encoding as its decoder shows it, and no
decoder reads outside the bytes it is given. -/
theorem wire_roundTrip (k : WireKind) :
    (∀ p bytes, k.codec.Fits p → k.codec.encode p = .ok bytes → bytes.length < 2 ^ 63 →
      k.codec.decode bytes = .ok (k.codec.view p)) ∧
    ∀ bytes, k.codec.decode bytes ≠ .error .outOfBounds :=
  ⟨k.roundTrips, k.decode_inside⟩

end WireKind

def ascendingIndex : IndexDefPayload where
  collection := ⟨[99], rfl⟩
  indexName := ⟨[105], rfl⟩
  fields := [⟨[97], rfl⟩]
  unique := false
  expireAfterSeconds := 0
  directions := []

/-- A definition without directions comes back ascending. -/
theorem ascendingIndex_decoded :
    IndexDefPayload.decode ascendingIndex.encode =
      .ok { ascendingIndex with directions := [true] } :=
  (WireKind.wire_roundTrip .indexDef).1 ascendingIndex ascendingIndex.encode
    ⟨by decide, by decide, by decide, by decide⟩ rfl (by decide)

/-- A definition that leaves its directions out does not come back as it was sent. -/
theorem ascendingIndex_not_returned :
    ascendingIndex.Fits ∧ IndexDefPayload.decode ascendingIndex.encode ≠ .ok ascendingIndex := by
  refine ⟨⟨by decide, by decide, by decide, by decide⟩, ?_⟩
  decide +kernel

end ZydecoDb
