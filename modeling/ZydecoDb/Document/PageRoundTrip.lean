import ZydecoDb.Document.WireRoundTrip

namespace ZydecoDb

open Lib Lib.Reader Wire

section AggregateResponse

variable {maxResultBytes : Nat} {rows : List Bytes} {out bytes : Bytes}

theorem appendAggregateRows_ok (h : appendAggregateRows maxResultBytes out rows = .ok bytes) :
    bytes = out ++ rows.flatMap putLp := by
  induction rows generalizing out with
  | nil =>
    cases h
    simp
  | cons json rows ih =>
    simp only [appendAggregateRows] at h
    split at h
    next => cases h
    next =>
      split at h
      next => cases h
      next => rw [ih h, List.flatMap_cons, List.append_assoc]

theorem encodeAggregateResponse_ok (h : encodeAggregateResponse rows maxResultBytes = .ok bytes) :
    bytes = toBe 4 rows.length ++ rows.flatMap putLp := by
  unfold encodeAggregateResponse at h
  split at h
  next => cases h
  next => exact appendAggregateRows_ok h

theorem reads_aggregateResponse (hcount : rows.length < 2 ^ 32) (h : ∀ row ∈ rows, Short row) :
    Reads aggregateResponseReader (toBe 4 rows.length ++ rows.flatMap putLp) rows :=
  (reads_u32 hcount).bind (reads_list putLp fun row hrow => Wire.reads_lp (h row hrow))

end AggregateResponse

namespace WatchFrame

def Fits : WatchFrame → Prop
  | .ack resumeToken | .heartbeat resumeToken => Short resumeToken
  | .event resumeToken _ docId body => Short resumeToken ∧ Short docId ∧ Short body

theorem reads (p : WatchFrame) (h : p.Fits) : Reads reader p.encode p := by
  cases p with
  | ack resumeToken =>
    refine (Wire.reads_u8 watchFrameAck).bind ?_
    exact (Wire.reads_lp h).map WatchFrame.ack
  | event resumeToken op docId body =>
    obtain ⟨htoken, hdocId, hbody⟩ := h
    refine (Wire.reads_u8 watchFrameEvent).bind ?_
    exact (Wire.reads_lp htoken).bind ((Wire.reads_u8 op).bind ((Wire.reads_lp hdocId).bind
      ((Wire.reads_lp hbody).map (WatchFrame.event resumeToken op docId))))
  | heartbeat resumeToken =>
    refine (Wire.reads_u8 watchFrameHeartbeat).bind ?_
    exact (Wire.reads_lp h).map WatchFrame.heartbeat

end WatchFrame

namespace QueryPage

def decodedRow (withRevision : Bool) (row : QueryRow) : DecodedRow where
  docId := row.docId
  body := row.body.getD []
  revision := if withRevision then some (row.revision.getD 0) else none

def decoded (withRevision : Bool) (page : QueryPage) : List DecodedRow × Option Bytes :=
  (page.rows.map (decodedRow withRevision),
    if page.nextCursor.getD [] = [] then none else some (page.nextCursor.getD []))

def Fits (page : QueryPage) : Prop :=
  page.rows.length < 2 ^ 32 ∧
    (∀ row ∈ page.rows, Short row.docId ∧ Short (row.body.getD [])) ∧
    Short (page.nextCursor.getD [])

theorem reads_row (withRevision : Bool) {row : QueryRow} (hdocId : Short row.docId)
    (hbody : Short (row.body.getD [])) :
    Reads (rowReader withRevision) (row.encode withRevision) (decodedRow withRevision row) := by
  refine (Wire.reads_lp hdocId).bind ((Wire.reads_lp hbody).bind ?_)
  cases withRevision with
  | true => exact (reads_u64 _).map fun n => DecodedRow.mk _ _ (some n)
  | false => exact Reads.pure _

theorem reads (withRevision : Bool) (page : QueryPage) (h : page.Fits) :
    Reads (pageReader withRevision) (encodeQueryPageInner withRevision page)
      (page.decoded withRevision) := by
  obtain ⟨hcount, hrows, hcursor⟩ := h
  have hall := reads_times (QueryRow.encode withRevision) (decodedRow withRevision)
    fun row hrow => reads_row withRevision (hrows row hrow).1 (hrows row hrow).2
  exact (reads_u32 hcount).bind (hall.bind ((Wire.reads_lp hcursor).map fun cursor =>
    (page.rows.map (decodedRow withRevision), if cursor = [] then none else some cursor)))

end QueryPage

theorem reads_docGetRevResponse {body : Bytes} (revision : UInt64) (h : Short body) :
    Reads docGetRevResponseReader (encodeDocGetRevResponse body revision) (body, revision) :=
  (Wire.reads_lp h).bind ((reads_u64 revision).map (Prod.mk body))

theorem decodeDocGetRev_encode {collection : Utf8String} {docId : Bytes}
    (hcollection : Short collection.bytes) (hdocId : Short docId)
    (hlen : (encodeDocGetRev collection docId).length < usizeRange) :
    decodeDocGetRev (encodeDocGetRev collection docId) = .ok (collection, docId) := by
  have h := (QueryPayload.reads (.byId collection docId) ⟨hcollection, hdocId⟩).decode hlen
  rw [decodeDocGetRev, encodeDocGetRev, QueryPayload.decode, h]
  rfl

theorem decodeDocGetRev_ne_outOfBounds (bytes : Bytes) :
    decodeDocGetRev bytes ≠ .error .outOfBounds := by
  have h := decode_ne_outOfBounds QueryPayload.reader bytes
  rw [decodeDocGetRev, QueryPayload.decode]
  intro hout
  cases hq : QueryPayload.reader.decode bytes with
  | error e =>
    rw [hq] at h hout
    cases hout
    exact h rfl
  | ok p =>
    rw [hq] at hout
    cases p <;> cases hout

namespace DocPutIfMatchPayload

def Fits (p : DocPutIfMatchPayload) : Prop :=
  Short p.collection.bytes ∧ Short p.docId ∧ Short p.body

theorem reads (p : DocPutIfMatchPayload) (h : p.Fits) : ReadsLast reader p.encode p := by
  obtain ⟨hcollection, hdocId, hbody⟩ := h
  unfold reader encode
  refine (reads_lpString hcollection).bindLast ((Wire.reads_lp hdocId).bindLast
    ((Wire.reads_lp hbody).bindLast ((Wire.reads_u8 _).bindLast
      ((reads_relaxedFlags p.relaxed).bindLast ((reads_u64 p.ifMatch).bindLast ?_)))))
  rw [relaxedFlags_bit]
  exact (readsLast_optU64 p.expiresAt).map (DocPutIfMatchPayload.mk _ _ _ _ _)

end DocPutIfMatchPayload

namespace DocUpdateIfMatchPayload

def Fits (p : DocUpdateIfMatchPayload) : Prop :=
  Short p.collection.bytes ∧ Short p.docId ∧ Short p.update

theorem reads (p : DocUpdateIfMatchPayload) (h : p.Fits) : Reads reader p.encode p := by
  obtain ⟨hcollection, hdocId, hupdate⟩ := h
  unfold reader encode
  refine (reads_lpString hcollection).bind ((Wire.reads_lp hdocId).bind
    ((Wire.reads_lp hupdate).bind ((Wire.reads_u8 _).bind
      ((reads_relaxedFlags p.relaxed).bind ?_))))
  rw [relaxedFlags_bit]
  exact (reads_u64 p.ifMatch).map (DocUpdateIfMatchPayload.mk _ _ _ _)

end DocUpdateIfMatchPayload

end ZydecoDb
