import ZydecoDb.Document.Error
import ZydecoDb.Lib.TextLines

namespace ZydecoDb

open Lib

structure ShippedEntry where
  segmentId : Nat
  sealSeq : Nat
  sha256Hex : Bytes
  hmacHex : Option Bytes
deriving DecidableEq, Repr

def isHexDigit (b : UInt8) : Bool :=
  isDigit b || (97 ≤ b && b ≤ 102) || (65 ≤ b && b ≤ 70)

def toAsciiLowercase (t : Bytes) : Bytes := t.map fun b => if 65 ≤ b ∧ b ≤ 90 then b + 32 else b

def parseU64 (t : Bytes) : Option Nat :=
  let ds := if t.head? = some 43 then t.tail else t
  if ds ≠ [] ∧ ds.all isDigit = true ∧ digitsValue ds < 2 ^ 64 then some (digitsValue ds) else none

def isHex64 (t : Bytes) : Bool := t.length = 64 && t.all isHexDigit

def parseFields (parts : List Bytes) : Except String ShippedEntry :=
  match parts with
  | id :: seq :: sha :: rest =>
    if 1 < rest.length then .error "expected '<id> <seq> <sha256> [<hmac>]'"
    else match parseU64 id with
      | none => .error "bad id"
      | some segmentId =>
        match parseU64 seq with
        | none => .error "bad seq"
        | some sealSeq =>
          let sha256Hex := toAsciiLowercase sha
          if isHex64 sha256Hex = false then .error "bad sha256"
          else match rest.head? with
            | none => .ok ⟨segmentId, sealSeq, sha256Hex, none⟩
            | some mac =>
              if isHex64 (toAsciiLowercase mac) = false then .error "bad hmac"
              else .ok ⟨segmentId, sealSeq, sha256Hex, some (toAsciiLowercase mac)⟩
  | _ => .error "expected '<id> <seq> <sha256> [<hmac>]'"

def lineError (lineno : Nat) (what : String) : EngineError :=
  .io ("shipped.log line " ++ toString lineno ++ ": " ++ what)

def logLines (text : Bytes) : List (Nat × Bytes) :=
  ((text.splitOn newline).zipIdx 1 |>.map fun p => (p.2, p.1)).filter fun p => words p.2 ≠ []

def readLines : List ShippedEntry → List (Nat × Bytes) → Except EngineError (List ShippedEntry)
  | out, [] => .ok out
  | out, (lineno, line) :: rest =>
    match parseFields (words line) with
    | .error what => if rest = [] then .ok out else .error (lineError lineno what)
    | .ok entry =>
      match out.getLast? with
      | none => readLines (out ++ [entry]) rest
      | some last =>
        if entry.segmentId ≤ last.segmentId then
          if entry = last then readLines out rest
          else .error (lineError lineno ("out of order segment_id " ++ toString entry.segmentId ++
            " (<= " ++ toString last.segmentId ++ ")"))
        else readLines (out ++ [entry]) rest

def readShippedLog (log : Bytes) : Except EngineError (List ShippedEntry) :=
  readLines [] (logLines log)

structure HexDigest where
  hex : Bytes
  length_eq : hex.length = 64
  lower : ∀ b ∈ hex, isDigit b = true ∨ (97 ≤ b ∧ b ≤ 102)

/-- What is shipped of a sealed segment: its id and last sequence number, the digest of its bytes and,
with a key, the authentication code of the entry. -/
structure Shipment where
  segmentId : UInt64
  sealSeq : UInt64
  sha256 : HexDigest
  hmac : Option HexDigest

namespace Shipment

def entry (s : Shipment) : ShippedEntry :=
  ⟨s.segmentId.toNat, s.sealSeq.toNat, s.sha256.hex, s.hmac.map HexDigest.hex⟩

def decimal (n : UInt64) : Bytes := decimalDigits 20 n.toNat

def line (s : Shipment) : Bytes :=
  decimal s.segmentId ++ space :: (decimal s.sealSeq ++ space :: (s.sha256.hex ++
    match s.hmac with
    | some mac => space :: mac.hex
    | none => []))

end Shipment

inductive ShipResult
  | recorded
  | alreadyRecorded
  | failed (e : EngineError)
  | crashed
deriving DecidableEq

/-- The end of `ship_segment`: the log is read, and the entry appended unless it is the last one.
With a cut the process dies after so many bytes of the line with its newline. -/
def shipSegment (log : Bytes) (s : Shipment) (cut : Option Nat) : Bytes × ShipResult :=
  match readShippedLog log with
  | .error e => (log, .failed e)
  | .ok entries =>
    match entries.getLast? with
    | some last =>
      if last.segmentId = s.segmentId.toNat then
        if last = s.entry then (log, .alreadyRecorded)
        else (log, .failed (.io ("ship: segment " ++ toString s.segmentId.toNat ++
          " already recorded in shipped.log with different content " ++
          "(sealed WAL bytes are immutable)")))
      else append
    | none => append
where
  append : Bytes × ShipResult :=
    match cut with
    | none => (log ++ (s.line ++ [newline]), .recorded)
    | some n => (log ++ (s.line ++ [newline]).take n, .crashed)

structure ShipLog where
  log : Bytes
  completed : List ShippedEntry

structure Ship where
  shipment : Shipment
  cut : Option Nat
  cut_le : ∀ n ∈ cut, n ≤ shipment.line.length

namespace ShipLog

def step (st : ShipLog) (a : Ship) : Option ShipLog :=
  let r := shipSegment st.log a.shipment a.cut
  some ⟨r.1, match r.2 with
    | .recorded => st.completed ++ [a.shipment.entry]
    | .alreadyRecorded =>
      if st.completed.getLast? = some a.shipment.entry then st.completed
      else st.completed ++ [a.shipment.entry]
    | .failed _ | .crashed => st.completed⟩

def empty : ShipLog := ⟨[], []⟩

end ShipLog

end ZydecoDb
