import ZydecoDb.ManifestCodec
import ZydecoDb.WalCodec

namespace ZydecoDb

open Lib

structure DataDir where
  manifest : Bytes
  sstFiles : List (Nat × SstableReader)
  segments : List (Nat × Bytes)

structure Opened where
  engine : EngineState
  sealedSegmentMaxSeq : List (Nat × Nat)
  activeWalId : Nat
  segments : List (Nat × Bytes)

def segmentFilename (id : Nat) : String :=
  let digits := toString id
  "wal-" ++ String.ofList (List.replicate (8 - digits.length) '0') ++ digits ++ ".log"

def segmentHeader (firstSeq : Nat) : Bytes := toBe 8 firstSeq ++ [walFormatVersion]

def listSegments (dir : DataDir) : List (Nat × Bytes) :=
  dir.segments.insertionSort fun a b => a.1 ≤ b.1

def loadSstables (files : List (Nat × SstableReader)) :
    List SstableMeta → Except EngineError (List LoadedSstable)
  | [] => .ok []
  | m :: rest =>
    match files.find? fun f => f.1 = m.id with
    | none => .error (.io "No such file or directory (os error 2)")
    | some f => (loadSstables files rest).map fun ts => ⟨m, f.2⟩ :: ts

def sstableMaxSeq (tables : List LoadedSstable) : Nat :=
  (tables.map fun t => t.metadata.maxSeq).foldl max 0

def loadCatalog (files : List (Nat × SstableReader)) (state : ManifestState) :
    Except EngineError (List LoadedSstable) :=
  loadSstables files (state.liveSstables.insertionSort fun a b => a.id ≤ b.id)

section Crc

variable (crc : Bytes → UInt32)

def readSegment (buf : Bytes) : Except EngineError (List WalEntry × ReplayOutcome) :=
  if buf.length < segmentHeaderLen then .ok ([], .clean)
  else if buf.getD 8 0 ≠ walFormatVersion then
    .error (.io ("WAL: unsupported segment format version 0x" ++ hexDigits (buf.getD 8 0) ++
      " (expected 0x" ++ hexDigits walFormatVersion ++ ")"))
  else .ok (replaySegmentBody crc (buf.drop segmentHeaderLen))

def validLen : Nat → Bytes → Nat
  | 0, _ => 0
  | fuel + 1, body =>
    match WalEntry.decodeOne crc body with
    | .ok (some (_, consumed)) => consumed + validLen fuel (body.drop consumed)
    | _ => 0

def truncateTornSegment (buf : Bytes) : Bytes :=
  if buf.length < segmentHeaderLen then buf
  else buf.take (segmentHeaderLen +
    validLen crc (buf.drop segmentHeaderLen).length (buf.drop segmentHeaderLen))

def segmentAfterRecovery (buf : Bytes) : Bytes :=
  match readSegment crc buf with
  | .ok (_, .tornTail) => truncateTornSegment crc buf
  | _ => buf

def recoverSegment (activeAtCrash : Option Nat) (seg : Nat × Bytes) :
    Except EngineError (Nat × List WalEntry) :=
  (readSegment crc seg.2).bind fun r =>
    match r.2 with
    | .clean => .ok (seg.1, r.1)
    | .tornTail =>
      if some seg.1 = activeAtCrash then .ok (seg.1, r.1)
      else .error (.io ("WAL: corruption detected in sealed segment " ++ segmentFilename seg.1 ++
        " (incomplete record in a segment that was sealed and fsynced; refusing to open to avoid" ++
        " silently dropping committed data)"))
    | .corruption => .error (.io ("WAL: corruption detected in segment " ++ segmentFilename seg.1 ++
        " (a damaged record is followed by intact records; refusing to open to avoid silently" ++
        " dropping committed data)"))

def recoverSegments (activeAtCrash : Option Nat) :
    List (Nat × Bytes) → Except EngineError (List (Nat × List WalEntry))
  | [] => .ok []
  | seg :: rest => (recoverSegment crc activeAtCrash seg).bind fun r =>
    (recoverSegments activeAtCrash rest).map fun rs => r :: rs

def recoverWal (segments : List (Nat × Bytes)) : Except EngineError (List (Nat × List WalEntry)) :=
  recoverSegments crc (segments.map Prod.fst).max? segments

def replayedEntries (maxSeq : Nat) (walReplayMaxSeq : Option Nat)
    (segs : List (Nat × List WalEntry)) : List WalEntry :=
  (segs.flatMap Prod.snd).filter fun e => maxSeq < e.seq ∧ ∀ ceiling ∈ walReplayMaxSeq, e.seq ≤ ceiling

def replayMemtable (entries : List WalEntry) : Memtable :=
  (entries.flatMap WalEntry.intoMemtablePairs).foldl Memtable.insert .empty

def segmentMaxSeq (entries : List WalEntry) : Nat := (entries.map WalEntry.seq).foldl max 0

def openEngine (walReplayMaxSeq : Option Nat) (dir : DataDir) : Except EngineError Opened :=
  (replay crc dir.manifest).bind fun state =>
  (loadCatalog dir.sstFiles state).bind fun sstables =>
  (recoverWal crc (listSegments dir)).map fun segs =>
    let kept := replayedEntries (sstableMaxSeq sstables) walReplayMaxSeq segs
    let maxSeqSeen := (kept.map WalEntry.seq).foldl max
      ((sstables.map fun t => t.metadata.maxSeq).foldl max state.lastDurableSeq)
    { engine :=
        { EngineState.init with
          active := replayMemtable kept
          sstables := sstables
          nextSeq := maxSeqSeen + 1
          bufferedSeq := maxSeqSeen
          syncedSeq := maxSeqSeen
          nextSstableId := (sstables.map fun t => t.metadata.id).foldl max 0 + 1 }
      sealedSegmentMaxSeq :=
        (segs.map fun s => (s.1, segmentMaxSeq s.2)).filter fun s => 0 < s.2
      activeWalId := (segs.map Prod.fst).foldl max 0 + 1
      segments := (listSegments dir).map fun s => (s.1, segmentAfterRecovery crc s.2) }

end Crc

end ZydecoDb
