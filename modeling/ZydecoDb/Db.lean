import ZydecoDb.Open

namespace ZydecoDb

open Lib

/-- A segment file: its bytes, how many of them an fsync has reached, and the entries written to it
whole. -/
structure WalFile where
  id : Nat
  bytes : Bytes
  synced : Nat
  logged : List WalEntry
deriving DecidableEq, Repr

def WalFile.Leaves (f : WalFile) (s : Nat × Bytes) : Prop :=
  s.1 = f.id ∧ ∃ n, f.synced ≤ n ∧ s.2 = f.bytes.take n

/-- The WAL as the engine writes it. `fsynced` lists the entries whose bytes an fsync has covered. -/
structure Wal where
  sealedFiles : List WalFile
  active : WalFile
  activeWalSize : Nat
  sealedSegmentMaxSeq : List (Nat × Nat)
  fsynced : List WalEntry
deriving DecidableEq, Repr

def shouldRoll (currentSize nextEntrySize : Nat) : Bool :=
  0 < currentSize && walSegmentSize < currentSize + nextEntrySize

namespace Wal

def init : Wal where
  sealedFiles := []
  active := ⟨1, segmentHeader 1, segmentHeaderLen, []⟩
  activeWalSize := segmentHeaderLen
  sealedSegmentMaxSeq := []
  fsynced := []

def files (wal : Wal) : List WalFile := wal.sealedFiles ++ [wal.active]

def entries (wal : Wal) : List WalEntry := wal.files.flatMap WalFile.logged

def sync (wal : Wal) : Wal :=
  { wal with
    active := { wal.active with synced := wal.active.bytes.length }
    fsynced := wal.fsynced ++ wal.active.logged }

def rollBegin (wal : Wal) (bufferedSeq firstSeq : Nat) : Wal :=
  { wal with
    sealedFiles := wal.sealedFiles ++ [wal.active]
    active := ⟨wal.active.id + 1, segmentHeader firstSeq, 0, []⟩
    activeWalSize := segmentHeaderLen
    sealedSegmentMaxSeq := wal.sealedSegmentMaxSeq ++ [(wal.active.id, bufferedSeq)] }

def rollEnd (wal : Wal) : Wal :=
  { wal with active := { wal.active with synced := max wal.active.synced segmentHeaderLen } }

def unlink (wal : Wal) (id : Nat) : Wal :=
  { wal with
    sealedFiles := wal.sealedFiles.filter fun f => f.id ≠ id
    sealedSegmentMaxSeq := wal.sealedSegmentMaxSeq.filter fun s => s.1 ≠ id }

def walSegmentsCovered (wal : Wal) (maxSeq : Nat) : Nat :=
  ((wal.sealedSegmentMaxSeq.filter fun s => s.1 < wal.active.id ∧ s.2 ≤ maxSeq).map
    Prod.fst).foldl max 0

section Crc

variable (crc : Bytes → UInt32)

def append (wal : Wal) (e : WalEntry) : Wal :=
  { wal with
    active := { wal.active with
      bytes := wal.active.bytes ++ e.encode crc
      logged := wal.active.logged ++ [e] }
    activeWalSize := wal.activeWalSize + (e.encode crc).length }

def appendFailed (wal : Wal) (e : WalEntry) (n : Nat) : Wal :=
  { wal with
    active := { wal.active with
      bytes := wal.active.bytes ++ (e.encode crc).take n
      logged := if (e.encode crc).length ≤ n then wal.active.logged ++ [e] else wal.active.logged } }

def Clean (wal : Wal) : Prop :=
  ((walCodec crc).read (wal.active.bytes.drop segmentHeaderLen)).2 = .clean

instance decidableClean (wal : Wal) : Decidable (wal.Clean crc) :=
  inferInstanceAs (Decidable (_ = _))

end Crc

end Wal

def BatchOp.walOp : BatchOp → WalOp
  | .put key value expiresAt => ⟨walPut, expiresAt, key, value⟩
  | .del key => ⟨walDel, 0, key, []⟩

def EngineAction.walEntry (seq : Nat) : EngineAction → Option WalEntry
  | .put key value expiresAt => some (.single ⟨walPut, seq, expiresAt, key, value⟩)
  | .del key => some (.single ⟨walDel, seq, 0, key, []⟩)
  | .writeBatch ops sysPuts =>
    some (.batch ⟨seq, ops.map BatchOp.walOp ++ sysPuts.map fun p => ⟨walPut, 0, p.1, p.2⟩⟩)
  | _ => none

/-- The engine with its files. `flushApply` is the submitted flush apply with its WAL coverage and
whether its append is durable, `compactionApplied` the same for the job in flight. `issued` lists
the records of all numbers handed out, `accepted` those of writes that returned. -/
structure Db where
  engine : EngineState
  wal : Wal
  manifest : Bytes
  sstFiles : List LoadedSstable
  flushApply : Option (Nat × Bool)
  compactionApplied : Bool
  unlinkUpTo : Nat
  issued : List WalEntry
  accepted : List WalEntry
  clock : Nat

/-- The steps of the engine, and of its files: a roll in its two halves, an append that fails after
some bytes, the durable appends of the apply worker, and the unlinking of files. -/
inductive DbAction
  | engine (action : EngineAction)
  | writeFailed (action : EngineAction) (bytes : Nat)
  | rollBegin (nextEntrySize : Nat)
  | rollEnd
  | flushSubmit
  | flushDurable
  | compactionDurable
  | unlinkSegment (id : Nat)
  | unlinkSstable (id : Nat)

namespace Db

def init : Db where
  engine := .init
  wal := .init
  manifest := []
  sstFiles := []
  flushApply := none
  compactionApplied := false
  unlinkUpTo := 0
  issued := []
  accepted := []
  clock := 0

def flushRecords (t : LoadedSstable) (covered : Nat) : List ManifestRecord :=
  .sstableAdd t.metadata :: if 0 < covered then [.walTruncate covered] else []

def syncWal (db : Db) : Db :=
  if db.engine.syncedSeq < db.engine.bufferedSeq then
    { db with engine := db.engine.syncWal, wal := db.wal.sync }
  else db

section Crc

variable (crc : Bytes → UInt32)

def effect (db : Db) (st : EngineState) (a : EngineAction) : Option Db :=
  match a with
  | .put _ _ _ | .del _ | .writeBatch _ _ =>
    (a.walEntry db.engine.nextSeq).bind fun e =>
      if e.Fits ∧ segmentHeaderLen ≤ db.wal.active.synced ∧
          shouldRoll db.wal.activeWalSize (e.encode crc).length = false then
        some { db with
          engine := st
          wal := db.wal.append crc e
          issued := db.issued ++ [e]
          accepted := db.accepted ++ [e] }
      else none
  | .syncWal => some db.syncWal
  | .freeze | .snapshotOwned | .snapshotDrop _ => some { db with engine := st }
  | .flushExecute _ =>
    if ∀ t ∈ st.flushed, t.metadata.Fits then
      some { db with engine := st, sstFiles := db.sstFiles ++ st.flushed.toList }
    else none
  | .flushPublish =>
    match db.flushApply with
    | some (covered, true) =>
      some { db with engine := st, flushApply := none, unlinkUpTo := max db.unlinkUpTo covered }
    | _ => none
  | .flushFailed => if db.flushApply = none then some { db with engine := st } else none
  | .submitCompaction nowMs => some { db with engine := st, clock := max db.clock nowMs }
  | .writeCompactionOutput _ =>
    let written := (st.compacting.toList.flatMap Compacting.written).getLast?
    if ∀ t ∈ written, t.metadata.Fits then
      some { db with engine := st, sstFiles := db.sstFiles ++ written.toList }
    else none
  | .compactionPublish =>
    if db.compactionApplied then some { db with engine := st, compactionApplied := false } else none
  | .compactionFailed => if db.compactionApplied then none else some { db with engine := st }

def step (cfg : CompactionConfig) (db : Db) : DbAction → Option Db
  | .engine a => (db.engine.step cfg a).bind fun st => db.effect crc st a
  | .writeFailed a n =>
    (db.engine.step cfg a).bind fun _ => (a.walEntry db.engine.nextSeq).bind fun e =>
      if e.Fits ∧ segmentHeaderLen ≤ db.wal.active.synced ∧
          shouldRoll db.wal.activeWalSize (e.encode crc).length = false then
        some { db with
          engine := { db.engine with nextSeq := db.engine.nextSeq + 1 }
          wal := db.wal.appendFailed crc e n
          issued := db.issued ++ [e] }
      else none
  | .rollBegin nextEntrySize =>
    if shouldRoll db.wal.activeWalSize nextEntrySize ∧ segmentHeaderLen ≤ db.wal.active.synced ∧
        db.wal.active.id + 1 < 256 ^ 8 then
      some { db.syncWal with
        wal := db.syncWal.wal.rollBegin db.engine.bufferedSeq (db.engine.nextSeq + 1) }
    else none
  | .rollEnd => some { db with wal := db.wal.rollEnd }
  | .flushSubmit =>
    match db.engine.flushed, db.flushApply with
    | some t, none =>
      some { db with flushApply := some (db.wal.walSegmentsCovered t.metadata.maxSeq, false) }
    | _, _ => none
  | .flushDurable =>
    match db.engine.flushed, db.flushApply with
    | some t, some (covered, false) =>
      some { db with
        manifest := db.manifest ++ (manifestCodec crc).encodeAll (flushRecords t covered)
        flushApply := some (covered, true) }
    | _, _ => none
  | .compactionDurable =>
    match db.engine.compacting, db.compactionApplied with
    | some ⟨_, inputMetas, [], written⟩, false =>
      some { db with
        manifest := db.manifest ++
          (manifestCodec crc).encodeAll (compactionRecords (written.map LoadedSstable.metadata) inputMetas)
        compactionApplied := true }
    | _, _ => none
  | .unlinkSegment id =>
    if id ≤ db.unlinkUpTo then some { db with wal := db.wal.unlink id } else none
  | .unlinkSstable id =>
    if (db.engine.sstables ++ db.engine.flushed.toList ++
        db.engine.compacting.toList.flatMap Compacting.written).all fun t => t.metadata.id ≠ id then
      some { db with sstFiles := db.sstFiles.filter fun t => t.metadata.id ≠ id }
    else none

end Crc

def pendingAppends (db : Db) : List (List ManifestRecord) :=
  [] :: ((match db.engine.flushed, db.flushApply with
    | some t, some (covered, false) => [flushRecords t covered]
    | _, _ => []) ++
  match db.engine.compacting, db.compactionApplied with
    | some ⟨_, inputMetas, [], written⟩, false => [compactionRecords (written.map LoadedSstable.metadata) inputMetas]
    | _, _ => [])

/-- What a crash may leave: of every file a part that holds at least what was fsynced, of the
manifest also any part of an append under way. -/
structure CrashLeaves (crc : Bytes → UInt32) (db : Db) (dir : DataDir) : Prop where
  manifest : ∃ recs ∈ db.pendingAppends, ∃ n,
    dir.manifest = db.manifest ++ ((manifestCodec crc).encodeAll recs).take n
  sstFiles : dir.sstFiles = db.sstFiles.map fun t => (t.metadata.id, t.reader)
  segments : List.Forall₂ WalFile.Leaves db.wal.files dir.segments

end Db

end ZydecoDb
