import ZydecoDb.DbQueue
import ZydecoDb.RecoveredReads

namespace ZydecoDb

open Lib EngineState

namespace Db

variable {crc : Bytes → UInt32} {db : Db} {dir : DataDir}

/-- What a step must meet for every later crash to be recoverable: jobs keep what the reads need,
and a roll seals a file whose bytes are all durable. -/
def CrashSafe (cfg : CompactionConfig) (db : Db) : DbAction → Prop
  | .engine a => db.engine.OutputNewest a ∧ db.engine.JobKeeps cfg a
  | .rollBegin _ => db.engine.syncedSeq < db.engine.bufferedSeq ∨
    db.wal.active.bytes.length ≤ db.wal.active.synced
  | _ => True

instance decidableCrashSafe (cfg : CompactionConfig) (db : Db) :
    (a : DbAction) → Decidable (db.CrashSafe cfg a)
  | .engine _ => inferInstanceAs (Decidable (_ ∧ _))
  | .rollBegin _ => inferInstanceAs (Decidable (_ ∨ _))
  | .writeFailed _ _ | .rollEnd | .flushSubmit | .flushDurable | .compactionDurable
  | .unlinkSegment _ | .unlinkSstable _ => isTrue trivial

variable {cfg : CompactionConfig} {db' : Db} {st : EngineState}

end Db

def flushSteps : List DbAction :=
  [.engine .freeze, .engine (.flushExecute fun _ => true), .flushSubmit, .flushDurable,
    .engine .flushPublish]

end ZydecoDb
