import ZydecoDb.CrashRecovery

namespace ZydecoDb

open Lib

namespace Db

instance decidableSafe (crc : Bytes → UInt32) (cfg : CompactionConfig) (db : Db) :
    (a : DbAction) → Decidable (db.Safe crc cfg a)
  | .engine _ => inferInstanceAs (Decidable (_ ∧ _ ∧ (_ → _)))
  | .writeFailed _ _ => inferInstanceAs (Decidable (db.wal.Clean crc))
  | .rollBegin _ => inferInstanceAs (Decidable (_ ∧ (_ ∨ _)))
  | .rollEnd | .flushSubmit | .flushDurable | .compactionDurable | .unlinkSegment _
  | .unlinkSstable _ => isTrue trivial

end Db

end ZydecoDb
