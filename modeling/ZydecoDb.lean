import ZydecoDb.SstableIds
import ZydecoDb.LevelRuns
import ZydecoDb.TableFaithful
import ZydecoDb.ManifestRecovery
import ZydecoDb.FailedAppend
import ZydecoDb.RepeatableRead
import ZydecoDb.CacheTransparency
import ZydecoDb.FailClosed
import ZydecoDb.KeySpace
import ZydecoDb.RejectedOps
import ZydecoDb.CompactedOnce
import ZydecoDb.IndexKeyOrder
import ZydecoDb.LookupOperators
import ZydecoDb.MergeVisibility
import ZydecoDb.FlushProgress
import ZydecoDb.ChargedBytes
import ZydecoDb.CompactionTermination
import ZydecoDb.WalReplay
import ZydecoDb.WalReclaimed
import ZydecoDb.WireCodecs
import ZydecoDb.BackfillBatches
import ZydecoDb.ShippedRuns
import ZydecoDb.GroupedRows
import ZydecoDb.JoinedFields
import ZydecoDb.Migrate.LoadOrder
import ZydecoDb.Document.ZDocVisits
import ZydecoDb.Document.RawId
import ZydecoDb.Document.IndexPages
import ZydecoDb.Document.ZDocAccepted
