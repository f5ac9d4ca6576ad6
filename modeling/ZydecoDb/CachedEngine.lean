import ZydecoDb.SystemWrites
import ZydecoDb.CutCatalogs
import ZydecoDb.ResultCache

namespace ZydecoDb

open Lib

def Version.resolveEntry (v : Version) (nowMs : Nat) (includeExpired : Bool) : Option (Bytes × Nat) :=
  if v.entry.isTombstone || (!includeExpired && v.entry.isExpired nowMs) then none
  else some (v.entry.valueBytes, v.seq)

namespace ReadView

def memVisible (view : ReadView) (key : Bytes) (seqUpper : Nat) : Option Version :=
  (view.active.firstVisible key seqUpper).or
    (view.immutables.reverse.findSome? fun mt => mt.firstVisible key seqUpper)

def tableVisible (view : ReadView) (key : Bytes) (seqUpper : Nat) : Option Version :=
  view.sstables.reverse.findSome? fun t => t.lookup key seqUpper

end ReadView

structure CachedEngine where
  engine : EngineState
  resultCache : Option ResultCache

namespace CachedEngine

def new (resultCacheBytes : Nat) : CachedEngine :=
  ⟨.init, if 0 < resultCacheBytes then some (.new resultCacheBytes) else none⟩

def cached (s : CachedEngine) (key : Bytes) : Option Bytes :=
  s.resultCache.bind fun rc => rc.peek key

def consult (s : CachedEngine) (seqUpper : Nat) (key : Bytes) (useResultCache : Bool) :
    Option Bytes × CachedEngine :=
  match s.resultCache with
  | some rc =>
    if useResultCache ∧ seqUpper = u64Max then
      ((rc.get key).1, { s with resultCache := some (rc.get key).2 })
    else (none, s)
  | none => (none, s)

def fill (s : CachedEngine) (seqUpper : Nat) (key : Bytes) (resolved : Option (Bytes × Nat)) :
    CachedEngine :=
  match s.resultCache, resolved with
  | some rc, some (value, _) =>
    if seqUpper = u64Max then { s with resultCache := some (rc.insert key value) } else s
  | _, _ => s

def snapshotGetInner (s : CachedEngine) (seqUpper : Nat) (key : Bytes)
    (useResultCache includeExpired : Bool) (nowMs : Nat) :
    Except EngineError (Option (Bytes × Nat)) × CachedEngine :=
  match (validateUserKey key).tryCatch fun _ => validateSystemKey key with
  | .error e => (.error e, s)
  | .ok () =>
    match s.engine.view.memVisible key seqUpper with
    | some v => (.ok (v.resolveEntry nowMs includeExpired), s)
    | none =>
      let (hit, s) := s.consult seqUpper key useResultCache
      match hit with
      | some value => (.ok (some (value, 0)), s)
      | none =>
        match s.engine.view.tableVisible key seqUpper with
        | none => (.ok none, s)
        | some v =>
          (.ok (v.resolveEntry nowMs includeExpired),
            s.fill seqUpper key (v.resolveEntry nowMs includeExpired))

def valueOnly (r : Except EngineError (Option (Bytes × Nat)) × CachedEngine) :
    Except EngineError (Option Bytes) × CachedEngine :=
  (r.1.map fun o => o.map Prod.fst, r.2)

def snapshotGet (s : CachedEngine) (seqUpper : Nat) (key : Bytes) (nowMs : Nat) :
    Except EngineError (Option Bytes) × CachedEngine :=
  valueOnly (s.snapshotGetInner seqUpper key true false nowMs)

def snapshotGetWithSeq (s : CachedEngine) (seqUpper : Nat) (key : Bytes) (nowMs : Nat) :
    Except EngineError (Option (Bytes × Nat)) × CachedEngine :=
  s.snapshotGetInner seqUpper key false false nowMs

def getIncludingExpired (s : CachedEngine) (key : Bytes) (nowMs : Nat) :
    Except EngineError (Option Bytes) × CachedEngine :=
  valueOnly (s.snapshotGetInner u64Max key false true nowMs)

def checkedGet (validate : Bytes → Except EngineError Unit) (s : CachedEngine) (key : Bytes)
    (nowMs : Nat) : Except EngineError (Option Bytes) × CachedEngine :=
  match validate key with
  | .error e => (.error e, s)
  | .ok () => s.snapshotGet u64Max key nowMs

def get : CachedEngine → Bytes → Nat → Except EngineError (Option Bytes) × CachedEngine :=
  checkedGet validateUserKey

def sysGet : CachedEngine → Bytes → Nat → Except EngineError (Option Bytes) × CachedEngine :=
  checkedGet validateSystemKey

end CachedEngine

/-- Writes by either keyspace, an applied segment, background work, and reads. A delete looks the key
up first, to report whether it was there. -/
inductive CachedAction
  | put (key value : Bytes) (expiresAt : Nat)
  | del (key : Bytes) (nowMs : Nat)
  | writeBatch (ops : List BatchOp) (sysPuts : List (Bytes × Bytes))
  | sysPut (key value : Bytes)
  | sysDel (key : Bytes) (nowMs : Nat)
  | applySegment (seg : SealedSegment)
  | maintain (a : EngineAction)
  | get (key : Bytes) (nowMs : Nat)
  | sysGet (key : Bytes) (nowMs : Nat)
  | snapshotGet (seqUpper : Nat) (key : Bytes) (nowMs : Nat)
  | snapshotGetWithSeq (seqUpper : Nat) (key : Bytes) (nowMs : Nat)
  | getIncludingExpired (key : Bytes) (nowMs : Nat)

def EngineAction.isMaintenance : EngineAction → Bool
  | .put _ _ _ | .del _ | .writeBatch _ _ => false
  | _ => true

namespace CachedEngine

def invalidate (s : CachedEngine) (keys : List Bytes) : CachedEngine :=
  { s with resultCache := s.resultCache.map fun rc => keys.foldl ResultCache.invalidate rc }

def step (cfg : CompactionConfig) (s : CachedEngine) : CachedAction → Option CachedEngine
  | .put key value expiresAt =>
    (s.engine.put key value expiresAt).map fun st => { s with engine := st }.invalidate [key]
  | .del key nowMs =>
    (s.engine.del key).map fun st => { (s.get key nowMs).2 with engine := st }.invalidate [key]
  | .writeBatch ops sysPuts =>
    (s.engine.writeBatchInner ops sysPuts).map fun st =>
      { s with engine := st }.invalidate (ops.map BatchOp.key)
  | .sysPut key value => (s.engine.sysPut key value).map fun st => { s with engine := st }
  | .sysDel key nowMs =>
    (s.engine.sysDel key).map fun st => { (s.sysGet key nowMs).2 with engine := st }
  | .applySegment seg =>
    (s.engine.applyInstalledWalSegment seg).map fun st => { s with engine := st }
  | .maintain a =>
    if a.isMaintenance then (s.engine.step cfg a).map fun st => { s with engine := st } else none
  | .get key nowMs => some (s.get key nowMs).2
  | .sysGet key nowMs => some (s.sysGet key nowMs).2
  | .snapshotGet seqUpper key nowMs => some (s.snapshotGet seqUpper key nowMs).2
  | .snapshotGetWithSeq seqUpper key nowMs => some (s.snapshotGetWithSeq seqUpper key nowMs).2
  | .getIncludingExpired key nowMs => some (s.getIncludingExpired key nowMs).2

end CachedEngine

end ZydecoDb
