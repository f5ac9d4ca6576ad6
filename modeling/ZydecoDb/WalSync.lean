import ZydecoDb.Lib.Run

namespace ZydecoDb

/-- The shared durability state, with what the segments hold: each record's number and segment in the
order written, the numbers whose first fsync succeeded, and those whose first fsync failed. The kernel
may have dropped the pages of the latter, so a later fsync proves nothing about them. -/
structure WalSync where
  records : List (Nat × Nat)
  fsynced : List Nat
  dropped : List Nat
  active : Nat
  bufferedSeq : Nat
  syncedSeq : Nat

/-- `WalSync::sync` between its accesses to shared state: the buffered number is read first, then the
synced one, then the active file; the fsync covers what the file holds when it starts. -/
inductive SyncPc
  | start
  | loaded (target : Nat)
  | behind (target : Nat)
  | opened (target segment : Nat)
  | fsyncing (target : Nat) (covers : List Nat)
  | fsynced (target : Nat)
deriving DecidableEq

inductive SyncOutcome
  | running (pc : SyncPc)
  | ok (seq : Nat)
  | failed
deriving DecidableEq

namespace WalSync

def init : WalSync := ⟨[], [], [], 1, 0, 0⟩

def recordsOf (w : WalSync) (segment : Nat) : List Nat :=
  (w.records.filter fun r => r.2 = segment).map Prod.fst

def syncStep (w : WalSync) (fsyncOk : Bool) : SyncPc → WalSync × SyncOutcome
  | .start => (w, .running (.loaded w.bufferedSeq))
  | .loaded target =>
    if target ≤ w.syncedSeq then (w, .ok w.syncedSeq) else (w, .running (.behind target))
  | .behind target => (w, .running (.opened target w.active))
  | .opened target segment => (w, .running (.fsyncing target (w.recordsOf segment)))
  | .fsyncing target covers =>
    if fsyncOk then
      ({ w with fsynced := w.fsynced ++ covers.filter fun n => !w.dropped.contains n },
        .running (.fsynced target))
    else
      ({ w with dropped := w.dropped ++ covers.filter fun n => !w.fsynced.contains n }, .failed)
  | .fsynced target => ({ w with syncedSeq := max w.syncedSeq target }, .ok target)

def setActive (w : WalSync) : WalSync := { w with active := w.active + 1 }

def write (w : WalSync) (seq : Nat) : WalSync := { w with records := w.records ++ [(seq, w.active)] }

def advanceBuffered (w : WalSync) (seq : Nat) : WalSync :=
  { w with bufferedSeq := max w.bufferedSeq seq }

def setWatermarks (w : WalSync) (seq : Nat) : WalSync :=
  { w with bufferedSeq := max w.bufferedSeq seq, syncedSeq := max w.syncedSeq seq }

end WalSync

/-- What follows a sync under the engine lock: nothing, a roll with or without the append that
caused it, or the memtable insert of a write. An append is a number and whether it syncs inline. -/
inductive AfterSync
  | done
  | roll (append : Option (Nat × Bool))
  | insert (seq : Nat)
deriving DecidableEq

def AfterSync.inserts : AfterSync → Option Nat
  | .insert seq => some seq
  | _ => none

inductive OwnerPc
  | idle
  | syncing (pc : SyncPc) (next : AfterSync)
  | opening (append : Option (Nat × Bool))
  | appending (seq : Nat) (inline : Bool)
  | advancing (seq : Nat) (inline : Bool)
  | inserting (seq : Nat)
deriving DecidableEq

def OwnerPc.afterRoll : Option (Nat × Bool) → OwnerPc
  | some (seq, inline) => .appending seq inline
  | none => .idle

def OwnerPc.afterSync : AfterSync → OwnerPc
  | .done => .idle
  | .roll append => .opening append
  | .insert seq => .inserting seq

inductive CoordinatorPc
  | idle
  | syncing (pc : SyncPc)
  | stopped
deriving DecidableEq

inductive CommitError
  | io
  | shutdown
deriving DecidableEq

/-- The server's durability machinery: the WAL and the engine around it, with each memtable as the
numbers of its writes, and the commit coordinator. -/
structure CommitServer where
  wal : WalSync
  nextSeq : Nat
  memtable : List Nat
  frozen : List (List Nat)
  published : List Nat
  owner : OwnerPc
  coordinator : CoordinatorPc
  coordinatorSynced : Nat
  failed : Bool
  shutdown : Bool

inductive CommitAction
  | write (roll inline : Bool)
  | forceRoll
  | syncWal
  | owner (ok : Bool)
  | freeze
  | publishFlush
  | coordinator (fsyncOk : Bool)
  | stop
deriving DecidableEq

namespace CommitServer

def init : CommitServer where
  wal := .init
  nextSeq := 1
  memtable := []
  frozen := []
  published := []
  owner := .idle
  coordinator := .idle
  coordinatorSynced := 0
  failed := false
  shutdown := false

/-- The server behind an open that found the records `replayed` in the WAL: both watermarks stand at
the largest number seen, whether or not an fsync has covered it, and appends go to a new segment. -/
def opened (published fsynced : List Nat) (replayed : List (Nat × Nat)) (segment : Nat) :
    CommitServer :=
  let maxSeqSeen := (published ++ replayed.map Prod.fst).foldl max 0
  { init with
    wal := ⟨replayed, fsynced, [], segment, maxSeqSeen, maxSeqSeen⟩
    nextSeq := maxSeqSeen + 1
    memtable := (replayed.map Prod.fst).filter fun n => published.foldl max 0 < n
    published }

section

variable (s : CommitServer)

def start (pc : OwnerPc) : Option CommitServer :=
  if s.owner = .idle then some { s with owner := pc } else none

def ownerStep (ok : Bool) : Option CommitServer :=
  match s.owner with
  | .idle => none
  | .syncing pc next =>
    let (wal, outcome) := s.wal.syncStep ok pc
    match outcome with
    | .running pc => some { s with wal := wal, owner := .syncing pc next }
    | .ok _ => some { s with wal := wal, owner := .afterSync next }
    | .failed => some { s with wal := wal, owner := .idle }
  | .opening append =>
    if ok then some { s with wal := s.wal.setActive, owner := .afterRoll append }
    else some { s with owner := .idle }
  | .appending seq inline =>
    if ok then some { s with wal := s.wal.write seq, owner := .advancing seq inline }
    else some { s with owner := .idle }
  | .advancing seq inline =>
    some { s with
      wal := s.wal.advanceBuffered seq
      owner := if inline then .syncing .start (.insert seq) else .inserting seq }
  | .inserting seq => some { s with memtable := s.memtable ++ [seq], owner := .idle }

def coordinatorStep (fsyncOk : Bool) : Option CommitServer :=
  match s.coordinator with
  | .idle => if s.shutdown then some { s with coordinator := .stopped }
    else some { s with coordinator := .syncing .start }
  | .syncing pc =>
    let (wal, outcome) := s.wal.syncStep fsyncOk pc
    match outcome with
    | .running pc => some { s with wal := wal, coordinator := .syncing pc }
    | .ok seq => some { s with
        wal := wal
        coordinator := .idle
        coordinatorSynced := max s.coordinatorSynced seq }
    | .failed => some { s with
        wal := wal
        coordinator := .stopped
        failed := true }
  | .stopped => none

def publishFlush : Option CommitServer :=
  match s.owner, s.frozen with
  | .idle, mt :: rest => some { s with
      wal := s.wal.setWatermarks (mt.foldl max 0)
      frozen := rest
      published := s.published ++ mt }
  | _, _ => none

def step : CommitAction → Option CommitServer
  | .write roll inline =>
    { s with nextSeq := s.nextSeq + 1 }.start
      (if roll then .syncing .start (.roll (some (s.nextSeq, inline)))
        else .appending s.nextSeq inline)
  | .forceRoll => s.start (.syncing .start (.roll none))
  | .syncWal => s.start (.syncing .start .done)
  | .owner ok => s.ownerStep ok
  | .freeze =>
    if s.owner = .idle ∧ s.memtable ≠ [] then
      some { s with memtable := [], frozen := s.frozen ++ [s.memtable] }
    else none
  | .publishFlush => s.publishFlush
  | .coordinator fsyncOk => s.coordinatorStep fsyncOk
  | .stop => some { s with shutdown := true }

def durableSeq : Nat := max s.coordinatorSynced s.wal.syncedSeq

def awaitDurable (seq : Nat) : Option (Except CommitError Unit) :=
  if seq ≤ s.durableSeq then some (.ok ())
  else if s.failed then some (.error .io)
  else if s.shutdown then some (.error .shutdown)
  else none

end

end CommitServer

end ZydecoDb
