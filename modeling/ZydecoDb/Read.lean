import ZydecoDb.Merge

namespace ZydecoDb

open Lib

/-- The sources a read walks: the active memtable, the immutable ones oldest first, and the catalog
by ascending id. An engine reads its own, a snapshot handle those it captured. -/
structure ReadView where
  active : Memtable
  immutables : List Memtable
  sstables : List LoadedSstable

def sstableMightHoldKey (m : SstableMeta) (key : Bytes) : Bool :=
  m.minKey ≤ key ∧ key ≤ m.maxKey

def sstableOverlapsRange (m : SstableMeta) (lo hi : Bytes) : Bool :=
  if hi ≠ [] ∧ hi ≤ m.minKey then false
  else if m.maxKey < lo then false
  else true

/-- One table's answer: the key range and the filter may rule it out; a read without a ceiling asks
for the latest version, a bounded one walks the key's range. -/
def LoadedSstable.lookup (t : LoadedSstable) (key : Bytes) (seqUpper : Nat) : Option Version :=
  if !sstableMightHoldKey t.metadata key then none
  else if !t.reader.mightContain key then none
  else if seqUpper = u64Max then t.reader.getLatest key
  else newestVisibleInSstable t.reader key seqUpper

namespace ReadView

variable (view : ReadView)

/-- The walk of the point lookup: active memtable, immutables newest first, tables by descending
id; the first hit ends it. -/
def firstVisible (key : Bytes) (seqUpper : Nat) : Option Version :=
  (view.active.firstVisible key seqUpper).or
    ((view.immutables.reverse.findSome? fun mt => mt.firstVisible key seqUpper).or
      (view.sstables.reverse.findSome? fun t => t.lookup key seqUpper))

def getWithSeq (key : Bytes) (seqUpper nowMs : Nat) : Option (Bytes × Nat) :=
  outcome (view.firstVisible key seqUpper) nowMs

def handleGet (key : Bytes) (seqUpper nowMs : Nat) : Option Bytes :=
  (view.getWithSeq key seqUpper nowMs).map Prod.fst

/-- `Engine::snapshot_get_inner`: the key must lie in one of the two keyspaces; with
`includeExpired` an expired value still counts. -/
def snapshotGetInner (seqUpper : Nat) (key : Bytes) (includeExpired : Bool) (nowMs : Nat) :
    Except EngineError (Option (Bytes × Nat)) :=
  ((validateUserKey key).tryCatch fun _ => validateSystemKey key).map fun _ =>
    (view.firstVisible key seqUpper).bind fun v =>
      if v.entry.isTombstone || (!includeExpired && v.entry.isExpired nowMs) then none
      else some (v.entry.valueBytes, v.seq)

def snapshotGet (seqUpper : Nat) (key : Bytes) (nowMs : Nat) : Except EngineError (Option Bytes) :=
  (view.snapshotGetInner seqUpper key false nowMs).map fun r => r.map Prod.fst

def get (key : Bytes) (nowMs : Nat) : Except EngineError (Option Bytes) :=
  (validateUserKey key).bind fun _ => view.snapshotGet u64Max key nowMs

/-- The merge sources of a range scan, each cut at the ceiling. An empty `hi` makes every source
yield all it holds. `none` is the panic of a memtable on an inverted range. -/
def buildSources (seqUpper : Nat) (lo hi : Bytes) : Option (List (List Version)) := do
  let mems ← (view.active :: view.immutables).mapM fun mt =>
    if hi = [] then some mt.entries else mt.rangeInternal lo hi
  let ssts := (view.sstables.filter fun t => sstableOverlapsRange t.metadata lo hi).map fun t =>
    if hi = [] then t.reader.entries else t.reader.rangeIter lo hi
  some ((mems ++ ssts).map fun src => src.filter fun v => v.seq ≤ seqUpper)

def scanRow (nowMs : Nat) (v : Version) : Option (Bytes × Bytes) :=
  (v.resolve nowMs).map fun r => (v.userKey, r.1)

def scan (seqUpper : Nat) (lo hi : Bytes) (nowMs : Nat) : Option (List (Bytes × Bytes)) :=
  (view.buildSources seqUpper lo hi).map fun sources => (mergeDedup sources).filterMap (scanRow nowMs)

def memSources : List (List Version) :=
  view.active.entries :: view.immutables.reverse.map Memtable.entries

def sources : List (List Version) :=
  view.memSources ++ view.sstables.reverse.map fun t => t.reader.entries

def versions : List Version := view.sources.flatten

structure Ordered : Prop where
  newer : view.sources.Pairwise NewerThan
  coherent : Coherent view.versions
  seq_le : ∀ v ∈ view.versions, v.seq ≤ u64Max
  tables : ∀ t ∈ view.sstables, t.WellFormed

end ReadView

theorem LoadedSstable.lookup_eq_newestAt {t : LoadedSstable} (ht : t.WellFormed)
    (hmax : ∀ v ∈ t.reader.entries, v.seq ≤ u64Max) (k : Bytes) (s : Nat) :
    t.lookup k s = newestAt t.reader.entries k s := by
  rw [newestAt, newestAt_eq_find (newestFirst_of_sorted ht.sorted)]
  unfold lookup
  by_cases hr : sstableMightHoldKey t.metadata k = true
  · by_cases hb : t.reader.mightContain k = true
    · rw [if_neg (by simp [hr]), if_neg (by simp [hb])]
      split
      next hs =>
        rw [SstableReader.getLatest]
        refine List.find?_congr fun v hv => ?_
        simp [hs, hmax v hv]
      next =>
        rw [newestVisibleInSstable, SstableReader.rangeIter, List.find?_filter]
        refine List.find?_congr fun v _ => ?_
        by_cases hk : v.userKey = k
        · simp [hk, lt_nextUserKey]
        · simp [hk]
    · rw [if_neg (by simp [hr]), if_pos (by simpa using hb), eq_comm, List.find?_eq_none]
      intro v hv hk
      simp only [decide_eq_true_eq] at hk
      exact hb (hk.1 ▸ ht.bloom_sound v hv)
  · rw [if_pos (by simpa using hr), eq_comm, List.find?_eq_none]
    intro v hv hk
    simp only [decide_eq_true_eq] at hk
    refine hr ?_
    simp only [sstableMightHoldKey, decide_eq_true_eq]
    exact ⟨hk.1 ▸ ht.minKey_le v hv, hk.1 ▸ ht.le_maxKey v hv⟩

namespace ReadView

variable {view : ReadView}

theorem mem_versions {v : Version} : v ∈ view.versions ↔
    v ∈ view.active.entries ∨ (∃ mt ∈ view.immutables, v ∈ mt.entries) ∨
      ∃ t ∈ view.sstables, v ∈ t.reader.entries := by
  simp [versions, sources, memSources]

theorem firstVisible_eq_findSome (hmax : ∀ v ∈ view.versions, v.seq ≤ u64Max)
    (ht : ∀ t ∈ view.sstables, t.WellFormed) (k : Bytes) (s : Nat) :
    view.firstVisible k s = view.sources.findSome? fun src => newestAt src k s := by
  rw [sources, memSources, List.cons_append, findSome_cons, List.findSome?_append,
    List.findSome?_map, List.findSome?_map]
  have hact : view.active.firstVisible k s = newestAt view.active.entries k s :=
    view.active.firstVisible_eq_newestAt k s fun v hv => hmax v (mem_versions.mpr (Or.inl hv))
  have himm : (view.immutables.reverse.findSome? fun mt => mt.firstVisible k s) =
      view.immutables.reverse.findSome? ((fun src => newestAt src k s) ∘ Memtable.entries) := by
    refine findSome_congr fun mt hmt => ?_
    exact mt.firstVisible_eq_newestAt k s fun v hv => hmax v
      (mem_versions.mpr (Or.inr (Or.inl ⟨mt, List.mem_reverse.mp hmt, hv⟩)))
  have hsst : (view.sstables.reverse.findSome? fun t => t.lookup k s) =
      view.sstables.reverse.findSome?
        ((fun src => newestAt src k s) ∘ fun t => t.reader.entries) := by
    refine findSome_congr fun t htr => ?_
    have htm := List.mem_reverse.mp htr
    exact LoadedSstable.lookup_eq_newestAt (ht t htm) (fun v hv => hmax v
      (mem_versions.mpr (Or.inr (Or.inr ⟨t, htm, hv⟩)))) k s
  rw [firstVisible, hact, himm, hsst]

/-- In ordered sources the first visible version is the newest one. -/
theorem firstVisible_eq_newestAt (h : view.Ordered) (k : Bytes) (s : Nat) :
    view.firstVisible k s = newestAt view.versions k s := by
  rw [firstVisible_eq_findSome h.seq_le h.tables]
  exact findSome_newestAt h.coherent h.newer

end ReadView

end ZydecoDb
