import ZydecoDb.TableOrder

namespace ZydecoDb

open Lib

/-- The engine as the layers above it use it: every version written, and the next sequence number. A
read answers with the newest version of its key; the engine's own walk does where its sources are
ordered (`SnapshotHandle.Of`). -/
structure VersionStore where
  versions : List Version
  nextSeq : Nat

structure SnapshotHandle where
  versions : List Version
  seqUpper : Nat

namespace SnapshotHandle

variable (snap : SnapshotHandle)

def getWithSeq (key : Bytes) (nowMs : Nat) : Option (Bytes × Nat) :=
  outcome (newestAt snap.versions key snap.seqUpper) nowMs

def get (key : Bytes) (nowMs : Nat) : Option Bytes := (snap.getWithSeq key nowMs).map Prod.fst

def scan (lo hi : Bytes) (nowMs : Nat) : List (Bytes × Bytes) :=
  (((snap.versions.map Version.userKey).dedup.filter fun k => lo ≤ k ∧ (hi = [] ∨ k < hi)).insertionSort
    (· ≤ ·)).filterMap fun k => (snap.get k nowMs).map fun value => (k, value)

end SnapshotHandle

namespace VersionStore

variable (st : VersionStore)

def snapshotOwned : SnapshotHandle := ⟨st.versions, st.nextSeq - 1⟩

def getWithSeq (key : Bytes) (nowMs : Nat) : Option (Bytes × Nat) :=
  outcome (newest st.versions key) nowMs

def get (key : Bytes) (nowMs : Nat) : Option Bytes := (st.getWithSeq key nowMs).map Prod.fst

def getIncludingExpired (key : Bytes) : Option Bytes :=
  (newest st.versions key).bind fun v =>
    if v.entry.isTombstone then none else some v.entry.valueBytes

def writeBatch (ops : List BatchOp) : Except EngineError (VersionStore × Nat) :=
  (validateBatch ops []).bind fun _ =>
    .ok (⟨st.versions ++ ops.map (BatchOp.version st.nextSeq), st.nextSeq + 1⟩, st.nextSeq)

end VersionStore

theorem outcome_later {v : Option Version} {now later : Nat} (h : now ≤ later) :
    outcome v later = outcome v now ∨ outcome v later = none := by
  cases v with
  | none => exact Or.inl rfl
  | some v =>
    show v.resolve later = v.resolve now ∨ v.resolve later = none
    unfold Version.resolve
    by_cases hnow : (v.entry.isTombstone || v.entry.isExpired now) = true
    · have hlater : (v.entry.isTombstone || v.entry.isExpired later) = true := by
        rw [Bool.or_eq_true] at hnow ⊢
        exact hnow.imp_right (Entry.isExpired_mono h)
      rw [if_pos hlater]
      exact Or.inr rfl
    · rw [if_neg hnow]
      split
      · exact Or.inr rfl
      · exact Or.inl rfl

theorem outcome_eq_some {v : Option Version} {nowMs : Nat} {r : Bytes × Nat}
    (h : outcome v nowMs = some r) : ∃ w, v = some w ∧ w.seq = r.2 := by
  obtain ⟨w, rfl, hw⟩ := Option.bind_eq_some_iff.mp h
  unfold Version.resolve at hw
  split at hw
  next => simp at hw
  next =>
    cases hw
    exact ⟨w, rfl, rfl⟩

namespace SnapshotHandle

variable {snap : SnapshotHandle} {lo hi k value : Bytes} {now : Nat}

theorem userKey_mem_of_get (h : snap.get k now = some value) :
    k ∈ snap.versions.map Version.userKey := by
  obtain ⟨r, hr, -⟩ := Option.map_eq_some_iff.mp h
  obtain ⟨w, hw, -⟩ := outcome_eq_some hr
  obtain ⟨hmem, hkey⟩ := newest_mem hw
  exact List.mem_map.mpr ⟨w, (List.mem_filter.mp hmem).1, hkey⟩

theorem mem_scan :
    (k, value) ∈ snap.scan lo hi now ↔
      (lo ≤ k ∧ (hi = [] ∨ k < hi)) ∧ snap.get k now = some value := by
  rw [scan, List.mem_filterMap]
  constructor
  · rintro ⟨q, hq, hpair⟩
    obtain ⟨w, hget, heq⟩ := Option.map_eq_some_iff.mp hpair
    obtain ⟨rfl, rfl⟩ := Prod.mk.inj heq
    rw [List.mem_insertionSort, List.mem_filter] at hq
    exact ⟨of_decide_eq_true hq.2, hget⟩
  · rintro ⟨hrange, hget⟩
    refine ⟨k, ?_, by rw [hget]; rfl⟩
    rw [List.mem_insertionSort, List.mem_filter, List.mem_dedup]
    exact ⟨userKey_mem_of_get hget, decide_eq_true hrange⟩

theorem nodup_scan_keys (snap : SnapshotHandle) (lo hi : Bytes) (now : Nat) :
    ((snap.scan lo hi now).map Prod.fst).Nodup := by
  have hsub : ∀ keys : List Bytes, ((keys.filterMap fun k =>
      (snap.get k now).map fun value => (k, value)).map Prod.fst).Sublist keys := by
    intro keys
    induction keys with
    | nil => exact List.Sublist.slnil
    | cons k keys ih =>
      rw [List.filterMap_cons]
      cases snap.get k now with
      | none => exact ih.cons k
      | some value => exact ih.cons_cons k
  refine List.Nodup.sublist (hsub _) ?_
  rw [(List.perm_insertionSort _ _).nodup_iff]
  exact (List.nodup_dedup _).filter _

theorem sorted_scan : (snap.scan lo hi now).Pairwise fun a b => a.1 < b.1 := by
  have hle : (snap.scan lo hi now).Pairwise fun a b => a.1 ≤ b.1 := by
    unfold scan
    rw [List.pairwise_filterMap]
    refine (List.pairwise_insertionSort (· ≤ ·) _).imp fun {a b} hab p hp p' hp' => ?_
    obtain ⟨v, -, rfl⟩ := Option.map_eq_some_iff.mp hp
    obtain ⟨v', -, rfl⟩ := Option.map_eq_some_iff.mp hp'
    exact hab
  have hne := List.pairwise_map.mp (snap.nodup_scan_keys lo hi now)
  exact (hle.and hne).imp fun h => lt_of_le_of_ne h.1 h.2

theorem scan_congr {snap' : SnapshotHandle} (h : ∀ k, snap.get k now = snap'.get k now) :
    snap.scan lo hi now = snap'.scan lo hi now :=
  ReadView.ascending_ext sorted_scan sorted_scan fun p => by rw [mem_scan, mem_scan, h]

/-- The handle of a view: it has the versions of the view, and these lie in the order in which the
engine walks its memtables and tables. -/
structure Of (snap : SnapshotHandle) (view : ReadView) : Prop where
  ordered : view.Ordered
  mem : ∀ v, v ∈ snap.versions ↔ v ∈ view.versions

variable {view : ReadView}

theorem Of.newestAt_eq (h : snap.Of view) (key : Bytes) (s : Nat) :
    newestAt view.versions key s = newestAt snap.versions key s := by
  refine newest_congr (h.ordered.coherent.sublist fun v hv => (List.mem_filter.mp hv).1) fun v _ => ?_
  rw [List.mem_filter, List.mem_filter, h.mem v]

theorem Of.getWithSeq_eq (h : snap.Of view) (key : Bytes) (nowMs : Nat) :
    view.getWithSeq key snap.seqUpper nowMs = snap.getWithSeq key nowMs := by
  rw [ReadView.getWithSeq, ReadView.firstVisible_eq_newestAt h.ordered, h.newestAt_eq]
  rfl

/-- On a range that is not inverted the engine's merge of its sources gives what the handle lists. -/
theorem Of.scan_eq (h : snap.Of view) (hrange : ReadView.ScanRange lo hi) (now : Nat) :
    view.scan snap.seqUpper lo hi now = some (snap.scan lo hi now) := by
  obtain ⟨rows, hrows⟩ := hrange.isSome view snap.seqUpper now
  refine hrows.trans (congrArg some ?_)
  refine ReadView.ascending_ext (ReadView.scan_ascending h.ordered.tables hrows) sorted_scan
    fun ⟨k, b⟩ => ?_
  have hget : ((lo ≤ k ∧ (hi = [] ∨ k < hi)) → ((k, b) ∈ rows ↔ snap.get k now = some b)) := by
    rintro ⟨hlo, hhi⟩
    rw [ReadView.mem_scan h.ordered.tables h.ordered.coherent hlo hhi hrows, h.newestAt_eq]
    simp [get, getWithSeq]
  rw [mem_scan]
  constructor
  · intro hmem
    have hb := hrange.bounds (ReadView.inScan_of_mem_scan hrows hmem)
    exact ⟨hb, (hget hb).mp hmem⟩
  · rintro ⟨hb, hv⟩
    exact (hget hb).mpr hv

end SnapshotHandle

end ZydecoDb
