import ZydecoDb.EngineSteps
import ZydecoDb.OpenReads

namespace ZydecoDb

open Lib

structure SealedSegment where
  records : List WalEntry
  ordered : records.Pairwise fun a b => a.seq < b.seq
  nodup : ∀ r ∈ records, (r.intoMemtablePairs.map Version.userKey).Nodup
  key_ne : ∀ r ∈ records, ∀ v ∈ r.intoMemtablePairs, v.userKey ≠ []
  seq_lt : ∀ r ∈ records, r.seq < u64Max

namespace SealedSegment

def pairsAbove (seg : SealedSegment) (sstableMax : Nat) : List Version :=
  (seg.records.filter fun r => sstableMax < r.seq).flatMap WalEntry.intoMemtablePairs

theorem mem_pairsAbove {seg : SealedSegment} {n : Nat} {v : Version} :
    v ∈ seg.pairsAbove n ↔ ∃ r ∈ seg.records, n < r.seq ∧ v ∈ r.intoMemtablePairs := by
  simp [pairsAbove, and_assoc]

theorem coherent_pairsAbove (seg : SealedSegment) (n : Nat) : Coherent (seg.pairsAbove n) := by
  intro v hv w hw hk hs
  obtain ⟨r, hr, -, hvr⟩ := mem_pairsAbove.mp hv
  obtain ⟨q, hq, -, hwq⟩ := mem_pairsAbove.mp hw
  have hsame : r = q := by
    have hseq : r.seq = q.seq := by
      rw [← WalEntry.seq_of_mem_pairs hvr, ← WalEntry.seq_of_mem_pairs hwq, hs]
    have hnd : (seg.records.map WalEntry.seq).Nodup :=
      List.pairwise_map.mpr (seg.ordered.imp fun h => h.ne)
    exact List.inj_on_of_nodup_map hnd hr hq hseq
  subst hsame
  exact List.inj_on_of_nodup_map (seg.nodup r hr) hvr hwq hk

end SealedSegment

namespace EngineState

def sysPut (st : EngineState) (key value : Bytes) : Option EngineState :=
  match validateSysPut (key, value) with
  | .ok () => st.commit [.put key value 0]
  | .error _ => none

def sysDel (st : EngineState) (key : Bytes) : Option EngineState :=
  match validateSystemKey key with
  | .ok () => st.commit [.del key]
  | .error _ => none

/-- The records of an installed segment go into the active memtable, past those the tables hold; the
allocator and both watermarks rise to the last number seen. The forced flush and the drain before it
are steps of their own. -/
def applyInstalledWalSegment (st : EngineState) (seg : SealedSegment) : Option EngineState :=
  if st.active.isEmpty ∧ st.immutable.isEmpty ∧ st.flushed.isNone ∧ st.compacting.isNone then
    let maxSeqSeen :=
      ((seg.records.filter fun r => sstableMaxSeq st.sstables < r.seq).map WalEntry.seq).foldl max
        (st.nextSeq - 1)
    some { st with
      active := (seg.pairsAbove (sstableMaxSeq st.sstables)).foldl Memtable.insert st.active
      nextSeq := max st.nextSeq (maxSeqSeen + 1)
      bufferedSeq := max st.bufferedSeq maxSeqSeen
      syncedSeq := max st.syncedSeq maxSeqSeen }
  else none

variable {st st' : EngineState}

theorem sysPut_cases {key value : Bytes} (h : st.sysPut key value = some st') :
    ValidOps [.put key value 0] ∧ st.commit [.put key value 0] = some st' := by
  unfold sysPut at h
  split at h
  next hv =>
    obtain ⟨h1, h2, h3⟩ := validateSysPut_ok hv
    refine ⟨⟨List.nodup_singleton _, ?_, ?_, ?_, by simp [maxBatchKeys], by simp⟩, h⟩
    · simpa [BatchOp.key] using h1
    · simpa [BatchOp.key] using h2
    · simpa [BatchOp.value] using h3
  next => simp at h

theorem sysDel_cases {key : Bytes} (h : st.sysDel key = some st') :
    ValidOps [.del key] ∧ st.commit [.del key] = some st' := by
  unfold sysDel at h
  split at h
  next hv =>
    obtain ⟨h1, h2⟩ := validateKey_ok hv
    refine ⟨⟨List.nodup_singleton _, ?_, ?_, ?_, by simp [maxBatchKeys], by simp⟩, h⟩
    · simpa [BatchOp.key] using h1
    · simpa [BatchOp.key] using h2
    · simp [BatchOp.value]
  next => simp at h

theorem mem_of_mem_foldl_insert {vs : List Version} {mt : Memtable} {v : Version}
    (h : v ∈ (vs.foldl Memtable.insert mt).entries) : v ∈ mt.entries ∨ v ∈ vs := by
  induction vs generalizing mt with
  | nil => exact Or.inl h
  | cons w vs ih =>
    rcases ih h with h | h
    · rcases Memtable.mem_insertEntry h with rfl | h
      · exact Or.inr List.mem_cons_self
      · exact Or.inl h
    · exact Or.inr (List.mem_cons_of_mem _ h)

theorem applyInstalledWalSegment_cases {seg : SealedSegment}
    (h : st.applyInstalledWalSegment seg = some st') :
    st.immutable = [] ∧ st.flushed = none ∧ st.compacting = none ∧
      ∃ active next buffered synced, st' = { st with
        active := active, nextSeq := next, bufferedSeq := buffered, syncedSeq := synced } ∧
      (∀ v ∈ active.entries, v ∈ seg.pairsAbove (sstableMaxSeq st.sstables)) ∧
      st.nextSeq ≤ next ∧ (∀ r ∈ seg.records, sstableMaxSeq st.sstables < r.seq → r.seq < next) ∧
      (st.nextSeq ≤ u64Max → next ≤ u64Max) := by
  unfold applyInstalledWalSegment at h
  obtain ⟨hidle, h⟩ := Option.ite_none_right_eq_some.mp h
  obtain ⟨hact, himm, hfl, hco⟩ := hidle
  have hempty : st.active.entries = [] := by simpa [Memtable.isEmpty] using hact
  refine ⟨by simpa using himm, by simpa using hfl, by simpa using hco, _, _, _, _,
    (Option.some.inj h).symm, fun v hv => ?_, le_max_left _ _, fun r hr hlt => ?_, fun hle => ?_⟩
  · rcases mem_of_mem_foldl_insert hv with hv | hv
    · simp [hempty] at hv
    · exact hv
  · have hin : r.seq ∈ (seg.records.filter fun r => sstableMaxSeq st.sstables < r.seq).map
        WalEntry.seq := by
      exact List.mem_map_of_mem (List.mem_filter.mpr ⟨hr, by simpa using hlt⟩)
    have hge := foldl_max_ge (l := (seg.records.filter fun r =>
      sstableMaxSeq st.sstables < r.seq).map WalEntry.seq) (m := st.nextSeq - 1)
    have hle := hge.2 _ hin
    omega
  · have hmem := foldl_max_mem ((seg.records.filter fun r =>
      sstableMaxSeq st.sstables < r.seq).map WalEntry.seq) (st.nextSeq - 1)
    have hmax : 1 ≤ u64Max := by decide
    rcases hmem with h0 | hm
    · omega
    · obtain ⟨r, hr, he⟩ := List.mem_map.mp hm
      have hlt := seg.seq_lt r (List.mem_filter.mp hr).1
      omega

theorem Inv.applyInstalledWalSegment (hi : st.Inv) {seg : SealedSegment}
    (h : st.applyInstalledWalSegment seg = some st') : st'.Inv := by
  obtain ⟨himm, hfl, hco, active, next, buffered, synced, rfl, hact, hnext, hlt, hle⟩ :=
    applyInstalledWalSegment_cases h
  have habove : ∀ v ∈ active.entries, sstableMaxSeq st.sstables < v.seq ∧ v.seq < next ∧
      v.userKey ≠ [] := by
    intro v hv
    obtain ⟨r, hr, hgt, hvr⟩ := SealedSegment.mem_pairsAbove.mp (hact v hv)
    rw [WalEntry.seq_of_mem_pairs hvr]
    exact ⟨hgt, hlt r hr hgt, seg.key_ne r hr v hvr⟩
  have hold : ∀ v, v ∈ (⟨active, st.immutable, st.sstables⟩ : ReadView).versions ↔
      v ∈ active.entries ∨ v ∈ tableVersions st.sstables := by
    intro v
    simp [ReadView.mem_versions, himm, mem_tableVersions]
  have hview : ∀ v ∈ tableVersions st.sstables, v ∈ st.view.versions := fun v hv =>
    mem_view_versions.mpr (Or.inr (mem_tableVersions.mp hv))
  have hseq : ∀ v ∈ tableVersions st.sstables, v.seq ≤ sstableMaxSeq st.sstables := fun v hv =>
    seq_le_sstableMaxSeq hi.tables hv
  refine ⟨fun v hv => ?_, hle hi.next_le, fun v hv => ?_, fun v hv w hw hk hs => ?_, ?_, ?_,
    hi.imm_ne, hi.tables, hi.ids, hi.ids_nodup, hi.ids_lt, hi.flushed, hi.compacting⟩
  · rcases (hold v).mp hv with hv | hv
    · exact (habove v hv).2.1
    · exact (hi.seq_lt v (hview v hv)).trans_le hnext
  · rcases (hold v).mp hv with hv | hv
    · exact (habove v hv).2.2
    · exact hi.key_ne v (hview v hv)
  · rcases (hold v).mp hv with hv | hv
    · rcases (hold w).mp hw with hw | hw
      · exact seg.coherent_pairsAbove _ v (hact v hv) w (hact w hw) hk hs
      · have hgt := (habove v hv).1
        have hle := hseq w hw
        omega
    · rcases (hold w).mp hw with hw | hw
      · have hgt := (habove w hw).1
        have hle := hseq v hv
        omega
      · exact hi.coherent v (hview v hv) w (hview w hw) hk hs
  · simp only [memEntries, himm]
    exact List.pairwise_singleton _ _
  · intro m hm t ht v hv w hw
    have hm' : m = active.entries := by simpa [memEntries, himm] using hm
    subst hm'
    have hgt := (habove v hv).1
    have hle := hseq w (mem_tableVersions.mpr ⟨t, ht, hw⟩)
    omega

end EngineState

end ZydecoDb
