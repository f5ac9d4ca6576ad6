import ZydecoDb.CompactionAtomic

namespace ZydecoDb

open Lib

def applyRecords (tables : List LoadedSstable) (ids : List Nat) (written : List LoadedSstable) :
    List ManifestRecord :=
  compactionRecords (written.map LoadedSstable.metadata)
    ((inputsOf tables ids).map LoadedSstable.metadata)

structure DataDir.Stores (crc : Bytes → UInt32) (dir : DataDir) (recs : List ManifestRecord)
    (tables : List LoadedSstable) (segs : List (Nat × List WalEntry)) : Prop where
  manifest : dir.manifest = (manifestCodec crc).encodeAll recs
  fits : ∀ r ∈ recs, r.Fits
  live : (ManifestState.ofRecords recs).liveSstables.Perm (tables.map LoadedSstable.metadata)
  wal : recoverWal crc (listSegments dir) = .ok segs

def DataDir.HasFile (dir : DataDir) (t : LoadedSstable) : Prop :=
  dir.sstFiles.find? (fun f => f.1 = t.metadata.id) = some (t.metadata.id, t.reader)

theorem foldl_sstableAdd (metas : List SstableMeta) (s : ManifestState) :
    ((metas.map .sstableAdd).foldl ManifestState.apply s).liveSstables = s.liveSstables ++ metas := by
  induction metas generalizing s with
  | nil => simp
  | cons m metas ih => simp [ih, ManifestState.apply]

theorem foldl_sstableRemove (metas : List SstableMeta) (s : ManifestState) :
    ((metas.map fun m => ManifestRecord.sstableRemove m.id).foldl
      ManifestState.apply s).liveSstables =
      s.liveSstables.filter fun m => m.id ∉ metas.map SstableMeta.id := by
  induction metas generalizing s with
  | nil => simp
  | cons m metas ih =>
    rw [List.map_cons, List.foldl_cons, ih]
    simp only [ManifestState.apply, List.filter_filter, List.map_cons, List.mem_cons, not_or]
    congr 1
    funext m'
    by_cases hm : m'.id = m.id <;> simp [hm]

theorem loadSstables_map {files : List (Nat × SstableReader)} {tables : List LoadedSstable}
    (h : ∀ t ∈ tables, files.find? (fun f => f.1 = t.metadata.id) = some (t.metadata.id, t.reader)) :
    loadSstables files (tables.map LoadedSstable.metadata) = .ok tables := by
  induction tables with
  | nil => rfl
  | cons t ts ih =>
    rw [List.map_cons, loadSstables, h t List.mem_cons_self]
    simp only
    rw [ih fun u hu => h u (List.mem_cons_of_mem _ hu)]
    rfl

theorem loadCatalog_of_perm {files : List (Nat × SstableReader)} {state : ManifestState}
    {tables : List LoadedSstable}
    (hs : tables.Pairwise fun a b => a.metadata.id < b.metadata.id)
    (hp : state.liveSstables.Perm (tables.map LoadedSstable.metadata))
    (hf : ∀ t ∈ tables, files.find? (fun f => f.1 = t.metadata.id) = some (t.metadata.id, t.reader)) :
    loadCatalog files state = .ok tables := by
  have hsort : state.liveSstables.insertionSort (fun a b => a.id ≤ b.id) =
      tables.map LoadedSstable.metadata := by
    have hperm := (List.perm_insertionSort (fun a b : SstableMeta => a.id ≤ b.id)
      state.liveSstables).trans hp
    have hle : (state.liveSstables.insertionSort fun a b => a.id ≤ b.id).Pairwise
        fun a b => a.id ≤ b.id := List.pairwise_insertionSort _ _
    have hlt : (tables.map LoadedSstable.metadata).Pairwise fun a b => a.id ≤ b.id :=
      List.pairwise_map.mpr (hs.imp fun h => h.le)
    have hinj : ∀ a ∈ tables.map LoadedSstable.metadata, ∀ b ∈ tables.map LoadedSstable.metadata,
        a.id = b.id → a = b := by
      intro a ha b hb he
      obtain ⟨t, ht, rfl⟩ := List.mem_map.mp ha
      obtain ⟨u, hu, rfl⟩ := List.mem_map.mp hb
      have hnd : (tables.map fun t => t.metadata.id).Nodup :=
        List.pairwise_map.mpr (hs.imp fun h => h.ne)
      rw [List.inj_on_of_nodup_map hnd ht hu he]
    refine hperm.eq_of_pairwise (fun a b ha hb hab hba => ?_) hle hlt
    exact hinj a (hperm.mem_iff.mp ha) b hb (le_antisymm hab hba)
  rw [loadCatalog, hsort, loadSstables_map hf]

def cutCatalog (tables : List LoadedSstable) (ids : List Nat) (written : List LoadedSstable)
    (j : Nat) : List LoadedSstable :=
  if j ≤ written.length then addedCatalog tables written j
  else removedCatalog tables ids written (j - written.length)

section Disk

variable {crc : Bytes → UInt32} {p : GcPolicy} {dir : DataDir} {recs : List ManifestRecord}
  {tables written : List LoadedSstable} {ids : List Nat} {segs : List (Nat × List WalEntry)}

/-- The records of a cut list the tables of its catalog. -/
theorem live_after_cut (h : CompactionResult p tables ids written)
    (hl : (ManifestState.ofRecords recs).liveSstables.Perm (tables.map LoadedSstable.metadata))
    (j : Nat) :
    (ManifestState.ofRecords (recs ++
        (applyRecords tables ids written).take j)).liveSstables.Perm
      ((cutCatalog tables ids written j).map LoadedSstable.metadata) := by
  unfold cutCatalog
  rw [applyRecords, compactionRecords, List.take_append, List.length_map, List.length_map,
    ← List.map_take, ← List.map_take, ← List.map_take, ← List.map_take, ManifestState.ofRecords,
    List.foldl_append, List.foldl_append, foldl_sstableRemove, foldl_sstableAdd, List.map_map]
  have hbase := hl.append_right ((written.take j).map LoadedSstable.metadata)
  rw [← List.map_append] at hbase
  split
  next hle =>
    have hzero : j - written.length = 0 := by omega
    rw [hzero]
    have hperm : (addedCatalog tables written j).Perm (tables ++ written.take j) := by
      have hp := List.perm_insertionSort
        (fun a b : LoadedSstable => a.metadata.id ≤ b.metadata.id) (tables ++ written.take j)
      simpa [addedCatalog, EngineState.publishCatalog] using hp
    simpa [ManifestState.ofRecords] using hbase.trans (hperm.map _).symm
  next hgt =>
    rw [List.take_of_length_le (by omega : written.length ≤ j)] at hbase ⊢
    refine (hbase.filter _).trans ?_
    rw [List.filter_map]
    refine List.Perm.map _ ?_
    rw [removedCatalog, EngineState.publishCatalog]
    refine List.Perm.trans ?_ (List.perm_insertionSort _ _).symm
    rw [List.filter_append]
    refine List.Perm.append (List.Perm.refl _) ?_
    rw [List.filter_eq_self.mpr]
    intro o ho
    simp only [Function.comp_apply, decide_eq_true_eq]
    intro hid
    obtain ⟨t, ht, he⟩ := List.mem_map.mp hid
    exact h.fresh o ho t (mem_inputsOf.mp (List.mem_of_mem_take ht)).1 he

theorem removedCatalog_zero :
    removedCatalog tables ids written 0 = addedCatalog tables written written.length := by
  rw [removedCatalog, addedCatalog, List.take_zero, List.take_length, List.map_nil]

theorem forall_cutCatalog {P : List LoadedSstable → Prop} :
    (∀ j, P (cutCatalog tables ids written j)) ↔
      (∀ a, P (addedCatalog tables written a)) ∧ ∀ r, P (removedCatalog tables ids written r) := by
  constructor
  · intro hall
    have hlast : P (addedCatalog tables written written.length) := by
      simpa [cutCatalog] using hall written.length
    refine ⟨fun a => ?_, fun r => ?_⟩
    · by_cases ha : a ≤ written.length
      · simpa [cutCatalog, ha] using hall a
      · have htake : written.take a = written.take written.length := by
          rw [List.take_length, List.take_of_length_le (by omega)]
        rwa [addedCatalog, htake]
    · by_cases hr : r = 0
      · rw [hr, removedCatalog_zero]
        exact hlast
      · have hcut := hall (written.length + r)
        rwa [cutCatalog, if_neg (by omega), Nat.add_sub_cancel_left] at hcut
  · rintro ⟨hadd, hrem⟩ j
    unfold cutCatalog
    split
    · exact hadd j
    · exact hrem _

theorem cutCatalog_spec (hc : Catalog tables) (h : CompactionResult p tables ids written) (j : Nat) :
    Catalog (cutCatalog tables ids written j) ∧
      (∀ v ∈ tableVersions (cutCatalog tables ids written j), v ∈ tableVersions tables) ∧
      ∀ t ∈ cutCatalog tables ids written j, t ∈ tables ++ written := by
  unfold cutCatalog
  split
  next =>
    refine ⟨⟨addedCatalog_ids hc h j, addedCatalog_wellFormed hc h⟩,
      fun v => (addedCatalog_versions h).mp, fun t ht => ?_⟩
    rcases mem_addedCatalog.mp ht with ht | ht
    · exact List.mem_append_left _ ht
    · exact List.mem_append_right _ (List.mem_of_mem_take ht)
  next =>
    refine ⟨⟨removedCatalog_ids hc h _, removedCatalog_wellFormed hc h⟩,
      fun v => removedCatalog_versions hc h, fun t ht => ?_⟩
    rcases (mem_removedCatalog hc).mp ht with (ht | ht) | ht
    · exact List.mem_append_left _ (mem_outsideOf.mp ht).1
    · exact List.mem_append_left _ (mem_inputsOf.mp (List.mem_of_mem_drop ht)).1
    · exact List.mem_append_right _ ht

theorem sameReads_cut_iff {nowMs : Nat} {cut : List LoadedSstable}
    (hwf : ∀ t ∈ tables, t.WellFormed) (hwf' : ∀ t ∈ cut, t.WellFormed)
    (hsub : ∀ v ∈ tableVersions cut, v ∈ tableVersions tables)
    (hco : Coherent (walVersions segs ++ tableVersions tables))
    (hmax : ∀ v ∈ walVersions segs ++ tableVersions tables, v.seq ≤ u64Max) :
    SameReads nowMs (reopenedView segs cut) (reopenedView segs tables) ↔
      ∀ k, SameAt nowMs segs tables cut k := by
  have hall : ∀ v ∈ walVersions segs ++ tableVersions cut,
      v ∈ walVersions segs ++ tableVersions tables := by
    intro v hv
    rcases List.mem_append.mp hv with hv | hv
    · exact List.mem_append_left _ hv
    · exact List.mem_append_right _ (hsub v hv)
  have hcw : Coherent (walVersions segs) := hco.sublist fun v => List.mem_append_left _
  rw [ReadView.sameReads_iff
    (reopenedView_layered hwf' (hco.sublist hall) fun v hv => hmax v (hall v hv))
    (reopenedView_layered hwf hco hmax)]
  simp only [newest_replayed hcw]
  rfl

variable (crc) in
def DataDir.afterCrash (dir : DataDir) (added : List ManifestRecord) (n : Nat) : DataDir :=
  { dir with manifest := dir.manifest ++ ((manifestCodec crc).encodeAll added).take n }

theorem openEngine_cut (hd : dir.Stores crc recs tables segs) {cut : List LoadedSstable}
    (hs : cut.Pairwise fun a b => a.metadata.id < b.metadata.id) {manifest : Bytes}
    {state : ManifestState} (hm : replay crc manifest = .ok state)
    (hp : state.liveSstables.Perm (cut.map LoadedSstable.metadata))
    (hf : ∀ t ∈ cut, dir.HasFile t) :
    ∃ o, openEngine crc none { dir with manifest } = .ok o ∧
      o.engine.view = reopenedView segs cut :=
  openEngine_view hm (loadCatalog_of_perm hs hp hf) hd.wal

end Disk

/-- A crash at any byte of a compaction's manifest append leaves an engine that opens, and that
reads as before the apply from the job's clock on exactly when the cuts agree on every key that no
replayed memtable holds. -/
theorem compaction_apply_atomic_iff (crc : Bytes → UInt32) (p : GcPolicy) (dir : DataDir)
    (recs : List ManifestRecord) (tables written : List LoadedSstable) (ids : List Nat)
    (segs : List (Nat × List WalEntry)) (hd : dir.Stores crc recs tables segs)
    (hc : Catalog tables) (h : CompactionResult p tables ids written)
    (hfiles : ∀ t ∈ tables ++ written, dir.HasFile t)
    (hfits : ∀ r ∈ applyRecords tables ids written, r.Fits)
    (hco : Coherent (walVersions segs ++ tableVersions tables))
    (hmax : ∀ v ∈ walVersions segs ++ tableVersions tables, v.seq ≤ u64Max) :
    ∃ before, openEngine crc none dir = .ok before ∧
      ((∀ n, ∃ after, openEngine crc none
          (dir.afterCrash crc (applyRecords tables ids written) n) = .ok after ∧
          SameReads p.nowMs after.engine.view before.engine.view) ↔
        ∀ k, newest (replayedVersions segs tables) k = none →
          CutsAgree p.nowMs tables ids written segs k) := by
  have hreads : ∀ j, SameReads p.nowMs (reopenedView segs (cutCatalog tables ids written j))
      (reopenedView segs tables) ↔
        ∀ k, SameAt p.nowMs segs tables (cutCatalog tables ids written j) k := fun j =>
    sameReads_cut_iff hc.tables (cutCatalog_spec hc h j).1.tables (cutCatalog_spec hc h j).2.1 hco
      hmax
  have hopen : ∀ j manifest, replay crc manifest = .ok (.ofRecords (recs ++
      (applyRecords tables ids written).take j)) →
      ∃ o, openEngine crc none { dir with manifest } = .ok o ∧
        o.engine.view = reopenedView segs (cutCatalog tables ids written j) := fun j _ hm =>
    openEngine_cut hd (cutCatalog_spec hc h j).1.ids hm (live_after_cut h hd.live j)
      fun t ht => hfiles t ((cutCatalog_spec hc h j).2.2 t ht)
  have hwhole : replay crc dir.manifest = .ok (.ofRecords recs) := by
    rw [hd.manifest]
    exact replay_encodeAll crc hd.fits
  obtain ⟨before, hbefore, hview⟩ := openEngine_cut hd hc.ids hwhole hd.live
    fun t ht => hfiles t (List.mem_append_left _ ht)
  refine ⟨before, hbefore, ?_⟩
  have hcuts : (∀ n, ∃ after, openEngine crc none
        (dir.afterCrash crc (applyRecords tables ids written) n) = .ok after ∧
        SameReads p.nowMs after.engine.view before.engine.view) ↔
      ∀ j k, SameAt p.nowMs segs tables (cutCatalog tables ids written j) k := by
    constructor
    · -- the cut behind a record is reached by the bytes of the records up to it
      intro hall j
      obtain ⟨after, hafter, hsame⟩ := hall ((manifestCodec crc).encodeAll
        ((applyRecords tables ids written).take j)).length
      obtain ⟨o, ho, hov⟩ := hopen j _ (replay_record_cut crc hd.fits hfits j)
      rw [← hd.manifest] at ho
      cases Except.ok.inj (hafter.symm.trans ho)
      rw [hov, hview] at hsame
      exact (hreads j).mp hsame
    · intro hall n
      obtain ⟨j, -, hj⟩ := replay_cut crc hd.fits hfits n
      obtain ⟨o, ho, hov⟩ := hopen j _ hj
      rw [← hd.manifest] at ho
      refine ⟨o, ho, ?_⟩
      rw [hov, hview]
      exact (hreads j).mpr (hall j)
  rw [hcuts, forall_comm]
  refine forall_congr' fun k => ?_
  rw [forall_cutCatalog (P := fun cut => SameAt p.nowMs segs tables cut k), sameAt_cuts_iff hc h hco]

def singleTable (id level : Nat) (v : Version) : LoadedSstable := buildSstable id level [v] none

theorem singleTable_wellFormed {id level : Nat} {v : Version} (hk : v.userKey ≠ []) :
    (singleTable id level v).WellFormed :=
  buildSstable_wellFormed (List.pairwise_singleton _ _) (by simp) (by simpa using hk) (by simp)

def tablesDir (crc : Bytes → UInt32) (tables written : List LoadedSstable) : DataDir where
  manifest := (manifestCodec crc).encodeAll (tables.map fun t => .sstableAdd t.metadata)
  sstFiles := (tables ++ written).map fun t => (t.metadata.id, t.reader)
  segments := []

def valueTable : LoadedSstable := singleTable 1 0 ⟨[1, 7], 1, .value [10] none⟩

def overwriteTable : LoadedSstable := singleTable 2 0 ⟨[1, 7], 2, .value [12] none⟩

def mergedTable : LoadedSstable := singleTable 3 1 ⟨[1, 7], 2, .value [12] none⟩

theorem overwrite_stored : (tablesDir (fun _ => 0) [valueTable, overwriteTable] [mergedTable]).Stores
    (fun _ => 0) ([valueTable, overwriteTable].map fun t => .sstableAdd t.metadata)
    [valueTable, overwriteTable] [] :=
  ⟨rfl, by decide +kernel, by decide +kernel, rfl⟩

theorem overwrite_merged :
    CompactionResult ⟨2, false, 0⟩ [valueTable, overwriteTable] [1, 2] [mergedTable] :=
  ⟨⟨100, by decide +kernel⟩, by simp [mergedTable, singleTable_wellFormed],
    List.pairwise_singleton _ _, by decide, by decide⟩

theorem overwrite_cuts_agree (k : Bytes) :
    CutsAgree 0 [valueTable, overwriteTable] [1, 2] [mergedTable] [] k := by
  have hkey : ∀ v ∈ tableVersions [valueTable, overwriteTable], v.userKey = [1, 7] := by
    decide +kernel
  have hnewest : newest (tableVersions [valueTable, overwriteTable]) [1, 7] =
      some ⟨[1, 7], 2, .value [12] none⟩ := by decide +kernel
  have htop : topVersion [valueTable, overwriteTable] [1, 7] =
      some ⟨[1, 7], 2, .value [12] none⟩ := by decide +kernel
  refine ⟨?_, ?_, ?_, ?_⟩
  · rintro o ho ⟨v, hv, rfl⟩ _
    cases List.mem_singleton.mp ho
    cases List.mem_singleton.mp hv
    exact fun t _ => congrArg (valueAt · t) htop.symm
  · intro r w hw
    exact absurd (newest_mem hw).1 (by simp [replayedVersions, walVersions])
  · intro r u _ hno hu _
    obtain ⟨v, hv, rfl⟩ := hu.holds
    rw [hkey v (mem_tableVersions.mpr ⟨u, hu.mem, hv⟩)] at hno
    exact absurd ⟨_, List.mem_singleton_self _, rfl⟩ (hno _ (List.mem_singleton_self _))
  · intro r v _ hv hlost
    refine absurd ?_ hlost
    obtain ⟨hvm, rfl⟩ := newest_mem hv
    rw [hkey v hvm, hnewest] at hv
    rw [← Option.some.inj hv]
    exact mem_tableVersions.mpr ⟨_, EngineState.mem_publishCatalog.mpr
      (Or.inr (List.mem_singleton_self _)), List.mem_singleton_self _⟩

/-- A value and its overwrite merged one level down: every cut reads as before. -/
theorem compaction_apply_atomic_iff_merge :
    ∃ before, openEngine (fun _ => 0) none
        (tablesDir (fun _ => 0) [valueTable, overwriteTable] [mergedTable]) = .ok before ∧
      ∀ n, ∃ after, openEngine (fun _ => 0) none
          ((tablesDir (fun _ => 0) [valueTable, overwriteTable] [mergedTable]).afterCrash (fun _ => 0)
            (applyRecords [valueTable, overwriteTable] [1, 2] [mergedTable]) n) = .ok after ∧
        SameReads 0 after.engine.view before.engine.view := by
  have hcatalog : Catalog [valueTable, overwriteTable] :=
    ⟨by simp [valueTable, overwriteTable, singleTable, buildSstable], by
      simp [valueTable, overwriteTable, singleTable_wellFormed]⟩
  have hfiles : ∀ t ∈ [valueTable, overwriteTable] ++ [mergedTable],
      (tablesDir (fun _ => 0) [valueTable, overwriteTable] [mergedTable]).HasFile t := by
    simp [DataDir.HasFile, tablesDir, valueTable, overwriteTable, mergedTable, singleTable, buildSstable]
  have hco : Coherent (walVersions [] ++ tableVersions [valueTable, overwriteTable]) := by
    simp [Coherent, Lib.Coherent, walVersions, tableVersions, valueTable, overwriteTable, singleTable,
      buildSstable]
  obtain ⟨before, hb, hiff⟩ := compaction_apply_atomic_iff (fun _ => 0) ⟨2, false, 0⟩ _ _ _ _ _ _
    overwrite_stored hcatalog overwrite_merged hfiles (by decide +kernel) hco (by decide +kernel)
  exact ⟨before, hb, hiff.mpr fun k _ => overwrite_cuts_agree k⟩

def tombstoneTable : LoadedSstable := singleTable 2 0 ⟨[1, 7], 2, .tombstone⟩

def keptTable : LoadedSstable := singleTable 3 2 ⟨[1, 7], 1, .value [10] none⟩

/-- A value and its tombstone go into a job at the deepest level, which drops the tombstone and keeps
the value. The crash comes behind the first record of the apply: all three tables are live, and the
deleted key is read again from the output. -/
theorem deleted_key_back_behind_partial_apply :
    CompactionResult ⟨2, true, 9⟩ [valueTable, tombstoneTable] [1, 2] [keptTable] ∧
    (openEngine (fun _ => 0) none
      (tablesDir (fun _ => 0) [valueTable, tombstoneTable] [keptTable])).toOption.map
        (fun o => o.engine.view.handleGet [1, 7] u64Max 9) = some none ∧
    (openEngine (fun _ => 0) none
      ((tablesDir (fun _ => 0) [valueTable, tombstoneTable] [keptTable]).afterCrash (fun _ => 0)
        (applyRecords [valueTable, tombstoneTable] [1, 2] [keptTable]) 54)).toOption.map
        (fun o => o.engine.view.handleGet [1, 7] u64Max 9) = some (some [10]) := by
  refine ⟨⟨⟨100, by decide +kernel⟩, by simp [keptTable, singleTable_wellFormed],
    List.pairwise_singleton _ _, by decide, by decide⟩, by decide +kernel, by decide +kernel⟩

end ZydecoDb
