import ZydecoDb.EngineWrites

namespace ZydecoDb

open Lib

def AllNewer (l m : List Version) : Prop := ∀ v ∈ l, ∀ w ∈ m, w.seq < v.seq

theorem AllNewer.newerThan {l m : List Version} (h : AllNewer l m) : NewerThan l m :=
  fun v hv w hw _ => h v hv w hw

namespace EngineState

def writtenTables (st : EngineState) : List LoadedSstable :=
  match st.compacting with
  | some c => c.written
  | none => []

def allTables (st : EngineState) : List LoadedSstable :=
  st.sstables ++ (st.flushed.toList ++ st.writtenTables)

def memEntries (st : EngineState) : List (List Version) :=
  st.active.entries :: st.immutable.reverse.map Memtable.entries

/-- The job in flight: its inputs are still live, and what it writes comes from them, in key order.
-/
structure CompactingOk (live : List LoadedSstable) (c : Compacting) : Prop where
  inputs : ∀ m ∈ c.inputMetas, ∃ t ∈ live, t.metadata = m
  runs : (c.written.map (fun t => t.reader.entries) ++ c.pending).Pairwise KeysBelow
  pending : ∀ r ∈ c.pending, r.Pairwise Version.le ∧ r ≠ []
  written : ∀ t ∈ c.written, t.WellFormed ∧ t.metadata.level = c.job.outputLevel
  origin : ∀ r ∈ c.written.map (fun t => t.reader.entries) ++ c.pending, ∀ v ∈ r,
    ∃ t ∈ live, t.metadata.id ∈ c.inputMetas.map SstableMeta.id ∧ v ∈ t.reader.entries

theorem CompactingOk.mono {live live' : List LoadedSstable} {c : Compacting}
    (h : CompactingOk live c) (hs : ∀ t ∈ live, t ∈ live') : CompactingOk live' c where
  inputs m hm := by
    obtain ⟨t, ht, he⟩ := h.inputs m hm
    exact ⟨t, hs t ht, he⟩
  runs := h.runs
  pending := h.pending
  written := h.written
  origin r hr v hv := by
    obtain ⟨t, ht, hid, hvt⟩ := h.origin r hr v hv
    exact ⟨t, hs t ht, hid, hvt⟩

structure Inv (st : EngineState) : Prop where
  seq_lt : ∀ v ∈ st.view.versions, v.seq < st.nextSeq
  next_le : st.nextSeq ≤ u64Max
  key_ne : ∀ v ∈ st.view.versions, v.userKey ≠ []
  coherent : Coherent st.view.versions
  mems : st.memEntries.Pairwise AllNewer
  mems_newer : ∀ m ∈ st.memEntries, ∀ t ∈ st.sstables, AllNewer m t.reader.entries
  imm_ne : ∀ mt ∈ st.immutable, mt.entries ≠ []
  tables : ∀ t ∈ st.sstables, t.WellFormed
  ids : st.sstables.Pairwise fun a b => a.metadata.id < b.metadata.id
  ids_nodup : (st.allTables.map fun t => t.metadata.id).Nodup
  ids_lt : ∀ t ∈ st.allTables, t.metadata.id < st.nextSstableId
  flushed : ∀ t ∈ st.flushed, t.WellFormed ∧ t.metadata.level = 0 ∧
    ∃ mt, st.immutable.head? = some mt ∧ t.reader.entries = mt.entries
  compacting : ∀ c ∈ st.compacting, CompactingOk st.sstables c

variable {st st' : EngineState}

theorem mem_view_versions {v : Version} : v ∈ st.view.versions ↔
    (∃ m ∈ st.memEntries, v ∈ m) ∨ ∃ t ∈ st.sstables, v ∈ t.reader.entries := by
  rw [ReadView.mem_versions]
  simp [memEntries, view, or_assoc]

theorem mem_publishCatalog {removed : List Nat} {added ssts : List LoadedSstable}
    {t : LoadedSstable} : t ∈ publishCatalog removed added ssts ↔
      t ∈ ssts ∧ t.metadata.id ∉ removed ∨ t ∈ added := by
  simp [publishCatalog]

theorem publishFlush_mem {t u : LoadedSstable} {live : List LoadedSstable} :
    u ∈ publishCatalog [] [t] live ↔ u ∈ live ∨ u = t := by
  simp [mem_publishCatalog]

theorem publishCatalog_perm (removed : List Nat) (added live : List LoadedSstable) :
    (publishCatalog removed added live).Perm
      ((live.filter fun t => t.metadata.id ∉ removed) ++ added) := List.perm_insertionSort _ _

theorem publishFlush_perm (t : LoadedSstable) (live : List LoadedSstable) :
    (publishCatalog [] [t] live).Perm (live ++ [t]) := by
  simpa using publishCatalog_perm [] [t] live

theorem publishCatalog_ids {removed : List Nat} {added ssts : List LoadedSstable}
    (h : ((ssts ++ added).map fun t => t.metadata.id).Nodup) :
    (publishCatalog removed added ssts).Pairwise fun a b => a.metadata.id < b.metadata.id := by
  have hperm := publishCatalog_perm removed added ssts
  have hsub : ((ssts.filter fun t => t.metadata.id ∉ removed) ++ added).Sublist (ssts ++ added) :=
    List.filter_sublist.append (List.Sublist.refl _)
  have hnd : ((publishCatalog removed added ssts).map fun t => t.metadata.id).Nodup :=
    (hperm.map _).nodup_iff.mpr (h.sublist (hsub.map _))
  have hle : (publishCatalog removed added ssts).Pairwise
      fun a b => a.metadata.id ≤ b.metadata.id := List.pairwise_insertionSort _ _
  rw [List.Nodup, List.pairwise_map] at hnd
  exact (hle.and hnd).imp fun hab => lt_of_le_of_ne hab.1 hab.2

theorem inv_init : EngineState.init.Inv where
  seq_lt := by simp [mem_view_versions, memEntries, init, Memtable.empty]
  next_le := by decide
  key_ne := by simp [mem_view_versions, memEntries, init, Memtable.empty]
  coherent := by simp [Lib.Coherent, mem_view_versions, memEntries, init, Memtable.empty]
  mems := List.pairwise_singleton _ _
  mems_newer := by simp [init]
  imm_ne := by simp [init]
  tables := by simp [init]
  ids := List.Pairwise.nil
  ids_nodup := List.nodup_nil
  ids_lt := by simp [allTables, writtenTables, init]
  flushed := by simp [init]
  compacting := by simp [init]

theorem commit_cases {ops : List BatchOp} (h : st.commit ops = some st') :
    st.nextSeq < u64Max ∧ st' = { st with
      active := ops.foldl (fun mt op => mt.insert (op.version st.nextSeq)) st.active
      nextSeq := st.nextSeq + 1
      bufferedSeq := max st.bufferedSeq st.nextSeq } := by
  unfold commit at h
  split at h
  next hlt => exact ⟨hlt, (Option.some.inj h).symm⟩
  next => simp at h

theorem Inv.active_seq_lt (hi : st.Inv) : ∀ v ∈ st.active.entries, v.seq < st.nextSeq :=
  fun v hv => hi.seq_lt v (mem_view_versions.mpr (Or.inl ⟨_, List.mem_cons_self, hv⟩))

theorem Inv.mem_commit_active (hi : st.Inv) {ops : List BatchOp} (ho : ValidOps ops) {v : Version} :
    v ∈ (ops.foldl (fun mt op => mt.insert (op.version st.nextSeq)) st.active).entries ↔
      v ∈ st.active.entries ∨ ∃ op ∈ ops, v = op.version st.nextSeq :=
  mem_foldl_insert ho.nodup fun w hw hs => absurd (hi.active_seq_lt w hw) (by omega)

theorem Inv.commit (hi : st.Inv) {ops : List BatchOp} (ho : ValidOps ops)
    (h : st.commit ops = some st') : st'.Inv := by
  obtain ⟨hlt, rfl⟩ := commit_cases h
  have hact := fun v => hi.mem_commit_active ho (v := v)
  clear h
  generalize ops.foldl (fun mt op => mt.insert (op.version st.nextSeq)) st.active = act at hact ⊢
  have hold : ∀ v, v ∈ (⟨act, st.immutable, st.sstables⟩ : ReadView).versions →
      v ∈ st.view.versions ∨ ∃ op ∈ ops, v = op.version st.nextSeq := by
    intro v hv
    rcases ReadView.mem_versions.mp hv with hv | hv
    · exact ((hact v).mp hv).imp_left fun hv => ReadView.mem_versions.mpr (Or.inl hv)
    · exact Or.inl (ReadView.mem_versions.mpr (Or.inr hv))
  have hnew : ∀ op ∈ ops, ∀ w ∈ st.view.versions, w.seq < (op.version st.nextSeq).seq := by
    intro op _ w hw
    simpa using hi.seq_lt w hw
  refine ⟨?_, Nat.succ_le_of_lt hlt, ?_, ?_, ?_, ?_, hi.imm_ne, hi.tables, hi.ids, hi.ids_nodup,
    hi.ids_lt, hi.flushed, hi.compacting⟩
  · intro v hv
    rcases hold v hv with hv | ⟨op, -, rfl⟩
    · exact Nat.lt_succ_of_lt (hi.seq_lt v hv)
    · simp
  · intro v hv
    rcases hold v hv with hv | ⟨op, hop, rfl⟩
    · exact hi.key_ne v hv
    · simpa using ho.key_ne op hop
  · intro v hv w hw hk hs
    rcases hold v hv with hv | ⟨op, hop, rfl⟩
    · rcases hold w hw with hw | ⟨op', hop', rfl⟩
      · exact hi.coherent v hv w hw hk hs
      · exact absurd hs (Nat.ne_of_lt (hnew op' hop' v hv))
    · rcases hold w hw with hw | ⟨op', hop', rfl⟩
      · exact absurd hs (Nat.ne_of_gt (hnew op hop w hw))
      · rw [BatchOp.version_userKey, BatchOp.version_userKey] at hk
        rw [List.inj_on_of_nodup_map ho.nodup hop hop' hk]
  · obtain ⟨hhead, htail⟩ := List.pairwise_cons.mp hi.mems
    refine List.pairwise_cons.mpr ⟨fun m hm v hv w hw => ?_, htail⟩
    rcases (hact v).mp hv with hv | ⟨op, hop, rfl⟩
    · exact hhead m hm v hv w hw
    · exact hnew op hop w (mem_view_versions.mpr (Or.inl ⟨m, List.mem_cons_of_mem _ hm, hw⟩))
  · intro m hm t ht v hv w hw
    rcases List.mem_cons.mp hm with rfl | hm
    · rcases (hact v).mp hv with hv | ⟨op, hop, rfl⟩
      · exact hi.mems_newer _ List.mem_cons_self t ht v hv w hw
      · exact hnew op hop w (mem_view_versions.mpr (Or.inr ⟨t, ht, hw⟩))
    · exact hi.mems_newer m (List.mem_cons_of_mem _ hm) t ht v hv w hw

theorem freeze_cases (h : st.freeze = some st') : st.active.isEmpty = false ∧
    st' = { st with active := .empty, immutable := st.immutable ++ [st.active] } := by
  unfold EngineState.freeze at h
  split at h
  next => simp at h
  next hne => exact ⟨by simpa using hne, (Option.some.inj h).symm⟩

theorem Inv.freeze (hi : st.Inv) (h : st.freeze = some st') : st'.Inv := by
  obtain ⟨hne, rfl⟩ := freeze_cases h
  have hv : ∀ v, v ∈ (⟨.empty, st.immutable ++ [st.active], st.sstables⟩ : ReadView).versions ↔
      v ∈ st.view.versions := by
    intro v
    rw [ReadView.mem_versions, ReadView.mem_versions]
    simp only [Memtable.empty, List.not_mem_nil, false_or, List.mem_append, List.mem_singleton,
      view]
    constructor
    · rintro (⟨mt, hmt | rfl, hv⟩ | hv)
      · exact Or.inr (Or.inl ⟨mt, hmt, hv⟩)
      · exact Or.inl hv
      · exact Or.inr (Or.inr hv)
    · rintro (hv | ⟨mt, hmt, hv⟩ | hv)
      · exact Or.inl ⟨st.active, Or.inr rfl, hv⟩
      · exact Or.inl ⟨mt, Or.inl hmt, hv⟩
      · exact Or.inr hv
  refine ⟨fun v h => hi.seq_lt v ((hv v).mp h), hi.next_le, fun v h => hi.key_ne v ((hv v).mp h),
    hi.coherent.sublist fun v h => (hv v).mp h, ?_, ?_, ?_, hi.tables, hi.ids, hi.ids_nodup,
    hi.ids_lt, ?_, hi.compacting⟩
  · simp only [memEntries, List.reverse_append, List.reverse_singleton, List.singleton_append,
      List.map_cons]
    exact List.pairwise_cons.mpr ⟨fun m _ v hv => by simp [Memtable.empty] at hv, hi.mems⟩
  · simp only [memEntries, List.reverse_append, List.reverse_singleton, List.singleton_append,
      List.map_cons]
    intro m hm
    rcases List.mem_cons.mp hm with rfl | hm
    · intro t _ v hv
      simp [Memtable.empty] at hv
    · exact hi.mems_newer m hm
  · intro mt hmt
    rcases List.mem_append.mp hmt with hmt | hmt
    · exact hi.imm_ne mt hmt
    · cases List.mem_singleton.mp hmt
      simpa [Memtable.isEmpty] using hne
  · intro t ht
    obtain ⟨h1, h2, mt, hmt, he⟩ := hi.flushed t ht
    exact ⟨h1, h2, mt, by rw [List.head?_append, hmt]; rfl, he⟩

end EngineState

end ZydecoDb
