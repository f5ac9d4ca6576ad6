import ZydecoDb.FlushedSteps

namespace ZydecoDb

open Lib

def GcPolicy.drops (p : GcPolicy) (v : Version) : Bool := p.expires v || p.dropsTombstone v

theorem mem_runs_of_newest {p : GcPolicy} {n : Nat} {sources : List (List Version)}
    (hs : ∀ src ∈ sources, src.Pairwise Version.le) (hc : Coherent sources.flatten) {v : Version}
    (hv : newest sources.flatten v.userKey = some v) (hd : p.drops v = false) :
    v ∈ (compactionRuns p n sources).flatten := by
  obtain ⟨he, ht⟩ : p.expires v = false ∧ p.dropsTombstone v = false := by
    simpa [GcPolicy.drops] using hd
  obtain ⟨hm, -, hmax⟩ := (newest_eq_some hc).mp hv
  have hkept : newest (sources.flatten.filter fun v => !p.dropsTombstone v) v.userKey = some v := by
    refine (newest_eq_some (hc.sublist fun w hw => (List.mem_filter.mp hw).1)).mpr ⟨?_, rfl, ?_⟩
    · exact List.mem_filter.mpr ⟨hm, by simp [ht]⟩
    · exact fun w hw => hmax w (List.mem_filter.mp hw).1
  have hrun := newest_runs (p := p) (n := n) hs hc v.userKey
  rw [hkept] at hrun
  refine (newest_mem (k := v.userKey) (hrun.trans ?_)).1
  simp [Option.filter, he]

namespace EngineState

/-- A job gives up the newest version of a key only when every version of the key is dead, and
leaves one with the largest sequence number of all tables. -/
def JobKeeps (cfg : CompactionConfig) (st : EngineState) : EngineAction → Prop
  | .submitCompaction nowMs => ∀ plan ∈ planCompactionJob st.metas cfg,
    (∀ v ∈ tableVersions (st.inputTables (plan.2.map SstableMeta.id)),
      newest (tableVersions st.sstables) v.userKey = some v →
      (gcPolicy cfg st plan.1 nowMs).drops v = true →
      ∀ w ∈ tableVersions st.sstables, w.userKey = v.userKey → w.entry.isLive nowMs = false) ∧
    ∃ v ∈ tableVersions st.sstables, v.seq = sstableMaxSeq st.sstables ∧
      ((gcPolicy cfg st plan.1 nowMs).drops v = true →
        v ∉ tableVersions (st.inputTables (plan.2.map SstableMeta.id)))
  | _ => True

instance decidableJobKeeps (cfg : CompactionConfig) (st : EngineState) :
    (a : EngineAction) → Decidable (st.JobKeeps cfg a)
  | .submitCompaction _ => inferInstanceAs (Decidable (∀ plan ∈ planCompactionJob st.metas cfg, _))
  | .put _ _ _ | .del _ | .writeBatch _ _ | .syncWal | .freeze | .flushExecute _ | .flushPublish
  | .flushFailed | .writeCompactionOutput _ | .compactionPublish | .compactionFailed
  | .snapshotOwned | .snapshotDrop _ => isTrue trivial

variable {st st' : EngineState} {cfg : CompactionConfig} {clock : Nat} {accepted : List WalEntry}

theorem jobKeeps_of_not_onJob {a : EngineAction} (hj : a.onJob = false) : st.JobKeeps cfg a := by
  cases a with
  | submitCompaction nowMs => simp [EngineAction.onJob] at hj
  | _ => trivial

theorem Inv.coherent_tables (hi : st.Inv) : Coherent (tableVersions st.sstables) :=
  hi.coherent.sublist fun _ hv => mem_view_versions.mpr (Or.inr (mem_tableVersions.mp hv))

theorem mem_outside_or_inputs {live : List LoadedSstable} {ids : List Nat} {v : Version}
    (hv : v ∈ tableVersions live) :
    v ∈ tableVersions (outsideOf live ids) ∨ v ∈ tableVersions (inputsOf live ids) := by
  obtain ⟨t, ht, hvt⟩ := mem_tableVersions.mp hv
  by_cases hid : t.metadata.id ∈ ids
  · exact Or.inr (mem_tableVersions.mpr ⟨t, mem_inputsOf.mpr ⟨ht, hid⟩, hvt⟩)
  · exact Or.inl (mem_tableVersions.mpr ⟨t, mem_outsideOf.mpr ⟨ht, hid⟩, hvt⟩)

theorem mem_runs_of_newest_table (hi : st.Inv) {ids : List Nat} {p : GcPolicy} {n : Nat}
    {v : Version} (hv : newest (tableVersions st.sstables) v.userKey = some v)
    (hin : v ∈ tableVersions (st.inputTables ids)) (hd : p.drops v = false) :
    v ∈ (compactionRuns p n ((st.inputTables ids).map fun t => t.reader.entries)).flatten := by
  have hflat : ((st.inputTables ids).map fun t => t.reader.entries).flatten =
      tableVersions (st.inputTables ids) := List.flatMap_def.symm
  have hsub : ∀ w ∈ tableVersions (st.inputTables ids), w ∈ tableVersions st.sstables := by
    intro w hw
    obtain ⟨t, ht, hwt⟩ := mem_tableVersions.mp hw
    exact mem_tableVersions.mpr ⟨t, (mem_inputTables.mp ht).1, hwt⟩
  have hco := hi.coherent_tables
  refine mem_runs_of_newest ?_ (hflat ▸ hco.sublist hsub) ?_ hd
  · intro src hsrc
    obtain ⟨t, ht, rfl⟩ := List.mem_map.mp hsrc
    exact (hi.tables t (mem_inputTables.mp ht).1).sorted
  · rw [hflat]
    obtain ⟨-, -, hmax⟩ := (newest_eq_some hco).mp hv
    exact (newest_eq_some (hco.sublist hsub)).mpr ⟨hin, rfl, fun w hw => hmax w (hsub w hw)⟩

theorem inputMetas_eq {plan : CompactionJob × List SstableMeta}
    (hp : planCompactionJob st.metas cfg = some plan) :
    plan.2 = (inputsOf st.sstables (plan.2.map SstableMeta.id)).map LoadedSstable.metadata := by
  obtain ⟨-, hin, -⟩ := planCompactionJob_inputs hp
  have hids : ∀ m ∈ st.metas, m.id ∈ plan.2.map SstableMeta.id ↔ m.id ∈ plan.1.inputs := by
    intro m hm
    constructor
    · intro h
      obtain ⟨m', hm', he⟩ := List.mem_map.mp h
      rw [hin] at hm'
      have hm'' := (List.mem_filter.mp hm').2
      rw [decide_eq_true_eq, he] at hm''
      exact hm''
    · intro h
      refine List.mem_map_of_mem ?_
      rw [hin]
      exact List.mem_filter.mpr ⟨hm, decide_eq_true h⟩
  have hfilter : (inputsOf st.sstables (plan.2.map SstableMeta.id)).map LoadedSstable.metadata =
      st.metas.filter fun m => m.id ∈ plan.2.map SstableMeta.id := by
    rw [inputsOf, metas, List.filter_map]
    rfl
  have hsame : st.metas.filter (fun m => m.id ∈ plan.2.map SstableMeta.id) =
      st.metas.filter fun m => m.id ∈ plan.1.inputs :=
    List.filter_congr fun m hm => decide_eq_decide.mpr (hids m hm)
  rw [hfilter, hsame]
  exact hin

section

variable (h : st.Backed clock accepted)
include h

theorem Backed.submitCompaction {now : Nat} (hk : st.JobKeeps cfg (.submitCompaction now))
    (hs : st.submitCompaction cfg now = some st') : st'.Backed (max clock now) accepted := by
  have hi' := h.inv.submitCompaction hs
  have hids' := h.idsByAge.submitCompaction hs
  obtain ⟨hn, plan, hp, rfl⟩ := submitCompaction_cases hs
  obtain ⟨hdrop, x, hx, hxs, hxd⟩ := hk plan hp
  refine ⟨hi', hids', h.coherent, h.next_pos, h.seq_lt, h.mems, h.answers.mono (le_max_left _ _),
    fun c hc => ?_⟩
  cases Option.mem_some_iff.mp hc
  have hsplit : ∀ v ∈ tableVersions st.sstables,
      v ∈ tableVersions (outsideOf st.sstables (plan.2.map SstableMeta.id)) ∨
        v ∈ tableVersions (inputsOf st.sstables (plan.2.map SstableMeta.id)) :=
    fun v hv => mem_outside_or_inputs hv
  have hsafe : JobSafe now st.sstables ⟨plan.1, plan.2, compactionRuns
      (gcPolicy cfg st plan.1 now) cfg.targetFileBytes
      ((st.inputTables (plan.2.map SstableMeta.id)).map fun t => t.reader.entries), []⟩ := by
    refine ⟨inputMetas_eq hp, ⟨_, _, rfl⟩, by simp, List.Pairwise.nil, fun v hv hnew => ?_,
      x, ?_, hxs⟩
    · rcases hsplit v hv with hout | hin
      · exact Or.inl (List.mem_append_left _ hout)
      · cases hd : (gcPolicy cfg st plan.1 now).drops v with
        | true => exact Or.inr (hdrop v hin hnew hd)
        | false =>
          exact Or.inl (List.mem_append_right _ (mem_runs_of_newest_table h.inv hnew hin hd))
    · rcases hsplit x hx with hout | hin
      · exact List.mem_append_left _ hout
      · have hd : (gcPolicy cfg st plan.1 now).drops x = false :=
          Bool.eq_false_iff.mpr fun hd => hxd hd hin
        have hnew : newest (tableVersions st.sstables) x.userKey = some x :=
          (newest_eq_some h.inv.coherent_tables).mpr
            ⟨hx, rfl, fun w hw _ => hxs ▸ seq_le_sstableMaxSeq h.inv.tables hw⟩
        exact List.mem_append_right _ (mem_runs_of_newest_table h.inv hnew hin hd)
  exact hsafe.mono (le_max_right _ _)

theorem Backed.writeCompactionOutput {bloom : Bytes → Bool}
    (hn : st.OutputNewest (.writeCompactionOutput bloom))
    (hs : st.writeCompactionOutput cfg bloom = some st') : st'.Backed clock accepted := by
  have hi' := h.inv.writeCompactionOutput hs
  have hids' := h.idsByAge.writeCompactionOutput h.inv hn hs
  obtain ⟨job, metas, run, pending, written, f, hc, -, rfl⟩ := writeCompactionOutput_cases hs
  obtain ⟨hmetas, hruns, habove, hsorted, hnewest, hmaxSeq⟩ := h.job _ hc
  refine ⟨hi', hids', h.coherent, h.next_pos, h.seq_lt, h.mems, h.answers, fun c hc' => ?_⟩
  cases Option.mem_some_iff.mp hc'
  have hlt := h.inv.ids_lt
  simp only [allTables, writtenTables, hc] at hlt
  refine ⟨hmetas, by rw [runs_written]; exact hruns, ?_, ?_, ?_, ?_⟩
  · intro o ho t ht
    rcases List.mem_append.mp ho with ho | ho
    · exact habove o ho t ht
    · cases List.mem_singleton.mp ho
      exact hlt t (List.mem_append_left _ (mem_inputsOf.mp ht).1)
  · refine List.pairwise_append.mpr ⟨hsorted, List.pairwise_singleton _ _, fun a ha b hb => ?_⟩
    cases List.mem_singleton.mp hb
    exact hlt a (List.mem_append_right _ (List.mem_append_right _ ha))
  · unfold leftVersions
    rw [runs_written]
    exact hnewest
  · unfold leftVersions
    rw [runs_written]
    exact hmaxSeq

theorem Backed.compactionResult {job : CompactionJob}
    {metas : List SstableMeta} {written : List LoadedSstable}
    (hc : st.compacting = some ⟨job, metas, [], written⟩) :
    ∃ p, CompactionResult p st.sstables (metas.map SstableMeta.id) written := by
  have hjob := h.job _ hc
  obtain ⟨p, n, hruns⟩ := hjob.runs
  refine ⟨p, ⟨n, ?_⟩, fun t ht => ((h.inv.compacting _ hc).written t ht).1, hjob.sorted,
    fun o ho t ht => ?_, hjob.above⟩
  · simpa using hruns
  · have hnd := h.inv.ids_nodup
    simp only [allTables, writtenTables, hc, List.map_append, List.nodup_append] at hnd
    refine hnd.2.2 _ (List.mem_map_of_mem ht) _ (List.mem_append_right _ ?_)
    exact List.mem_map_of_mem (f := fun t : LoadedSstable => t.metadata.id) ho

/-- A cut of the apply keeps the catalog, its highest number and its answers. -/
theorem Backed.cut {job : CompactionJob} {metas : List SstableMeta} {written : List LoadedSstable}
    (hc : st.compacting = some ⟨job, metas, [], written⟩) (j : Nat) :
    Catalog (cutCatalog st.sstables (metas.map SstableMeta.id) written j) ∧
      sstableMaxSeq (cutCatalog st.sstables (metas.map SstableMeta.id) written j) =
        sstableMaxSeq st.sstables ∧
      Answers clock (cutCatalog st.sstables (metas.map SstableMeta.id) written j)
        (flushedVersions accepted st.sstables) := by
  obtain ⟨p, hr⟩ := h.compactionResult hc
  have hjob := h.job _ hc
  have hleft : leftVersions st.sstables ⟨job, metas, [], written⟩ =
      tableVersions (outsideOf st.sstables (metas.map SstableMeta.id)) ++ tableVersions written := by
    simp [leftVersions, tableVersions, List.flatMap_def]
  have hcurrent : IdOrdered st.sstables :=
    h.idsByAge.current.mono fun t ht => List.mem_append_left _ ht
  have hpublished : IdOrdered (outsideOf st.sstables (metas.map SstableMeta.id) ++ written) := by
    refine (h.idsByAge.published _ hc).mono fun t ht => ?_
    simp only [List.mem_append, mem_outsideOf, mem_bystanders] at ht ⊢
    tauto
  have hco : Coherent (flushedVersions accepted st.sstables) :=
    h.coherent.sublist fun v hv => (mem_flushedVersions.mp hv).1
  refine ⟨(cutCatalog_spec h.catalog hr j).1, sstableMaxSeq_cut h.catalog hr ?_ j,
    Answers.cut h.answers h.catalog hr hco hcurrent hpublished ?_ j⟩
  · exact hleft ▸ hjob.keepsMaxSeq
  · exact hleft ▸ hjob.keepsNewest

end

theorem cutCatalog_all {live written : List LoadedSstable} {ids : List Nat} :
    cutCatalog live ids written (written.length + live.length + 1) = publishCatalog ids written live := by
  have hlen : (inputsOf live ids).length ≤ live.length := List.length_filter_le _ _
  rw [cutCatalog, if_neg (by omega), removedCatalog, List.take_of_length_le (by omega),
    publishCatalog, publishCatalog]
  congr 2
  refine List.filter_congr fun t ht => decide_eq_decide.mpr (not_congr ?_)
  constructor
  · intro h
    obtain ⟨u, hu, he⟩ := List.mem_map.mp h
    exact he ▸ (mem_inputsOf.mp hu).2
  · exact fun h => List.mem_map_of_mem (f := fun t : LoadedSstable => t.metadata.id)
      (mem_inputsOf.mpr ⟨ht, h⟩)

theorem Backed.compactionPublish (h : st.Backed clock accepted)
    (hs : st.compactionPublish = some st') : st'.Backed clock accepted := by
  have hi' := h.inv.compactionPublish hs
  have hids' := h.idsByAge.compactionPublish hs
  obtain ⟨job, metas, written, hc, rfl⟩ := compactionPublish_cases hs
  obtain ⟨-, hmax, hans⟩ := h.cut hc (written.length + st.sstables.length + 1)
  rw [cutCatalog_all] at hmax hans
  refine ⟨hi', hids', h.coherent, h.next_pos, h.seq_lt, fun v => ?_, ?_, by simp⟩
  · show _ ↔ _ ∧ sstableMaxSeq (publishCatalog (metas.map SstableMeta.id) written st.sstables) < _
    rw [hmax]
    exact h.mems v
  · unfold flushedVersions at hans ⊢
    rw [hmax]
    exact hans

theorem Backed.setMarks (h : st.Backed clock accepted) (buffered synced : Nat) (snaps : List Nat) :
    Backed { st with bufferedSeq := buffered, syncedSeq := synced, liveSnapshotSeqs := snaps }
      clock accepted :=
  h.frame (h.inv.setMarks _ _ _) (idsByAge_of_tables_eq h.idsByAge rfl rfl rfl) rfl rfl
    (fun _ => Iff.rfl) (le_refl _)

def clockAfter (clock : Nat) : EngineAction → Nat
  | .submitCompaction nowMs => max clock nowMs
  | _ => clock

/-- A maintenance step that keeps what is read keeps the tables' answers. -/
theorem backed_step {a : EngineAction} (h : st.Backed clock accepted)
    (ha : a.walEntry st.nextSeq = none) (hn : st.OutputNewest a) (hk : st.JobKeeps cfg a)
    (hs : st.step cfg a = some st') : st'.Backed (clockAfter clock a) accepted := by
  have hi' := inv_step h.inv hs
  have hids' := idsByAge_step h.idsByAge h.inv hn hs
  cases a with
  | put _ _ _ | del _ | writeBatch _ _ => simp [EngineAction.walEntry] at ha
  | syncWal =>
    cases Option.some.inj hs
    exact h.setMarks _ _ _
  | freeze => exact h.freeze hs
  | flushExecute bloom =>
    obtain ⟨h1, h2⟩ := flushExecute_tables hs
    obtain ⟨-, mt, rest, -, -, rfl⟩ := flushExecute_cases hs
    exact h.frame hi' hids' h1 h2 (fun _ => Iff.rfl) (le_refl _)
  | flushPublish => exact h.flushPublish hs
  | flushFailed =>
    cases Option.some.inj hs
    exact h.frame hi' hids' rfl rfl (fun _ => Iff.rfl) (le_refl _)
  | submitCompaction nowMs => exact h.submitCompaction hk hs
  | writeCompactionOutput bloom => exact h.writeCompactionOutput hn hs
  | compactionPublish => exact h.compactionPublish hs
  | compactionFailed =>
    cases Option.some.inj hs
    exact ⟨hi', hids', h.coherent, h.next_pos, h.seq_lt, h.mems, h.answers,
      by simp [EngineState.compactionFailed]⟩
  | snapshotOwned =>
    cases Option.some.inj hs
    exact h.setMarks _ _ _
  | snapshotDrop seqUpper =>
    cases Option.some.inj hs
    exact h.setMarks _ _ _

end EngineState

end ZydecoDb
