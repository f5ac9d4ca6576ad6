import ZydecoDb.EngineSteps

namespace ZydecoDb

open Lib

def IdOrdered (tables : List LoadedSstable) : Prop :=
  ∀ a ∈ tables, ∀ b ∈ tables, a.metadata.id < b.metadata.id →
    NewerThan b.reader.entries a.reader.entries

theorem IdOrdered.mono {l m : List LoadedSstable} (h : IdOrdered m) (hs : ∀ t ∈ l, t ∈ m) :
    IdOrdered l :=
  fun a ha b hb => h a (hs a ha) b (hs b hb)

theorem IdOrdered.snoc {l : List LoadedSstable} {t : LoadedSstable} (h : IdOrdered l)
    (hid : ∀ a ∈ l, a.metadata.id < t.metadata.id)
    (hn : ∀ a ∈ l, NewerThan t.reader.entries a.reader.entries) : IdOrdered (l ++ [t]) := by
  intro a ha b hb hlt
  rcases List.mem_append.mp hb with hb | hb
  · rcases List.mem_append.mp ha with ha | ha
    · exact h a ha b hb hlt
    · cases List.mem_singleton.mp ha
      exact absurd (hid b hb) (Nat.lt_asymm hlt)
  · cases List.mem_singleton.mp hb
    rcases List.mem_append.mp ha with ha | ha
    · exact hn a ha
    · cases List.mem_singleton.mp ha
      exact absurd hlt (lt_irrefl _)

def EngineAction.writesOutput : EngineAction → Bool
  | .writeCompactionOutput _ => true
  | _ => false

namespace EngineState

def bystanders (st : EngineState) (c : Compacting) : List LoadedSstable :=
  (st.sstables.filter fun t => t.metadata.id ∉ c.inputMetas.map SstableMeta.id) ++ st.flushed.toList

def OutputNewest (st : EngineState) (action : EngineAction) : Prop :=
  action.writesOutput = true → ∀ c ∈ st.compacting, ∀ run ∈ c.pending.head?,
    ∀ t ∈ st.bystanders c, NewerThan run t.reader.entries

instance (st : EngineState) (action : EngineAction) : Decidable (st.OutputNewest action) :=
  inferInstanceAs (Decidable (action.writesOutput = true → _))

structure IdsByAge (st : EngineState) : Prop where
  current : IdOrdered (st.sstables ++ st.flushed.toList)
  published : ∀ c ∈ st.compacting, IdOrdered (st.bystanders c ++ c.written)

variable {st st' : EngineState} {cfg : CompactionConfig}

theorem outputNewest_of_not_onJob {a : EngineAction} (hj : a.onJob = false) : st.OutputNewest a := by
  intro hw
  cases a <;> simp [EngineAction.onJob, EngineAction.writesOutput] at hj hw

theorem mem_bystanders {c : Compacting} {t : LoadedSstable} : t ∈ st.bystanders c ↔
    t ∈ st.sstables ∧ t.metadata.id ∉ c.inputMetas.map SstableMeta.id ∨ t ∈ st.flushed := by
  simp [bystanders]

theorem bystanders_subset {c : Compacting} :
    ∀ t ∈ st.bystanders c, t ∈ st.sstables ++ st.flushed.toList := by
  intro t ht
  rcases mem_bystanders.mp ht with ⟨ht, -⟩ | ht
  · exact List.mem_append_left _ ht
  · exact List.mem_append_right _ (Option.mem_toList.mpr ht)

section

variable (h : st.IdsByAge)
include h

theorem idsByAge_of_tables_eq (hs : st'.sstables = st.sstables)
    (hf : st'.flushed = st.flushed) (hc : st'.compacting = st.compacting) : st'.IdsByAge := by
  obtain ⟨h1, h2⟩ := h
  refine ⟨by rwa [hs, hf], fun c hc' => ?_⟩
  rw [bystanders, hs, hf]
  exact h2 c (hc ▸ hc')

theorem IdsByAge.flushExecute (hi : st.Inv) {bloom : Bytes → Bool}
    (he : st.flushExecute bloom = some st') : st'.IdsByAge := by
  obtain ⟨hf, mt, rest, himm, -, rfl⟩ := flushExecute_cases he
  obtain ⟨h1, h2⟩ := h
  simp only [hf, Option.toList_none, List.append_nil] at h1
  have hmt : mt.entries ∈ st.memEntries := by simp [memEntries, himm]
  have hlive : ∀ t ∈ st.sstables, NewerThan mt.entries t.reader.entries := fun t ht =>
    (hi.mems_newer _ hmt t ht).newerThan
  refine ⟨h1.snoc (fun t ht => hi.ids_lt t (List.mem_append_left _ ht)) hlive, fun c hc => ?_⟩
  have hw : ∀ t ∈ c.written, NewerThan mt.entries t.reader.entries := by
    intro t ht v hv w hwt _
    obtain ⟨u, hu, -, hwu⟩ := (hi.compacting c hc).written_origin ht hwt
    exact hi.mems_newer _ hmt u hu v hv w hwu
  have hold : IdOrdered ((st.sstables.filter fun t =>
      t.metadata.id ∉ c.inputMetas.map SstableMeta.id) ++ c.written) := by
    simpa [bystanders, hf] using h2 c hc
  have hmem : ∀ t ∈ (st.sstables.filter fun t =>
      t.metadata.id ∉ c.inputMetas.map SstableMeta.id) ++ c.written,
      t.metadata.id < st.nextSstableId ∧ NewerThan mt.entries t.reader.entries := by
    intro t ht
    rcases List.mem_append.mp ht with ht | ht
    · have ht := (List.mem_filter.mp ht).1
      exact ⟨hi.ids_lt t (List.mem_append_left _ ht), hlive t ht⟩
    · refine ⟨hi.ids_lt t (List.mem_append_right _ (List.mem_append_right _ ?_)), hw t ht⟩
      rw [writtenTables, show st.compacting = some c from hc]
      exact ht
  refine (hold.snoc (t := buildSstable st.nextSstableId 0 mt.entries (some bloom))
    (fun t ht => (hmem t ht).1) fun t ht => (hmem t ht).2).mono fun t ht => ?_
  simp only [bystanders, Option.toList_some, List.append_assoc, List.mem_append] at ht ⊢
  tauto

theorem IdsByAge.flushPublish (he : st.flushPublish = some st') : st'.IdsByAge := by
  obtain ⟨t, ht, rfl⟩ := Option.map_eq_some_iff.mp he
  obtain ⟨h1, h2⟩ := h
  have hsst : ∀ u, u ∈ publishCatalog [] [t] st.sstables ↔ u ∈ st.sstables ∨ u ∈ st.flushed := by
    intro u
    simp [mem_publishCatalog, ht, eq_comm]
  refine ⟨h1.mono fun u hu => ?_, fun c hc => (h2 c hc).mono fun u hu => ?_⟩
  · simp only [Option.toList_none, List.append_nil, hsst] at hu
    simpa using hu
  · simp only [List.mem_append, mem_bystanders, hsst] at hu ⊢
    rcases hu with (⟨hu | hu, hin⟩ | hu) | hu
    · exact Or.inl (Or.inl ⟨hu, hin⟩)
    · exact Or.inl (Or.inr hu)
    · simp at hu
    · exact Or.inr hu

theorem IdsByAge.submitCompaction {now : Nat}
    (he : st.submitCompaction cfg now = some st') : st'.IdsByAge := by
  obtain ⟨-, plan, -, rfl⟩ := submitCompaction_cases he
  refine ⟨h.current, fun c hc => ?_⟩
  cases Option.mem_some_iff.mp hc
  refine h.current.mono fun t ht => ?_
  rw [List.append_nil] at ht
  exact bystanders_subset t ht

theorem IdsByAge.writeCompactionOutput (hi : st.Inv) {bloom : Bytes → Bool}
    (hn : st.OutputNewest (.writeCompactionOutput bloom))
    (he : st.writeCompactionOutput cfg bloom = some st') : st'.IdsByAge := by
  obtain ⟨job, metas, run, pending, written, f, hc, -, rfl⟩ := writeCompactionOutput_cases he
  refine ⟨h.current, fun c hc' => ?_⟩
  cases Option.mem_some_iff.mp hc'
  have hold := h.published _ hc
  have hnew := hn rfl _ hc run rfl
  have hruns := (hi.compacting _ hc).runs
  have hids := hi.ids_lt
  simp only [allTables, writtenTables, hc] at hids
  rw [← List.append_assoc]
  refine hold.snoc (fun t ht => hids t ?_) fun t ht => ?_
  · simp only [List.mem_append, mem_bystanders, Option.mem_toList] at ht ⊢
    tauto
  · rcases List.mem_append.mp ht with ht | ht
    · exact hnew t ht
    · intro v hv w hw hk
      have hbelow := (List.pairwise_append.mp hruns).2.2 _ (List.mem_map_of_mem ht) run
        List.mem_cons_self w hw v hv
      exact absurd hk (ne_of_gt hbelow)

theorem IdsByAge.compactionPublish (he : st.compactionPublish = some st') : st'.IdsByAge := by
  obtain ⟨job, metas, written, hc, rfl⟩ := compactionPublish_cases he
  refine ⟨(h.published _ hc).mono fun t ht => ?_, by simp⟩
  simp only [List.mem_append, mem_publishCatalog, mem_bystanders, Option.mem_toList] at ht ⊢
  tauto

theorem IdsByAge.flushFailed : st.flushFailed.IdsByAge := by
  refine ⟨h.current.mono fun t ht => ?_, fun c hc => (h.published c hc).mono fun t ht => ?_⟩
  · exact ((List.Sublist.refl _).append (List.nil_sublist _)).subset ht
  · exact (((List.Sublist.refl _).append (List.nil_sublist _)).append (List.Sublist.refl _)).subset ht

end

theorem idsByAge_init : EngineState.init.IdsByAge where
  current a ha := by simp [init] at ha
  published := by simp [init]

/-- A job whose outputs are the newest keeps ids in the order of age. -/
theorem idsByAge_step {action : EngineAction} (h : st.IdsByAge) (hi : st.Inv)
    (hn : st.OutputNewest action) (he : st.step cfg action = some st') : st'.IdsByAge := by
  cases action with
  | put _ _ _ | del _ | writeBatch _ _ | syncWal | freeze | snapshotOwned | snapshotDrop _ =>
    obtain ⟨h1, h2, h3, -⟩ := step_frame rfl he
    exact idsByAge_of_tables_eq h h1 h2 h3
  | flushExecute bloom => exact h.flushExecute hi he
  | flushPublish => exact h.flushPublish he
  | flushFailed =>
    cases Option.some.inj he
    exact h.flushFailed
  | submitCompaction nowMs => exact h.submitCompaction he
  | writeCompactionOutput bloom => exact h.writeCompactionOutput hi hn he
  | compactionPublish => exact h.compactionPublish he
  | compactionFailed =>
    cases Option.some.inj he
    exact ⟨h.current, by simp [EngineState.compactionFailed]⟩

end EngineState

end ZydecoDb
