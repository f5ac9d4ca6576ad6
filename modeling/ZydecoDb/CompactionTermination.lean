import ZydecoDb.CompactionProgress

namespace ZydecoDb

open Lib CompactionPlanner

theorem CompactionPlanner.planL2Gc_cases {metas : List SstableMeta} {cfg : CompactionConfig}
    {job : CompactionJob} (h : planL2Gc metas cfg = some job) :
    ∃ oldest ∈ metas, oldest.level = cfg.maxLevel ∧ 2 ≤ job.inputs.length ∧
      job = { inputs := (oldest :: (atLevel metas cfg.maxLevel).filter fun m =>
                m.id ≠ oldest.id && m.overlapsSpan (oldest.minKey, oldest.maxKey)).map SstableMeta.id
              inputLevel := cfg.maxLevel
              outputLevel := cfg.maxLevel } := by
  obtain ⟨oldest, ho, h⟩ := Option.bind_eq_some_iff.mp h
  obtain ⟨hm, hl⟩ := mem_atLevel.mp (List.argmin_mem ho)
  simp only at h
  split at h
  next => simp at h
  next hlen =>
    obtain ⟨-, ⟨⟩⟩ := Option.ite_none_left_eq_some.mp h
    exact ⟨oldest, hm, hl, not_lt.mp hlen, rfl⟩

namespace LiveCatalog

variable {cfg : CompactionConfig} {env : CompactEnv} {c c' : LiveCatalog}
  {plan : CompactionJob × List SstableMeta}

/-- Above the bottom level the tables are counted. At the bottom, where a job may write back as many
tables as it took, the keys are counted once for each table range they lie in. -/
def measure (cfg : CompactionConfig) (c : LiveCatalog) (i : Fin (cfg.maxLevel + 1)) : Nat :=
  if i.val = cfg.maxLevel then Block.crowding ((c.tablesAt i).map LoadedSstable.block)
  else (c.tablesAt i).length

theorem Valid.eq_of_id (hv : c.Valid) {l : List SstableMeta} (hl : ∀ m ∈ l, m ∈ c.metas)
    {t : LoadedSstable} (ht : t ∈ c.sstables) (hid : t.metadata.id ∈ l.map SstableMeta.id) :
    t.metadata ∈ l :=
  (mem_of_id_mem hv.metas_nodup hl (mem_metas ht)).mp hid

theorem exists_table {m : SstableMeta} (hm : m ∈ c.metas) : ∃ t ∈ c.sstables, t.metadata = m :=
  List.mem_map.mp hm

theorem Valid.l0_base (hv : c.Valid) (hp : planCompactionJob c.metas cfg = some plan)
    (h : planL0 c.metas cfg = some plan.1) : 1 ≤ baseLevel c.metas cfg := by
  obtain ⟨-, hin, hlen⟩ := planCompactionJob_inputs hp
  obtain ⟨-, span, hs, he⟩ := planL0_cases h
  by_contra hbase
  have hzero : baseLevel c.metas cfg = 0 := by omega
  obtain ⟨hmin, ⟨first, hfirst, -⟩, hmax, -⟩ := keySpan_isSpan hs
  have hmeets : first ∈ (atLevel c.metas 0).filter fun m => m.overlapsSpan span := by
    refine List.mem_filter.mpr ⟨hfirst, ?_⟩
    obtain ⟨t, ht, rfl⟩ := exists_table (mem_atLevel.mp hfirst).1
    have hle : t.metadata.minKey ≤ t.metadata.maxKey :=
      ((hv.tight t ht).covers _ (hv.tight t ht).lo_mem).2
    by_contra hov
    rcases overlapsSpan_eq_false.mp (Bool.not_eq_true _ ▸ hov) with hlt | hlt
    · exact absurd ((hmin _ hfirst).trans hle) (not_le.mpr hlt)
    · exact absurd (hle.trans (hmax _ hfirst)) (not_le.mpr hlt)
  have hpos : 0 < ((atLevel c.metas 0).filter fun m => m.overlapsSpan span).length :=
    List.length_pos_of_mem hmeets
  have hinputs : plan.1.inputs.length = (atLevel c.metas 0).length +
      ((atLevel c.metas 0).filter fun m => m.overlapsSpan span).length := by
    rw [he, hzero, List.length_map, List.length_append]
  have hle : plan.2.length ≤ (atLevel c.metas 0).length := by
    rw [hin, atLevel, ← List.countP_eq_length_filter, ← List.countP_eq_length_filter]
    refine List.countP_mono_left fun m hm hid => ?_
    rw [decide_eq_true_eq, he, hzero] at hid
    obtain ⟨m', hm', hid⟩ := List.mem_map.mp hid
    have hl0 : m' ∈ atLevel c.metas 0 := by
      rcases List.mem_append.mp hm' with hm' | hm'
      · exact hm'
      · exact (List.mem_filter.mp hm').1
    rw [← List.inj_on_of_nodup_map hv.metas_nodup (mem_atLevel.mp hl0).1 hm hid]
    exact decide_eq_true (mem_atLevel.mp hl0).2
  omega

section Bottom

variable (hv : c.Valid) {oldest : SstableMeta} (hm : oldest ∈ c.metas)
  (hl : oldest.level = cfg.maxLevel)
  (hin : plan.1.inputs = (oldest :: (atLevel c.metas cfg.maxLevel).filter fun m =>
    m.id ≠ oldest.id && m.overlapsSpan (oldest.minKey, oldest.maxKey)).map SstableMeta.id)
include hv hm hl hin

theorem Valid.bottom_inputs {t : LoadedSstable} (ht : t ∈ c.sstables) :
    t.metadata.id ∈ plan.1.inputs ↔ t.metadata = oldest ∨ t.metadata.level = cfg.maxLevel ∧
      t.metadata.id ≠ oldest.id ∧ t.metadata.overlapsSpan (oldest.minKey, oldest.maxKey) = true := by
  have hsub : ∀ m ∈ oldest :: (atLevel c.metas cfg.maxLevel).filter (fun m =>
      m.id ≠ oldest.id && m.overlapsSpan (oldest.minKey, oldest.maxKey)), m ∈ c.metas := by
    intro m hm'
    rcases List.mem_cons.mp hm' with rfl | hm'
    · exact hm
    · exact (mem_atLevel.mp (List.mem_filter.mp hm').1).1
  rw [hin, mem_of_id_mem hv.metas_nodup hsub (mem_metas ht), List.mem_cons, List.mem_filter, mem_atLevel,
    Bool.and_eq_true, decide_eq_true_eq]
  have hmt := mem_metas ht
  tauto

end Bottom

theorem meets_iff {t u : LoadedSstable} :
    t.block.Meets u.block ↔ t.metadata.overlapsSpan (u.metadata.minKey, u.metadata.maxKey) = true := by
  rw [← not_iff_not, Bool.not_eq_true, overlapsSpan_eq_false, Block.Meets, not_and_or, not_le, not_le,
    or_comm]
  rfl

theorem allKeys_block (ts : List LoadedSstable) :
    Block.allKeys (ts.map LoadedSstable.block) =
      ((ts.map fun t => t.reader.entries).flatten).map Version.userKey := by
  induction ts with
  | nil => rfl
  | cons t ts ih =>
    rw [List.map_cons, List.map_cons, List.flatten_cons, List.map_append, ← ih]
    rfl

theorem jobRuns_keys (cfg : CompactionConfig) (env : CompactEnv) (c : LiveCatalog) (job : CompactionJob)
    (inputMetas : List SstableMeta) (level id : Nat) :
    (Block.allKeys ((writeOutputs cfg env level id (c.jobRuns cfg env job inputMetas)).map
      LoadedSstable.block)).Subperm
      (Block.allKeys ((c.inputTables (inputMetas.map SstableMeta.id)).map LoadedSstable.block)) := by
  rw [allKeys_block, allKeys_block, writeOutputs_entries, jobRuns, compactionRuns_flatten]
  have hsub := (survivors_sublist ⟨env.gcWatermark, job.outputLevel = cfg.maxLevel &&
    env.allowTombstoneDrop, env.nowMs⟩ (mergeRaw ((c.inputTables (inputMetas.map SstableMeta.id)).map
      fun t => t.reader.entries)) none .fresh).subperm
  obtain ⟨l, hl, hle⟩ := hsub.trans (kmerge_perm _).subperm
  exact ⟨l.map Version.userKey, hl.map _, hle.map _⟩

theorem Valid.outputs_before (hv : c.Valid) (job : CompactionJob) (inputMetas : List SstableMeta)
    (level id : Nat) :
    ((writeOutputs cfg env level id (c.jobRuns cfg env job inputMetas)).map
      LoadedSstable.block).Pairwise Block.Before := by
  have hbelow : (c.jobRuns cfg env job inputMetas).Pairwise KeysBelow :=
    compactionRuns_keysBelow (hv.sources_sorted _)
  have hentries : (writeOutputs cfg env level id (c.jobRuns cfg env job inputMetas)).map
      (fun t => t.reader.entries) = c.jobRuns cfg env job inputMetas := writeOutputs_entries level id _
  rw [← hentries, List.pairwise_map] at hbelow
  refine List.pairwise_map.mpr (hbelow.imp fun {t u} h x hx y hy => ?_)
  obtain ⟨v, hv, rfl⟩ := List.mem_map.mp hx
  obtain ⟨w, hw, rfl⟩ := List.mem_map.mp hy
  exact h v hv w hw

theorem length_inputTables (hp : planCompactionJob c.metas cfg = some plan) :
    (c.inputTables (plan.2.map SstableMeta.id)).length = plan.1.inputs.length := by
  obtain ⟨-, hin, hlen⟩ := planCompactionJob_inputs hp
  have hsame : c.inputTables (plan.2.map SstableMeta.id) =
      c.sstables.filter fun t => t.metadata.id ∈ plan.1.inputs := by
    refine List.filter_congr fun t ht => ?_
    rw [decide_eq_decide]
    exact id_mem_planned hp ht
  rw [hsame, ← hlen, hin, metas, List.filter_map, List.length_map]
  rfl

theorem Valid.bottom_parts (hv : c.Valid) (hp : planCompactionJob c.metas cfg = some plan)
    (hgc : planL2Gc c.metas cfg = some plan.1) :
    ∃ o others, (c.inputTables (plan.2.map SstableMeta.id)).Perm (o :: others) ∧ others ≠ [] ∧
      (∀ t ∈ others, t.block.Meets o.block) ∧
      (∀ t ∈ c.tablesAt cfg.maxLevel, t.metadata.id ∉ plan.2.map SstableMeta.id →
        ¬ t.block.Meets o.block) ∧
      (c.tablesAt cfg.maxLevel).Perm ((o :: others) ++
        (c.tablesAt cfg.maxLevel).filter fun t => t.metadata.id ∉ plan.2.map SstableMeta.id) := by
  obtain ⟨oldest, hm, hl, htwo, he⟩ := planL2Gc_cases hgc
  have hin := congrArg CompactionJob.inputs he
  have hlen := length_inputTables hp
  have hids : ∀ t ∈ c.sstables, t.metadata.id ∈ plan.2.map SstableMeta.id ↔ t.metadata = oldest ∨
      t.metadata.level = cfg.maxLevel ∧ t.metadata.id ≠ oldest.id ∧
        t.metadata.overlapsSpan (oldest.minKey, oldest.maxKey) = true := fun t ht =>
    (id_mem_planned hp ht).trans (hv.bottom_inputs hm hl hin ht)
  obtain ⟨o, ho, rfl⟩ := exists_table hm
  generalize plan.2.map SstableMeta.id = ids at *
  have htake : c.inputTables ids = (c.tablesAt cfg.maxLevel).filter fun t => t.metadata.id ∈ ids := by
    rw [tablesAt, List.filter_filter]
    refine List.filter_congr fun t ht => ?_
    rw [← Bool.decide_and, decide_eq_decide, iff_self_and, hids t ht]
    rintro (heq | ⟨hlevel, -⟩)
    · exact heq ▸ hl
    · exact hlevel
  have hotake : o ∈ c.inputTables ids :=
    List.mem_filter.mpr ⟨ho, decide_eq_true ((hids o ho).mpr (Or.inl rfl))⟩
  obtain ⟨before, after, hsplit⟩ := List.append_of_mem hotake
  have htaken : (c.inputTables ids).Perm (o :: (before ++ after)) := by
    rw [hsplit]
    exact List.perm_middle
  have hself : o.metadata.minKey ≤ o.metadata.maxKey :=
    ((hv.tight o ho).covers _ (hv.tight o ho).lo_mem).2
  refine ⟨o, before ++ after, htaken, fun hnil => ?_, fun t ht => ?_, fun t ht hnot hmeet => ?_, ?_⟩
  · rw [htaken.length_eq, hnil, List.length_singleton] at hlen
    omega
  · have hmem := List.mem_filter.mp (htaken.mem_iff.mpr (List.mem_cons_of_mem o ht))
    rcases (hids t hmem.1).mp (of_decide_eq_true hmem.2) with heq | ⟨-, -, hov⟩
    · have hblock : t.block.lo = o.block.lo ∧ t.block.hi = o.block.hi := by
        rw [LoadedSstable.block, heq]
        exact ⟨rfl, rfl⟩
      exact ⟨hblock.1.trans_le hself, hself.trans_eq hblock.2.symm⟩
    · exact meets_iff.mpr hov
  · obtain ⟨htm, hlevel⟩ := mem_tablesAt.mp ht
    rw [hids t htm, not_or] at hnot
    refine hnot.2 ⟨hlevel, fun heq => hnot.1 ?_, meets_iff.mp hmeet⟩
    exact List.inj_on_of_nodup_map hv.metas_nodup (mem_metas htm) hm heq
  · have hparts := List.filter_append_perm (fun t : LoadedSstable => decide (t.metadata.id ∈ ids))
      (c.tablesAt cfg.maxLevel)
    simp only [← decide_not] at hparts
    rw [← htake] at hparts
    exact hparts.symm.trans (htaken.append_right _)

/-- A garbage collection job at the bottom lowers the crowding. -/
theorem Valid.crowding_lt (hv : c.Valid) (hp : planCompactionJob c.metas cfg = some plan)
    (hperm : c'.sstables.Perm
      ((c.sstables.filter fun t => t.metadata.id ∉ plan.2.map SstableMeta.id) ++
        writeOutputs cfg env plan.1.outputLevel c.nextSstableId (c.jobRuns cfg env plan.1 plan.2)))
    (hgc : planL2Gc c.metas cfg = some plan.1) :
    Block.crowding ((c'.tablesAt cfg.maxLevel).map LoadedSstable.block) <
      Block.crowding ((c.tablesAt cfg.maxLevel).map LoadedSstable.block) := by
  obtain ⟨o, others, htaken, hne, hmeet, hapart, hold⟩ := hv.bottom_parts hp hgc
  have hkeys := jobRuns_keys cfg env c plan.1 plan.2 plan.1.outputLevel c.nextSstableId
  have hnow := tablesAt_perm cfg.maxLevel hperm
  have hwritten : ((writeOutputs cfg env plan.1.outputLevel c.nextSstableId
      (c.jobRuns cfg env plan.1 plan.2)).filter fun t => t.metadata.level = cfg.maxLevel) =
      writeOutputs cfg env plan.1.outputLevel c.nextSstableId (c.jobRuns cfg env plan.1 plan.2) := by
    rw [List.filter_eq_self]
    intro t ht
    rw [decide_eq_true_eq, writeOutputs_level ht]
    exact (planL2Gc_levels hgc).2
  rw [hwritten] at hnow
  rw [Block.crowding_perm ((hnow.trans List.perm_append_comm).map LoadedSstable.block),
    Block.crowding_perm (hold.map LoadedSstable.block), List.map_append, List.map_append, List.map_cons]
  have htight : ∀ t ∈ o :: others, t.block.Tight := fun t ht =>
    hv.tight t (List.mem_filter.mp (htaken.mem_iff.mpr ht)).1
  refine Block.crowding_merge_lt ?_ ?_ ?_ ?_ ?_ ?_ ?_ (hv.outputs_before _ _ _ _)
  · intro b hb
    obtain ⟨t, ht, rfl⟩ := List.mem_map.mp (List.map_cons.symm ▸ hb)
    exact htight t ht
  · intro b hb
    obtain ⟨t, ht, rfl⟩ := List.mem_map.mp hb
    exact hv.outputs_tight _ _ _ _ t ht
  · intro b hb
    obtain ⟨t, ht, rfl⟩ := List.mem_map.mp hb
    exact (hv.tight t (mem_tablesAt.mp (List.mem_filter.mp ht).1).1).covers
  · exact fun hnil => hne (List.map_eq_nil_iff.mp hnil)
  · intro b hb
    obtain ⟨t, ht, rfl⟩ := List.mem_map.mp hb
    exact hmeet t ht
  · intro b hb
    obtain ⟨t, ht, rfl⟩ := List.mem_map.mp hb
    exact hapart t (List.mem_filter.mp ht).1 (of_decide_eq_true (List.mem_filter.mp ht).2)
  · have hperm' : (Block.allKeys ((c.inputTables (plan.2.map SstableMeta.id)).map
        LoadedSstable.block)).Perm (Block.allKeys (o.block :: others.map LoadedSstable.block)) :=
      (htaken.map LoadedSstable.block).flatMap_right Block.keys
    exact hkeys.trans hperm'.subperm

theorem measure_of_lt {i : Fin (cfg.maxLevel + 1)} (hi : i.val < cfg.maxLevel) :
    c.measure cfg i = (c.tablesAt i).length :=
  if_neg hi.ne

section Decrease

variable (hp : planCompactionJob c.metas cfg = some plan)
  (hperm : c'.sstables.Perm ((c.sstables.filter fun t => t.metadata.id ∉ plan.2.map SstableMeta.id) ++
    writeOutputs cfg env plan.1.outputLevel c.nextSstableId (c.jobRuns cfg env plan.1 plan.2)))
include hp hperm

theorem measure_lt_of_source {level : Nat} (hlevel : level < cfg.maxLevel)
    (hout : level < plan.1.outputLevel)
    (habove : ∀ t ∈ c.sstables, t.metadata.id ∈ plan.1.inputs → level ≤ t.metadata.level)
    (hsource : ∃ t ∈ c.sstables, t.metadata.id ∈ plan.1.inputs ∧ t.metadata.level = level) :
    toLex (c'.measure cfg) < toLex (c.measure cfg) := by
  refine ⟨⟨level, by omega⟩, fun j hj => ?_, ?_⟩
  · have hj' : j.val < level := hj
    change c'.measure cfg j = c.measure cfg j
    rw [measure_of_lt (by omega), measure_of_lt (by omega)]
    refine length_tablesAt_same hp hperm (by omega) fun t ht hid => ?_
    obtain ⟨htm, htl⟩ := mem_tablesAt.mp ht
    have hle := habove t htm hid
    omega
  · change c'.measure cfg ⟨level, _⟩ < c.measure cfg ⟨level, _⟩
    rw [measure_of_lt hlevel, measure_of_lt hlevel]
    obtain ⟨t, ht, hid, htl⟩ := hsource
    exact length_tablesAt_lt hp hperm hout.ne (mem_tablesAt.mpr ⟨ht, htl⟩) hid

variable (hv : c.Valid)
include hv

theorem Valid.l0_measure_lt (hl0 : planL0 c.metas cfg = some plan.1) :
    toLex (c'.measure cfg) < toLex (c.measure cfg) := by
  have hbase := hv.l0_base hp hl0
  have hmax : baseLevel c.metas cfg = cfg.maxLevel ∨ 1 ≤ baseLevel c.metas cfg ∧
      baseLevel c.metas cfg < cfg.maxLevel := baseLevel_cases
  obtain ⟨-, span, hs, he⟩ := planL0_cases hl0
  obtain ⟨-, ⟨m, hm, -⟩, -, -⟩ := keySpan_isSpan hs
  obtain ⟨t, ht, rfl⟩ := exists_table (mem_atLevel.mp hm).1
  have hid : t.metadata.id ∈ plan.1.inputs := by
    rw [he]
    exact List.mem_map_of_mem (List.mem_append_left _ hm)
  have hout : plan.1.outputLevel = baseLevel c.metas cfg := congrArg CompactionJob.outputLevel he
  have hzero : 0 < cfg.maxLevel := by omega
  exact measure_lt_of_source hp hperm hzero (by omega) (fun u _ _ => Nat.zero_le _)
    ⟨t, ht, hid, (mem_atLevel.mp hm).2⟩

theorem Valid.level_measure_lt {level : Nat} (hhigh : level < cfg.maxLevel)
    (hlevel : planLevel c.metas cfg level = some plan.1) :
    toLex (c'.measure cfg) < toLex (c.measure cfg) := by
  obtain ⟨oldest, hm, hl, he⟩ := planLevel_cases hlevel
  have hout : plan.1.outputLevel = level + 1 := congrArg CompactionJob.outputLevel he
  have hin := congrArg CompactionJob.inputs he
  obtain ⟨t, ht, rfl⟩ := exists_table hm
  have hid : t.metadata.id ∈ plan.1.inputs := by
    rw [hin]
    exact List.mem_cons_self
  refine measure_lt_of_source hp hperm hhigh (by omega) (fun u hu huid => ?_) ⟨t, ht, hid, hl⟩
  have hchosen : u.metadata ∈ t.metadata :: (atLevel c.metas (level + 1)).filter fun m =>
      m.overlapsSpan (t.metadata.minKey, t.metadata.maxKey) := by
    rw [hin] at huid
    refine hv.eq_of_id (fun m hm' => ?_) hu huid
    rcases List.mem_cons.mp hm' with rfl | hm'
    · exact hm
    · exact (mem_atLevel.mp (List.mem_filter.mp hm').1).1
  rcases List.mem_cons.mp hchosen with heq | hnext
  · rw [heq, hl]
  · have hul := (mem_atLevel.mp (List.mem_filter.mp hnext).1).2
    omega

theorem Valid.bottom_measure_lt (hgc : planL2Gc c.metas cfg = some plan.1) :
    toLex (c'.measure cfg) < toLex (c.measure cfg) := by
  obtain ⟨oldest, hm, hl, -, he⟩ := planL2Gc_cases hgc
  have hin := congrArg CompactionJob.inputs he
  have hout : plan.1.outputLevel = cfg.maxLevel := congrArg CompactionJob.outputLevel he
  refine ⟨⟨cfg.maxLevel, by omega⟩, fun j hj => ?_, ?_⟩
  · have hj' : j.val < cfg.maxLevel := hj
    change c'.measure cfg j = c.measure cfg j
    rw [measure_of_lt hj', measure_of_lt hj']
    refine length_tablesAt_same hp hperm (by omega) fun t ht hid => ?_
    obtain ⟨htm, htl⟩ := mem_tablesAt.mp ht
    rcases (hv.bottom_inputs hm hl hin htm).mp hid with heq | ⟨hlevel, -⟩
    · rw [heq] at htl
      omega
    · omega
  · change c'.measure cfg ⟨cfg.maxLevel, _⟩ < c.measure cfg ⟨cfg.maxLevel, _⟩
    rw [measure, measure, if_pos rfl, if_pos rfl]
    exact hv.crowding_lt hp hperm hgc

end Decrease

theorem Valid.measure_lt (hv : c.Valid) (h : c.compactOnce cfg env = .ok (some c')) :
    toLex (c'.measure cfg) < toLex (c.measure cfg) := by
  obtain ⟨-, plan, hp, -, hperm⟩ := compactOnce_cases h
  obtain ⟨hplan, -, -⟩ := planCompactionJob_inputs hp
  rcases plan_cases hplan with hl0 | ⟨level, -, hhigh, hlevel⟩ | hgc
  · exact hv.l0_measure_lt hp hperm hl0
  · exact hv.level_measure_lt hp hperm hhigh hlevel
  · exact hv.bottom_measure_lt hp hperm hgc

theorem tryPlan_of_lt (hmax : cfg.maxLevel < 255) :
    c.tryPlan cfg = .ok (planCompactionJob c.metas cfg) :=
  if_neg (not_le.mpr hmax)

/-- Enough rounds of `compact_once` leave nothing to plan. -/
theorem Valid.compactAll_ends (hmax : cfg.maxLevel < 255) (envs : Nat → CompactEnv) (hv : c.Valid)
    (n : Nat) :
    ∃ fuel c', compactAll cfg envs fuel n c = .ok (some c') ∧ c'.tryPlan cfg = .ok none := by
  induction hx : toLex (c.measure cfg) using WellFoundedLT.induction generalizing c n with
  | _ x ih =>
    subst hx
    cases hplan : planCompactionJob c.metas cfg with
    | none =>
      have hnone : c.tryPlan cfg = .ok none := by rw [tryPlan_of_lt hmax, hplan]
      refine ⟨1, c, ?_, hnone⟩
      rw [compactAll, LiveCatalog.compactOnce, hnone]
      rfl
    | some plan =>
      have hsome : ∃ c', c.compactOnce cfg (envs n) = .ok (some c') := by
        rw [LiveCatalog.compactOnce, tryPlan_of_lt hmax, hplan]
        exact ⟨_, rfl⟩
      obtain ⟨next, hnext⟩ := hsome
      obtain ⟨fuel, c', hrun, hend⟩ := ih _ (hv.measure_lt hnext) (hv.compactOnce hnext) (n + 1) rfl
      refine ⟨fuel + 1, c', ?_, hend⟩
      rw [compactAll, hnext]
      exact hrun

/-- Compaction without new flushes comes to rest, from every catalog and whatever each call finds, for
exactly the configurations whose level table can be counted in a byte. -/
theorem compactAll_terminates (cfg : CompactionConfig) :
    (∀ c : LiveCatalog, c.Valid → LevelsDisjoint c.metas → ∀ envs : Nat → CompactEnv,
      ∃ fuel c', compactAll cfg envs fuel 0 c = .ok (some c') ∧ c'.tryPlan cfg = .ok none) ↔
    cfg.maxLevel < 255 := by
  constructor
  · intro h
    by_contra hmax
    have hvalid : (⟨[], 0⟩ : LiveCatalog).Valid := by
      refine ⟨?_, ?_, ?_, List.nodup_nil, ?_⟩ <;> exact fun t ht => absurd ht List.not_mem_nil
    obtain ⟨fuel, c', -, hend⟩ := h ⟨[], 0⟩ hvalid (fun a ha => absurd ha List.not_mem_nil)
      fun _ => ⟨0, false, 0, fun _ _ => true⟩
    rw [tryPlan, if_pos (not_lt.mp hmax)] at hend
    cases hend
  · exact fun hmax c hv _ envs => hv.compactAll_ends hmax envs 0

/-- With 255 as the bottom level the first plan panics, even when there is no table. -/
theorem lastByteLevel_panics :
    ¬ ∃ fuel c', compactAll { CompactionConfig.default with maxLevel := 255 }
      (fun _ => ⟨0, true, 0, fun _ _ => true⟩) fuel 0 ⟨[], 0⟩ = .ok (some c') := by
  rintro ⟨fuel, c', h⟩
  cases fuel with
  | zero => cases h
  | succ fuel => cases h

end LiveCatalog

end ZydecoDb
