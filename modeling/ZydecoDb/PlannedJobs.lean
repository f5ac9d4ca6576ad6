import ZydecoDb.CompactionPlanner

namespace ZydecoDb

open Lib

def Apart (a b : SstableMeta) : Prop := a.maxKey < b.minKey ∨ b.maxKey < a.minKey

def Beside (t : SstableMeta) (ms : List SstableMeta) : Prop :=
  (∀ m ∈ ms, t.maxKey < m.minKey) ∨ ∀ m ∈ ms, m.maxKey < t.minKey

variable {ms : List SstableMeta}

theorem Beside.apart {t m : SstableMeta} (h : Beside t ms) (hm : m ∈ ms) :
    Apart t m :=
  h.imp (fun h => h m hm) fun h => h m hm

theorem Beside.mono {t : SstableMeta} {l ms : List SstableMeta} (h : Beside t ms)
    (hs : ∀ m ∈ l, m ∈ ms) : Beside t l :=
  h.imp (fun h m hm => h m (hs m hm)) fun h m hm => h m (hs m hm)

variable {span : Bytes × Bytes}

theorem overlapsSpan_eq_false {m : SstableMeta} :
    m.overlapsSpan span = false ↔ m.maxKey < span.1 ∨ span.2 < m.minKey := by
  rw [SstableMeta.overlapsSpan, overlaps, Bool.not_eq_false', Bool.or_eq_true, decide_eq_true_eq,
    decide_eq_true_eq]

theorem apart_iff_overlapsSpan {a b : SstableMeta} :
    Apart a b ↔ a.overlapsSpan (b.minKey, b.maxKey) = false := by
  rw [overlapsSpan_eq_false, Apart]

structure IsSpan (ms : List SstableMeta) (span : Bytes × Bytes) : Prop where
  le_min : ∀ m ∈ ms, span.1 ≤ m.minKey
  min_mem : ∃ m ∈ ms, m.minKey = span.1
  max_le : ∀ m ∈ ms, m.maxKey ≤ span.2
  max_mem : ∃ m ∈ ms, m.maxKey = span.2

theorem IsSpan.concat (h : IsSpan ms span) (a : SstableMeta) :
    IsSpan (ms ++ [a]) (if a.minKey < span.1 then a.minKey else span.1,
      if span.2 < a.maxKey then a.maxKey else span.2) := by
  obtain ⟨h1, ⟨x, hx, hxe⟩, h3, ⟨y, hy, hye⟩⟩ := h
  refine ⟨?_, ?_, ?_, ?_⟩
  · simp only [List.mem_append, List.mem_singleton]
    rintro m (hm | rfl)
    · split
      next hlt => exact hlt.le.trans (h1 m hm)
      next => exact h1 m hm
    · split
      next => exact le_rfl
      next hlt => exact not_lt.mp hlt
  · dsimp only
    split
    next => exact ⟨a, by simp, rfl⟩
    next => exact ⟨x, List.mem_append_left _ hx, hxe⟩
  · simp only [List.mem_append, List.mem_singleton]
    rintro m (hm | rfl)
    · split
      next hlt => exact (h3 m hm).trans hlt.le
      next => exact h3 m hm
    · split
      next => exact le_rfl
      next hlt => exact not_lt.mp hlt
  · dsimp only
    split
    next => exact ⟨a, by simp, rfl⟩
    next => exact ⟨y, List.mem_append_left _ hy, hye⟩

theorem keySpan_isSpan (h : keySpan ms = some span) :
    IsSpan ms span := by
  cases ms with
  | nil => simp [keySpan] at h
  | cons first rest =>
    cases Option.some.inj h
    clear h
    have hfold : ∀ (l seen : List SstableMeta) (acc : Bytes × Bytes), IsSpan seen acc →
        IsSpan (seen ++ l) (l.foldl (fun span m => (if m.minKey < span.1 then m.minKey else span.1,
          if span.2 < m.maxKey then m.maxKey else span.2)) acc) := by
      intro l
      induction l with
      | nil => intro seen acc hacc; simpa using hacc
      | cons a l ih => intro seen acc hacc; simpa using ih (seen ++ [a]) _ (hacc.concat a)
    exact hfold rest [first] _ ⟨by simp, by simp, by simp, by simp⟩

theorem beside_iff_overlapsSpan {t : SstableMeta} (h : keySpan ms = some span) :
    Beside t ms ↔ t.overlapsSpan span = false := by
  obtain ⟨h1, ⟨x, hx, hxe⟩, h3, ⟨y, hy, hye⟩⟩ := keySpan_isSpan h
  rw [overlapsSpan_eq_false, Beside]
  refine or_congr ⟨fun hb => hxe ▸ hb x hx, fun hb m hm => hb.trans_le (h1 m hm)⟩
    ⟨fun hb => hye ▸ hb y hy, fun hb m hm => (h3 m hm).trans_lt hb⟩

theorem beside_of_span {t : SstableMeta} {movers inputs : List SstableMeta}
    (hs : keySpan movers = some span) (ht : t.overlapsSpan span = false) (hle : t.minKey ≤ t.maxKey)
    (hin : ∀ m ∈ inputs, m ∈ movers ∨ m.overlapsSpan span = true ∧ Apart t m) :
    Beside t inputs := by
  have hmet : ∀ m : SstableMeta, m.overlapsSpan span = true → span.1 ≤ m.maxKey ∧ m.minKey ≤ span.2 := by
    intro m hm
    have hn : ¬ (m.maxKey < span.1 ∨ span.2 < m.minKey) := by
      rw [← overlapsSpan_eq_false, hm]
      simp
    exact ⟨not_lt.mp fun h => hn (Or.inl h), not_lt.mp fun h => hn (Or.inr h)⟩
  obtain ⟨h1, -, h3, -⟩ := keySpan_isSpan hs
  rcases overlapsSpan_eq_false.mp ht with hb | hb
  · refine Or.inl fun m hm => ?_
    rcases hin m hm with hm | ⟨ho, ha⟩
    · exact hb.trans_le (h1 m hm)
    · exact ha.resolve_right fun ha => absurd (((hmet m ho).1.trans_lt ha).trans_le hle) (lt_asymm hb)
  · refine Or.inr fun m hm => ?_
    rcases hin m hm with hm | ⟨ho, ha⟩
    · exact (h3 m hm).trans_lt hb
    · exact ha.resolve_left fun ha => absurd ((hle.trans_lt ha).trans_le (hmet m ho).2) (lt_asymm hb)

theorem planCompactionJob_inputs {metas : List SstableMeta} {cfg : CompactionConfig}
    {plan : CompactionJob × List SstableMeta} (h : planCompactionJob metas cfg = some plan) :
    CompactionPlanner.plan metas cfg = some plan.1 ∧
      plan.2 = metas.filter (fun m => m.id ∈ plan.1.inputs) ∧
      plan.2.length = plan.1.inputs.length := by
  obtain ⟨job, hj, h⟩ := Option.bind_eq_some_iff.mp h
  simp only at h
  split at h
  next => simp at h
  next hlen =>
    obtain ⟨-, ⟨⟩⟩ := Option.ite_none_left_eq_some.mp h
    exact ⟨hj, rfl, not_not.mp hlen⟩

def LevelsDisjoint (metas : List SstableMeta) : Prop :=
  ∀ a ∈ metas, ∀ b ∈ metas, 1 ≤ a.level → a.level = b.level → a.id ≠ b.id → Apart a b

def BaseLevelClear (cfg : CompactionConfig) (metas : List SstableMeta) : Prop :=
  cfg.l0Trigger ≤ CompactionPlanner.levelFileCount metas 0 →
    ∀ span ∈ keySpan (CompactionPlanner.atLevel metas 0), ∀ m ∈ metas,
      0 < m.level → m.level < CompactionPlanner.baseLevel metas cfg → m.overlapsSpan span = false

instance (cfg : CompactionConfig) (metas : List SstableMeta) : Decidable (BaseLevelClear cfg metas) :=
  inferInstanceAs (Decidable (_ → ∀ span ∈ keySpan (CompactionPlanner.atLevel metas 0), ∀ m ∈ metas,
    0 < m.level → m.level < CompactionPlanner.baseLevel metas cfg → m.overlapsSpan span = false))

structure MovesDown (cfg : CompactionConfig) (metas : List SstableMeta) (job : CompactionJob)
    (inputMetas : List SstableMeta) : Prop where
  lt : job.inputLevel < job.outputLevel
  le : job.outputLevel ≤ cfg.maxLevel
  levels : ∀ m ∈ inputMetas, m.level = job.inputLevel ∨ m.level = job.outputLevel
  bottom : ∀ t ∈ metas, t ∉ inputMetas → t.level = job.outputLevel → Beside t inputMetas
  between : ∀ t ∈ metas, job.inputLevel < t.level → t.level < job.outputLevel →
    Beside t (inputMetas.filter fun m => m.level = job.inputLevel)

section Planned

variable {metas : List SstableMeta} {cfg : CompactionConfig} {job : CompactionJob}

theorem mem_of_id_mem (hnd : (metas.map SstableMeta.id).Nodup) {l : List SstableMeta}
    (hl : ∀ m ∈ l, m ∈ metas) {m : SstableMeta} (hm : m ∈ metas) :
    m.id ∈ l.map SstableMeta.id ↔ m ∈ l := by
  constructor
  · intro h
    obtain ⟨m', hm', he⟩ := List.mem_map.mp h
    rwa [← List.inj_on_of_nodup_map hnd (hl m' hm') hm he]
  · exact List.mem_map_of_mem

theorem planL0_cases (h : CompactionPlanner.planL0 metas cfg = some job) :
    cfg.l0Trigger ≤ CompactionPlanner.levelFileCount metas 0 ∧
      ∃ span, keySpan (CompactionPlanner.atLevel metas 0) = some span ∧
        job = { inputs := (CompactionPlanner.atLevel metas 0 ++
                  (CompactionPlanner.atLevel metas (CompactionPlanner.baseLevel metas cfg)).filter
                    fun m => m.overlapsSpan span).map SstableMeta.id
                inputLevel := 0
                outputLevel := CompactionPlanner.baseLevel metas cfg } := by
  unfold CompactionPlanner.planL0 at h
  simp only at h
  split at h
  next => simp at h
  next hlen =>
    obtain ⟨span, hs, rfl⟩ := Option.map_eq_some_iff.mp h
    exact ⟨not_lt.mp hlen, span, hs, by rw [List.map_append]⟩

theorem planLevel_cases {level : Nat} (h : CompactionPlanner.planLevel metas cfg level = some job) :
    ∃ oldest ∈ metas, oldest.level = level ∧
      job = { inputs := (oldest :: (CompactionPlanner.atLevel metas (level + 1)).filter fun m =>
                m.overlapsSpan (oldest.minKey, oldest.maxKey)).map SstableMeta.id
              inputLevel := level
              outputLevel := level + 1 } := by
  unfold CompactionPlanner.planLevel at h
  simp only at h
  split at h
  next => simp at h
  next =>
    split at h
    next => simp at h
    next =>
      obtain ⟨oldest, ho, rfl⟩ := Option.map_eq_some_iff.mp h
      obtain ⟨hm, hl⟩ := CompactionPlanner.mem_atLevel.mp (List.argmin_mem ho)
      exact ⟨oldest, hm, hl, rfl⟩

theorem planL2Gc_eq_none (hd : LevelsDisjoint metas) (hmax : 1 ≤ cfg.maxLevel) :
    CompactionPlanner.planL2Gc metas cfg = none := by
  rw [CompactionPlanner.planL2Gc, Option.bind_eq_none_iff]
  intro oldest ho
  obtain ⟨hm, hl⟩ := CompactionPlanner.mem_atLevel.mp (List.argmin_mem ho)
  have hnone : (CompactionPlanner.atLevel metas cfg.maxLevel).filter (fun m =>
      m.id ≠ oldest.id && m.overlapsSpan (oldest.minKey, oldest.maxKey)) = [] := by
    rw [List.filter_eq_nil_iff]
    intro m hm' hb
    obtain ⟨hmm, hml⟩ := CompactionPlanner.mem_atLevel.mp hm'
    simp only [Bool.and_eq_true, decide_eq_true_eq] at hb
    have ha := hd m hmm oldest hm (hml ▸ hmax) (hml.trans hl.symm) hb.1
    rw [apart_iff_overlapsSpan, hb.2] at ha
    simp at ha
  simp only [hnone, List.map_nil]
  rw [if_pos (by simp)]

theorem planL2Gc_levels (h : CompactionPlanner.planL2Gc metas cfg = some job) :
    job.inputLevel = cfg.maxLevel ∧ job.outputLevel = cfg.maxLevel := by
  obtain ⟨oldest, -, h⟩ := Option.bind_eq_some_iff.mp h
  simp only at h
  split at h
  next => simp at h
  next =>
    obtain ⟨-, ⟨⟩⟩ := Option.ite_none_left_eq_some.mp h
    exact ⟨rfl, rfl⟩

section Span

variable {movers : List SstableMeta} {span : Bytes × Bytes} {i j : Nat}

theorem mem_spanInputs (hnd : (metas.map SstableMeta.id).Nodup)
    (hmov : ∀ m ∈ movers, m ∈ metas ∧ m.level = i)
    (hin : job.inputs = (movers ++ (CompactionPlanner.atLevel metas j).filter fun m =>
      m.overlapsSpan span).map SstableMeta.id) (m : SstableMeta) :
    m ∈ metas.filter (fun m => m.id ∈ job.inputs) ↔
      m ∈ movers ∨ m ∈ metas ∧ m.level = j ∧ m.overlapsSpan span = true := by
  rw [List.mem_filter, decide_eq_true_eq, hin]
  constructor
  · rintro ⟨hm, hid⟩
    have hsub : ∀ m ∈ movers ++ (CompactionPlanner.atLevel metas j).filter fun m =>
        m.overlapsSpan span, m ∈ metas := by
      intro m hm
      rcases List.mem_append.mp hm with hm | hm
      · exact (hmov m hm).1
      · exact (CompactionPlanner.mem_atLevel.mp (List.mem_filter.mp hm).1).1
    rw [mem_of_id_mem hnd hsub hm, List.mem_append, List.mem_filter,
      CompactionPlanner.mem_atLevel, and_assoc] at hid
    exact hid
  · rintro (hm | ⟨hm, hl, hov⟩)
    · exact ⟨(hmov m hm).1, List.mem_map_of_mem (List.mem_append_left _ hm)⟩
    · exact ⟨hm, List.mem_map_of_mem (List.mem_append_right _
        (List.mem_filter.mpr ⟨CompactionPlanner.mem_atLevel.mpr ⟨hm, hl⟩, hov⟩))⟩

theorem beside_spanInputs (hnd : (metas.map SstableMeta.id).Nodup)
    (hle : ∀ m ∈ metas, m.minKey ≤ m.maxKey) (hd : LevelsDisjoint metas)
    (hs : keySpan movers = some span) (hmov : ∀ m ∈ movers, m ∈ metas ∧ m.level = i)
    (hin : job.inputs = (movers ++ (CompactionPlanner.atLevel metas j).filter fun m =>
      m.overlapsSpan span).map SstableMeta.id) {t : SstableMeta} (ht : t ∈ metas)
    (hnot : t ∉ metas.filter fun m => m.id ∈ job.inputs) (h1 : 1 ≤ t.level) (hl : t.level = j) :
    Beside t (metas.filter fun m => m.id ∈ job.inputs) := by
  have hmem := mem_spanInputs hnd hmov hin
  have hov : t.overlapsSpan span = false := by
    by_contra hov
    exact hnot ((hmem t).mpr (Or.inr ⟨ht, hl, by simpa using hov⟩))
  refine beside_of_span hs hov (hle t ht) fun m hm => ?_
  rcases (hmem m).mp hm with hm' | ⟨hmm, hml, hmo⟩
  · exact Or.inl hm'
  · refine Or.inr ⟨hmo, hd t ht m hmm h1 (hl.trans hml.symm) fun he => hnot ?_⟩
    rwa [List.inj_on_of_nodup_map hnd ht hmm he]

theorem movesDown_of_span (movers : List SstableMeta) (span : Bytes × Bytes) {i j : Nat}
    (hnd : (metas.map SstableMeta.id).Nodup) (hle : ∀ m ∈ metas, m.minKey ≤ m.maxKey)
    (hd : LevelsDisjoint metas) (hij : i < j) (hj : j ≤ cfg.maxLevel)
    (hs : keySpan movers = some span) (hmov : ∀ m ∈ movers, m ∈ metas ∧ m.level = i)
    (hbetween : ∀ t ∈ metas, i < t.level → t.level < j → t.overlapsSpan span = false)
    (hin : job.inputs = (movers ++ (CompactionPlanner.atLevel metas j).filter fun m =>
      m.overlapsSpan span).map SstableMeta.id)
    (hi : job.inputLevel = i) (ho : job.outputLevel = j) :
    MovesDown cfg metas job (metas.filter fun m => m.id ∈ job.inputs) := by
  have hmem := mem_spanInputs hnd hmov hin
  subst hi ho
  refine ⟨hij, hj, fun m hm => ?_, fun t ht hnot hl => ?_, fun t ht h1 h2 => ?_⟩
  · rcases (hmem m).mp hm with hm | ⟨-, hl, -⟩
    · exact Or.inl (hmov m hm).2
    · exact Or.inr hl
  · exact beside_spanInputs hnd hle hd hs hmov hin ht hnot (by omega) hl
  · refine ((beside_iff_overlapsSpan hs).mpr (hbetween t ht h1 h2)).mono fun m hm => ?_
    obtain ⟨hm, hml⟩ := List.mem_filter.mp hm
    rcases (hmem m).mp hm with hm | ⟨-, hl, -⟩
    · exact hm
    · have hml : m.level = job.inputLevel := of_decide_eq_true hml
      omega

end Span

variable {plan : CompactionJob × List SstableMeta}

section

variable (hp : planCompactionJob metas cfg = some plan)
include hp

/-- A table the plan leaves out on the output level lies beside its inputs. -/
theorem planned_beside
    (hnd : (metas.map SstableMeta.id).Nodup) (hle : ∀ m ∈ metas, m.minKey ≤ m.maxKey)
    (hd : LevelsDisjoint metas) {t : SstableMeta} (ht : t ∈ metas) (hnot : t ∉ plan.2)
    (h1 : 1 ≤ t.level) (hl : t.level = plan.1.outputLevel) :
    Beside t plan.2 := by
  obtain ⟨hplan, hin, -⟩ := planCompactionJob_inputs hp
  rw [hin] at hnot ⊢
  rcases CompactionPlanner.plan_cases hplan with h | ⟨level, -, -, h⟩ | h
  · obtain ⟨-, span, hs, he⟩ := planL0_cases h
    have hbase : t.level = CompactionPlanner.baseLevel metas cfg := by
      rw [hl, he]
    exact beside_spanInputs hnd hle hd hs (fun m hm => CompactionPlanner.mem_atLevel.mp hm)
      (by rw [he]) ht hnot h1 hbase
  · obtain ⟨oldest, hm, ho, he⟩ := planLevel_cases h
    have hnext : t.level = level + 1 := by
      rw [hl, he]
    have hs : keySpan [oldest] = some (oldest.minKey, oldest.maxKey) := rfl
    have hmov : ∀ m ∈ [oldest], m ∈ metas ∧ m.level = level := by
      intro m hm'
      cases List.mem_singleton.mp hm'
      exact ⟨hm, ho⟩
    exact beside_spanInputs hnd hle hd hs hmov (by rw [he]; rfl) ht hnot h1 hnext
  · have hmax : cfg.maxLevel = t.level := by
      rw [hl, (planL2Gc_levels h).2]
    rw [planL2Gc_eq_none hd (hmax ▸ h1)] at h
    simp at h

theorem planned_movesDown
    (hnd : (metas.map SstableMeta.id).Nodup) (hle : ∀ m ∈ metas, m.minKey ≤ m.maxKey)
    (hd : LevelsDisjoint metas) (hmax : 1 ≤ cfg.maxLevel) (hclear : BaseLevelClear cfg metas) :
    MovesDown cfg metas plan.1 plan.2 := by
  obtain ⟨hplan, hin, -⟩ := planCompactionJob_inputs hp
  rw [hin]
  rcases CompactionPlanner.plan_cases hplan with h | ⟨level, h1, h2, h⟩ | h
  · obtain ⟨hdue, span, hs, he⟩ := planL0_cases h
    have hbase : CompactionPlanner.baseLevel metas cfg = cfg.maxLevel ∨
        1 ≤ CompactionPlanner.baseLevel metas cfg ∧
          CompactionPlanner.baseLevel metas cfg < cfg.maxLevel := CompactionPlanner.baseLevel_cases
    refine movesDown_of_span _ span hnd hle hd (by omega) (by omega) hs
      (fun m hm => CompactionPlanner.mem_atLevel.mp hm)
      (fun t ht h1 h2 => hclear hdue span hs t ht h1 h2) ?_ ?_ ?_ <;> rw [he]
  · obtain ⟨oldest, hm, hl, he⟩ := planLevel_cases h
    refine movesDown_of_span [oldest] (oldest.minKey, oldest.maxKey) hnd hle hd
      (Nat.lt_succ_self level) h2 rfl (fun m hm' => ?_) (fun t _ h1 h2 => by omega) ?_ ?_ ?_
    · cases List.mem_singleton.mp hm'
      exact ⟨hm, hl⟩
    all_goals rw [he]
    rfl
  · rw [planL2Gc_eq_none hd hmax] at h
    simp at h

theorem planned_l0_inputs (hmax : 1 ≤ cfg.maxLevel)
    (hi : plan.1.inputLevel = 0) {m : SstableMeta} (hm : m ∈ metas) (hl : m.level = 0) :
    m ∈ plan.2 := by
  obtain ⟨hplan, hin, -⟩ := planCompactionJob_inputs hp
  rcases CompactionPlanner.plan_cases hplan with h | ⟨level, h1, -, h⟩ | h
  · obtain ⟨-, span, -, he⟩ := planL0_cases h
    rw [hin, List.mem_filter, decide_eq_true_eq, he]
    exact ⟨hm, List.mem_map_of_mem
      (List.mem_append_left _ (CompactionPlanner.mem_atLevel.mpr ⟨hm, hl⟩))⟩
  · obtain ⟨oldest, -, -, he⟩ := planLevel_cases h
    rw [he] at hi
    simp only at hi
    omega
  · have hlevels := planL2Gc_levels h
    omega

end

theorem MovesDown.add_l0 {inputMetas : List SstableMeta} (h : MovesDown cfg metas job inputMetas)
    {metas' : List SstableMeta} (hs : ∀ m ∈ metas', m ∈ metas ∨ m.level = 0) :
    MovesDown cfg metas' job inputMetas where
  lt := h.lt
  le := h.le
  levels := h.levels
  bottom t ht hnot hl := by
    have hlt := h.lt
    rcases hs t ht with ht | h0
    · exact h.bottom t ht hnot hl
    · omega
  between t ht h1 h2 := by
    rcases hs t ht with ht | h0
    · exact h.between t ht h1 h2
    · omega

end Planned

end ZydecoDb
