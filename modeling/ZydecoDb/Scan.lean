import ZydecoDb.Read

namespace ZydecoDb

open Lib

namespace ReadView

variable {view : ReadView}

variable {lo hi : Bytes}

theorem rangeInternal_eq_some {mt : Memtable} (h : lo ≤ hi) :
    mt.rangeInternal lo hi =
      some (mt.entries.filter fun v => lo ≤ v.userKey ∧ v.userKey < hi) := by
  simp [Memtable.rangeInternal, not_lt.mpr h]

theorem buildSources_isSome {s : Nat} (h : hi = [] ∨ lo ≤ hi) :
    ∃ srcs, view.buildSources s lo hi = some srcs := by
  have hm : ∀ l : List Memtable, ∃ r, (l.mapM fun mt =>
      if hi = [] then some mt.entries else mt.rangeInternal lo hi) = some r := by
    intro l
    induction l with
    | nil => exact ⟨[], rfl⟩
    | cons mt l ih =>
      obtain ⟨r, hr⟩ := ih
      rw [List.mapM_cons, hr]
      rcases h with rfl | h
      · exact ⟨mt.entries :: r, rfl⟩
      · by_cases hhi : hi = []
        · exact ⟨mt.entries :: r, by simp [hhi]⟩
        · exact ⟨_ :: r, by rw [if_neg hhi, rangeInternal_eq_some h]; rfl⟩
  obtain ⟨r, hr⟩ := hm (view.active :: view.immutables)
  exact ⟨_, by rw [buildSources, hr]; rfl⟩

def InScan (lo hi k : Bytes) : Prop := hi = [] ∨ lo ≤ k ∧ k < hi

theorem mem_memtable_source {mt : Memtable} {src : List Version}
    (h : (if hi = [] then some mt.entries else mt.rangeInternal lo hi) = some src) (v : Version) :
    v ∈ src ↔ v ∈ mt.entries ∧ InScan lo hi v.userKey := by
  split at h
  next he =>
    cases Option.some.inj h
    simp [InScan, he]
  next hne =>
    rw [Memtable.rangeInternal] at h
    obtain ⟨-, ⟨⟩⟩ := Option.ite_none_left_eq_some.mp h
    simp [InScan, hne]

variable {v : Version}

theorem mem_sstable_source {t : LoadedSstable} :
    v ∈ (if hi = [] then t.reader.entries else t.reader.rangeIter lo hi) ↔
      v ∈ t.reader.entries ∧ InScan lo hi v.userKey := by
  by_cases he : hi = []
  · simp [he, InScan]
  · simp [he, InScan, SstableReader.rangeIter]

variable {srcs : List (List Version)}

theorem mem_cutSources {f : Memtable → Option (List Version)} {g : LoadedSstable → List Version}
    {mts : List Memtable} {tables : List LoadedSstable} {mems : List (List Version)}
    (hm : mts.mapM f = some mems) {s : Nat} :
    (∃ src ∈ (mems ++ tables.map g).map (fun src => src.filter fun v => v.seq ≤ s), v ∈ src) ↔
      v.seq ≤ s ∧ ((∃ mt ∈ mts, ∃ src, f mt = some src ∧ v ∈ src) ∨ ∃ t ∈ tables, v ∈ g t) := by
  simp only [List.mem_map, List.mem_append, mem_mapM_option hm, exists_exists_and_eq_and,
    List.mem_filter, decide_eq_true_eq]
  constructor
  · rintro ⟨src, ⟨mt, hmt, he⟩ | ⟨t, ht, rfl⟩, hv, hs⟩
    · exact ⟨hs, Or.inl ⟨mt, hmt, src, he, hv⟩⟩
    · exact ⟨hs, Or.inr ⟨t, ht, hv⟩⟩
  · rintro ⟨hs, ⟨mt, hmt, src, he, hv⟩ | ⟨t, ht, hv⟩⟩
    · exact ⟨src, Or.inl ⟨mt, hmt, he⟩, hv, hs⟩
    · exact ⟨g t, Or.inr ⟨t, ht, rfl⟩, hv, hs⟩

theorem mem_buildSources {s : Nat} (hb : view.buildSources s lo hi = some srcs) :
    (∃ src ∈ srcs, v ∈ src) ↔
      v.seq ≤ s ∧ InScan lo hi v.userKey ∧
        ((∃ mt ∈ view.active :: view.immutables, v ∈ mt.entries) ∨
          ∃ t ∈ view.sstables, sstableOverlapsRange t.metadata lo hi = true ∧
            v ∈ t.reader.entries) := by
  obtain ⟨mems, hm, hb⟩ := Option.bind_eq_some_iff.mp hb
  cases Option.some.inj hb
  rw [mem_cutSources hm]
  constructor
  · rintro ⟨hseq, ⟨mt, hmt, src, he, hv⟩ | ⟨t, ht, hv⟩⟩
    · obtain ⟨hv, hr⟩ := (mem_memtable_source he v).mp hv
      exact ⟨hseq, hr, Or.inl ⟨mt, hmt, hv⟩⟩
    · obtain ⟨ht, hov⟩ := List.mem_filter.mp ht
      obtain ⟨hv, hr⟩ := mem_sstable_source.mp hv
      exact ⟨hseq, hr, Or.inr ⟨t, ht, hov, hv⟩⟩
  · rintro ⟨hseq, hr, ⟨mt, hmt, hv⟩ | ⟨t, ht, hov, hv⟩⟩
    · obtain ⟨src, -, he⟩ := exists_of_mapM_option hm hmt
      exact ⟨hseq, Or.inl ⟨mt, hmt, src, he, (mem_memtable_source he v).mpr ⟨hv, hr⟩⟩⟩
    · exact ⟨hseq, Or.inr ⟨t, List.mem_filter.mpr ⟨ht, hov⟩, mem_sstable_source.mpr ⟨hv, hr⟩⟩⟩

theorem overlapsRange_of_mem {t : LoadedSstable} (ht : t.WellFormed) (hv : v ∈ t.reader.entries)
    (hlo : lo ≤ v.userKey) (hhi : hi = [] ∨ v.userKey < hi) :
    sstableOverlapsRange t.metadata lo hi = true := by
  have hmin := ht.minKey_le v hv
  have hmax := not_lt.mpr (hlo.trans (ht.le_maxKey v hv))
  rcases hhi with rfl | hhi
  · simp [sstableOverlapsRange, hmax]
  · simp [sstableOverlapsRange, hmax, not_le.mpr (lt_of_le_of_lt hmin hhi)]

theorem mem_buildSources_key (ht : ∀ t ∈ view.sstables, t.WellFormed) {s : Nat}
    (hb : view.buildSources s lo hi = some srcs) (hlo : lo ≤ v.userKey)
    (hhi : hi = [] ∨ v.userKey < hi) :
    (∃ src ∈ srcs, v ∈ src) ↔ v ∈ view.versions ∧ v.seq ≤ s := by
  have hin : InScan lo hi v.userKey := hhi.imp_right fun h => ⟨hlo, h⟩
  rw [mem_buildSources hb, mem_versions]
  simp only [List.mem_cons, exists_eq_or_imp, or_assoc]
  constructor
  · rintro ⟨hs, -, hv | hv | ⟨t, ht, -, hv⟩⟩
    · exact ⟨Or.inl hv, hs⟩
    · exact ⟨Or.inr (Or.inl hv), hs⟩
    · exact ⟨Or.inr (Or.inr ⟨t, ht, hv⟩), hs⟩
  · rintro ⟨hv | hv | ⟨t, htm, hv⟩, hs⟩
    · exact ⟨hs, hin, Or.inl hv⟩
    · exact ⟨hs, hin, Or.inr (Or.inl hv)⟩
    · exact ⟨hs, hin, Or.inr (Or.inr ⟨t, htm, overlapsRange_of_mem (ht t htm) hv hlo hhi, hv⟩)⟩

theorem mem_versions_of_memtable {mt : Memtable} (hmt : mt ∈ view.active :: view.immutables)
    (hv : v ∈ mt.entries) : v ∈ view.versions := by
  rcases List.mem_cons.mp hmt with rfl | hmt
  · exact mem_versions.mpr (Or.inl hv)
  · exact mem_versions.mpr (Or.inr (Or.inl ⟨mt, hmt, hv⟩))

theorem versions_of_mem_buildSources {s : Nat} (hb : view.buildSources s lo hi = some srcs)
    (hv : ∃ src ∈ srcs, v ∈ src) :
    v ∈ view.versions := by
  obtain ⟨-, -, ⟨mt, hmt, hv⟩ | ⟨t, ht, -, hv⟩⟩ := (mem_buildSources hb).mp hv
  · exact mem_versions_of_memtable hmt hv
  · exact mem_versions.mpr (Or.inr (Or.inr ⟨t, ht, hv⟩))

theorem buildSources_sorted (hwf : ∀ t ∈ view.sstables, t.WellFormed) {s : Nat}
    (hb : view.buildSources s lo hi = some srcs) :
    ∀ src ∈ srcs, src.Pairwise Version.le := by
  obtain ⟨mems, hm, hb⟩ := Option.bind_eq_some_iff.mp hb
  cases Option.some.inj hb
  intro cut hcut
  obtain ⟨src, hsrc, rfl⟩ := List.mem_map.mp hcut
  refine List.Pairwise.filter _ ?_
  rcases List.mem_append.mp hsrc with hsrc | hsrc
  · obtain ⟨mt, -, hmt⟩ := (mem_mapM_option hm src).mp hsrc
    split at hmt
    next => cases Option.some.inj hmt; exact mt.sorted
    next =>
      simp only [Memtable.rangeInternal] at hmt
      obtain ⟨-, ⟨⟩⟩ := Option.ite_none_left_eq_some.mp hmt
      exact mt.sorted.filter _
  · obtain ⟨t, ht, rfl⟩ := List.mem_map.mp hsrc
    have hsort := (hwf t (List.mem_filter.mp ht).1).sorted
    split
    next => exact hsort
    next => exact hsort.filter _

theorem mem_scanRows {r : Version → Version → Prop} [DecidableRel r] [Std.Total r]
    [IsTrans Version r] {R : Bytes → Bytes → Prop} [Std.Antisymm R]
    (hkey : ∀ {a b : Version}, r a b → R a.userKey b.userKey)
    (hseq : ∀ {a b : Version}, r a b → a.userKey = b.userKey → b.seq ≤ a.seq)
    {sources : List (List Version)} (hs : ∀ src ∈ sources, src.Pairwise r)
    (hco : Coherent sources.flatten) {now : Nat} {k b : Bytes} :
    (k, b) ∈ (dedup none (kmerge r sources)).filterMap (scanRow now) ↔
      valueAt (newest sources.flatten k) now = some b := by
  have hperm := kmerge_perm (r := r) sources
  have hnew : newest (kmerge r sources) k = newest sources.flatten k :=
    newest_congr (hco.sublist fun v hv => hperm.mem_iff.mp hv) fun v _ => hperm.mem_iff
  rw [List.mem_filterMap, ← hnew, valueAt_eq_some]
  constructor
  · rintro ⟨x, hx, hrow⟩
    obtain ⟨⟨b', seq⟩, hres, he⟩ := Option.map_eq_some_iff.mp hrow
    cases he
    refine ⟨seq, ?_⟩
    rw [((mem_dedup_kmerge hkey hseq hs).mp hx).1]
    exact hres
  · rintro ⟨seq, ho⟩
    obtain ⟨x, hx, hres⟩ := Option.bind_eq_some_iff.mp ho
    have hk := (newest_mem hx).2
    have hnt : x.entry.isTombstone = false := by
      by_contra ht
      simp [Version.resolve, ht] at hres
    refine ⟨x, (mem_dedup_kmerge hkey hseq hs).mpr ⟨hk ▸ hx, hnt⟩, ?_⟩
    simp [scanRow, hres, hk]

theorem coherent_sources (hco : Coherent view.versions) {s : Nat}
    (hb : view.buildSources s lo hi = some srcs) :
    Coherent srcs.flatten :=
  hco.sublist fun _ hv => versions_of_mem_buildSources hb (List.mem_flatten.mp hv)

variable {s now : Nat} {rows : List (Bytes × Bytes)}

/-- A row is yielded exactly when it is the outcome of its key's newest version. -/
theorem mem_scan (hwf : ∀ t ∈ view.sstables, t.WellFormed) (hco : Coherent view.versions)
    {lo hi k b : Bytes} (hlo : lo ≤ k) (hhi : hi = [] ∨ k < hi)
    (hs : view.scan s lo hi now = some rows) :
    (k, b) ∈ rows ↔ ∃ seq, outcome (newestAt view.versions k s) now = some (b, seq) := by
  obtain ⟨srcs, hb, rfl⟩ := Option.map_eq_some_iff.mp hs
  have hnew : newest srcs.flatten k = newestAt view.versions k s := by
    refine newest_congr (coherent_sources hco hb) fun v hk => ?_
    rw [List.mem_flatten, mem_buildSources_key hwf hb (hk ▸ hlo) (hk ▸ hhi), List.mem_filter]
    simp
  rw [← hnew, ← valueAt_eq_some]
  exact mem_scanRows Version.le_userKey Version.le_seq (buildSources_sorted hwf hb)
    (coherent_sources hco hb)

theorem scan_ascending (hwf : ∀ t ∈ view.sstables, t.WellFormed)
    (hs : view.scan s lo hi now = some rows) :
    rows.Pairwise fun a b => a.1 < b.1 := by
  obtain ⟨srcs, hb, rfl⟩ := Option.map_eq_some_iff.mp hs
  rw [List.pairwise_filterMap]
  refine (mergeDedup_ascending (buildSources_sorted hwf hb)).imp fun {a b} hab x hx y hy => ?_
  obtain ⟨r, -, rfl⟩ := Option.map_eq_some_iff.mp hx
  obtain ⟨q, -, rfl⟩ := Option.map_eq_some_iff.mp hy
  exact hab

theorem inScan_of_mem_scan {lo hi k b : Bytes} (hs : view.scan s lo hi now = some rows)
    (hk : (k, b) ∈ rows) : InScan lo hi k := by
  obtain ⟨srcs, hb, rfl⟩ := Option.map_eq_some_iff.mp hs
  obtain ⟨x, hx, hrow⟩ := List.mem_filterMap.mp hk
  obtain ⟨r, -, he⟩ := Option.map_eq_some_iff.mp hrow
  cases he
  have hraw : x ∈ mergeRaw srcs := (dedup_sublist none _).subset hx
  exact ((mem_buildSources hb).mp (mem_mergeRaw.mp hraw)).2.1

theorem scan_isSome {lo hi k : Bytes} (hlo : lo ≤ k) (hhi : hi = [] ∨ k < hi) :
    ∃ rows, view.scan s lo hi now = some rows := by
  obtain ⟨srcs, hb⟩ := view.buildSources_isSome (s := s) (hhi.imp_right fun h => hlo.trans h.le)
  exact ⟨_, Option.map_eq_some_iff.mpr ⟨srcs, hb, rfl⟩⟩

def ScanRange (lo hi : Bytes) : Prop := lo ≤ hi ∧ hi ≠ [] ∨ lo = [] ∧ hi = []

theorem ScanRange.bounds {lo hi k : Bytes} (h : ScanRange lo hi) (hk : InScan lo hi k) :
    lo ≤ k ∧ (hi = [] ∨ k < hi) := by
  rcases hk with he | hk
  · rcases h with ⟨-, hne⟩ | ⟨rfl, -⟩
    · exact absurd he hne
    · exact ⟨nil_le k, Or.inl he⟩
  · exact ⟨hk.1, Or.inr hk.2⟩

theorem ScanRange.isSome (h : ScanRange lo hi) (view : ReadView) (s now : Nat) :
    ∃ rows, view.scan s lo hi now = some rows := by
  obtain ⟨srcs, hb⟩ : ∃ srcs, view.buildSources s lo hi = some srcs :=
    buildSources_isSome (h.elim (fun h => Or.inr h.1) fun h => Or.inl h.2)
  exact ⟨_, Option.map_eq_some_iff.mpr ⟨srcs, hb, rfl⟩⟩

theorem ascending_ext {l m : List (Bytes × Bytes)} (hl : l.Pairwise fun a b => a.1 < b.1)
    (hm : m.Pairwise fun a b => a.1 < b.1) (h : ∀ x, x ∈ l ↔ x ∈ m) : l = m := by
  have hnodup : ∀ l : List (Bytes × Bytes), l.Pairwise (fun a b => a.1 < b.1) → l.Nodup :=
    fun l hl => List.Pairwise.imp (fun {a b} hab (he : a = b) => lt_irrefl b.1 (he ▸ hab)) hl
  have hperm : l.Perm m := (List.perm_ext_iff_of_nodup (hnodup _ hl) (hnodup _ hm)).mpr h
  exact hperm.eq_of_pairwise (fun a b _ _ hab hba => absurd hba (lt_asymm hab)) hl hm

theorem scan_congr {view' : ReadView} (hwf : ∀ t ∈ view.sstables, t.WellFormed)
    (hco : Coherent view.versions) (hwf' : ∀ t ∈ view'.sstables, t.WellFormed)
    (hco' : Coherent view'.versions) (hrange : ScanRange lo hi)
    (h : ∀ k, valueAt (newestAt view.versions k s) now = valueAt (newestAt view'.versions k s) now) :
    view.scan s lo hi now = view'.scan s lo hi now := by
  obtain ⟨rows, hr⟩ := hrange.isSome view s now
  obtain ⟨rows', hr'⟩ := hrange.isSome view' s now
  have hmem : ∀ x, x ∈ rows ↔ x ∈ rows' := by
    rintro ⟨k, b⟩
    have hiff : InScan lo hi k → ((k, b) ∈ rows ↔ (k, b) ∈ rows') := by
      intro hk
      obtain ⟨hlo, hhi⟩ := hrange.bounds hk
      rw [mem_scan hwf hco hlo hhi hr, mem_scan hwf' hco' hlo hhi hr', ← valueAt_eq_some,
        ← valueAt_eq_some, h k]
    exact ⟨fun hx => (hiff (inScan_of_mem_scan hr hx)).mp hx,
      fun hx => (hiff (inScan_of_mem_scan hr' hx)).mpr hx⟩
  rw [hr, hr', ascending_ext (scan_ascending hwf hr) (scan_ascending hwf' hr') hmem]

end ReadView

end ZydecoDb
