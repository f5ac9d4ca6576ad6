import ZydecoDb.ScanReverse
import ZydecoDb.CatalogReads
import ZydecoDb.EngineSteps

namespace ZydecoDb

open Lib

namespace ReadView

variable {view : ReadView} {s now : Nat} {lo hi : Bytes}

def ExactRows (view : ReadView) (s now : Nat) (lo hi : Bytes) (rows : List (Bytes × Bytes)) : Prop :=
  ∀ k b, (k, b) ∈ rows ↔
    lo ≤ k ∧ (hi = [] ∨ k < hi) ∧ valueAt (newestAt view.versions k s) now = some b

/-- Both scans return, the forward one with the rows of the range in ascending order, the reverse
one with the same rows backwards; an inverted range has none. -/
def ScansExactly (view : ReadView) (s now : Nat) (lo hi : Bytes) : Prop :=
  ∃ rows, view.scan s lo hi now = some rows ∧ view.scanRev s lo hi now = some rows.reverse ∧
    (rows.Pairwise fun a b => a.1 < b.1) ∧ view.ExactRows s now lo hi rows ∧
    (hi ≠ [] → hi ≤ lo → rows = [])

/-- A bounded range must not be inverted over a memtable that holds something. Without an upper
bound the scan starts at the least key and the tables give every answer, or the memtables are empty
and nothing live lies below `lo`. -/
def Scannable (view : ReadView) (s now : Nat) (lo hi : Bytes) : Prop :=
  (hi ≠ [] ∧ (lo ≤ hi ∨ view.MemtablesEmpty)) ∨
  (hi = [] ∧ lo = [] ∧ ∀ k, valueAt (newestAt (tableVersions view.sstables) k s) now =
    valueAt (newestAt view.versions k s) now) ∨
  (hi = [] ∧ view.MemtablesEmpty ∧ ∀ k < lo, valueAt (newestAt (tableVersions
    (view.sstables.filter fun t => sstableOverlapsRange t.metadata lo hi)) k s) now = none)

theorem ExactRows.congr {rows rows' : List (Bytes × Bytes)}
    (h : view.ExactRows s now lo hi rows) : view.ExactRows s now lo hi rows' ↔
      ∀ x, x ∈ rows ↔ x ∈ rows' := by
  constructor
  · rintro h' ⟨k, b⟩
    rw [h k b, h' k b]
  · intro he k b
    rw [← he, h k b]

theorem ExactRows.inverted {rows : List (Bytes × Bytes)} (h : view.ExactRows s now lo hi rows)
    (hne : hi ≠ []) (hle : hi ≤ lo) : rows = [] := by
  apply List.eq_nil_iff_forall_not_mem.mpr
  rintro ⟨k, b⟩ hmem
  obtain ⟨hlo, hhi, -⟩ := (h k b).mp hmem
  have hlt := hhi.resolve_left hne
  exact absurd (hle.trans hlo) (not_le.mpr hlt)

theorem scansExactly_iff (hwf : ∀ t ∈ view.sstables, t.WellFormed) :
    view.ScansExactly s now lo hi ↔
      (∃ rows, view.scan s lo hi now = some rows ∧ view.ExactRows s now lo hi rows) ∧
        ∃ rows, view.scanRev s lo hi now = some rows ∧ view.ExactRows s now lo hi rows := by
  constructor
  · rintro ⟨rows, hs, hr, -, hex, -⟩
    exact ⟨⟨rows, hs, hex⟩, rows.reverse, hr, hex.congr.mpr fun x => List.mem_reverse.symm⟩
  · rintro ⟨⟨rows, hs, hex⟩, back, hr, hex'⟩
    have hasc := scan_ascending hwf hs
    have hdesc : back.reverse.Pairwise fun a b => a.1 < b.1 :=
      List.pairwise_reverse.mpr (scanRev_descending hr)
    have hnodup : ∀ l : List (Bytes × Bytes), l.Pairwise (fun a b => a.1 < b.1) → l.Nodup :=
      fun l hl => hl.imp fun {a b} hab (he : a = b) => lt_irrefl b.1 (he ▸ hab)
    have hmem : ∀ x, x ∈ rows ↔ x ∈ back.reverse := fun x => by
      rw [List.mem_reverse]
      exact hex.congr.mp hex' x
    have hperm : rows.Perm back.reverse :=
      (List.perm_ext_iff_of_nodup (hnodup _ hasc) (hnodup _ hdesc)).mpr hmem
    have heq : rows = back.reverse :=
      hperm.eq_of_pairwise (fun a b _ _ hab hba => absurd hba (lt_asymm hab)) hasc hdesc
    refine ⟨rows, hs, ?_, hasc, hex, hex.inverted⟩
    rw [hr, heq, List.reverse_reverse]

theorem scan_isSome_iff : (∃ rows, view.scan s lo hi now = some rows) ↔
    hi = [] ∨ lo ≤ hi ∨ view.MemtablesEmpty := by
  have hbind : (∃ rows, view.scan s lo hi now = some rows) ↔
      ∃ mems, ((view.active :: view.immutables).mapM fun mt =>
        if hi = [] then some mt.entries else mt.rangeInternal lo hi) = some mems := by
    unfold scan buildSources
    cases (view.active :: view.immutables).mapM fun mt =>
      if hi = [] then some mt.entries else mt.rangeInternal lo hi <;> simp
  rw [hbind]
  by_cases he : hi = []
  · rw [mapM_isSome_iff]
    simp [he]
  · rw [or_iff_right he, memtables_answer_iff fun mt => ?_]
    rw [if_neg he, Ne, rangeInternal_eq_none, not_and_or, not_lt, not_not]

theorem coherent_sourcesRev (hco : Coherent view.versions) {srcs : List (List Version)}
    (hb : view.buildSourcesRev s lo hi = some srcs) : Coherent srcs.flatten := by
  refine hco.sublist fun v hv => ?_
  obtain ⟨-, -, ⟨mt, hmt, hv, -⟩ | ⟨t, ht, -, hv, -⟩⟩ := (mem_buildSourcesRev hb).mp hv
  · exact mem_versions_of_memtable hmt hv
  · exact mem_versions.mpr (Or.inr (Or.inr ⟨t, ht, hv⟩))

theorem mem_scanRev (hco : Coherent view.versions) {srcs : List (List Version)}
    (hb : view.buildSourcesRev s lo hi = some srcs) {k b : Bytes} :
    (k, b) ∈ (dedup none (kmerge Version.leRev srcs)).filterMap (scanRow now) ↔
      valueAt (newest srcs.flatten k) now = some b :=
  mem_scanRows (R := fun a b => b ≤ a) Version.leRev_userKey Version.leRev_seq
    (buildSourcesRev_sorted hb) (coherent_sourcesRev hco hb)

section Exact

variable (hwf : ∀ t ∈ view.sstables, t.WellFormed) (hco : Coherent view.versions)
include hwf hco

variable {rows : List (Bytes × Bytes)}

theorem scan_exact (h : hi ≠ [] ∨ lo = []) (hs : view.scan s lo hi now = some rows) :
    view.ExactRows s now lo hi rows := by
  have hbounds : ∀ k, InScan lo hi k → lo ≤ k ∧ (hi = [] ∨ k < hi) := by
    rintro k (he | ⟨hlo, hhi⟩)
    · rcases h with hne | rfl
      · exact absurd he hne
      · exact ⟨nil_le k, Or.inl he⟩
    · exact ⟨hlo, Or.inr hhi⟩
  intro k b
  constructor
  · intro hmem
    obtain ⟨hlo, hhi⟩ := hbounds k (inScan_of_mem_scan hs hmem)
    exact ⟨hlo, hhi, valueAt_eq_some.mpr ((mem_scan hwf hco hlo hhi hs).mp hmem)⟩
  · rintro ⟨hlo, hhi, hv⟩
    exact (mem_scan hwf hco hlo hhi hs).mpr (valueAt_eq_some.mp hv)

theorem scan_unbounded_exact_iff (hm : view.MemtablesEmpty) (hs : view.scan s lo [] now = some rows) :
    view.ExactRows s now lo [] rows ↔
      ∀ k < lo, valueAt (newestAt (tableVersions
        (view.sstables.filter fun t => sstableOverlapsRange t.metadata lo [])) k s) now = none := by
  obtain ⟨srcs, hb, hrows⟩ := Option.map_eq_some_iff.mp hs
  have hall : ∀ k b, (k, b) ∈ rows ↔ valueAt (newestAt (tableVersions
      (view.sstables.filter fun t => sstableOverlapsRange t.metadata lo [])) k s) now = some b := by
    intro k b
    have hnew : newest srcs.flatten k = newestAt (tableVersions
        (view.sstables.filter fun t => sstableOverlapsRange t.metadata lo [])) k s := by
      refine newest_congr (coherent_sources hco hb) fun v _ => ?_
      have hmem : ¬ ∃ mt ∈ view.active :: view.immutables, v ∈ mt.entries := by
        rintro ⟨mt, hmt, hv⟩
        rw [hm mt hmt] at hv
        exact List.not_mem_nil hv
      rw [List.mem_flatten, mem_buildSources hb, or_iff_right hmem, List.mem_filter,
        mem_tableVersions]
      constructor
      · rintro ⟨hseq, -, t, ht, hov, hv⟩
        exact ⟨⟨t, List.mem_filter.mpr ⟨ht, hov⟩, hv⟩, decide_eq_true hseq⟩
      · rintro ⟨⟨t, ht, hv⟩, hseq⟩
        obtain ⟨ht, hov⟩ := List.mem_filter.mp ht
        exact ⟨of_decide_eq_true hseq, Or.inl rfl, t, ht, hov, hv⟩
    rw [← hrows, ← hnew]
    exact mem_scanRows Version.le_userKey Version.le_seq (buildSources_sorted hwf hb)
      (coherent_sources hco hb)
  constructor
  · intro hex k hk
    by_contra hne
    obtain ⟨b, hb⟩ := Option.ne_none_iff_exists'.mp hne
    exact absurd ((hex k b).mp ((hall k b).mpr hb)).1 (not_le.mpr hk)
  · intro hnone k b
    constructor
    · intro hmem
      have hlo : lo ≤ k := by
        by_contra hlt
        have hv := (hall k b).mp hmem
        rw [hnone k (not_le.mp hlt)] at hv
        exact absurd hv (by simp)
      exact ⟨hlo, Or.inl rfl, valueAt_eq_some.mpr ((mem_scan hwf hco hlo (Or.inl rfl) hs).mp hmem)⟩
    · rintro ⟨hlo, -, hv⟩
      exact (mem_scan hwf hco hlo (Or.inl rfl) hs).mpr (valueAt_eq_some.mp hv)

theorem scanRev_exact (hne : hi ≠ []) (hs : view.scanRev s lo hi now = some rows) :
    view.ExactRows s now lo hi rows := by
  obtain ⟨srcs, hb, rfl⟩ := Option.map_eq_some_iff.mp hs
  intro k b
  rw [mem_scanRev hco hb]
  by_cases hin : lo ≤ k ∧ k < hi
  · have hnew : newest srcs.flatten k = newestAt view.versions k s := by
      refine newest_congr (coherent_sourcesRev hco hb) fun v hk => ?_
      rw [mem_buildSourcesRev hb, List.mem_filter, mem_versions]
      simp only [hk, hin.1, hin.2, or_true, and_true, true_and, decide_eq_true_eq]
      constructor
      · rintro ⟨hseq, ⟨mt, hmt, hv⟩ | ⟨t, ht, -, hv⟩⟩
        · rcases List.mem_cons.mp hmt with rfl | hmt
          · exact ⟨Or.inl hv, hseq⟩
          · exact ⟨Or.inr (Or.inl ⟨mt, hmt, hv⟩), hseq⟩
        · exact ⟨Or.inr (Or.inr ⟨t, ht, hv⟩), hseq⟩
      · rintro ⟨hv | ⟨mt, hmt, hv⟩ | ⟨t, ht, hv⟩, hseq⟩
        · exact ⟨hseq, Or.inl ⟨_, List.mem_cons_self, hv⟩⟩
        · exact ⟨hseq, Or.inl ⟨mt, List.mem_cons_of_mem _ hmt, hv⟩⟩
        · exact ⟨hseq, Or.inr ⟨t, ht, overlapsRange_of_mem (hwf t ht) hv (hk ▸ hin.1)
            (Or.inr (hk ▸ hin.2)), hv⟩⟩
    simp [hnew, hin]
  · have hnone : newest srcs.flatten k = none := by
      rw [newest_eq_none]
      intro v hv hk
      obtain ⟨-, hlo, ⟨mt, -, -, hhi⟩ | ⟨t, -, -, -, hhi⟩⟩ := (mem_buildSourcesRev hb).mp hv
      · exact hin ⟨hk ▸ hlo, hk ▸ hhi⟩
      · exact hin ⟨hk ▸ hlo, hk ▸ hhi.resolve_left hne⟩
    rw [hnone]
    constructor
    · intro h
      exact absurd h (by simp [valueAt, outcome])
    · rintro ⟨hlo, hhi, -⟩
      exact absurd ⟨hlo, hhi.resolve_left hne⟩ hin

theorem scanRev_unbounded_exact_iff (hs : view.scanRev s lo [] now = some rows) :
    view.ExactRows s now lo [] rows ↔
      ∀ k, lo ≤ k → valueAt (newestAt (tableVersions view.sstables) k s) now =
        valueAt (newestAt view.versions k s) now := by
  obtain ⟨srcs, hb, rfl⟩ := Option.map_eq_some_iff.mp hs
  have hmem : ∀ v, v ∈ srcs.flatten ↔
      lo ≤ v.userKey ∧ v ∈ (tableVersions view.sstables).filter fun v => v.seq ≤ s := by
    intro v
    rw [mem_buildSourcesRev hb, List.mem_filter, mem_tableVersions]
    constructor
    · rintro ⟨hseq, hlo, ⟨mt, -, -, hhi⟩ | ⟨t, ht, -, hv, -⟩⟩
      · exact absurd hhi (List.not_lt_nil _)
      · exact ⟨hlo, ⟨t, ht, hv⟩, decide_eq_true hseq⟩
    · rintro ⟨hlo, ⟨t, ht, hv⟩, hseq⟩
      exact ⟨of_decide_eq_true hseq, hlo, Or.inr ⟨t, ht,
        overlapsRange_of_mem (hwf t ht) hv hlo (Or.inl rfl), hv, Or.inl rfl⟩⟩
  have hin : ∀ k, lo ≤ k →
      newest srcs.flatten k = newestAt (tableVersions view.sstables) k s := by
    intro k hlo
    refine newest_congr (coherent_sourcesRev hco hb) fun v hk => ?_
    rw [hmem, hk, and_iff_right hlo]
  have hout : ∀ k, ¬ lo ≤ k → newest srcs.flatten k = none := by
    intro k hlo
    rw [newest_eq_none]
    intro v hv hk
    exact hlo (hk ▸ ((hmem v).mp hv).1)
  constructor
  · intro hex k hlo
    apply Option.ext
    intro b
    have hb' := hex k b
    rw [mem_scanRev hco hb, hin k hlo] at hb'
    rw [hb']
    simp [hlo]
  · intro heq k b
    rw [mem_scanRev hco hb]
    by_cases hlo : lo ≤ k
    · rw [hin k hlo, heq k hlo]
      simp [hlo]
    · rw [hout k hlo]
      simp [hlo, valueAt, outcome]

end Exact

theorem MemtablesEmpty.newestAt_tables (hm : view.MemtablesEmpty) (hco : Coherent view.versions)
    (k : Bytes) (s : Nat) : newestAt (tableVersions view.sstables) k s = newestAt view.versions k s := by
  have hsame : ∀ v, v ∈ view.versions ↔ v ∈ tableVersions view.sstables := by
    intro v
    rw [mem_versions, mem_tableVersions]
    constructor
    · rintro (hv | ⟨mt, hmt, hv⟩ | hv)
      · rw [hm _ List.mem_cons_self] at hv
        exact absurd hv List.not_mem_nil
      · rw [hm mt (List.mem_cons_of_mem _ hmt)] at hv
        exact absurd hv List.not_mem_nil
      · exact hv
    · exact fun hv => Or.inr (Or.inr hv)
  refine (newest_congr (hco.sublist fun v hv => (List.mem_filter.mp hv).1) fun v _ => ?_).symm
  rw [List.mem_filter, List.mem_filter, hsame]

/-- A scan yields the newest live version of each key unless it panics or ignores its bounds. -/
theorem scansExactly_iff_of_coherent (hwf : ∀ t ∈ view.sstables, t.WellFormed)
    (hco : Coherent view.versions) :
    view.ScansExactly s now lo hi ↔ view.Scannable s now lo hi := by
  rw [scansExactly_iff hwf]
  have hrev : (∃ rows, view.scanRev s lo hi now = some rows) ↔ lo ≤ hi ∨ view.MemtablesEmpty := by
    rw [← buildSourcesRev_isSome_iff (s := s), scanRev]
    cases view.buildSourcesRev s lo hi <;> simp
  by_cases hne : hi = []
  · subst hne
    obtain ⟨rows, hs⟩ : ∃ rows, view.scan s lo [] now = some rows :=
      scan_isSome_iff.mpr (Or.inl rfl)
    have hfwd : (∃ rows, view.scan s lo [] now = some rows ∧ view.ExactRows s now lo [] rows) ↔
        view.ExactRows s now lo [] rows := by simp [hs]
    rw [hfwd]
    constructor
    · rintro ⟨hex, back, hr, hback⟩
      rcases hrev.mp ⟨back, hr⟩ with hlo | hm
      · have hlo : lo = [] := le_antisymm hlo (nil_le lo)
        exact Or.inr (Or.inl ⟨rfl, hlo, fun k =>
          (scanRev_unbounded_exact_iff hwf hco hr).mp hback k (hlo ▸ nil_le k)⟩)
      · exact Or.inr (Or.inr ⟨rfl, hm, (scan_unbounded_exact_iff hwf hco hm hs).mp hex⟩)
    · rintro (⟨h, -⟩ | ⟨-, rfl, htab⟩ | ⟨-, hm, hlow⟩)
      · exact absurd rfl h
      · obtain ⟨back, hr⟩ := hrev.mpr (Or.inl (nil_le []))
        exact ⟨scan_exact hwf hco (Or.inr rfl) hs, back, hr,
          (scanRev_unbounded_exact_iff hwf hco hr).mpr fun k _ => htab k⟩
      · obtain ⟨back, hr⟩ := hrev.mpr (Or.inr hm)
        refine ⟨(scan_unbounded_exact_iff hwf hco hm hs).mpr hlow, back, hr,
          (scanRev_unbounded_exact_iff hwf hco hr).mpr fun k _ => ?_⟩
        rw [hm.newestAt_tables hco]
  · constructor
    · rintro ⟨-, back, hr, -⟩
      exact Or.inl ⟨hne, hrev.mp ⟨back, hr⟩⟩
    · rintro (⟨-, h⟩ | ⟨he, -⟩ | ⟨he, -⟩)
      · obtain ⟨rows, hs⟩ : ∃ rows, view.scan s lo hi now = some rows :=
          scan_isSome_iff.mpr (Or.inr h)
        obtain ⟨back, hr⟩ := hrev.mpr h
        exact ⟨⟨rows, hs, scan_exact hwf hco (Or.inl hne) hs⟩, back, hr,
          scanRev_exact hwf hco hne hr⟩
      · exact absurd he hne
      · exact absurd he hne

end ReadView

/-- In every state the engine can be in, and at every ceiling, the two scans over a range return its
rows forwards and backwards exactly when the range is one they can walk. -/
theorem scans_exactly_iff (st : EngineState) (hinv : st.Inv) (s now : Nat) (lo hi : Bytes) :
    st.view.ScansExactly s now lo hi ↔ st.view.Scannable s now lo hi :=
  ReadView.scansExactly_iff_of_coherent hinv.tables hinv.coherent

/-- One key flushed and deleted in the memtable, one written over a flushed value. -/
theorem scans_exactly_over_memtable_and_table :
    ∃ st, runFrom (EngineState.step .default) .init
        (.put [1, 5] [10] 0 :: .put [1, 6] [11] 0 :: flushActions ++
          [.del [1, 5], .put [1, 6] [12] 0]) = some st ∧
      st.view.ScansExactly u64Max 0 [1, 3] [1, 9] :=
  ⟨_, rfl, (scans_exactly_iff _ (EngineState.inv_of_run .default
    (.put [1, 5] [10] 0 :: .put [1, 6] [11] 0 :: flushActions ++
      [.del [1, 5], .put [1, 6] [12] 0]) rfl) u64Max 0 [1, 3] [1, 9]).mpr
    (Or.inl ⟨by decide, Or.inl (by decide)⟩)⟩

/-- One key in the memtable, one in a table. An inverted range makes both scans panic. Without an
upper bound the forward scan yields the keys below `lo` too, and the reverse scan leaves out the
memtable. -/
theorem inverted_range_panics :
    ∃ st, runFrom (EngineState.step .default) .init
        (.put [1, 5] [10] 0 :: flushActions ++ [.put [1, 6] [12] 0]) = some st ∧
      st.view.scan u64Max [1, 9] [1, 3] 0 = none ∧ st.view.scanRev u64Max [1, 9] [1, 3] 0 = none ∧
      st.view.scan u64Max [1, 7] [] 0 = some [([1, 6], [12])] ∧
      st.view.scanRev u64Max [] [] 0 = some [([1, 5], [10])] :=
  ⟨_, rfl, by decide +kernel, by decide +kernel, by decide +kernel, by decide +kernel⟩

end ZydecoDb
