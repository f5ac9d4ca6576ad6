import ZydecoDb.Scan

namespace ZydecoDb

open Lib

namespace Version

def leRev (a b : Version) : Prop := b.userKey < a.userKey ∨ a.userKey = b.userKey ∧ b.seq ≤ a.seq

instance decidableLeRev : DecidableRel leRev := fun a b =>
  inferInstanceAs (Decidable (b.userKey < a.userKey ∨ a.userKey = b.userKey ∧ b.seq ≤ a.seq))

instance totalLeRev : Std.Total leRev where
  total a b := by
    rcases lt_trichotomy a.userKey b.userKey with h | h | h
    · exact Or.inr (Or.inl h)
    · rcases le_total a.seq b.seq with hs | hs
      · exact Or.inr (Or.inr ⟨h.symm, hs⟩)
      · exact Or.inl (Or.inr ⟨h, hs⟩)
    · exact Or.inl (Or.inl h)

instance transLeRev : IsTrans Version leRev where
  trans a b c hab hbc := by
    rcases hab with hab | ⟨hab, hs⟩
    · rcases hbc with hbc | ⟨hbc, -⟩
      · exact Or.inl (hbc.trans hab)
      · exact Or.inl (hbc ▸ hab)
    · rcases hbc with hbc | ⟨hbc, ht⟩
      · exact Or.inl (hab ▸ hbc)
      · exact Or.inr ⟨hab.trans hbc, ht.trans hs⟩

theorem leRev_userKey {a b : Version} (h : leRev a b) : b.userKey ≤ a.userKey := by
  rcases h with h | ⟨h, -⟩
  · exact h.le
  · exact h.symm.le

theorem leRev_seq {a b : Version} (h : leRev a b) (hk : a.userKey = b.userKey) : b.seq ≤ a.seq := by
  rcases h with h | ⟨-, h⟩
  · exact absurd h (hk ▸ lt_irrefl _)
  · exact h

end Version

def sortRev (l : List Version) : List Version := l.insertionSort Version.leRev

theorem sortRev_sorted (l : List Version) : (sortRev l).Pairwise Version.leRev :=
  List.pairwise_insertionSort _ _

theorem mem_sortRev {l : List Version} {v : Version} : v ∈ sortRev l ↔ v ∈ l :=
  List.mem_insertionSort _

def Memtable.rangeRev (mt : Memtable) (lo hi : Bytes) : Option (List Version) :=
  (mt.rangeInternal lo hi).map sortRev

def SstableReader.rangeIterRev (r : SstableReader) (lo hi : Bytes) : List Version :=
  sortRev (r.rangeIter lo hi)

namespace ReadView

variable (view : ReadView)

/-- The sources of a reverse scan. Unlike the forward ones the memtables are always asked for the
range, also when `hi` is empty. -/
def buildSourcesRev (seqUpper : Nat) (lo hi : Bytes) : Option (List (List Version)) := do
  let mems ← (view.active :: view.immutables).mapM fun mt => mt.rangeRev lo hi
  let ssts := (view.sstables.filter fun t => sstableOverlapsRange t.metadata lo hi).map fun t =>
    t.reader.rangeIterRev lo hi
  some ((mems ++ ssts).map fun src => src.filter fun v => v.seq ≤ seqUpper)

def scanRev (seqUpper : Nat) (lo hi : Bytes) (nowMs : Nat) : Option (List (Bytes × Bytes)) :=
  (view.buildSourcesRev seqUpper lo hi).map fun sources =>
    (dedup none (kmerge Version.leRev sources)).filterMap (scanRow nowMs)

def MemtablesEmpty : Prop := ∀ mt ∈ view.active :: view.immutables, mt.entries = []

variable {view} {s now : Nat} {lo hi : Bytes}

theorem rangeInternal_eq_none {mt : Memtable} :
    mt.rangeInternal lo hi = none ↔ hi < lo ∧ mt.entries ≠ [] := by
  simp [Memtable.rangeInternal, Memtable.isEmpty]

theorem rangeInternal_cases {mt : Memtable} {src : List Version}
    (h : mt.rangeInternal lo hi = some src) :
    src = mt.entries.filter fun v => lo ≤ v.userKey ∧ v.userKey < hi := by
  unfold Memtable.rangeInternal at h
  split at h
  next => simp at h
  next => exact (Option.some.inj h).symm

theorem memtables_answer_iff {f : Memtable → Option (List Version)}
    (hf : ∀ mt, f mt ≠ none ↔ lo ≤ hi ∨ mt.entries = []) :
    (∃ mems, (view.active :: view.immutables).mapM f = some mems) ↔
      lo ≤ hi ∨ view.MemtablesEmpty := by
  rw [mapM_isSome_iff]
  simp only [hf]
  constructor
  · intro h
    by_cases hle : lo ≤ hi
    · exact Or.inl hle
    · exact Or.inr fun mt hmt => (h mt hmt).resolve_left hle
  · rintro (h | h) mt hmt
    · exact Or.inl h
    · exact Or.inr (h mt hmt)

theorem buildSourcesRev_isSome_iff :
    (∃ srcs, view.buildSourcesRev s lo hi = some srcs) ↔ lo ≤ hi ∨ view.MemtablesEmpty := by
  rw [← memtables_answer_iff (f := fun mt => mt.rangeRev lo hi) fun mt => by
    rw [Memtable.rangeRev, Ne, Option.map_eq_none_iff, rangeInternal_eq_none, not_and_or, not_lt,
      not_not]]
  unfold buildSourcesRev
  cases (view.active :: view.immutables).mapM fun mt => mt.rangeRev lo hi <;> simp

theorem mem_rangeRev {mt : Memtable} {src : List Version} (h : mt.rangeRev lo hi = some src)
    (v : Version) : v ∈ src ↔ v ∈ mt.entries ∧ lo ≤ v.userKey ∧ v.userKey < hi := by
  obtain ⟨raw, hraw, rfl⟩ := Option.map_eq_some_iff.mp h
  rw [rangeInternal_cases hraw, mem_sortRev, List.mem_filter, decide_eq_true_eq]

theorem mem_rangeIterRev {r : SstableReader} {v : Version} :
    v ∈ r.rangeIterRev lo hi ↔ v ∈ r.entries ∧ lo ≤ v.userKey ∧ (hi = [] ∨ v.userKey < hi) := by
  rw [SstableReader.rangeIterRev, mem_sortRev, SstableReader.rangeIter, List.mem_filter,
    decide_eq_true_eq]

theorem mem_buildSourcesRev {srcs : List (List Version)}
    (hb : view.buildSourcesRev s lo hi = some srcs) {v : Version} : v ∈ srcs.flatten ↔
      v.seq ≤ s ∧ lo ≤ v.userKey ∧
        ((∃ mt ∈ view.active :: view.immutables, v ∈ mt.entries ∧ v.userKey < hi) ∨
          ∃ t ∈ view.sstables, sstableOverlapsRange t.metadata lo hi = true ∧
            v ∈ t.reader.entries ∧ (hi = [] ∨ v.userKey < hi)) := by
  obtain ⟨mems, hm, hb⟩ := Option.bind_eq_some_iff.mp hb
  cases Option.some.inj hb
  rw [List.mem_flatten, mem_cutSources hm]
  constructor
  · rintro ⟨hseq, ⟨mt, hmt, src, he, hv⟩ | ⟨t, ht, hv⟩⟩
    · obtain ⟨hv, hlo, hhi⟩ := (mem_rangeRev he v).mp hv
      exact ⟨hseq, hlo, Or.inl ⟨mt, hmt, hv, hhi⟩⟩
    · obtain ⟨ht, hov⟩ := List.mem_filter.mp ht
      obtain ⟨hv, hlo, hhi⟩ := mem_rangeIterRev.mp hv
      exact ⟨hseq, hlo, Or.inr ⟨t, ht, hov, hv, hhi⟩⟩
  · rintro ⟨hseq, hlo, ⟨mt, hmt, hv, hhi⟩ | ⟨t, ht, hov, hv, hhi⟩⟩
    · obtain ⟨src, -, he⟩ := exists_of_mapM_option hm hmt
      exact ⟨hseq, Or.inl ⟨mt, hmt, src, he, (mem_rangeRev he v).mpr ⟨hv, hlo, hhi⟩⟩⟩
    · exact ⟨hseq, Or.inr ⟨t, List.mem_filter.mpr ⟨ht, hov⟩, mem_rangeIterRev.mpr ⟨hv, hlo, hhi⟩⟩⟩

theorem buildSourcesRev_sorted {srcs : List (List Version)}
    (hb : view.buildSourcesRev s lo hi = some srcs) :
    ∀ src ∈ srcs, src.Pairwise Version.leRev := by
  obtain ⟨mems, hm, hb⟩ := Option.bind_eq_some_iff.mp hb
  cases Option.some.inj hb
  intro cut hcut
  obtain ⟨src, hsrc, rfl⟩ := List.mem_map.mp hcut
  apply List.Pairwise.filter
  rcases List.mem_append.mp hsrc with hsrc | hsrc
  · obtain ⟨mt, -, he⟩ := (mem_mapM_option hm src).mp hsrc
    obtain ⟨raw, -, rfl⟩ := Option.map_eq_some_iff.mp he
    exact sortRev_sorted raw
  · obtain ⟨t, -, rfl⟩ := List.mem_map.mp hsrc
    exact sortRev_sorted _

theorem scanRev_descending {rows : List (Bytes × Bytes)}
    (hs : view.scanRev s lo hi now = some rows) : rows.Pairwise fun a b => b.1 < a.1 := by
  obtain ⟨srcs, hb, rfl⟩ := Option.map_eq_some_iff.mp hs
  have hsort : (kmerge Version.leRev srcs).Pairwise Version.leRev :=
    kmerge_sorted (buildSourcesRev_sorted hb)
  have hdown : (kmerge Version.leRev srcs).Pairwise fun a b => b.userKey ≤ a.userKey :=
    hsort.imp Version.leRev_userKey
  rw [List.pairwise_filterMap]
  refine (dedup_pairwise (R := fun a b => b ≤ a) hdown (by simp)).imp fun {a b} hab x hx y hy => ?_
  obtain ⟨-, -, rfl⟩ := Option.map_eq_some_iff.mp hx
  obtain ⟨-, -, rfl⟩ := Option.map_eq_some_iff.mp hy
  exact lt_of_le_of_ne hab.1 (Ne.symm hab.2)

end ReadView

end ZydecoDb
