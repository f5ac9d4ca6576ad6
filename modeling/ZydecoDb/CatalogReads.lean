import ZydecoDb.Scan

namespace ZydecoDb

open Lib

def tableVersions (tables : List LoadedSstable) : List Version :=
  tables.flatMap fun t => t.reader.entries

def topVersion (tables : List LoadedSstable) (k : Bytes) : Option Version :=
  tables.reverse.findSome? fun t => newest t.reader.entries k

variable {tables : List LoadedSstable}

theorem mem_tableVersions {v : Version} :
    v ∈ tableVersions tables ↔ ∃ t ∈ tables, v ∈ t.reader.entries := List.mem_flatMap

theorem topVersion_append (l m : List LoadedSstable) (k : Bytes) :
    topVersion (l ++ m) k = (topVersion m k).or (topVersion l k) := by
  rw [topVersion, List.reverse_append, List.findSome?_append]
  rfl

theorem topVersion_mem {k : Bytes} {v : Version} (h : topVersion tables k = some v) :
    v ∈ tableVersions tables ∧ v.userKey = k := by
  obtain ⟨t, ht, hv⟩ := List.exists_of_findSome?_eq_some h
  have hm := newest_mem hv
  exact ⟨mem_tableVersions.mpr ⟨t, List.mem_reverse.mp ht, hm.1⟩, hm.2⟩

theorem topVersion_eq_none {k : Bytes} :
    topVersion tables k = none ↔ ∀ v ∈ tableVersions tables, v.userKey ≠ k := by
  simp only [topVersion, List.findSome?_eq_none_iff, List.mem_reverse, newest, Lib.newest_eq_none,
    mem_tableVersions]
  constructor
  · rintro h v ⟨t, ht, hv⟩
    exact h t ht v hv
  · exact fun h t ht v hv => h v ⟨t, ht, hv⟩

/-- With tables ordered by age the walk finds the newest version. -/
theorem topVersion_eq_newest {k : Bytes} (hc : Coherent (tableVersions tables))
    (hd : tables.Pairwise fun a b => NewerThan b.reader.entries a.reader.entries) :
    topVersion tables k = newest (tableVersions tables) k := by
  have hmem : ∀ v, v ∈ (tables.reverse.map fun t => t.reader.entries).flatten ↔
      v ∈ tableVersions tables := by
    intro v
    simp [tableVersions]
  have hc' : Coherent (tables.reverse.map fun t => t.reader.entries).flatten :=
    hc.sublist fun v hv => (hmem v).mp hv
  obtain ⟨s, hs⟩ : ∃ s, ∀ v ∈ tableVersions tables, v.seq ≤ s := by
    refine ⟨((tableVersions tables).map Version.seq).sum, fun v hv => ?_⟩
    exact List.le_sum_of_mem (List.mem_map_of_mem hv)
  have hfind := findSome_newestAt (k := k) (s := s) hc' (by
    rw [List.pairwise_map, List.pairwise_reverse]
    exact hd)
  rw [List.findSome?_map, newestAt_eq_newest fun v hv => hs v ((hmem v).mp hv)] at hfind
  have hcong : newest (tables.reverse.map fun t => t.reader.entries).flatten k =
      newest (tableVersions tables) k := newest_congr hc' fun v _ => hmem v
  rw [← hcong, topVersion, newest, ← hfind]
  refine findSome_congr fun t ht => (newestAt_eq_newest fun v hv => hs v ?_).symm
  exact mem_tableVersions.mpr ⟨t, List.mem_reverse.mp ht, hv⟩

theorem outcome_eq_none {v : Option Version} {t : Nat} :
    outcome v t = none ↔ ∀ w ∈ v, w.entry.isLive t = false := by
  cases v with
  | none => simp [outcome]
  | some w => simp [outcome, Version.resolve, Entry.isLive]

namespace ReadView

variable {view : ReadView}

structure Layered (view : ReadView) : Prop where
  mems : view.memSources.Pairwise NewerThan
  mems_newer : ∀ m ∈ view.memSources, ∀ t ∈ view.sstables, NewerThan m t.reader.entries
  coherent : Coherent view.versions
  seq_le : ∀ v ∈ view.versions, v.seq ≤ u64Max
  tables : ∀ t ∈ view.sstables, t.WellFormed

theorem mem_versions_layers {v : Version} : v ∈ view.versions ↔
    v ∈ view.memSources.flatten ∨ v ∈ tableVersions view.sstables := by
  simp [versions, sources, tableVersions]

theorem firstVisible_layers (h : view.Layered) (k : Bytes) :
    view.firstVisible k u64Max =
      (newest view.memSources.flatten k).or (topVersion view.sstables k) := by
  have hmax : ∀ v ∈ view.memSources.flatten, v.seq ≤ u64Max := fun v hv =>
    h.seq_le v (mem_versions_layers.mpr (Or.inl hv))
  have hc : Coherent view.memSources.flatten := h.coherent.sublist fun v hv =>
    mem_versions_layers.mpr (Or.inl hv)
  rw [firstVisible_eq_findSome h.seq_le h.tables, sources, List.findSome?_append, List.findSome?_map]
  have hmem := findSome_newestAt (k := k) (s := u64Max) hc h.mems
  rw [newestAt_eq_newest hmax] at hmem
  rw [hmem, topVersion]
  congr 1
  refine findSome_congr fun t ht => newestAt_eq_newest fun v hv => h.seq_le v ?_
  exact mem_versions_layers.mpr
    (Or.inr (mem_tableVersions.mpr ⟨t, List.mem_reverse.mp ht, hv⟩))

theorem newestAt_layers (h : view.Layered) (k : Bytes) :
    newestAt view.versions k u64Max =
      (newest view.memSources.flatten k).or (newest (tableVersions view.sstables) k) := by
  have hc : Coherent (view.memSources.flatten ++ tableVersions view.sstables) :=
    h.coherent.sublist fun v hv => mem_versions_layers.mpr (List.mem_append.mp hv)
  have hn : NewerThan view.memSources.flatten (tableVersions view.sstables) := by
    intro v hv w hw
    obtain ⟨m, hm, hvm⟩ := List.mem_flatten.mp hv
    obtain ⟨t, ht, hwt⟩ := mem_tableVersions.mp hw
    exact h.mems_newer m hm t ht v hvm w hwt
  have hmax : ∀ v ∈ view.memSources.flatten ++ tableVersions view.sstables, v.seq ≤ u64Max :=
    fun v hv => h.seq_le v (mem_versions_layers.mpr (List.mem_append.mp hv))
  have happ := newestAt_append (k := k) (s := u64Max) hc hn
  rw [newestAt_eq_newest hmax, newestAt_eq_newest fun v hv => hmax v (List.mem_append_left _ hv),
    newestAt_eq_newest fun v hv => hmax v (List.mem_append_right _ hv)] at happ
  rw [← happ, newestAt, newestAt_eq_newest h.seq_le]
  exact newest_congr h.coherent fun v _ => by rw [mem_versions_layers, List.mem_append]

def ScanAbsent (view : ReadView) (k : Bytes) (t : Nat) : Prop :=
  ∀ lo hi rows, lo ≤ k → (hi = [] ∨ k < hi) → view.scan u64Max lo hi t = some rows →
    ∀ b, (k, b) ∉ rows

theorem scanAbsent_iff (hwf : ∀ t ∈ view.sstables, t.WellFormed) (hc : Coherent view.versions)
    {k : Bytes} {t : Nat} :
    view.ScanAbsent k t ↔ outcome (newestAt view.versions k u64Max) t = none := by
  constructor
  · intro h
    obtain ⟨rows, hrows⟩ : ∃ rows, view.scan u64Max k [] t = some rows :=
      scan_isSome le_rfl (Or.inl rfl)
    by_contra hne
    obtain ⟨⟨b, seq⟩, ho⟩ := Option.ne_none_iff_exists'.mp hne
    exact h k [] rows le_rfl (Or.inl rfl) hrows b
      ((mem_scan hwf hc le_rfl (Or.inl rfl) hrows).mpr ⟨seq, ho⟩)
  · intro h lo hi rows hlo hhi hrows b hb
    obtain ⟨seq, ho⟩ := (mem_scan hwf hc hlo hhi hrows).mp hb
    rw [h] at ho
    simp at ho

end ReadView

end ZydecoDb
