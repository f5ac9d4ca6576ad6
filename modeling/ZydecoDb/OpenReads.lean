import ZydecoDb.RangeScan
import ZydecoDb.Open

namespace ZydecoDb

open Lib

def SameFrom (nowMs : Nat) (a b : Option Version) : Prop :=
  ∀ t, nowMs ≤ t → valueAt a t = valueAt b t

/-- The two answer every lookup and every scan alike from a time on, reverse scans up to a bound
included. -/
def SameReads (nowMs : Nat) (view view' : ReadView) : Prop :=
  ∀ t, nowMs ≤ t → (∀ k, view.handleGet k u64Max t = view'.handleGet k u64Max t) ∧
    (∀ lo hi, ReadView.ScanRange lo hi → view.scan u64Max lo hi t = view'.scan u64Max lo hi t) ∧
    ∀ lo hi, lo ≤ hi → hi ≠ [] → view.scanRev u64Max lo hi t = view'.scanRev u64Max lo hi t

theorem SameFrom.refl (nowMs : Nat) (a : Option Version) : SameFrom nowMs a a := fun _ _ => rfl

namespace ReadView

variable {view view' : ReadView}

theorem handleGet_layers (h : view.Layered) (k : Bytes) (t : Nat) : view.handleGet k u64Max t =
    valueAt ((newest view.memSources.flatten k).or (topVersion view.sstables k)) t := by
  rw [handleGet, getWithSeq, firstVisible_layers h]
  rfl

theorem scanRev_congr (hwf : ∀ t ∈ view.sstables, t.WellFormed) (hco : Coherent view.versions)
    (hwf' : ∀ t ∈ view'.sstables, t.WellFormed) (hco' : Coherent view'.versions) {s now : Nat}
    {lo hi : Bytes} (hle : lo ≤ hi) (hne : hi ≠ []) (h : view.scan s lo hi now = view'.scan s lo hi now) :
    view.scanRev s lo hi now = view'.scanRev s lo hi now := by
  obtain ⟨rows, hs, hr, -⟩ : view.ScansExactly s now lo hi :=
    (scansExactly_iff_of_coherent hwf hco).mpr (Or.inl ⟨hne, Or.inl hle⟩)
  obtain ⟨rows', hs', hr', -⟩ : view'.ScansExactly s now lo hi :=
    (scansExactly_iff_of_coherent hwf' hco').mpr (Or.inl ⟨hne, Or.inl hle⟩)
  rw [hs, hs'] at h
  rw [hr, hr', Option.some.inj h]

/-- Reads agree exactly when each key's top and newest versions do. -/
theorem sameReads_iff (h : view.Layered) (h' : view'.Layered) {nowMs : Nat} :
    SameReads nowMs view view' ↔ ∀ k,
      SameFrom nowMs ((newest view.memSources.flatten k).or (topVersion view.sstables k))
        ((newest view'.memSources.flatten k).or (topVersion view'.sstables k)) ∧
      SameFrom nowMs ((newest view.memSources.flatten k).or (newest (tableVersions view.sstables) k))
        ((newest view'.memSources.flatten k).or (newest (tableVersions view'.sstables) k)) := by
  constructor
  · intro hs k
    refine ⟨fun t ht => ?_, fun t ht => ?_⟩
    · rw [← handleGet_layers h, ← handleGet_layers h']
      exact (hs t ht).1 k
    · have hlt := lt_append_singleton k 0x00
      have hr : ScanRange k (k ++ [0x00]) := Or.inl ⟨hlt.le, by simp⟩
      obtain ⟨rows, hrows⟩ := hr.isSome view u64Max t
      have hrows' := (hs t ht).2.1 _ _ hr
      rw [hrows] at hrows'
      rw [← newestAt_layers h, ← newestAt_layers h']
      refine Option.ext fun b => ?_
      rw [valueAt_eq_some, valueAt_eq_some,
        ← mem_scan h.tables h.coherent le_rfl (Or.inr hlt) hrows,
        ← mem_scan h'.tables h'.coherent le_rfl (Or.inr hlt) hrows'.symm]
  · intro hk t ht
    have hscan : ∀ lo hi, ScanRange lo hi → view.scan u64Max lo hi t = view'.scan u64Max lo hi t := by
      intro lo hi hr
      refine scan_congr h.tables h.coherent h'.tables h'.coherent hr fun k => ?_
      rw [newestAt_layers h, newestAt_layers h']
      exact (hk k).2 t ht
    refine ⟨fun k => ?_, hscan, fun lo hi hle hne => ?_⟩
    · rw [handleGet_layers h, handleGet_layers h']
      exact (hk k).1 t ht
    · exact scanRev_congr h.tables h.coherent h'.tables h'.coherent hle hne
        (hscan lo hi (Or.inl ⟨hle, hne⟩))

end ReadView

/-! ### The memtable a replay fills -/

theorem opToMemtablePair_seq (seq : Nat) (op : WalOp) : (opToMemtablePair seq op).seq = seq := by
  unfold opToMemtablePair
  split <;> rfl

variable {v : Version}

theorem WalEntry.seq_of_mem_pairs {e : WalEntry} (h : v ∈ e.intoMemtablePairs) :
    v.seq = e.seq := by
  cases e with
  | single r =>
    cases List.mem_singleton.mp h
    exact opToMemtablePair_seq _ _
  | batch b =>
    obtain ⟨op, -, rfl⟩ := List.mem_map.mp h
    exact opToMemtablePair_seq _ _

def walVersions (segs : List (Nat × List WalEntry)) : List Version :=
  (segs.flatMap Prod.snd).flatMap WalEntry.intoMemtablePairs

theorem mem_insertAll {vs : List Version} {mt : Memtable} (hc : Coherent (mt.entries ++ vs)) :
    v ∈ (vs.foldl Memtable.insert mt).entries ↔ v ∈ mt.entries ∨ v ∈ vs := by
  induction vs generalizing mt with
  | nil => simp
  | cons w vs ih =>
    have hmem : ∀ x, x ∈ (mt.insert w).entries ↔ x ∈ mt.entries ∨ x = w := by
      intro x
      constructor
      · exact fun hx => (Memtable.mem_insertEntry hx).symm
      · rintro (hx | rfl)
        · by_cases he : w.internalKey = x.internalKey
          · have hxw : x = w := by
              refine hc x (by simp [hx]) w (by simp) ?_ ?_
              · exact (congrArg InternalKey.userKey he).symm
              · exact (congrArg InternalKey.seq he).symm
            exact hxw ▸ Memtable.mem_insertEntry_self w mt.entries
          · exact Memtable.mem_insertEntry_of_ne hx he
        · exact Memtable.mem_insertEntry_self _ _
    rw [List.foldl_cons, ih, hmem, List.mem_cons, or_assoc]
    refine hc.sublist fun x hx => ?_
    rw [List.mem_append, hmem] at hx
    simp only [List.mem_append, List.mem_cons]
    tauto

variable {segs : List (Nat × List WalEntry)}

theorem mem_replayedEntries_pairs {maxSeq : Nat} :
    v ∈ (replayedEntries maxSeq none segs).flatMap WalEntry.intoMemtablePairs ↔
      v ∈ walVersions segs ∧ maxSeq < v.seq := by
  simp only [replayedEntries, walVersions, List.mem_flatMap (b := v), List.mem_filter,
    Option.not_mem_none, false_imp_iff, implies_true, and_true, decide_eq_true_eq]
  constructor
  · rintro ⟨e, ⟨he, hlt⟩, hv⟩
    exact ⟨⟨e, he, hv⟩, WalEntry.seq_of_mem_pairs hv ▸ hlt⟩
  · rintro ⟨⟨e, he, hv⟩, hlt⟩
    exact ⟨e, ⟨he, WalEntry.seq_of_mem_pairs hv ▸ hlt⟩, hv⟩

theorem mem_replayMemtable (hc : Coherent (walVersions segs)) {maxSeq : Nat} :
    v ∈ (replayMemtable (replayedEntries maxSeq none segs)).entries ↔
      v ∈ walVersions segs ∧ maxSeq < v.seq := by
  rw [replayMemtable, mem_insertAll, mem_replayedEntries_pairs]
  · simp [Memtable.empty]
  · exact hc.sublist fun w hw => (mem_replayedEntries_pairs.mp hw).1

variable {tables : List LoadedSstable}

theorem le_sstableMaxSeq {t : LoadedSstable} (ht : t ∈ tables) :
    t.metadata.maxSeq ≤ sstableMaxSeq tables :=
  foldl_max_ge.2 _ (List.mem_map_of_mem (f := fun t : LoadedSstable => t.metadata.maxSeq) ht)

theorem seq_le_sstableMaxSeq (hwf : ∀ t ∈ tables, t.WellFormed) (hv : v ∈ tableVersions tables) :
    v.seq ≤ sstableMaxSeq tables := by
  obtain ⟨t, ht, hvt⟩ := mem_tableVersions.mp hv
  exact ((hwf t ht).le_maxSeq v hvt).trans (le_sstableMaxSeq ht)

theorem sstableMaxSeq_le (hwf : ∀ t ∈ tables, t.WellFormed) {n : Nat}
    (h : ∀ v ∈ tableVersions tables, v.seq ≤ n) : sstableMaxSeq tables ≤ n := by
  rcases foldl_max_mem (tables.map fun t => t.metadata.maxSeq) 0 with h0 | hm
  · rw [sstableMaxSeq, h0]
    exact Nat.zero_le n
  · obtain ⟨t, ht, he⟩ := List.mem_map.mp hm
    obtain ⟨v, hv, hvs⟩ := (hwf t ht).maxSeq_mem
    rw [sstableMaxSeq, ← he, ← hvs]
    exact h v (mem_tableVersions.mpr ⟨t, ht, hv⟩)

def reopenedView (segs : List (Nat × List WalEntry)) (tables : List LoadedSstable) : ReadView :=
  ⟨replayMemtable (replayedEntries (sstableMaxSeq tables) none segs), [], tables⟩

def replayedVersions (segs : List (Nat × List WalEntry)) (tables : List LoadedSstable) :
    List Version :=
  (walVersions segs).filter fun v => sstableMaxSeq tables < v.seq

theorem reopenedView_layered (hwf : ∀ t ∈ tables, t.WellFormed)
    (hc : Coherent (walVersions segs ++ tableVersions tables))
    (hmax : ∀ v ∈ walVersions segs ++ tableVersions tables, v.seq ≤ u64Max) :
    (reopenedView segs tables).Layered := by
  have hmem : ∀ v, v ∈ (reopenedView segs tables).memSources.flatten ↔
      v ∈ walVersions segs ∧ sstableMaxSeq tables < v.seq := by
    intro v
    rw [← mem_replayMemtable (hc.sublist fun w hw => List.mem_append_left _ hw)]
    simp [reopenedView, ReadView.memSources]
  have hall : ∀ v ∈ (reopenedView segs tables).versions,
      v ∈ walVersions segs ++ tableVersions tables := by
    intro v hv
    rcases ReadView.mem_versions_layers.mp hv with hv | hv
    · exact List.mem_append_left _ ((hmem v).mp hv).1
    · exact List.mem_append_right _ hv
  refine ⟨?_, ?_, hc.sublist hall, fun v hv => hmax v (hall v hv), hwf⟩
  · simp [reopenedView, ReadView.memSources]
  · intro m hm t ht v hv w hw _
    have hvm := ((hmem v).mp (List.mem_flatten.mpr ⟨m, hm, hv⟩)).2
    have hwm := seq_le_sstableMaxSeq hwf (mem_tableVersions.mpr ⟨t, ht, hw⟩)
    omega

theorem newest_replayed (hc : Coherent (walVersions segs)) (k : Bytes) :
    newest (reopenedView segs tables).memSources.flatten k =
      newest (replayedVersions segs tables) k := by
  have hmem : ∀ v, v ∈ (reopenedView segs tables).memSources.flatten ↔
      v ∈ replayedVersions segs tables := by
    intro v
    have hr : v ∈ replayedVersions segs tables ↔
        v ∈ walVersions segs ∧ sstableMaxSeq tables < v.seq := by
      simp [replayedVersions]
    rw [hr, ← mem_replayMemtable hc]
    simp [reopenedView, ReadView.memSources]
  refine newest_congr (hc.sublist fun v hv => ?_) fun v _ => hmem v
  exact (List.mem_filter.mp ((hmem v).mp hv)).1

theorem openEngine_view {crc : Bytes → UInt32} {dir : DataDir} {state : ManifestState}
    (hm : replay crc dir.manifest = .ok state) (ht : loadCatalog dir.sstFiles state = .ok tables)
    (hw : recoverWal crc (listSegments dir) = .ok segs) :
    ∃ o, openEngine crc none dir = .ok o ∧ o.engine.view = reopenedView segs tables := by
  simp only [openEngine, hm, ht, hw, Except.bind, Except.map]
  exact ⟨_, rfl, rfl⟩

end ZydecoDb
