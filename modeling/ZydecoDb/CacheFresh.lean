import ZydecoDb.CachedReads

namespace ZydecoDb

open Lib

namespace EngineState

variable {st st' : EngineState}

def OutOfMemtables (st : EngineState) (k : Bytes) : Prop :=
  ∀ m ∈ st.memEntries, ∀ v ∈ m, v.userKey ≠ k

instance decidableOutOfMemtables (st : EngineState) (k : Bytes) : Decidable (st.OutOfMemtables k) :=
  inferInstanceAs (Decidable (∀ m ∈ st.memEntries, ∀ v ∈ m, _))

theorem Inv.seq_le (hi : st.Inv) : ∀ v ∈ st.view.versions, v.seq ≤ u64Max := fun v hv =>
  ((hi.seq_lt v hv).trans_le hi.next_le).le

theorem memVisible_eq_none (hi : st.Inv) {k : Bytes} :
    st.view.memVisible k u64Max = none ↔ st.OutOfMemtables k := by
  have hmt : ∀ mt ∈ st.active :: st.immutable, mt.firstVisible k u64Max = none ↔
      ∀ v ∈ mt.entries, v.userKey ≠ k := by
    intro mt hmt
    have hmax : ∀ v ∈ mt.entries, v.seq ≤ u64Max := by
      intro v hv
      refine hi.seq_le v (ReadView.mem_versions.mpr ?_)
      rcases List.mem_cons.mp hmt with rfl | hin
      · exact Or.inl hv
      · exact Or.inr (Or.inl ⟨mt, hin, hv⟩)
    rw [mt.firstVisible_eq_newestAt k _ hmax, newestAt, newestAt_eq_newest hmax, newest_eq_none]
  rw [ReadView.memVisible, Option.or_eq_none_iff, List.findSome?_eq_none_iff,
    show st.view.active.firstVisible k u64Max = none ↔ _ from hmt st.active List.mem_cons_self]
  simp only [OutOfMemtables, memEntries, List.mem_cons, forall_eq_or_imp, List.mem_map,
    List.mem_reverse, forall_exists_index, and_imp, forall_apply_eq_imp_iff₂]
  refine and_congr_right fun _ => forall₂_congr fun mt hin => ?_
  exact hmt mt (List.mem_cons_of_mem _ hin)

theorem tableVisible_eq_topVersion (hi : st.Inv) (k : Bytes) :
    st.view.tableVisible k u64Max = topVersion st.sstables k := by
  refine findSome_congr fun t ht => ?_
  have htm : t ∈ st.sstables := List.mem_reverse.mp ht
  have hmax : ∀ v ∈ t.reader.entries, v.seq ≤ u64Max := fun v hv =>
    hi.seq_le v (mem_view_versions.mpr (Or.inr ⟨t, htm, hv⟩))
  rw [LoadedSstable.lookup_eq_newestAt (hi.tables t htm) hmax, newestAt, newestAt_eq_newest hmax]

end EngineState

namespace CachedEngine

open EngineState

/-- Every cached value is that of the version the table walk meets first, and no memtable stands
above it. -/
structure Fresh (s : CachedEngine) : Prop where
  engine : s.engine.Inv
  cached : ∀ k b, s.cached k = some b → s.engine.OutOfMemtables k ∧
    ∃ v, topVersion s.engine.sstables k = some v ∧ v.entry.isTombstone = false ∧
      v.entry.valueBytes = b

/-- Cached values stay fresh while their keys are out of the memtables and under one table. -/
theorem Fresh.frame {s s' : CachedEngine} (h : s.Fresh) (hi : s'.engine.Inv)
    (hc : ∀ k b, s'.cached k = some b → s.cached k = some b)
    (hm : ∀ k b, s'.cached k = some b → s.engine.OutOfMemtables k → s'.engine.OutOfMemtables k)
    (ht : ∀ k b, s'.cached k = some b → s.engine.OutOfMemtables k →
      topVersion s'.engine.sstables k = topVersion s.engine.sstables k) : s'.Fresh where
  engine := hi
  cached k b hk := by
    obtain ⟨hout, v, hv, hrest⟩ := h.cached k b (hc k b hk)
    exact ⟨hm k b hk hout, v, (ht k b hk hout).trans hv, hrest⟩

theorem Fresh.snapshotGetInner {s : CachedEngine} (h : s.Fresh) {seqUpper nowMs : Nat}
    {key : Bytes} {useResultCache includeExpired : Bool} :
    (s.snapshotGetInner seqUpper key useResultCache includeExpired nowMs).2.Fresh where
  engine := by
    rw [snapshotGetInner_engine]
    exact h.engine
  cached k b hk := by
    rw [snapshotGetInner_engine]
    rcases cached_of_snapshotGetInner hk with hold | ⟨rfl, hm, v, hv, hres⟩
    · exact h.cached k b hold
    · refine ⟨(memVisible_eq_none h.engine).mp hm, v,
        (tableVisible_eq_topVersion h.engine k).symm.trans hv, ?_⟩
      unfold Version.resolveEntry at hres
      split at hres
      next => simp at hres
      next hne =>
        rw [Bool.not_eq_true, Bool.or_eq_false_iff] at hne
        exact ⟨hne.1, (Prod.mk.inj (Option.some.inj hres)).1⟩

theorem checkedGet_snd (validate : Bytes → Except EngineError Unit) (s : CachedEngine) (key : Bytes)
    (nowMs : Nat) : (checkedGet validate s key nowMs).2 = s ∨
      (checkedGet validate s key nowMs).2 = (s.snapshotGet u64Max key nowMs).2 := by
  unfold checkedGet
  split
  next => exact Or.inl rfl
  next => exact Or.inr rfl

theorem Fresh.checkedGet {validate : Bytes → Except EngineError Unit} {s : CachedEngine} (h : s.Fresh)
    {key : Bytes} {nowMs : Nat} : (checkedGet validate s key nowMs).2.Fresh := by
  rcases checkedGet_snd validate s key nowMs with he | he
  · rw [he]
    exact h
  · rw [he]
    exact h.snapshotGetInner

theorem checkedGet_engine (validate : Bytes → Except EngineError Unit) (s : CachedEngine)
    (key : Bytes) (nowMs : Nat) : (checkedGet validate s key nowMs).2.engine = s.engine := by
  rcases checkedGet_snd validate s key nowMs with he | he
  · rw [he]
  · rw [he]
    exact snapshotGetInner_engine

theorem outOfMemtables_commit {st st' : EngineState} (hi : st.Inv) {ops : List BatchOp}
    (ho : ValidOps ops) (hc : st.commit ops = some st') {k : Bytes}
    (hk : k ∉ ops.map BatchOp.key) (h : st.OutOfMemtables k) : st'.OutOfMemtables k := by
  have hact := fun v => hi.mem_commit_active ho (v := v)
  obtain ⟨-, rfl⟩ := commit_cases hc
  intro m hm v hv
  rcases List.mem_cons.mp hm with rfl | hm
  · rcases (hact v).mp hv with hv | ⟨op, hop, rfl⟩
    · exact h _ List.mem_cons_self v hv
    · rw [BatchOp.version_userKey]
      rintro rfl
      exact hk (List.mem_map_of_mem hop)
  · exact h m (List.mem_cons_of_mem _ hm) v hv

theorem Fresh.commit {s : CachedEngine} (h : s.Fresh) {ops : List BatchOp} {st : EngineState}
    {rc : Option ResultCache} (ho : ValidOps ops) (hc : s.engine.commit ops = some st)
    (hrc : ∀ k b, (⟨st, rc⟩ : CachedEngine).cached k = some b →
      s.cached k = some b ∧ k ∉ ops.map BatchOp.key) : Fresh ⟨st, rc⟩ := by
  refine h.frame (h.engine.commit ho hc) (fun k b hk => (hrc k b hk).1) (fun k b hk hout => ?_)
    fun k b hk hout => ?_
  · exact outOfMemtables_commit h.engine ho hc (hrc k b hk).2 hout
  · rw [(commit_tables hc).1]

theorem cached_invalidate {s : CachedEngine} {keys : List Bytes} {k b : Bytes}
    (h : (s.invalidate keys).cached k = some b) : s.cached k = some b ∧ k ∉ keys := by
  have hfold : ∀ (keys : List Bytes) (rc : ResultCache),
      (keys.foldl ResultCache.invalidate rc).peek k = some b → rc.peek k = some b ∧ k ∉ keys := by
    intro keys
    induction keys with
    | nil => exact fun rc hk => ⟨hk, by simp⟩
    | cons key keys ih =>
      intro rc hk
      obtain ⟨hk, hnot⟩ := ih _ hk
      obtain ⟨hne, hk⟩ := ResultCache.peek_of_invalidate hk
      exact ⟨hk, by simp [hne, hnot]⟩
  unfold cached invalidate at h
  cases hrc : s.resultCache with
  | none => simp [hrc] at h
  | some rc =>
    rw [hrc] at h
    rw [cached, hrc]
    exact hfold keys rc h

end CachedEngine

end ZydecoDb
