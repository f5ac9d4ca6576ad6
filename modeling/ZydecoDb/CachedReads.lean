import ZydecoDb.CachedEngine

namespace ZydecoDb

open Lib

namespace CachedEngine

variable {s : CachedEngine} {seqUpper nowMs : Nat} {key k b : Bytes}
  {useResultCache includeExpired : Bool}

def uncached (s : CachedEngine) : CachedEngine := ⟨s.engine, none⟩

@[simp] theorem consult_engine :
    (s.consult seqUpper key useResultCache).2.engine = s.engine := by
  unfold consult
  split
  next =>
    split
    next => rfl
    next => rfl
  next => rfl

@[simp] theorem fill_engine {resolved : Option (Bytes × Nat)} :
    (s.fill seqUpper key resolved).engine = s.engine := by
  unfold fill
  split
  next =>
    split
    next => rfl
    next => rfl
  next => rfl

theorem cached_consult : (s.consult seqUpper key useResultCache).2.cached k = s.cached k := by
  unfold consult
  split
  next rc hrc =>
    split
    next => simp [cached, hrc, ResultCache.peek_get]
    next => rfl
  next => rfl

theorem consult_fst : (s.consult seqUpper key useResultCache).1 =
    if useResultCache ∧ seqUpper = u64Max then s.cached key else none := by
  unfold consult
  split
  next rc hrc =>
    split
    next => simp [cached, hrc, ResultCache.get_fst]
    next => rfl
  next hrc => simp [cached, hrc]

theorem cached_of_fill {resolved : Option (Bytes × Nat)}
    (h : (s.fill seqUpper key resolved).cached k = some b) :
    s.cached k = some b ∨ seqUpper = u64Max ∧ k = key ∧ ∃ seq, resolved = some (b, seq) := by
  unfold fill at h
  split at h
  next rc value seq hrc =>
    split at h
    next hmax =>
      rcases ResultCache.peek_of_insert (show (rc.insert key value).peek k = some b from h) with
        ⟨rfl, rfl⟩ | ⟨-, hold⟩
      · exact Or.inr ⟨hmax, rfl, seq, rfl⟩
      · exact Or.inl (by rw [cached, hrc]; exact hold)
    next => exact Or.inl h
  next => exact Or.inl h

/-- A read refuses the key or answers from a memtable, from the cache or from the tables. -/
theorem snapshotGetInner_cases (s : CachedEngine) (seqUpper : Nat) (key : Bytes)
    (useResultCache includeExpired : Bool) (nowMs : Nat) :
    (∃ e, ((validateUserKey key).tryCatch fun _ => validateSystemKey key) = .error e ∧
      s.snapshotGetInner seqUpper key useResultCache includeExpired nowMs = (.error e, s)) ∨
    ((validateUserKey key).tryCatch fun _ => validateSystemKey key) = .ok () ∧
    ((∃ v, s.engine.view.memVisible key seqUpper = some v ∧
      s.snapshotGetInner seqUpper key useResultCache includeExpired nowMs =
        (.ok (v.resolveEntry nowMs includeExpired), s)) ∨
    s.engine.view.memVisible key seqUpper = none ∧
    ((∃ value, (s.consult seqUpper key useResultCache).1 = some value ∧
      s.snapshotGetInner seqUpper key useResultCache includeExpired nowMs =
        (.ok (some (value, 0)), (s.consult seqUpper key useResultCache).2)) ∨
    (s.consult seqUpper key useResultCache).1 = none ∧
      s.snapshotGetInner seqUpper key useResultCache includeExpired nowMs =
        (.ok ((s.engine.view.tableVisible key seqUpper).bind fun v =>
          v.resolveEntry nowMs includeExpired),
        (s.consult seqUpper key useResultCache).2.fill seqUpper key
          ((s.engine.view.tableVisible key seqUpper).bind fun v =>
            v.resolveEntry nowMs includeExpired)))) := by
  unfold snapshotGetInner
  cases hv : (validateUserKey key).tryCatch fun _ => validateSystemKey key with
  | error e => exact Or.inl ⟨e, rfl, rfl⟩
  | ok u =>
    refine Or.inr ⟨rfl, ?_⟩
    cases hm : s.engine.view.memVisible key seqUpper with
    | some v => exact Or.inl ⟨v, rfl, rfl⟩
    | none =>
      refine Or.inr ⟨rfl, ?_⟩
      cases hc : (s.consult seqUpper key useResultCache).1 with
      | some value =>
        refine Or.inl ⟨value, rfl, ?_⟩
        simp only [hc]
      | none =>
        refine Or.inr ⟨rfl, ?_⟩
        simp only [hc, consult_engine]
        cases ht : s.engine.view.tableVisible key seqUpper with
        | none =>
          have hfill : (s.consult seqUpper key useResultCache).2.fill seqUpper key none =
              (s.consult seqUpper key useResultCache).2 := by
            unfold fill
            cases (s.consult seqUpper key useResultCache).2.resultCache <;> rfl
          rw [Option.bind_none, hfill]
        | some v => rfl

theorem snapshotGetInner_engine :
    (s.snapshotGetInner seqUpper key useResultCache includeExpired nowMs).2.engine = s.engine := by
  rcases s.snapshotGetInner_cases seqUpper key useResultCache includeExpired nowMs with
    ⟨e, -, h⟩ | ⟨-, ⟨v, -, h⟩ | ⟨-, ⟨value, -, h⟩ | ⟨-, h⟩⟩⟩
  all_goals rw [h]
  · exact consult_engine
  · rw [fill_engine, consult_engine]

theorem cached_of_snapshotGetInner
    (h : (s.snapshotGetInner seqUpper key useResultCache includeExpired nowMs).2.cached k = some b) :
    s.cached k = some b ∨ k = key ∧ s.engine.view.memVisible key u64Max = none ∧
      ∃ v, s.engine.view.tableVisible key u64Max = some v ∧
        v.resolveEntry nowMs includeExpired = some (b, v.seq) := by
  rcases s.snapshotGetInner_cases seqUpper key useResultCache includeExpired nowMs with
    ⟨e, -, he⟩ | ⟨-, ⟨v, -, he⟩ | ⟨hm, ⟨value, -, he⟩ | ⟨-, he⟩⟩⟩
  all_goals rw [he] at h
  · exact Or.inl h
  · exact Or.inl h
  · exact Or.inl (cached_consult ▸ h)
  · rcases cached_of_fill h with h | ⟨rfl, rfl, seq, hr⟩
    · exact Or.inl (cached_consult ▸ h)
    · obtain ⟨v, hv, hres⟩ := Option.bind_eq_some_iff.mp hr
      refine Or.inr ⟨rfl, hm, v, hv, hres.trans ?_⟩
      unfold Version.resolveEntry at hres
      split at hres
      next => simp at hres
      next => rw [← (Prod.mk.inj (Option.some.inj hres)).2]

theorem snapshotGetInner_fst :
    (s.snapshotGetInner seqUpper key useResultCache includeExpired nowMs).1 =
      ((validateUserKey key).tryCatch fun _ => validateSystemKey key).map fun _ =>
        match s.engine.view.memVisible key seqUpper with
        | some v => v.resolveEntry nowMs includeExpired
        | none =>
          match (s.consult seqUpper key useResultCache).1 with
          | some value => some (value, 0)
          | none => (s.engine.view.tableVisible key seqUpper).bind fun v =>
              v.resolveEntry nowMs includeExpired := by
  rcases s.snapshotGetInner_cases seqUpper key useResultCache includeExpired nowMs with
    ⟨e, hv, h⟩ | ⟨hv, ⟨v, hm, h⟩ | ⟨hm, ⟨value, hc, h⟩ | ⟨hc, h⟩⟩⟩
  · rw [h, hv]
    rfl
  · rw [h, hv, hm]
    rfl
  · rw [h, hv, hm, hc]
    rfl
  · rw [h, hv, hm, hc]
    rfl

theorem snapshotGetInner_of_miss
    (h : useResultCache ∧ seqUpper = u64Max → s.cached key = none) :
    (s.snapshotGetInner seqUpper key useResultCache includeExpired nowMs).1 =
      (s.uncached.snapshotGetInner seqUpper key useResultCache includeExpired nowMs).1 := by
  have hnone : (s.consult seqUpper key useResultCache).1 = none := by
    rw [consult_fst]
    split
    next hu => exact h hu
    next => rfl
  rw [snapshotGetInner_fst, snapshotGetInner_fst, hnone]
  rfl

end CachedEngine

end ZydecoDb
