import ZydecoDb.Engine

namespace ZydecoDb

open Lib

structure ValidOps (ops : List BatchOp) : Prop where
  nodup : (ops.map BatchOp.key).Nodup
  key_ne : ∀ op ∈ ops, op.key ≠ []
  key_len : ∀ op ∈ ops, op.key.length ≤ maxKeyBytes
  value_len : ∀ op ∈ ops, op.value.length ≤ maxValueBytes
  count : ops.length ≤ maxBatchKeys
  ne_nil : ops ≠ []

theorem validateKey_ok {ks : UInt8} {e s r : String} {key : Bytes}
    (h : validateKey ks e s r key = .ok ()) : key ≠ [] ∧ key.length ≤ maxKeyBytes := by
  unfold validateKey at h
  split at h
  next => simp at h
  next =>
    split at h
    next => simp at h
    next hlen => exact ⟨by simp, not_lt.mp hlen⟩

theorem validateKey_head {ks : UInt8} {e s r : String} {key : Bytes}
    (h : validateKey ks e s r key = .ok ()) : key.head? = some ks := by
  unfold validateKey at h
  split at h
  next => simp at h
  next first rest =>
    split at h
    next => simp at h
    next =>
      split at h
      next => simp at h
      next hks => exact congrArg some (not_not.mp hks)

theorem validateValue_ok {value : Bytes} (h : validateValue value = .ok ()) :
    value.length ≤ maxValueBytes := by
  unfold validateValue at h
  split at h
  next => simp at h
  next hlen => exact not_lt.mp hlen

theorem validateOp_ok {op : BatchOp} (h : validateOp op = .ok ()) :
    op.key ≠ [] ∧ op.key.length ≤ maxKeyBytes ∧ op.value.length ≤ maxValueBytes := by
  obtain ⟨_, hk, h⟩ := except_bind_eq_ok.mp h
  obtain ⟨h1, h2⟩ := validateKey_ok hk
  cases op with
  | put key value expiresAt => exact ⟨h1, h2, validateValue_ok h⟩
  | del key => exact ⟨h1, h2, by simp [BatchOp.value]⟩

theorem validateSysPut_ok {p : Bytes × Bytes} (h : validateSysPut p = .ok ()) :
    p.1 ≠ [] ∧ p.1.length ≤ maxKeyBytes ∧ p.2.length ≤ maxValueBytes := by
  obtain ⟨_, hk, h⟩ := except_bind_eq_ok.mp h
  obtain ⟨h1, h2⟩ := validateKey_ok hk
  exact ⟨h1, h2, validateValue_ok h⟩

theorem validateDistinct_ok {α : Type} {check : α → Except EngineError Unit} {key : α → Bytes}
    {l : List α} {seen out : List Bytes} (h : validateDistinct check key seen l = .ok out) :
    (∀ a ∈ l, check a = .ok ()) ∧ (l.map key).Nodup ∧ (∀ a ∈ l, key a ∉ seen) ∧
      ∀ k, k ∈ out ↔ k ∈ seen ∨ k ∈ l.map key := by
  induction l generalizing seen with
  | nil =>
    cases h
    simp
  | cons a l ih =>
    obtain ⟨_, hc, h⟩ := except_bind_eq_ok.mp h
    split at h
    next => simp at h
    next hns =>
      obtain ⟨hall, hnd, hfresh, hout⟩ := ih h
      refine ⟨List.forall_mem_cons.mpr ⟨hc, hall⟩, ?_, ?_, ?_⟩
      · rw [List.map_cons, List.nodup_cons]
        refine ⟨fun hm => ?_, hnd⟩
        obtain ⟨b, hb, hk⟩ := List.mem_map.mp hm
        exact hfresh b hb (hk ▸ List.mem_cons_self)
      · exact List.forall_mem_cons.mpr
          ⟨hns, fun b hb hm => hfresh b hb (List.mem_cons_of_mem _ hm)⟩
      · intro k
        rw [hout k, List.map_cons, List.mem_cons, List.mem_cons]
        tauto

/-- A batch that passes its checks has storable keys and values, each key once. -/
theorem validateBatch_ok {ops : List BatchOp} {sysPuts : List (Bytes × Bytes)}
    (h : validateBatch ops sysPuts = .ok ()) :
    ValidOps (ops ++ sysPuts.map fun p => .put p.1 p.2 0) := by
  unfold validateBatch at h
  split at h
  next => simp at h
  next hne =>
    split at h
    next => simp at h
    next hcount =>
      obtain ⟨seen, hops, h⟩ := except_bind_eq_ok.mp h
      obtain ⟨_, hsys, -⟩ := except_bind_eq_ok.mp h
      obtain ⟨hck, hnd, -, hseen⟩ := validateDistinct_ok hops
      obtain ⟨hck', hnd', hfresh, -⟩ := validateDistinct_ok hsys
      have hkey : ∀ op ∈ ops ++ sysPuts.map (fun p => BatchOp.put p.1 p.2 0),
          op.key ≠ [] ∧ op.key.length ≤ maxKeyBytes ∧ op.value.length ≤ maxValueBytes := by
        intro op hop
        rcases List.mem_append.mp hop with hop | hop
        · exact validateOp_ok (hck op hop)
        · obtain ⟨p, hp, rfl⟩ := List.mem_map.mp hop
          exact validateSysPut_ok (hck' p hp)
      refine ⟨?_, fun op hop => (hkey op hop).1, fun op hop => (hkey op hop).2.1,
        fun op hop => (hkey op hop).2.2, by simpa using not_lt.mp hcount, ?_⟩
      · rw [List.map_append, List.map_map, List.nodup_append]
        refine ⟨hnd, hnd', fun a ha b hb hab => ?_⟩
        obtain ⟨p, hp, rfl⟩ := List.mem_map.mp hb
        exact hfresh p hp ((hseen p.1).mpr (Or.inr (by rw [← show a = p.1 from hab]; exact ha)))
      · simpa using hne

theorem validOps_singleton {op : BatchOp} (h : validateOp op = .ok ()) : ValidOps [op] := by
  obtain ⟨h1, h2, h3⟩ := validateOp_ok h
  exact ⟨List.nodup_singleton _, by simpa using h1, by simpa using h2, by simpa using h3,
    by simp [maxBatchKeys], by simp⟩

namespace EngineState

variable {st st' : EngineState}

theorem put_cases {key value : Bytes} {expiresAt : Nat} (h : st.put key value expiresAt = some st') :
    ValidOps [.put key value expiresAt] ∧ st.commit [.put key value expiresAt] = some st' := by
  unfold put at h
  split at h
  next hv => exact ⟨validOps_singleton hv, h⟩
  next => simp at h

theorem del_cases {key : Bytes} (h : st.del key = some st') :
    ValidOps [.del key] ∧ st.commit [.del key] = some st' := by
  unfold del at h
  split at h
  next hv => exact ⟨validOps_singleton hv, h⟩
  next => simp at h

theorem writeBatch_cases {ops : List BatchOp} {sysPuts : List (Bytes × Bytes)}
    (h : st.writeBatchInner ops sysPuts = some st') :
    ValidOps (ops ++ sysPuts.map fun p => .put p.1 p.2 0) ∧
      st.commit (ops ++ sysPuts.map fun p => .put p.1 p.2 0) = some st' := by
  unfold writeBatchInner at h
  split at h
  next hv => exact ⟨validateBatch_ok hv, h⟩
  next => simp at h

theorem mem_foldl_insert {ops : List BatchOp} {seq : Nat} {mt : Memtable} {v : Version}
    (hnd : (ops.map BatchOp.key).Nodup) (hfresh : ∀ w ∈ mt.entries, w.seq = seq →
      w.userKey ∉ ops.map BatchOp.key) :
    v ∈ (ops.foldl (fun mt op => mt.insert (op.version seq)) mt).entries ↔
      v ∈ mt.entries ∨ ∃ op ∈ ops, v = op.version seq := by
  induction ops generalizing mt with
  | nil => simp
  | cons op ops ih =>
    rw [List.map_cons, List.nodup_cons] at hnd
    have hmem : ∀ w, w ∈ (mt.insert (op.version seq)).entries ↔ w ∈ mt.entries ∨ w = op.version seq := by
      intro w
      constructor
      · intro hw
        exact (Memtable.mem_insertEntry hw).symm
      · rintro (hw | rfl)
        · refine Memtable.mem_insertEntry_of_ne hw fun he => ?_
          have hs : seq = w.seq := by simpa [Version.internalKey] using congrArg InternalKey.seq he
          have hk : op.key = w.userKey := by
            simpa [Version.internalKey] using congrArg InternalKey.userKey he
          exact hfresh w hw hs.symm (hk ▸ List.mem_cons_self)
        · exact Memtable.mem_insertEntry_self _ _
    rw [List.foldl_cons, ih hnd.2, hmem]
    · simp only [List.mem_cons, exists_eq_or_imp, or_assoc]
    · intro w hw hs hk
      rcases (hmem w).mp hw with hw | rfl
      · exact hfresh w hw hs (List.mem_cons_of_mem _ hk)
      · exact hnd.1 (by simpa using hk)

end EngineState

end ZydecoDb
