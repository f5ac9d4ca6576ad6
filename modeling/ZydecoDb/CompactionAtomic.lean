import ZydecoDb.CompactionCrash

namespace ZydecoDb

open Lib

/-- What every cut has to agree on for a key that no replayed memtable holds: an output above all
tables with the key, WAL entries that come back, the tables behind a removed top holder, and what is
left once the newest version has been dropped. -/
structure CutsAgree (nowMs : Nat) (tables : List LoadedSstable) (ids : List Nat)
    (written : List LoadedSstable) (segs : List (Nat × List WalEntry)) (k : Bytes) : Prop where
  outputs : ∀ o ∈ written, o.Holds k →
    (∀ t ∈ tables, t.Holds k → t.metadata.id < o.metadata.id) →
    SameFrom nowMs (newest o.reader.entries k) (topVersion tables k)
  replayed : ∀ r w, newest (replayedVersions segs (removedCatalog tables ids written r)) k = some w →
    SameFrom nowMs (some w) (topVersion tables k) ∧
      SameFrom nowMs (some w) (newest (tableVersions tables) k)
  uncovered : ∀ r u, newest (replayedVersions segs (removedCatalog tables ids written r)) k = none →
    (∀ o ∈ written, ¬ o.Holds k) → TopHolder tables k u → u ∈ (inputsOf tables ids).take r →
    SameFrom nowMs (topVersion (outsideOf tables ids) k) (topVersion tables k)
  dropped : ∀ r v, newest (replayedVersions segs (removedCatalog tables ids written r)) k = none →
    newest (tableVersions tables) k = some v →
    v ∉ tableVersions (removedCatalog tables ids written r) →
    Dead (newest (tableVersions (removedCatalog tables ids written r)) k) nowMs

section Cuts

variable {p : GcPolicy} {tables written : List LoadedSstable} {ids : List Nat}
  {segs : List (Nat × List WalEntry)} {k : Bytes}
  (hc : Catalog tables) (h : CompactionResult p tables ids written)
  (hco : Coherent (walVersions segs ++ tableVersions tables))

include hc h hco

omit hc in
theorem newest_added (a : Nat) : newest (tableVersions (addedCatalog tables written a)) k =
    newest (tableVersions tables) k := by
  refine newest_congr (hco.sublist fun v hv => List.mem_append_right _ ?_)
    fun v _ => addedCatalog_versions h
  exact (addedCatalog_versions h).mp hv

theorem newest_removed_iff (r : Nat) :
    SameFrom p.nowMs (newest (tableVersions (removedCatalog tables ids written r)) k)
        (newest (tableVersions tables) k) ↔
      ∀ v, newest (tableVersions tables) k = some v →
        v ∉ tableVersions (removedCatalog tables ids written r) →
        Dead (newest (tableVersions (removedCatalog tables ids written r)) k) p.nowMs := by
  have hct : Coherent (tableVersions tables) := hco.sublist fun v => List.mem_append_right _
  have hsub : ∀ v ∈ tableVersions (removedCatalog tables ids written r), v ∈ tableVersions tables :=
    fun v => removedCatalog_versions hc h
  cases hv : newest (tableVersions tables) k with
  | none =>
    have hnone : newest (tableVersions (removedCatalog tables ids written r)) k = none :=
      newest_eq_none.mpr fun v hvm => newest_eq_none.mp hv v (hsub v hvm)
    rw [hnone]
    exact iff_of_true (SameFrom.refl _ _) (by simp)
  | some v =>
    simp only [Option.some.injEq, forall_eq']
    by_cases hmem : v ∈ tableVersions (removedCatalog tables ids written r)
    · obtain ⟨-, hk, hmax⟩ := (newest_eq_some hct).mp hv
      have hsame : newest (tableVersions (removedCatalog tables ids written r)) k = some v :=
        (newest_eq_some (hct.sublist hsub)).mpr ⟨hmem, hk, fun w hw => hmax w (hsub w hw)⟩
      rw [hsame]
      exact iff_of_true (SameFrom.refl _ _) fun hno => absurd hmem hno
    · have hlive : v.entry.isLive p.nowMs = false := by
        refine h.dead_of_dropped hc hct hv (fun hout => hmem ?_) fun hw => hmem ?_
        · obtain ⟨t, ht, hvt⟩ := mem_tableVersions.mp hout
          exact mem_tableVersions.mpr ⟨t, (mem_removedCatalog hc).mpr (Or.inl (Or.inl ht)), hvt⟩
        · obtain ⟨t, ht, hvt⟩ := mem_tableVersions.mp hw
          exact mem_tableVersions.mpr ⟨t, (mem_removedCatalog hc).mpr (Or.inr ht), hvt⟩
      rw [sameFrom_dead_iff hlive]
      exact ⟨fun hd _ => hd, fun hd => hd hmem⟩

theorem sameAt_added_iff (hmem : newest (replayedVersions segs tables) k = none) :
    (∀ a, SameAt p.nowMs segs tables (addedCatalog tables written a) k) ↔
      ∀ o ∈ written, o.Holds k → (∀ t ∈ tables, t.Holds k → t.metadata.id < o.metadata.id) →
        SameFrom p.nowMs (newest o.reader.entries k) (topVersion tables k) := by
  simp only [SameAt, replayed_addedCatalog hc h, hmem, Option.none_or, newest_added h hco]
  constructor
  · intro hall o ho hk habove
    have hsame := (hall written.length).1
    rwa [top_added_of_above hc h (by rwa [List.take_length]) hk habove] at hsame
  · intro hout a
    refine ⟨?_, SameFrom.refl _ _⟩
    by_cases hab : ∃ o ∈ written.take a, o.Holds k ∧
        ∀ t ∈ tables, t.Holds k → t.metadata.id < o.metadata.id
    · obtain ⟨o, ho, hk, habove⟩ := hab
      rw [top_added_of_above hc h ho hk habove]
      exact hout o (List.mem_of_mem_take ho) hk habove
    · rw [top_added_of_not_above hc h]
      · exact SameFrom.refl _ _
      · intro o ho hk
        by_contra hno
        refine hab ⟨o, ho, hk, fun t ht htk => not_le.mp fun hle => hno ⟨t, ht, htk, hle⟩⟩

omit hco in
theorem top_removed_iff (hout : ∀ o ∈ written, o.Holds k →
      (∀ t ∈ tables, t.Holds k → t.metadata.id < o.metadata.id) →
      SameFrom p.nowMs (newest o.reader.entries k) (topVersion tables k)) (r : Nat) :
    SameFrom p.nowMs (topVersion (removedCatalog tables ids written r) k) (topVersion tables k) ↔
      ∀ u, (∀ o ∈ written, ¬ o.Holds k) → TopHolder tables k u → u ∈ (inputsOf tables ids).take r →
        SameFrom p.nowMs (topVersion (outsideOf tables ids) k) (topVersion tables k) := by
  constructor
  · intro hs u hno hu hgone
    rwa [top_removed_of_gone hc h hu hgone hno] at hs
  · intro hun
    by_cases hex : ∃ t ∈ tables, t.Holds k
    · obtain ⟨t, ht, hk⟩ := hex
      obtain ⟨u, hu⟩ := exists_topHolder ht hk
      by_cases hw : ∃ o ∈ written, o.Holds k
      · obtain ⟨o, ho, hok⟩ := hw
        by_cases habove : ∀ t ∈ tables, t.Holds k → t.metadata.id < o.metadata.id
        · rw [top_removed_of_above hc h ho hok habove]
          exact hout o ho hok habove
        · -- a table above the output is no input, and so is the top holder
          push Not at habove
          obtain ⟨t', ht', hk', hle⟩ := habove
          have hou := hle.trans (hu.top t' ht' hk')
          rw [top_removed_of_kept hc h hu]
          · exact SameFrom.refl _ _
          · intro hgone
            have hlt := h.above o ho u (List.mem_of_mem_take hgone)
            omega
          · intro o' ho' hk''
            rw [h.written_unique hc ho' ho hk'' hok]
            exact hou
      · have hno : ∀ o ∈ written, ¬ o.Holds k := fun o ho hok => hw ⟨o, ho, hok⟩
        by_cases hgone : u ∈ (inputsOf tables ids).take r
        · rw [top_removed_of_gone hc h hu hgone hno]
          exact hun u hno hu hgone
        · rw [top_removed_of_kept hc h hu hgone fun o ho hok => absurd hok (hno o ho)]
          exact SameFrom.refl _ _
    · rw [top_removed_of_none hc h fun t ht hk => hex ⟨t, ht, hk⟩]
      exact SameFrom.refl _ _

/-- Only keys that no replayed record covers can read differently at a cut. -/
theorem sameAt_cuts_iff :
    ((∀ a, SameAt p.nowMs segs tables (addedCatalog tables written a) k) ∧
        ∀ r, SameAt p.nowMs segs tables (removedCatalog tables ids written r) k) ↔
      (newest (replayedVersions segs tables) k = none →
        CutsAgree p.nowMs tables ids written segs k) := by
  have hcw : Coherent (walVersions segs) := hco.sublist fun v => List.mem_append_left _
  cases hmem : newest (replayedVersions segs tables) k with
  | some w =>
    refine iff_of_true ⟨fun a => ?_, fun r => ?_⟩ (by simp)
    · have hcut := newest_replayed_of_some hc (addedCatalog_wellFormed hc h (a := a))
        (fun v => (addedCatalog_versions h).mp) hcw hmem
      rw [SameAt, hcut, hmem]
      exact ⟨SameFrom.refl _ _, SameFrom.refl _ _⟩
    · have hcut := newest_replayed_of_some hc (removedCatalog_wellFormed hc h (r := r))
        (fun v => removedCatalog_versions hc h) hcw hmem
      rw [SameAt, hcut, hmem]
      exact ⟨SameFrom.refl _ _, SameFrom.refl _ _⟩
  | none =>
    rw [sameAt_added_iff hc h hco hmem]
    simp only [SameAt, hmem, Option.none_or, forall_const]
    constructor
    · rintro ⟨hout, hrem⟩
      refine ⟨hout, fun r w hw => ?_, fun r u hn => ?_, fun r v hn => ?_⟩
      · have hr := hrem r
        rw [hw] at hr
        exact hr
      · have hr := (hrem r).1
        rw [hn, Option.none_or] at hr
        exact (top_removed_iff hc h hout r).mp hr u
      · have hr := (hrem r).2
        rw [hn, Option.none_or] at hr
        exact (newest_removed_iff hc h hco r).mp hr v
    · intro hag
      refine ⟨hag.outputs, fun r => ?_⟩
      cases hn : newest (replayedVersions segs (removedCatalog tables ids written r)) k with
      | some w => exact hag.replayed r w hn
      | none =>
        rw [Option.none_or, Option.none_or]
        exact ⟨(top_removed_iff hc h hag.outputs r).mpr fun u => hag.uncovered r u hn,
          (newest_removed_iff hc h hco r).mpr fun v => hag.dropped r v hn⟩

end Cuts

end ZydecoDb
