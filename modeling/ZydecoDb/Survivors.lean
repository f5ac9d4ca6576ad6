import ZydecoDb.CompactionRuns

namespace ZydecoDb

open Lib

def GcPolicy.dropsTombstone (p : GcPolicy) (v : Version) : Bool :=
  (shouldDropAtCompaction v p.gcWatermark false p.dropTombstones).1

def GcPolicy.expires (p : GcPolicy) (v : Version) : Bool :=
  v.entry.isExpired p.nowMs && !v.entry.isTombstone

variable {p : GcPolicy}

theorem GcPolicy.dropsTombstone_eq_false {v : Version} (h : v.entry.isTombstone = false) :
    p.dropsTombstone v = false := by
  simp only [dropsTombstone, shouldDropAtCompaction, h, Bool.and_false, Bool.false_eq_true,
    ite_false, Bool.not_false, ite_true]
  split_ifs <;> rfl

theorem dropDecision_fresh_eq (v : Version) : dropDecision p .fresh v =
    if p.expires v then (true, ⟨false, true⟩)
    else if p.dropsTombstone v then (true, .fresh)
    else (false, (dropDecision p .fresh v).2) := by
  simp only [dropDecision, KeyFlags.fresh, GcPolicy.expires, GcPolicy.dropsTombstone,
    shouldDropAtCompaction, Bool.false_eq_true, ite_false, Bool.not_false, ite_true]
  split_ifs <;> simp_all

theorem not_mem_survivors_of_dropRest {k : Bytes} {f : KeyFlags} (hf : f.dropRestOfKey = true)
    {l : List Version} (hl : l.Pairwise fun a b => a.userKey ≤ b.userKey)
    (hk : ∀ w ∈ l, k ≤ w.userKey) : ∀ w ∈ survivors p (some k) f l, w.userKey ≠ k := by
  induction l with
  | nil => simp [survivors]
  | cons a l ih =>
    obtain ⟨ha, hl⟩ := List.pairwise_cons.mp hl
    by_cases hak : a.userKey = k
    · have hd : dropDecision p (flagsAt (some k) f a) a = (true, f) := by
        rw [flagsAt, if_pos (by rw [hak]), dropDecision, if_pos hf]
      rw [survivors, hd, hak]
      exact ih hl fun w hw => hk w (List.mem_cons_of_mem _ hw)
    · intro w hw
      have hlt : k < a.userKey := lt_of_le_of_ne (hk a List.mem_cons_self) (Ne.symm hak)
      rcases List.mem_cons.mp ((survivors_sublist _ _ _ _).subset hw) with rfl | hw
      · exact hak
      · exact ne_of_gt (hlt.trans_le (ha w hw))

/-- Of each key the first version that is no dropped tombstone stays, unless it is expired. -/
theorem find_survivors {k : Bytes} {last : Option Bytes} {f : KeyFlags} {l : List Version}
    (hl : l.Pairwise fun a b => a.userKey ≤ b.userKey)
    (hlast : ∀ b ∈ last, ∀ w ∈ l, b ≤ w.userKey) (hf : last = some k → f = .fresh) :
    (survivors p last f l).find? (fun v => v.userKey = k) =
      (l.find? fun v => v.userKey = k && !p.dropsTombstone v).filter fun v => !p.expires v := by
  induction l generalizing last f with
  | nil => simp [survivors]
  | cons a l ih =>
    obtain ⟨ha, hl⟩ := List.pairwise_cons.mp hl
    have hlow : ∀ b ∈ some a.userKey, ∀ w ∈ l, b ≤ w.userKey := by
      intro b hb w hw
      cases Option.mem_some_iff.mp hb
      exact ha w hw
    by_cases hk : a.userKey = k
    · have hflags : flagsAt last f a = .fresh := by
        unfold flagsAt
        split
        next h => exact hf (h.trans (by rw [hk]))
        next => rfl
      rw [survivors, hflags, dropDecision_fresh_eq]
      by_cases he : p.expires a = true
      · have hn : p.dropsTombstone a = false := by
          simp only [GcPolicy.expires, Bool.and_eq_true, Bool.not_eq_true'] at he
          exact GcPolicy.dropsTombstone_eq_false he.2
        rw [if_pos he, List.find?_cons_of_pos (by simp [hk, hn])]
        simp only [ite_true, Option.filter, he, Bool.not_true, Bool.false_eq_true, ite_false]
        rw [List.find?_eq_none]
        intro w hw
        rw [hk] at hw
        simpa using not_mem_survivors_of_dropRest rfl hl (hk ▸ ha) w hw
      · by_cases ht : p.dropsTombstone a = true
        · rw [if_neg he, if_pos ht, List.find?_cons_of_neg (by simp [ht])]
          exact ih hl hlow fun _ => rfl
        · rw [if_neg he, if_neg ht, List.find?_cons_of_pos (by simp [hk, ht])]
          simp [hk, he, Option.filter]
    · rw [List.find?_cons_of_neg (by simp [hk]), survivors]
      have hstep := ih hl hlow (f := (dropDecision p (flagsAt last f a) a).2)
        fun h => absurd (Option.some.inj h) hk
      split
      next => exact hstep
      next =>
        rw [List.find?_cons_of_neg (by simpa using hk)]
        exact hstep

theorem newest_runs {n : Nat} {sources : List (List Version)}
    (hs : ∀ src ∈ sources, src.Pairwise Version.le) (hc : Coherent sources.flatten) (k : Bytes) :
    newest (compactionRuns p n sources).flatten k =
      (newest (sources.flatten.filter fun v => !p.dropsTombstone v) k).filter
        fun v => !p.expires v := by
  have hsort := mergeRaw_sorted hs
  have hsub := survivors_sublist p (mergeRaw sources) none .fresh
  rw [compactionRuns_flatten, newest, Lib.newest_eq_find (newestFirst_of_sorted (hsort.sublist hsub)),
    find_survivors (keyAscending_of_sorted hsort) (by simp) (by simp)]
  congr 1
  have hmem : ∀ v, v ∈ mergeRaw sources ↔ v ∈ sources.flatten := fun v => by
    rw [mem_mergeRaw, List.mem_flatten]
  have hcong : newest ((mergeRaw sources).filter fun v => !p.dropsTombstone v) k =
      newest (sources.flatten.filter fun v => !p.dropsTombstone v) k := by
    refine newest_congr ?_ fun v _ => by rw [List.mem_filter, List.mem_filter, hmem]
    exact hc.sublist fun v hv => (hmem v).mp (List.mem_filter.mp hv).1
  rw [← hcong, newest, Lib.newest_eq_find (newestFirst_of_sorted (hsort.filter _)),
    List.find?_filter]
  congr 1
  funext v
  by_cases hk : v.userKey = k <;> by_cases hd : p.dropsTombstone v = true <;> simp [hk, hd]

end ZydecoDb
