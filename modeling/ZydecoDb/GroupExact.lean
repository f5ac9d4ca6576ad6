import ZydecoDb.GroupRuns

namespace ZydecoDb

open Lib ZDocBuilder ValueView

section Engine

variable {path : Bytes} {accs : List AccumulatorSpec} {sizes : GroupSizes} {limits : GroupLimits}
  (f64Add : UInt64 → UInt64 → UInt64)

variable {done : List (IntDoc path accs)}

theorem Grouped.concat {engine ready : GroupEngine} (d : IntDoc path accs)
    (hg : Grouped sizes done engine) (hhas : ready.groups.get (doubleKey (keyDouble d.key)) ≠ none)
    (hother : ∀ k, k ≠ doubleKey (keyDouble d.key) → ready.groups.get k = engine.groups.get k)
    (hmem : ready.memoryBytes = groupBytes sizes accs * ready.groups.size) :
    Grouped sizes (done ++ [d]) ⟨ready.groups.insert (doubleKey (keyDouble d.key))
      ⟨.number (.ofI64 ((bucket (keyDouble d.key) done).headD d).key), accs.map fun acc =>
        acc.op.state ((added acc (bucket (keyDouble d.key) done)).sum +
          (acc.op.contributions d.value).sum)⟩, ready.memoryBytes⟩ where
  groups x := by
    by_cases hx : keyDouble d.key = x
    · subst hx
      have hhead : (bucket (keyDouble d.key) done ++ [d]).head? =
          some ((bucket (keyDouble d.key) done).headD d) := by
        cases bucket (keyDouble d.key) done <;> rfl
      have hself : ∀ acc : AccumulatorSpec, added acc [d] = acc.op.contributions d.value :=
        fun acc => by rw [added, List.flatMap_cons, List.flatMap_nil, List.append_nil]
      rw [SortedMap.get_insert_self, bucket_append, bucket_self, groupOf, hhead]
      simp only [added_append, hself, List.sum_append, Option.map_some]
    · have hne : doubleKey x ≠ doubleKey (keyDouble d.key) := fun h => hx (doubleKey_injective h).symm
      rw [SortedMap.get_insert_ne hne, hother _ hne, hg.groups, bucket_append, bucket_other hx,
        List.append_nil]
  only k hk := by
    by_cases heq : k = doubleKey (keyDouble d.key)
    · exact ⟨d, by simp, heq⟩
    · rw [SortedMap.get_insert_ne heq, hother k heq] at hk
      obtain ⟨e, he, hke⟩ := hg.only k hk
      exact ⟨e, List.mem_append_left _ he, hke⟩
  memory := by
    have hsize := size_insert (m := ready.groups) (doubleKey (keyDouble d.key))
      ⟨.number (.ofI64 ((bucket (keyDouble d.key) done).headD d).key), accs.map fun acc =>
        acc.op.state ((added acc (bucket (keyDouble d.key) done)).sum +
          (acc.op.contributions d.value).sum)⟩
    rw [if_neg hhas] at hsize
    rw [hmem, Nat.add_right_cancel hsize]

variable {engine : GroupEngine}

/-- A further document keeps the groups exact as long as no total leaves `i64` there. -/
theorem add_step (d : IntDoc path accs) (hg : Grouped sizes done engine) (hs : Steady done)
    (hroom : engine.groups.get (doubleKey (keyDouble d.key)) = none →
      Room sizes limits accs (engine.groups.size + 1)) :
    (Steady (done ++ [d]) ∧ ∃ next, engine.add f64Add sizes ⟨.field path, accs⟩ limits
      (encodeZDoc d.value) = .ok next ∧ Grouped sizes (done ++ [d]) next) ∨
    (¬ Steady (done ++ [d]) ∧ ∃ acc ∈ accs, engine.add f64Add sizes ⟨.field path, accs⟩ limits
      (encodeZDoc d.value) = .error (badAggregation acc.op.overflowText)) := by
  obtain ⟨ready, hready, hget, hother, hmem⟩ := group_ready d hg hroom
  have hkey := groupKey_eq d
  set group := bucket (keyDouble d.key) done
  have hadd : engine.add f64Add sizes ⟨.field path, accs⟩ limits (encodeZDoc d.value) =
      (GroupEngine.updateAll f64Add (accs.map fun acc =>
        acc.op.state (added acc group).sum) accs (encodeZDoc d.value)).map
        fun accumulators => GroupEngine.mk (ready.groups.insert (doubleKey (keyDouble d.key))
          ⟨.number (.ofI64 (group.headD d).key), accumulators⟩)
          ready.memoryBytes := by
    simp only [GroupEngine.add, hkey, Except.bind, hready, hget]
  have hsum : ∀ acc ∈ accs, addUp acc.op.overflowText
      (added acc group).sum (acc.op.contributions d.value) =
      if StaysWithin i64Min i64Max
        (added acc group ++ acc.op.contributions d.value) then
        .ok ((added acc group).sum + (acc.op.contributions d.value).sum)
      else .error (badAggregation acc.op.overflowText) := by
    intro acc hacc
    have hstay := hs (keyDouble d.key) acc hacc
    rw [addUp_eq hstay.sum.1 hstay.sum.2]
    refine if_congr ?_ rfl rfl
    rw [staysWithin_append]
    exact ⟨fun h => ⟨hstay, h⟩, fun h => h.2⟩
  rw [steady_concat_iff d hs, hadd]
  by_cases hall : ∀ acc ∈ accs, StaysWithin i64Min i64Max
      (added acc group ++ acc.op.contributions d.value)
  · refine Or.inl ⟨hall, ?_⟩
    have hok := updateAll_ok f64Add d (fun _ h => h) fun acc hacc =>
      (hsum acc hacc).trans (if_pos (hall acc hacc))
    rw [hok]
    have hhas : ready.groups.get (doubleKey (keyDouble d.key)) ≠ none := by
      rw [hget]
      exact fun h => by cases h
    exact ⟨_, rfl, hg.concat d hhas hother hmem⟩
  · refine Or.inr ⟨hall, ?_⟩
    push Not at hall
    obtain ⟨acc, hacc, hnot⟩ := hall
    have hfail : ∀ m, addUp acc.op.overflowText (added acc group).sum
        (acc.op.contributions d.value) ≠ .ok m := by
      intro m hm
      rw [hsum acc hacc, if_neg hnot] at hm
      cases hm
    obtain ⟨b, hb, herr⟩ := updateAll_error f64Add d
      (fun acc => (added acc group).sum) (fun _ h => h) ⟨acc, hacc, hfail⟩
    exact ⟨b, hb, by rw [herr]; rfl⟩

theorem room_of_keys {d : IntDoc path accs} (hg : Grouped sizes done engine) {keys : List Bytes}
    (hkeys : ∀ e ∈ done ++ [d], doubleKey (keyDouble e.key) ∈ keys)
    (hroom : Room sizes limits accs keys.length)
    (hnew : engine.groups.get (doubleKey (keyDouble d.key)) = none) :
    Room sizes limits accs (engine.groups.size + 1) := by
  have hsize := size_insert (m := engine.groups) (doubleKey (keyDouble d.key)) ⟨.null, []⟩
  rw [if_pos hnew, Nat.add_zero] at hsize
  have hle : (engine.groups.insert (doubleKey (keyDouble d.key)) ⟨.null, []⟩).size ≤ keys.length := by
    refine SortedMap.size_le_length _ fun k hk => ?_
    by_cases heq : k = doubleKey (keyDouble d.key)
    · rw [heq]
      exact hkeys d (by simp)
    · rw [SortedMap.get_insert_ne heq] at hk
      obtain ⟨e, he, hke⟩ := hg.only k hk
      rw [hke]
      exact hkeys e (List.mem_append_left _ he)
  rw [hsize] at hle
  exact ⟨hle.trans hroom.1, (Nat.mul_le_mul_left _ hle).trans hroom.2⟩

theorem addAll_run {done rest : List (IntDoc path accs)} {keys : List Bytes}
    (hkeys : ∀ e ∈ done ++ rest, doubleKey (keyDouble e.key) ∈ keys)
    (hroom : Room sizes limits accs keys.length) (hg : Grouped sizes done engine)
    (hs : Steady done) :
    (Steady (done ++ rest) ∧ ∃ next, GroupEngine.addAll f64Add sizes ⟨.field path, accs⟩ limits
      (rest.map fun d => encodeZDoc d.value) engine = .ok next ∧ Grouped sizes (done ++ rest) next) ∨
    (¬ Steady (done ++ rest) ∧ ∃ acc ∈ accs, GroupEngine.addAll f64Add sizes ⟨.field path, accs⟩
      limits (rest.map fun d => encodeZDoc d.value) engine =
        .error (badAggregation acc.op.overflowText)) := by
  induction rest generalizing done engine with
  | nil =>
    rw [List.append_nil]
    exact Or.inl ⟨hs, engine, rfl, hg⟩
  | cons d rest ih =>
    have hcons : done ++ d :: rest = (done ++ [d]) ++ rest := by
      rw [List.append_assoc, List.singleton_append]
    have hfirst : ∀ e ∈ done ++ [d], doubleKey (keyDouble e.key) ∈ keys := fun e he =>
      hkeys e (by rw [hcons]; exact List.mem_append_left _ he)
    rw [List.map_cons, GroupEngine.addAll]
    rcases add_step f64Add d hg hs (room_of_keys hg hfirst hroom) with
      ⟨hsteady, next, hadd, hnext⟩ | ⟨hnot, acc, hacc, hadd⟩
    · rw [hadd, hcons]
      exact ih (by rwa [← hcons]) hnext hsteady
    · refine Or.inr ⟨fun h => hnot ?_, acc, hacc, ?_⟩
      · rw [hcons] at h
        exact h.of_append
      · rw [hadd]
        rfl

end Engine

end ZydecoDb
