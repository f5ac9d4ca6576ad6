import ZydecoDb.GroupOrders

namespace ZydecoDb

open Lib ZDocBuilder ValueView

variable {path : Bytes} {accs : List AccumulatorSpec} {sizes : GroupSizes} {limits : GroupLimits}

def intGroup (accs : List AccumulatorSpec) (k : Int64) (total : AccumulatorSpec → Int) : GroupState :=
  ⟨.number (.ofI64 k), accs.map fun acc => acc.op.state (total acc)⟩

theorem rowMembers_eq (total : AccumulatorSpec → Int) (as : List AccumulatorSpec)
    (row : List (Bytes × Value)) :
    GroupEngine.rowMembers (as.map fun acc => acc.op.state (total acc)) as row =
      .ok (as.foldl (fun row acc => insertPair acc.outputField (.number (i64Number (total acc))) row)
        row) := by
  induction as generalizing row with
  | nil => rfl
  | cons acc as ih =>
    have hvalue : (acc.op.state (total acc)).intoValue = .ok (.number (i64Number (total acc))) := by
      cases acc.op <;> rfl
    rw [List.map_cons, GroupEngine.rowMembers, hvalue, List.foldl_cons]
    exact ih _

theorem row_intGroup (k : Int64) (total : AccumulatorSpec → Int) :
    GroupEngine.row ⟨.field path, accs⟩ (intGroup accs k total) = .ok (rowOf accs k total) := by
  rw [GroupEngine.row, intGroup, rowMembers_eq]
  rfl

theorem rows_eq {groups : List (Bytes × GroupState)} {f : GroupState → Value}
    (h : ∀ p ∈ groups, GroupEngine.row ⟨.field path, accs⟩ p.2 = .ok (f p.2)) :
    GroupEngine.rows ⟨.field path, accs⟩ groups = .ok (groups.map fun p => f p.2) := by
  induction groups with
  | nil => rfl
  | cons p groups ih =>
    have hrest := ih fun q hq => h q (List.mem_cons_of_mem p hq)
    rw [GroupEngine.rows, h p List.mem_cons_self, hrest]
    rfl

def shownRow (accs : List AccumulatorSpec) (g : GroupState) : Value :=
  match GroupEngine.row ⟨.null, accs⟩ g with
  | .ok v => v
  | .error _ => .null

theorem shownRow_intGroup (k : Int64) (total : AccumulatorSpec → Int) :
    shownRow accs (intGroup accs k total) = rowOf accs k total := by
  have h : GroupEngine.row ⟨.null, accs⟩ (intGroup accs k total) = .ok (rowOf accs k total) := by
    rw [GroupEngine.row, intGroup, rowMembers_eq]
    rfl
  rw [shownRow, h]

section Rows

variable {docs : List (IntDoc path accs)} {engine : GroupEngine}

theorem groupOf_eq_intGroup (g : List (IntDoc path accs)) :
    groupOf g = g.head?.map fun d => intGroup accs d.key fun acc => (added acc g).sum := rfl

theorem Grouped.entry (hg : Grouped sizes docs engine) {p : Bytes × GroupState}
    (hp : p ∈ engine.groups.entries) :
    ∃ d ∈ docs, p.1 = doubleKey (keyDouble d.key) ∧
      ∃ k total, p.2 = intGroup accs k total := by
  have hget : engine.groups.get p.1 = some p.2 := SortedMap.mem_entries.mp hp
  obtain ⟨d, hd, hkey⟩ := hg.only p.1 (by rw [hget]; exact fun h => by cases h)
  refine ⟨d, hd, hkey, ?_⟩
  rw [hkey, hg.groups, groupOf_eq_intGroup] at hget
  obtain ⟨e, -, he⟩ := Option.map_eq_some_iff.mp hget
  exact ⟨_, _, he.symm⟩

theorem Grouped.finish_eq (hg : Grouped sizes docs engine) :
    (GroupEngine.finish ⟨.field path, accs⟩ engine).map Prod.fst =
      .ok (engine.groups.entries.map fun p => shownRow accs p.2) := by
  have hrow : ∀ p ∈ engine.groups.entries,
      GroupEngine.row ⟨.field path, accs⟩ p.2 = .ok (shownRow accs p.2) := by
    intro p hp
    obtain ⟨d, -, -, k, total, heq⟩ := hg.entry hp
    rw [heq, row_intGroup, shownRow_intGroup]
  rw [GroupEngine.finish, rows_eq hrow]
  rfl

theorem groupOf_bucket (h : NoCollision docs) {d : IntDoc path accs} (hd : d ∈ docs) :
    groupOf (bucket (keyDouble d.key) docs) = some (intGroup accs d.key (trueTotal docs d.key)) := by
  rw [bucket_eq_ofKey h hd, groupOf_eq_intGroup]
  have hmem : d ∈ ofKey d.key docs := by simp [ofKey, hd]
  cases hg : ofKey d.key docs with
  | nil =>
    rw [hg] at hmem
    cases hmem
  | cons e rest =>
    have he : e ∈ ofKey d.key docs := by
      rw [hg]
      exact List.mem_cons_self
    have hkey : e.key = d.key := by simpa [ofKey] using (List.mem_filter.mp he).2
    rw [List.head?_cons, Option.map_some, hkey, ← hg]
    rfl

def exactGroups (docs : List (IntDoc path accs)) : List (Bytes × GroupState) :=
  (docs.map IntDoc.key).dedup.map fun k =>
    (doubleKey (keyDouble k), intGroup accs k (trueTotal docs k))

theorem Grouped.entries_perm (hg : Grouped sizes docs engine) (h : NoCollision docs) :
    engine.groups.entries.Perm (exactGroups docs) := by
  have hentries : engine.groups.entries.Nodup := List.Nodup.of_map _ engine.groups.keys_nodup
  have hkeys : ∀ k ∈ (docs.map IntDoc.key).dedup, ∃ d ∈ docs, d.key = k := by
    intro k hk
    exact List.mem_map.mp (List.mem_dedup.mp hk)
  have hexact : (exactGroups docs).Nodup := by
    refine List.Nodup.map_on (fun k hk l hl heq => ?_) (List.nodup_dedup _)
    obtain ⟨d, hd, rfl⟩ := hkeys k hk
    obtain ⟨e, he, rfl⟩ := hkeys l hl
    exact h d hd e he (doubleKey_injective (Prod.mk.inj heq).1)
  refine (List.perm_ext_iff_of_nodup hentries hexact).mpr fun p => ⟨fun hp => ?_, fun hp => ?_⟩
  · obtain ⟨d, hd, hkey, -⟩ := hg.entry hp
    have hget : engine.groups.get p.1 = some p.2 := SortedMap.mem_entries.mp hp
    rw [hkey, hg.groups, groupOf_bucket h hd] at hget
    refine List.mem_map.mpr ⟨d.key, List.mem_dedup.mpr (List.mem_map.mpr ⟨d, hd, rfl⟩), ?_⟩
    exact Prod.ext hkey.symm (Option.some.inj hget)
  · obtain ⟨k, hk, rfl⟩ := List.mem_map.mp hp
    obtain ⟨d, hd, rfl⟩ := hkeys k hk
    exact SortedMap.mem_entries.mpr ((hg.groups _).trans (groupOf_bucket h hd))

theorem exactGroups_rows (docs : List (IntDoc path accs)) :
    (exactGroups docs).map (fun p => shownRow accs p.2) = exactRows docs := by
  rw [exactGroups, List.map_map, exactRows]
  exact List.map_congr_left fun k _ => shownRow_intGroup k _

end Rows

section Stage

variable (f64Add : UInt64 → UInt64 → UInt64) {docs docs' : List (IntDoc path accs)}

def groupInts (f64Add : UInt64 → UInt64 → UInt64) (sizes : GroupSizes) (limits : GroupLimits)
    (docs : List (IntDoc path accs)) : DocResult (List Value × Nat) :=
  groupStage f64Add sizes ⟨.field path, accs⟩ limits (docs.map fun d => fromValue d.value)

def keyCount (docs : List (IntDoc path accs)) : Nat := (docs.map IntDoc.key).dedup.length

theorem steady_nil : Steady ([] : List (IntDoc path accs)) :=
  fun _ _ _ => ⟨show (0 : Int) ≤ i64Max by decide, show (0 : Int) ≤ -i64Min by decide⟩

/-- The stage answers the exact rows or, where a total leaves `i64`, the overflow error. -/
theorem groupInts_cases (hroom : Room sizes limits accs (keyCount docs)) :
    (Steady docs ∧ ∃ engine, Grouped sizes docs engine ∧
      (groupInts f64Add sizes limits docs).map Prod.fst =
        .ok (engine.groups.entries.map fun p => shownRow accs p.2)) ∨
    (¬ Steady docs ∧ ∃ acc ∈ accs, groupInts f64Add sizes limits docs =
      .error (badAggregation acc.op.overflowText)) := by
  have hstored : (docs.map fun d => fromValue d.value) = docs.map fun d => encodeZDoc d.value :=
    List.map_congr_left fun d _ => fromValue_eq d.value
  have hkeys : ∀ e ∈ [] ++ docs, doubleKey (keyDouble e.key) ∈
      (docs.map IntDoc.key).dedup.map fun k => doubleKey (keyDouble k) := by
    intro e he
    exact List.mem_map.mpr ⟨e.key, List.mem_dedup.mpr (List.mem_map.mpr ⟨e, he, rfl⟩), rfl⟩
  have hlen : ((docs.map IntDoc.key).dedup.map fun k => doubleKey (keyDouble k)).length =
      keyCount docs := List.length_map _
  rw [groupInts, groupStage, hstored]
  rcases addAll_run f64Add hkeys (by rwa [hlen]) (grouped_new sizes) steady_nil with
    ⟨hs, engine, hrun, hg⟩ | ⟨hs, acc, hacc, hrun⟩
  · refine Or.inl ⟨hs, engine, hg, ?_⟩
    rw [hrun]
    exact hg.finish_eq
  · refine Or.inr ⟨hs, acc, hacc, ?_⟩
    rw [hrun]
    rfl

theorem keyCount_perm (hp : docs'.Perm docs) : keyCount docs' = keyCount docs :=
  (hp.map _).dedup.length_eq

theorem AllFit.of_perm (hp : docs'.Perm docs) (h : AllFit docs') : AllFit docs := by
  intro d hd acc hacc
  rw [← trueTotal_perm hp]
  exact h d (hp.mem_iff.mpr hd) acc hacc

theorem exactGroups_perm (hp : docs'.Perm docs) : (exactGroups docs').Perm (exactGroups docs) := by
  have htotal : exactGroups docs' = (docs'.map IntDoc.key).dedup.map fun k =>
      (doubleKey (keyDouble k), intGroup accs k (trueTotal docs k)) := by
    refine List.map_congr_left fun k _ => ?_
    rw [funext fun acc => trueTotal_perm hp k acc]
  rw [htotal]
  exact (hp.map _).dedup.map _

theorem Grouped.entries_eq {engine engine' : GroupEngine} (hp : docs'.Perm docs)
    (h : NoCollision docs) (hg : Grouped sizes docs engine) (hg' : Grouped sizes docs' engine') :
    engine'.groups.entries = engine.groups.entries := by
  have hperm : engine'.groups.entries.Perm engine.groups.entries :=
    ((hg'.entries_perm (h.perm hp)).trans (exactGroups_perm hp)).trans (hg.entries_perm h).symm
  refine hperm.eq_of_pairwise (fun a b _ _ hab hba => ?_) engine'.groups.sorted engine.groups.sorted
  exact absurd (lt_trans hab hba) (lt_irrefl _)

theorem noCollision_of_rows {engine : GroupEngine} (hg : Grouped sizes docs engine)
    (hlen : engine.groups.entries.length = keyCount docs) : NoCollision docs := by
  have hle : engine.groups.size ≤
      ((docs.map IntDoc.key).dedup.map fun k => doubleKey (keyDouble k)).dedup.length := by
    refine SortedMap.size_le_length _ fun k hk => ?_
    obtain ⟨d, hd, hkey⟩ := hg.only k hk
    rw [hkey]
    refine List.mem_dedup.mpr (List.mem_map.mpr ⟨d.key, ?_, rfl⟩)
    exact List.mem_dedup.mpr (List.mem_map.mpr ⟨d, hd, rfl⟩)
  have hsub := List.dedup_sublist ((docs.map IntDoc.key).dedup.map fun k => doubleKey (keyDouble k))
  have hnodup : ((docs.map IntDoc.key).dedup.map fun k => doubleKey (keyDouble k)).Nodup := by
    have hcount : ((docs.map IntDoc.key).dedup.map fun k => doubleKey (keyDouble k)).length =
        engine.groups.size := (List.length_map _).trans hlen.symm
    rw [← hsub.eq_of_length_le (hcount ▸ hle)]
    exact List.nodup_dedup _
  intro d hd e he heq
  have hmem : ∀ d ∈ docs, d.key ∈ (docs.map IntDoc.key).dedup :=
    fun d hd => List.mem_dedup.mpr (List.mem_map.mpr ⟨d, hd, rfl⟩)
  exact List.inj_on_of_nodup_map hnodup (hmem d hd) (hmem e he) (congrArg doubleKey heq)

/-- Grouping is exact whatever the order of the documents: one row for each key with the exact totals
where they all fit, and an overflow where one does not. -/
def ExactGrouping (f64Add : UInt64 → UInt64 → UInt64) (sizes : GroupSizes) (limits : GroupLimits)
    (docs : List (IntDoc path accs)) : Prop :=
  (AllFit docs → ∃ rows, rows.Perm (exactRows docs) ∧ ∀ docs' : List (IntDoc path accs),
    docs'.Perm docs → (groupInts f64Add sizes limits docs').map Prod.fst = .ok rows) ∧
  (¬ AllFit docs → ∀ docs' : List (IntDoc path accs), docs'.Perm docs →
    ∃ acc ∈ accs, groupInts f64Add sizes limits docs' = .error (badAggregation acc.op.overflowText))

/-- Within the limits of the stage, grouping is exact if and only if no two keys are the same double
and, where the totals fit, no order of the documents overflows on the way. -/
theorem grouping_exact_iff (docs : List (IntDoc path accs))
    (hroom : Room sizes limits accs (keyCount docs)) :
    ExactGrouping f64Add sizes limits docs ↔
      (AllFit docs → NoCollision docs ∧ OrderSafe docs) ∧
      (¬ AllFit docs → NoCollision docs ∨
        ∀ docs' : List (IntDoc path accs), docs'.Perm docs → ¬ Steady docs') := by
  have hcases : ∀ docs' : List (IntDoc path accs), docs'.Perm docs →
      (Steady docs' ∧ ∃ engine, Grouped sizes docs' engine ∧
        (groupInts f64Add sizes limits docs').map Prod.fst =
          .ok (engine.groups.entries.map fun p => shownRow accs p.2)) ∨
      (¬ Steady docs' ∧ ∃ acc ∈ accs, groupInts f64Add sizes limits docs' =
        .error (badAggregation acc.op.overflowText)) :=
    fun docs' hp => groupInts_cases f64Add (by rwa [keyCount_perm hp])
  constructor
  · intro hex
    refine ⟨fun hfit => ?_, fun hnot => Or.inr fun docs' hp hs => ?_⟩
    · obtain ⟨rows, hrows, hall⟩ := hex.1 hfit
      have hsteady : ∀ docs' : List (IntDoc path accs), docs'.Perm docs → Steady docs' := by
        intro docs' hp
        rcases hcases docs' hp with ⟨hs, -⟩ | ⟨-, acc, -, herr⟩
        · exact hs
        · have hok := hall docs' hp
          rw [herr] at hok
          cases hok
      have hnc : NoCollision docs := by
        rcases hcases docs (.refl _) with ⟨-, engine, hg, hrun⟩ | ⟨hn, -⟩
        · have heq := Except.ok.inj (hrun.symm.trans (hall docs (.refl _)))
          have hlen := hrows.length_eq
          rw [← heq, List.length_map, exactRows, List.length_map] at hlen
          exact noCollision_of_rows hg hlen
        · exact absurd (hsteady docs (.refl _)) hn
      exact ⟨hnc, (orderSafe_iff hnc).mpr hsteady⟩
    · obtain ⟨acc, -, herr⟩ := hex.2 hnot docs' hp
      rcases hcases docs' hp with ⟨-, engine, -, hrun⟩ | ⟨hn, -⟩
      · rw [herr] at hrun
        cases hrun
      · exact hn hs
  · rintro ⟨hfit, hunfit⟩
    refine ⟨fun h => ?_, fun h docs' hp => ?_⟩
    · obtain ⟨hnc, hsafe⟩ := hfit h
      have hsteady := (orderSafe_iff hnc).mp hsafe
      rcases hcases docs (.refl _) with ⟨-, engine, hg, hrun⟩ | ⟨hn, -⟩
      · refine ⟨engine.groups.entries.map fun p => shownRow accs p.2, ?_, fun docs' hp => ?_⟩
        · rw [← exactGroups_rows]
          exact (hg.entries_perm hnc).map _
        · rcases hcases docs' hp with ⟨-, engine', hg', hrun'⟩ | ⟨hn, -⟩
          · rw [hrun', Grouped.entries_eq hp hnc hg hg']
          · exact absurd (hsteady docs' hp) hn
      · exact absurd (hsteady docs (.refl _)) hn
    · have hns : ¬ Steady docs' := by
        rcases hunfit h with hnc | hall
        · exact fun hs => h ((hs.allFit (hnc.perm hp)).of_perm hp)
        · exact hall docs' hp
      rcases hcases docs' hp with ⟨hs, -⟩ | ⟨-, hrun⟩
      · exact absurd hs hns
      · exact hrun

end Stage

section Counted

def countAndSum : List AccumulatorSpec := [⟨[0x63], .count⟩, ⟨[0x73], .sum [0x6E]⟩]

def countedValue (k n : Int64) : Value :=
  .object [([0x67], .number (.ofI64 k)), ([0x6E], .number (.ofI64 n))]

theorem fields_sorted {v w : Value} :
    ([([0x67], v), ([0x6E], w)] : List (Bytes × Value)).Pairwise fun a b => a.1 < b.1 := by
  have hlt : ([0x67] : Bytes) < [0x6E] := by decide
  simpa using hlt

theorem parsed_ofI64 (i : Int64) : (Number.ofI64 i).Parsed := by
  rw [Number.ofI64]
  split
  next h => exact h
  next => exact trivial

theorem length_encodeZDoc_ofI64 (i : Int64) : (encodeZDoc (.number (.ofI64 i))).length = 9 := by
  rw [writeNumber_asI64 (asI64_ofI64 i), List.length_cons, length_toLe]

def countedDoc (k n : Int64) : IntDoc [0x67] countAndSum where
  value := countedValue k n
  parsed := by
    refine .object ?_ fields_sorted fun m hm => ?_
    · exact List.forall_mem_cons.mpr ⟨rfl, List.forall_mem_singleton.mpr rfl⟩
    rcases List.mem_cons.mp hm with rfl | hm
    · exact .number (parsed_ofI64 k)
    · rw [List.mem_singleton.mp hm]
      exact .number (parsed_ofI64 n)
  depth := by
    show 2 ≤ maxZdocDepth
    decide
  size := by
    have hlen : (encodeZDoc (countedValue k n)).length = 53 := by
      rw [countedValue, encodeZDoc_object fields_sorted, objectLayout_eq, List.length_append,
        length_objectHead]
      simp [laidOut, entryLayout, length_encodeZDoc_ofI64]
    rw [hlen]
    decide
  key := k
  key_eq := rfl
  summable acc hacc := by
    rcases List.mem_cons.mp hacc with rfl | hacc
    · trivial
    · rw [List.mem_singleton.mp hacc]
      intro w hw
      have hreached : reached (countedValue k n) [[0x6E]] = [.number (.ofI64 n)] := rfl
      have hsplit : ([0x6E] : Bytes).splitOn 0x2E = [[0x6E]] := rfl
      rw [hsplit, hreached, List.mem_singleton] at hw
      rw [hw, onlyInts, asI64_ofI64]
      rfl

def usualSizes : GroupSizes := ⟨80, 24, 24⟩
def usualLimits : GroupLimits := ⟨10000, 16777216⟩

/-- Three documents of two keys, counted and summed. -/
theorem countedDocs_exact :
    Room usualSizes usualLimits countAndSum
      (keyCount [countedDoc 1 5, countedDoc 2 7, countedDoc 1 (-3)]) ∧
    ExactGrouping (fun x _ => x) usualSizes usualLimits
      [countedDoc 1 5, countedDoc 2 7, countedDoc 1 (-3)] := by
  have hroom : Room usualSizes usualLimits countAndSum
      (keyCount [countedDoc 1 5, countedDoc 2 7, countedDoc 1 (-3)]) := by
    unfold Room
    decide +kernel
  have hkeys : NoCollision [countedDoc 1 5, countedDoc 2 7, countedDoc 1 (-3)] := by
    unfold NoCollision
    decide +kernel
  have hsafe : OrderSafe [countedDoc 1 5, countedDoc 2 7, countedDoc 1 (-3)] := by
    unfold OrderSafe
    decide +kernel
  exact ⟨hroom, (grouping_exact_iff _ _ hroom).mpr ⟨fun _ => ⟨hkeys, hsafe⟩, fun _ => Or.inl hkeys⟩⟩

/-- Two keys next to each other make one row, and whether three documents overflow depends on the
order in which they are scanned. -/
theorem neighbours_merged :
    (groupInts (fun x _ => x) usualSizes usualLimits
      [countedDoc 9007199254740992 1, countedDoc 9007199254740993 1]).map Prod.fst =
      .ok [.object [(idField, .number (.posInt 9007199254740992)), ([0x63], .number (.posInt 2)),
        ([0x73], .number (.posInt 2))]] ∧
    groupInts (fun x _ => x) usualSizes usualLimits
      [countedDoc 1 9223372036854775807, countedDoc 1 1, countedDoc 1 (-1)] =
      .error (badAggregation "$sum integer overflow") ∧
    (groupInts (fun x _ => x) usualSizes usualLimits
      [countedDoc 1 9223372036854775807, countedDoc 1 (-1), countedDoc 1 1]).map Prod.fst =
      .ok [.object [(idField, .number (.posInt 1)), ([0x63], .number (.posInt 3)),
        ([0x73], .number (.posInt 9223372036854775807))]] :=
  ⟨rfl, rfl, rfl⟩

end Counted

end ZydecoDb
