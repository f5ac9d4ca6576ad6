import ZydecoDb.Document.JoinMatches
import ZydecoDb.PlannerCoverage

namespace ZydecoDb

open Lib ZDocBuilder ValueView

def withIndex (inner : CollectionMeta) (idx : IndexMeta) : CollectionMeta :=
  { inner with indexes := inner.indexes ++ [idx] }

section Nodup

variable {parseJson : Bytes → DocResult Value} {snap : SnapshotHandle} {nowMs : Nat}
  {storagePrefix : Bytes} {coll : CollectionMeta}

theorem nodup_indexScan (hc : Consistent parseJson snap nowMs storagePrefix coll) {idx : IndexMeta}
    (hidx : idx ∈ coll.indexes) (n : Nat) (constraints : Constraints) :
    ((candidates snap nowMs storagePrefix coll.id
      (buildIndexScan storagePrefix coll.id idx n constraints)).map Prod.fst).Nodup := by
  simp only [buildIndexScan, candidates, List.map_map]
  refine List.Nodup.map_on ?_ (List.Nodup.of_map _ (SnapshotHandle.nodup_scan_keys snap _ _ nowMs))
  rintro ⟨k, id⟩ hk ⟨k', id'⟩ hk' heq
  cases (show id = id' from heq)
  obtain ⟨hrange, hget⟩ := SnapshotHandle.mem_scan.mp hk
  obtain ⟨hrange', hget'⟩ := SnapshotHandle.mem_scan.mp hk'
  obtain ⟨v, hv, rfl⟩ := (hc.entries idx hidx k id (indexPrefix_of_scanBounds hrange)).mp hget
  obtain ⟨w, ⟨hw, stored, hdoc, hview⟩, rfl⟩ :=
    (hc.entries idx hidx k' id (indexPrefix_of_scanBounds hrange')).mp hget'
  rw [hv.eq hdoc hw hview]

theorem nodup_plan (hc : Consistent parseJson snap nowMs storagePrefix coll) (filter : Filter) :
    ((candidates snap nowMs storagePrefix coll.id (plan filter storagePrefix coll)).map
      Prod.fst).Nodup := by
  unfold plan
  dsimp only
  cases idProbe (collectConstraints filter) with
  | some s =>
    simp only [candidates]
    split
    next => simp
    next => simp
  | none =>
    cases hbest : bestIndex (collectConstraints filter) coll.indexes with
    | some best => exact nodup_indexScan hc (bestIndex_eq_some hbest).1 _ _
    | none =>
      simp only [candidates, List.map_map]
      refine List.Nodup.map_on ?_
        (List.Nodup.of_map _ (SnapshotHandle.nodup_scan_keys snap _ _ nowMs))
      rintro ⟨k, stored⟩ hk ⟨k', stored'⟩ hk' heq
      obtain ⟨hrange, hget⟩ := SnapshotHandle.mem_scan.mp hk
      obtain ⟨hrange', hget'⟩ := SnapshotHandle.mem_scan.mp hk'
      obtain ⟨id, rfl⟩ := (prefix_iff_prefixUpperBound _ _).mpr hrange
      obtain ⟨id', rfl⟩ := (prefix_iff_prefixUpperBound _ _).mpr hrange'
      have hlen : (docPrefix storagePrefix coll.id).length = storagePrefix.length + 1 + 4 := by
        simp [docPrefix]
      have hid : id = id' := by
        simpa [docIdFromDocKey, ← hlen] using heq
      subst hid
      cases Option.some.inj (hget.symm.trans hget')
      rfl

end Nodup

def probeConstraints (field : Bytes) (v : Value) : Constraints :=
  SortedMap.empty.insert field { Constraint.default with eq := some v }

section Probe

variable {inner : CollectionMeta} {idx : IndexMeta} {field : Bytes} {v : Value}

theorem equalityIndex_withIndex (hno : hasEqualityIndex inner field = false)
    (hidx : idx.fields.head? = some field) :
    equalityIndex (withIndex inner idx) field = some idx := by
  obtain ⟨-, hnone⟩ := Bool.or_eq_false_iff.mp hno
  have hfind : equalityIndex inner field = none := by
    simpa using hnone
  rw [equalityIndex] at hfind ⊢
  show (inner.indexes ++ [idx]).find? _ = some idx
  rw [List.find?_append, hfind, Option.none_or]
  simp [hidx]

theorem planEquality_withIndex (storagePrefix : Bytes) (hno : hasEqualityIndex inner field = false)
    (hidx : idx.fields.head? = some field) (hv : v.isScalar = true) :
    planEquality storagePrefix (withIndex inner idx) field v =
      .ok (buildIndexScan storagePrefix inner.id idx 1 (probeConstraints field v)) := by
  have hid : field ≠ idField := by
    rintro rfl
    simp [hasEqualityIndex] at hno
  unfold planEquality
  rw [if_neg hid, hv, equalityIndex_withIndex hno hidx]
  rfl

theorem nextConstraint_probe :
    (nextConstraint idx 1 (probeConstraints field v)).lo = none ∧
      (nextConstraint idx 1 (probeConstraints field v)).hi = none := by
  rw [nextConstraint]
  cases idx.fields[1]? with
  | none => exact ⟨rfl, rfl⟩
  | some g =>
    rw [Option.bind_some, probeConstraints, SortedMap.get_insert]
    split
    next => exact ⟨rfl, rfl⟩
    next => exact ⟨rfl, rfl⟩

theorem scanBounds_probe {storagePrefix : Bytes} {cid : UInt32} :
    scanBounds storagePrefix cid idx 1 (probeConstraints field v) =
      (scanBase storagePrefix cid idx 1 (probeConstraints field v),
        prefixUpperBound (scanBase storagePrefix cid idx 1 (probeConstraints field v))) := by
  obtain ⟨hlo, hhi⟩ := @nextConstraint_probe idx field v
  rw [scanBounds_eq, rangeBounds, hlo, hhi]
  simp

/-- The probed range holds the entries of equal index value. -/
theorem probe_iff {storagePrefix id : Bytes} {cid : UInt32} {w : Value}
    (hidx : idx.fields.head? = some field) :
    ((scanBounds storagePrefix cid idx 1 (probeConstraints field v)).1 ≤
        indexKey storagePrefix cid idx.id (encodedFields idx w) id ∧
      ((scanBounds storagePrefix cid idx 1 (probeConstraints field v)).2 = [] ∨
        indexKey storagePrefix cid idx.id (encodedFields idx w) id <
          (scanBounds storagePrefix cid idx 1 (probeConstraints field v)).2)) ↔
      (extractPath w field).indexValue = v.indexValue := by
  obtain ⟨rest, hfields⟩ := List.head?_eq_some_iff.mp hidx
  have heq : eqValue (probeConstraints field v) field = v := by
    rw [eqValue, probeConstraints, SortedMap.get_insert_self]
    rfl
  have hopen : ∀ u, (nextConstraint idx 1 (probeConstraints field v)).InBounds u := by
    intro u
    have hnone := @nextConstraint_probe idx field v
    refine ⟨fun l hl => ?_, fun h hh => ?_⟩
    · rw [hnone.1] at hl
      simp at hl
    · rw [hnone.2] at hh
      simp at hh
  rw [encodedFields, mem_scanBounds (List.length_map _), hfields]
  simp only [List.map_cons, List.take_succ_cons, List.take_zero, List.map_nil, List.cons.injEq,
    and_true, heq]
  exact and_iff_left fun u _ => hopen u

end Probe

/-- The scan of the path has its bounds in order. On inverted ones a non-empty memtable panics. -/
def AccessPath.NotInverted : AccessPath → Prop
  | .indexScan lo hi _ _ _ => lo ≤ hi
  | _ => True

/-- The engine's view gives the scan of the path as the handle lists it. -/
def AccessPath.Answered (view : ReadView) (snap : SnapshotHandle) (nowMs : Nat) (docs : Bytes) :
    AccessPath → Prop
  | .byId _ => True
  | .indexScan lo hi _ _ _ => view.scan snap.seqUpper lo hi nowMs = some (snap.scan lo hi nowMs)
  | .collectionScan => view.scan snap.seqUpper docs (prefixUpperBound docs) nowMs =
      some (snap.scan docs (prefixUpperBound docs) nowMs)

section Ranges

variable {view : ReadView} {snap : SnapshotHandle} {storagePrefix : Bytes} {cid : UInt32}
  {idx : IndexMeta} {n : Nat} {constraints : Constraints}

theorem scanRange_bound {p : Bytes} {b : UInt8} (hb : b ∈ p) (hne : b ≠ 0xFF) :
    ReadView.ScanRange p (prefixUpperBound p) := by
  have hup := prefixUpperBound_ne_nil hb hne
  have hself := (prefix_iff_prefixUpperBound p p).mp List.prefix_rfl
  exact Or.inl ⟨(hself.2.resolve_left hup).le, hup⟩

theorem recIndex_mem_scanBase : recIndex ∈ scanBase storagePrefix cid idx n constraints := by
  simp [scanBase, indexPrefix]

theorem scanBounds_snd_ne_nil : (scanBounds storagePrefix cid idx n constraints).2 ≠ [] := by
  rw [scanBounds_eq, rangeBounds]
  dsimp only
  generalize (if idx.ascending.getD n true = true then (nextConstraint idx n constraints).hi
    else (nextConstraint idx n constraints).lo) = last
  cases last with
  | some v =>
    exact prefixUpperBound_ne_nil (List.mem_append_left _ recIndex_mem_scanBase) (by decide)
  | none => exact prefixUpperBound_ne_nil recIndex_mem_scanBase (by decide)

theorem plan_answered (h : snap.Of view) {filter : Filter} {coll : CollectionMeta}
    (hplan : (plan filter storagePrefix coll).NotInverted) (nowMs : Nat) :
    (plan filter storagePrefix coll).Answered view snap nowMs (docPrefix storagePrefix coll.id) := by
  unfold plan at hplan ⊢
  dsimp only at hplan ⊢
  split
  next => trivial
  next hid =>
    simp only [hid] at hplan
    split
    next n r idx hbest =>
      simp only [hbest] at hplan
      exact h.scan_eq (Or.inl ⟨hplan, scanBounds_snd_ne_nil⟩) nowMs
    next => exact h.scan_eq (scanRange_bound (b := recDoc) (by simp [docPrefix]) (by decide)) nowMs

end Ranges

section Operators

variable {parseJson : Bytes → DocResult Value} {isMatch : Bytes → Bool → Bytes → Bool}
  {snap : SnapshotHandle} {nowMs : Nat} {storagePrefix : Bytes} {inner : CollectionMeta}
  {idx : IndexMeta} {spec : LookupSpec} {limits : AggregationLimits}

theorem Consistent.of_withIndex (hc : Consistent parseJson snap nowMs storagePrefix (withIndex inner idx)) :
    Consistent parseJson snap nowMs storagePrefix inner :=
  ⟨hc.bodies, fun j hj => hc.entries j (List.mem_append_left _ hj)⟩

section

variable (parseJson isMatch snap nowMs storagePrefix inner)

def probed (idx : IndexMeta) (spec : LookupSpec) (v : Value) : List (Bytes × Bytes) :=
  matched parseJson isMatch spec.filter (candidates snap nowMs storagePrefix inner.id
    (buildIndexScan storagePrefix inner.id idx 1 (probeConstraints spec.foreignField v)))

def hashed (spec : LookupSpec) (v : Value) : List (Bytes × Bytes) :=
  (matched parseJson isMatch spec.filter (candidates snap nowMs storagePrefix inner.id
    (plan spec.filter storagePrefix inner))).filter fun e =>
      joinKey parseJson spec e = some (encodeJoinKey v)

/-- A stored document that passes the filter and has the joined value in its field. -/
def Probed (spec : LookupSpec) (v : Value) (id stored : Bytes) (w : Value) : Prop :=
  snap.get (docKey storagePrefix inner.id id) nowMs = some stored ∧ w.IsBody ∧
    withStoredView parseJson stored = .ok (fromValue w) ∧
    checkFilter parseJson isMatch stored spec.filter id = true ∧
    (extractPath w spec.foreignField).indexValue = v.indexValue

end

variable {v : Value}

/-- The index join answers the documents probed, or reports a limit. -/
theorem inlj_matches (hc : Consistent parseJson snap nowMs storagePrefix (withIndex inner idx))
    (hno : hasEqualityIndex inner spec.foreignField = false)
    (hidx : idx.fields.head? = some spec.foreignField) (hv : v.isScalar = true) (side : HashSide) :
    lookupMatches parseJson isMatch snap nowMs storagePrefix .inlj (withIndex inner idx) side spec
        limits (some v) = .ok ((probed parseJson isMatch snap nowMs storagePrefix inner idx spec
          v).map (attached parseJson)) ∨
      ∃ msg, lookupMatches parseJson isMatch snap nowMs storagePrefix .inlj (withIndex inner idx) side
        spec limits (some v) = .error (.badFilter msg) := by
  have hid : ¬ (spec.foreignField = idField ∧ v.isString = false) := by
    rintro ⟨hid, -⟩
    simp [hasEqualityIndex, hid] at hno
  simp only [lookupMatches, if_neg hid, planEquality_withIndex storagePrefix hno hidx hv,
    Except.bind]
  have hloop := fetchInnerLoop_spec hc.bodies isMatch spec.filter limits.maxMatchesPerOuter
    ((snap.scan (scanBounds storagePrefix inner.id idx 1 (probeConstraints spec.foreignField v)).1
      (scanBounds storagePrefix inner.id idx 1 (probeConstraints spec.foreignField v)).2
      nowMs).map Prod.snd) []
  rw [List.map_map, List.nil_append] at hloop
  exact hloop

variable {id stored : Bytes}

theorem foreignJoinValue_eq (hid : spec.foreignField ≠ idField) {w : Value} (hw : w.IsBody)
    (hview : withStoredView parseJson stored = .ok (fromValue w)) :
    foreignJoinValue parseJson spec id stored = .ok (joinField w spec.foreignField) := by
  rw [foreignJoinValue, if_neg hid]
  exact localJoinValue_eq hw hview spec.foreignField

theorem mapM_attached {entries : List (Bytes × Bytes)}
    (h : ∀ e ∈ entries, ∃ doc, storedToDoc parseJson e.2 e.1 = .ok doc) :
    (entries.mapM fun e => storedToDoc parseJson e.2 e.1) = .ok (entries.map (attached parseJson)) := by
  induction entries with
  | nil => rfl
  | cons e entries ih =>
    obtain ⟨doc, hdoc⟩ := h e List.mem_cons_self
    have hatt : attached parseJson e = doc := by
      rw [attached, hdoc]
      rfl
    rw [List.mapM_cons, ih fun x hx => h x (List.mem_cons_of_mem _ hx), List.map_cons, hatt, hdoc]
    rfl

/-- The hash join answers the documents hashed under the value, or reports a limit. -/
theorem hash_matches (hc : Consistent parseJson snap nowMs storagePrefix inner)
    (hid : spec.foreignField ≠ idField) :
    (∃ side, buildHashSide parseJson isMatch snap nowMs storagePrefix inner spec limits = .ok side ∧
      ∀ v, lookupMatches parseJson isMatch snap nowMs storagePrefix .hash inner side spec limits
          (some v) = .ok ((hashed parseJson isMatch snap nowMs storagePrefix inner spec v).map
            (attached parseJson)) ∨
        ∃ msg, lookupMatches parseJson isMatch snap nowMs storagePrefix .hash inner side spec limits
          (some v) = .error (.badFilter msg)) ∨
    ∃ msg, buildHashSide parseJson isMatch snap nowMs storagePrefix inner spec limits =
      .error (.badFilter msg) := by
  have hvalues : ∀ id stored, (id, some stored) ∈ candidates snap nowMs storagePrefix inner.id
      (plan spec.filter storagePrefix inner) →
      ∃ value, foreignJoinValue parseJson spec id stored = .ok value := by
    intro id stored hmem
    obtain ⟨w, hw, hview⟩ := hc.bodies id stored (get_of_mem_candidates hmem)
    exact ⟨_, foreignJoinValue_eq hid hw hview⟩
  rcases visit_addToHashSide_spec limits isMatch spec.filter limits.maxScanDocs hvalues (.empty, 0)
    ⟨0, 0⟩ with ⟨next, stats, hvisit, hgroups⟩ | ⟨msg, hvisit⟩
  · refine Or.inl ⟨next.1, ?_, fun v => ?_⟩
    · rw [buildHashSide, visitPlannedMatchesBoundedColl, hvisit]
      rfl
    · have hgroup : (next.1.get (encodeJoinKey v)).getD [] =
          hashed parseJson isMatch snap nowMs storagePrefix inner spec v := by
        rw [hgroups, SortedMap.get_empty]
        rfl
      have hcond : ¬ (spec.foreignField = idField ∧ v.isString = false) := fun h => hid h.1
      simp only [lookupMatches, if_neg hcond, fetchHashMatches]
      cases hget : next.1.get (encodeJoinKey v) with
      | none =>
        rw [hget] at hgroup
        rw [← hgroup]
        exact Or.inl rfl
      | some entries =>
        rw [hget, Option.getD_some] at hgroup
        subst hgroup
        dsimp only
        split
        next => exact Or.inr ⟨_, rfl⟩
        next =>
          refine Or.inl (mapM_attached fun e he => ?_)
          have hmem := (mem_matched.mp (List.mem_filter.mp he).1).1
          obtain ⟨w, hw, hview⟩ := hc.bodies e.1 e.2 (get_of_mem_candidates hmem)
          exact storedToDoc_ok hview hw e.1
  · refine Or.inr ⟨msg, ?_⟩
    rw [buildHashSide, visitPlannedMatchesBoundedColl, hvisit]
    rfl

theorem mem_probed (hc : Consistent parseJson snap nowMs storagePrefix (withIndex inner idx))
    (hidx : idx.fields.head? = some spec.foreignField) :
    (id, stored) ∈ probed parseJson isMatch snap nowMs storagePrefix inner idx spec v ↔
      ∃ w, Probed parseJson isMatch snap nowMs storagePrefix inner spec v id stored w := by
  have hmem : idx ∈ (withIndex inner idx).indexes := List.mem_append_right _ (List.mem_singleton.mpr rfl)
  rw [probed, mem_matched]
  constructor
  · rintro ⟨hcand, hcheck⟩
    have hget := get_of_mem_candidates hcand
    obtain ⟨w, hw, hview⟩ := hc.bodies id stored hget
    refine ⟨w, hget, hw, hview, hcheck, ?_⟩
    exact (probe_iff hidx).mp ((mem_indexScan hc hmem hget hw hview).mp hcand)
  · rintro ⟨w, hget, hw, hview, hcheck, heq⟩
    exact ⟨(mem_indexScan hc hmem hget hw hview).mpr ((probe_iff hidx).mpr heq), hcheck⟩

theorem mem_hashed (hc : Consistent parseJson snap nowMs storagePrefix inner)
    (hid : spec.foreignField ≠ idField) {w : Value}
    (h : Probed parseJson isMatch snap nowMs storagePrefix inner spec v id stored w) :
    (id, stored) ∈ hashed parseJson isMatch snap nowMs storagePrefix inner spec v ↔
      (joinField w spec.foreignField).isSome ∧ Reaches spec.filter inner id w := by
  obtain ⟨hget, hw, hview, hcheck, heq⟩ := h
  have hkey : joinKey parseJson spec (id, stored) =
      (joinField w spec.foreignField).map encodeJoinKey := by
    rw [joinKey, foreignJoinValue_eq hid hw hview]
    rfl
  rw [hashed, List.mem_filter, mem_matched, decide_eq_true_eq, hkey,
    mem_plan_iff_reaches hc hget hw hview hcheck]
  constructor
  · rintro ⟨⟨hreach, -⟩, hjoin⟩
    obtain ⟨u, hu, -⟩ := Option.map_eq_some_iff.mp hjoin
    exact ⟨by rw [hu]; rfl, hreach⟩
  · rintro ⟨hjoin, hreach⟩
    obtain ⟨u, hu⟩ := Option.isSome_iff_exists.mp hjoin
    refine ⟨⟨hreach, hcheck⟩, ?_⟩
    rw [indexValue_of_joinField hu] at heq
    rw [hu, Option.map_some, encodeJoinKey, encodeJoinKey, encodeValue_eq, encodeValue_eq, heq]

theorem probed_of_mem_hashed (hc : Consistent parseJson snap nowMs storagePrefix inner)
    (hid : spec.foreignField ≠ idField)
    (h : (id, stored) ∈ hashed parseJson isMatch snap nowMs storagePrefix inner spec v) :
    ∃ w, Probed parseJson isMatch snap nowMs storagePrefix inner spec v id stored w := by
  obtain ⟨hmem, hkey⟩ := List.mem_filter.mp h
  obtain ⟨hcand, hcheck⟩ := mem_matched.mp hmem
  have hget := get_of_mem_candidates hcand
  obtain ⟨w, hw, hview⟩ := hc.bodies id stored hget
  rw [decide_eq_true_eq, joinKey, foreignJoinValue_eq hid hw hview] at hkey
  obtain ⟨u, hu, henc⟩ := Option.map_eq_some_iff.mp hkey
  have heq : encodeValue u ++ [] = encodeValue v ++ [] := by
    rw [List.append_nil, List.append_nil]
    exact henc
  refine ⟨w, hget, hw, hview, hcheck, ?_⟩
  rw [indexValue_of_joinField hu]
  exact (encodeValue_append_inj.mp heq).1

theorem isScalar_of_joinValueForOuter {docId stored : Bytes}
    (h : joinValueForOuter parseJson spec docId stored = .ok (some v)) : v.isScalar = true := by
  unfold joinValueForOuter at h
  split at h
  next =>
    cases h
    rfl
  next =>
    obtain ⟨view, -, hview⟩ := except_bind_eq_ok.mp h
    split at hview
    next => exact isScalar_of_viewToScalar hview
    next => cases hview

/-- Both find the documents with a scalar under the value, so they differ by what only one reaches. -/
theorem probed_perm_hashed_iff
    (hc : Consistent parseJson snap nowMs storagePrefix (withIndex inner idx))
    (hid : spec.foreignField ≠ idField) (hidx : idx.fields.head? = some spec.foreignField) :
    ((probed parseJson isMatch snap nowMs storagePrefix inner idx spec v).map (attached parseJson)).Perm
      ((hashed parseJson isMatch snap nowMs storagePrefix inner spec v).map (attached parseJson)) ↔
    ∀ id stored w, Probed parseJson isMatch snap nowMs storagePrefix inner spec v id stored w →
      (joinField w spec.foreignField).isSome ∧ Reaches spec.filter inner id w := by
  have hinner := hc.of_withIndex
  have hmem : idx ∈ (withIndex inner idx).indexes :=
    List.mem_append_right _ (List.mem_singleton.mpr rfl)
  have hnodup : (probed parseJson isMatch snap nowMs storagePrefix inner idx spec v).Nodup :=
    nodup_matched (nodup_indexScan hc hmem 1 _)
  have hnodup' : (hashed parseJson isMatch snap nowMs storagePrefix inner spec v).Nodup :=
    (nodup_matched (nodup_plan hinner spec.filter)).filter _
  have hsub : hashed parseJson isMatch snap nowMs storagePrefix inner spec v ⊆
      probed parseJson isMatch snap nowMs storagePrefix inner idx spec v :=
    fun e he => (mem_probed hc hidx).mpr (probed_of_mem_hashed hinner hid he)
  constructor
  · intro hperm id stored w hw
    have hlen := hperm.length_eq
    rw [List.length_map, List.length_map] at hlen
    have hsame := (hnodup'.subperm hsub).perm_of_length_le hlen.le
    have hin : (id, stored) ∈ hashed parseJson isMatch snap nowMs storagePrefix inner spec v :=
      hsame.mem_iff.mpr ((mem_probed hc hidx).mpr ⟨w, hw⟩)
    exact (mem_hashed hinner hid hw).mp hin
  · intro hall
    refine List.Perm.map _ ((List.perm_ext_iff_of_nodup hnodup hnodup').mpr fun e => ?_)
    refine ⟨fun he => ?_, fun he => hsub he⟩
    obtain ⟨w, hw⟩ := (mem_probed hc hidx).mp he
    exact (mem_hashed hinner hid hw).mpr (hall e.1 e.2 w hw)

/-- With an index on the joined field added to a collection that has none, the probes of the index
attach to an outer document the same documents as the hash exactly when no document they find is
without a scalar there or out of the reach of the inner filter's plan. Limits are not exceeded, and
the engine answers every scan and every read of a body: the plan's range is not inverted, a probe's
never is. -/
theorem lookup_operators_agree (isMatch : Bytes → Bool → Bytes → Bool) (spec : LookupSpec)
    (limits : AggregationLimits) (docId outer : Bytes) (joinValue : Option Value)
    {view : ReadView} (hof : snap.Of view)
    (hplan : (plan spec.filter storagePrefix inner).NotInverted)
    (hc : Consistent parseJson snap nowMs storagePrefix (withIndex inner idx))
    (hno : hasEqualityIndex inner spec.foreignField = false)
    (hidx : idx.fields.head? = some spec.foreignField)
    (hjoin : joinValueForOuter parseJson spec docId outer = .ok joinValue)
    (hscan : ∀ msg, buildHashSide parseJson isMatch snap nowMs storagePrefix inner spec limits ≠
      .error (.badFilter msg))
    (hprobe : ∀ msg, lookupMatches parseJson isMatch snap nowMs storagePrefix .inlj
      (withIndex inner idx) .empty spec limits joinValue ≠ .error (.badFilter msg))
    (hhash : ∀ side msg,
      buildHashSide parseJson isMatch snap nowMs storagePrefix inner spec limits = .ok side →
      lookupMatches parseJson isMatch snap nowMs storagePrefix .hash inner side spec limits joinValue ≠
        .error (.badFilter msg)) :
    (∀ n, selectStrategy (withIndex inner idx) n spec.foreignField limits = .ok .inlj) ∧
    (∀ n ≤ limits.maxScanDocs, selectStrategy inner n spec.foreignField limits = .ok .hash) ∧
    ((plan spec.filter storagePrefix inner).Answered view snap nowMs
        (docPrefix storagePrefix inner.id) ∧
      (∀ v, joinValue = some v → ∃ path,
        planEquality storagePrefix (withIndex inner idx) spec.foreignField v = .ok path ∧
        path.Answered view snap nowMs (docPrefix storagePrefix inner.id)) ∧
      ∀ key, view.getWithSeq key snap.seqUpper nowMs = snap.getWithSeq key nowMs) ∧
    ∃ side a b,
      buildHashSide parseJson isMatch snap nowMs storagePrefix inner spec limits = .ok side ∧
      lookupMatches parseJson isMatch snap nowMs storagePrefix .inlj (withIndex inner idx) .empty spec
        limits joinValue = .ok a ∧
      lookupMatches parseJson isMatch snap nowMs storagePrefix .hash inner side spec limits joinValue =
        .ok b ∧
      (a.Perm b ↔ ∀ v, joinValue = some v → ∀ id stored w,
        Probed parseJson isMatch snap nowMs storagePrefix inner spec v id stored w →
        (joinField w spec.foreignField).isSome ∧ Reaches spec.filter inner id w) := by
  have hid : spec.foreignField ≠ idField := by
    intro heq
    simp [hasEqualityIndex, heq] at hno
  have hinner := hc.of_withIndex
  have hindexed : hasEqualityIndex (withIndex inner idx) spec.foreignField = true := by
    rw [hasEqualityIndex, equalityIndex_withIndex hno hidx]
    simp
  refine ⟨fun n => if_pos hindexed, fun n hn => ?_,
    ⟨plan_answered hof hplan nowMs, ?_, fun key => hof.getWithSeq_eq key nowMs⟩, ?_⟩
  · rw [selectStrategy, hno]
    exact if_pos hn
  · rintro v rfl
    refine ⟨_, planEquality_withIndex storagePrefix hno hidx (isScalar_of_joinValueForOuter hjoin), ?_⟩
    rw [buildIndexScan, scanBounds_probe]
    exact hof.scan_eq (scanRange_bound recIndex_mem_scanBase (by decide)) nowMs
  rcases hash_matches hinner hid with ⟨side, hside, hgroups⟩ | ⟨msg, hside⟩
  swap
  · exact absurd hside (hscan msg)
  cases joinValue with
  | none => exact ⟨side, [], [], hside, rfl, rfl, by simp⟩
  | some v =>
    have hv := isScalar_of_joinValueForOuter hjoin
    rcases inlj_matches hc hno hidx hv .empty with ha | ⟨msg, ha⟩
    swap
    · exact absurd ha (hprobe msg)
    rcases hgroups v with hb | ⟨msg, hb⟩
    swap
    · exact absurd hb (hhash side msg hside)
    refine ⟨side, _, _, hside, ha, hb, (probed_perm_hashed_iff hc hid hidx).trans ?_⟩
    exact ⟨fun h u hu => Option.some.inj hu ▸ h, fun h => h v rfl⟩

end Operators

def kLookup : LookupSpec := ⟨[0x6B], [0x6B], [0x68], .matchAll⟩

def roomyLimits : AggregationLimits := ⟨100, 10000, 100, 10000⟩

def plainColl : CollectionMeta := ⟨1, [], [0x63], []⟩

def kDocs : List (Bytes × Value) :=
  [([0x78], .object [([0x6B], .number (.posInt 1))]), ([0x79], .object [])]

def kColl : CollectionMeta := withIndex plainColl (fieldIndex [0x6B])

def kSnapshot : SnapshotHandle := loadedSnapshot [] kColl kDocs

theorem kSnapshot_consistent (parseJson : Bytes → DocResult Value) (nowMs : Nat) :
    Consistent parseJson kSnapshot nowMs [] kColl := by
  refine loadedSnapshot_consistent (by decide) (by decide) parseJson nowMs fun d hd => ?_
  simp only [kDocs, List.mem_cons, List.not_mem_nil, or_false] at hd
  rcases hd with rfl | rfl
  · refine ⟨.object (by decide) (by decide) ?_, by decide +kernel, by decide +kernel⟩
    simp only [List.mem_cons, List.not_mem_nil, or_false, forall_eq]
    refine .number ?_
    show (1 : UInt64).toNat < 2 ^ 63
    decide
  · exact ⟨.object (by simp) List.Pairwise.nil (by simp), by decide +kernel, by decide +kernel⟩

def kView : ReadView := ⟨kSnapshot.versions.foldl Memtable.insert .empty, [], []⟩

theorem kSnapshot_of : kSnapshot.Of kView := by
  have hcoherent : ∀ v ∈ kView.versions, ∀ w ∈ kView.versions, v.userKey = w.userKey →
      v.seq = w.seq → v = w := by decide +kernel
  refine ⟨⟨List.pairwise_singleton _ _, hcoherent, by decide +kernel, by simp [kView]⟩, ?_⟩
  exact fun v => (by decide +kernel : kSnapshot.versions.Perm kView.versions).mem_iff

def kProbe (v : Value) : DocResult (List Value) :=
  lookupMatches noJson noMatch kSnapshot 0 [] .inlj kColl .empty kLookup roomyLimits (some v)

def kHashSide : DocResult HashSide :=
  buildHashSide noJson noMatch kSnapshot 0 [] plainColl kLookup roomyLimits

def kHash (side : HashSide) (v : Value) : DocResult (List Value) :=
  lookupMatches noJson noMatch kSnapshot 0 [] .hash plainColl side kLookup roomyLimits (some v)

/-- An outer null meets the document without the field through the index and not through the hash. -/
theorem null_probe_attaches_missing :
    Consistent noJson kSnapshot 0 [] kColl ∧
    joinValueForOuter noJson kLookup [0x6F] (vkZdoc :: fromValue (.object [([0x6B], .null)])) =
      .ok (some .null) ∧
    (kProbe .null).toOption.map List.length = some 1 ∧
    (kHashSide.bind fun side => kHash side .null).toOption.map List.length = some 0 := by
  refine ⟨kSnapshot_consistent _ _, rfl, ?_, ?_⟩
  · decide +kernel
  · decide +kernel

theorem ne_error_of_isOk {α : Type} {r : DocResult α} (h : r.toBool = true) (msg : String) :
    r ≠ .error (.badFilter msg) := by
  rintro rfl
  simp [Except.toBool] at h

/-- For an outer 1 both operators attach the same. -/
theorem one_probe_agrees :
    ∃ side a b, kHashSide = .ok side ∧ kProbe (.number (.posInt 1)) = .ok a ∧
      kHash side (.number (.posInt 1)) = .ok b ∧ a.Perm b := by
  have hhash : (kHashSide.bind fun side => kHash side (.number (.posInt 1))).toBool = true := by
    decide +kernel
  obtain ⟨-, -, -, side, a, b, hside, ha, hb, hiff⟩ := lookup_operators_agree noMatch kLookup
    roomyLimits [0x6F] (vkZdoc :: fromValue (.object [([0x6B], .number (.posInt 1))]))
    (some (.number (.posInt 1))) kSnapshot_of (by exact trivial) (kSnapshot_consistent noJson 0)
    (by decide +kernel) rfl rfl (ne_error_of_isOk (by decide +kernel)) (ne_error_of_isOk (by decide +kernel))
    (fun side msg hside => ne_error_of_isOk (by rw [kHashSide, hside] at hhash; exact hhash) msg)
  refine ⟨side, a, b, hside, ha, hb, hiff.mpr fun v hv id stored w hw => ?_⟩
  cases Option.some.inj hv
  refine ⟨joinField_isSome ?_, trivial⟩
  rw [hw.2.2.2.2]
  simp [Value.indexValue]

end ZydecoDb
