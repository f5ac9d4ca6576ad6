import ZydecoDb.Document.Collection
import ZydecoDb.Document.IndexRange

namespace ZydecoDb

open Lib ZDocBuilder ValueView

section Best

variable {constraints : Constraints}

theorem considerIndex_cases (best : Best) (idx : IndexMeta) :
    considerIndex constraints best idx = best ∨
      considerIndex constraints best idx = some (eqLen constraints idx.fields,
        rangeAfter constraints idx.fields (eqLen constraints idx.fields), idx) := by
  unfold considerIndex
  simp only
  split
  next => exact Or.inl rfl
  next =>
    split
    next => exact Or.inr rfl
    next =>
      split
      next => exact Or.inr rfl
      next => exact Or.inl rfl

theorem bestIndex_eq_some {indexes : List IndexMeta} {n : Nat} {range : Bool} {idx : IndexMeta}
    (h : bestIndex constraints indexes = some (n, range, idx)) :
    idx ∈ indexes ∧ n = eqLen constraints idx.fields := by
  have hfold : ∀ (rest : List IndexMeta) (best : Best),
      rest.foldl (considerIndex constraints) best = some (n, range, idx) →
      best = some (n, range, idx) ∨ idx ∈ rest ∧ n = eqLen constraints idx.fields := by
    intro rest
    induction rest with
    | nil => exact fun best hb => Or.inl hb
    | cons other rest ih =>
      intro best hb
      rw [List.foldl_cons] at hb
      rcases ih _ hb with hb | ⟨hmem, hn⟩
      · rcases considerIndex_cases best other with heq | heq
        · rw [heq] at hb
          exact Or.inl hb
        · rw [heq] at hb
          cases Option.some.inj hb
          exact Or.inr ⟨List.mem_cons_self, rfl⟩
      · exact Or.inr ⟨List.mem_cons_of_mem _ hmem, hn⟩
  rcases hfold indexes none h with hb | hb
  · simp at hb
  · exact hb

theorem eqValue_of_take {fields : List Bytes} {f : Bytes}
    (h : f ∈ fields.take (eqLen constraints fields)) :
    ∃ c t, constraints.get f = some c ∧ c.eq = some t ∧ eqValue constraints f = t := by
  induction fields with
  | nil => simp [eqLen] at h
  | cons g fields ih =>
    rw [eqLen] at h
    split at h
    next c hc =>
      split at h
      next heq =>
        rw [List.take_succ_cons, List.mem_cons] at h
        rcases h with rfl | h
        · obtain ⟨t, ht⟩ := Option.isSome_iff_exists.mp heq
          refine ⟨c, t, hc, ht, ?_⟩
          rw [eqValue, hc, Option.bind_some, ht]
          rfl
        · exact ih h
      next => simp at h
    next => simp at h

end Best

/-- The document's key lies where the index is scanned: neither a field held equal nor the range
field is the other zero. An index over the id's own name keeps what the body has there. -/
def KeyReached (constraints : Constraints) (idx : IndexMeta) (n : Nat) (v : Value) : Prop :=
  (∀ f ∈ idx.fields.take n,
    ¬ ((extractPath v f).indexValue.ZeroBelow (eqValue constraints f).indexValue ∨
      (eqValue constraints f).indexValue.ZeroBelow (extractPath v f).indexValue)) ∧
  ∀ f, idx.fields[n]? = some f →
    if f = idField then (nextConstraint idx n constraints).InBounds (extractPath v f)
    else (∀ l, (nextConstraint idx n constraints).lo = some l →
        ¬ (extractPath v f).indexValue.ZeroBelow l.indexValue) ∧
      ∀ h, (nextConstraint idx n constraints).hi = some h →
        ¬ h.indexValue.ZeroBelow (extractPath v f).indexValue

section Reached

variable {isMatch : Bytes → Bool → Bytes → Bool} {constraints : Constraints} {idx : IndexMeta} {n : Nat}
  {v : Value} {id : Bytes} (hv : v.IsBody)
  (hold : ∀ f c, constraints.get f = some c → c.Holds (fieldSat isMatch (fromValue v) id f))

include hv hold

theorem eq_fields_iff (hid : ∀ c s, constraints.get idField = some c → c.eq ≠ some (.string s))
    {f : Bytes} (hf : f ∈ idx.fields.take (eqLen constraints idx.fields)) :
    (extractPath v f).indexValue = (eqValue constraints f).indexValue ↔
      ¬ ((extractPath v f).indexValue.ZeroBelow (eqValue constraints f).indexValue ∨
        (eqValue constraints f).indexValue.ZeroBelow (extractPath v f).indexValue) := by
  obtain ⟨c, t, hc, heq, hval⟩ := eqValue_of_take hf
  obtain ⟨hscalar, hsat⟩ := (hold f c hc).eq t heq
  rw [hval]
  by_cases hfid : f = idField
  · subst hfid
    rw [fieldSat, if_pos rfl] at hsat
    cases t with
    | string s => exact absurd heq (hid c s hc)
    | _ => simp [Atom.matchesStr, strEq] at hsat
  · rw [fieldSat, if_neg hfid, Atom.matches] at hsat
    exact indexValue_eq_iff_of_eqMatch hv hscalar hsat

theorem inBounds_iff {f : Bytes} (hf : idx.fields[n]? = some f) (hfid : f ≠ idField) :
    (nextConstraint idx n constraints).InBounds (extractPath v f) ↔
      (∀ l, (nextConstraint idx n constraints).lo = some l →
        ¬ (extractPath v f).indexValue.ZeroBelow l.indexValue) ∧
      ∀ h, (nextConstraint idx n constraints).hi = some h →
        ¬ h.indexValue.ZeroBelow (extractPath v f).indexValue := by
  have hnext : (nextConstraint idx n constraints).Holds (fieldSat isMatch (fromValue v) id f) := by
    rw [nextConstraint, hf, Option.bind_some]
    cases hc : constraints.get f with
    | none => exact Constraint.Holds.default _
    | some c => exact hold f c hc
  refine and_congr (forall_congr' fun t => forall_congr' fun ht => ?_)
    (forall_congr' fun t => forall_congr' fun ht => ?_)
  · obtain ⟨hscalar, hsat⟩ := hnext.lo t ht
    simp only [fieldSat, if_neg hfid, Atom.matches] at hsat
    rw [IndexValue.order_ne_gt_iff]
    rcases hsat with hsat | hsat
    · obtain ⟨o, ho, hcmp⟩ := scalarCmp_of_orderingMatch hv hscalar hsat
      exact IndexValue.order_ne_lt_iff_of_scalarCmp hcmp (by rintro rfl; simp at ho)
    · obtain ⟨o, ho, hcmp⟩ := scalarCmp_of_orderingMatch hv hscalar hsat
      exact IndexValue.order_ne_lt_iff_of_scalarCmp hcmp (by rintro rfl; simp at ho)
  · obtain ⟨hscalar, hsat⟩ := hnext.hi t ht
    simp only [fieldSat, if_neg hfid, Atom.matches] at hsat
    rcases hsat with hsat | hsat
    · obtain ⟨o, ho, hcmp⟩ := scalarCmp_of_orderingMatch hv hscalar hsat
      exact IndexValue.order_ne_gt_iff_of_scalarCmp hcmp (by rintro rfl; simp at ho)
    · obtain ⟨o, ho, hcmp⟩ := scalarCmp_of_orderingMatch hv hscalar hsat
      exact IndexValue.order_ne_gt_iff_of_scalarCmp hcmp (by rintro rfl; simp at ho)

theorem mem_scan_iff_keyReached {storagePrefix : Bytes} {cid : UInt32}
    (hid : ∀ c s, constraints.get idField = some c → c.eq ≠ some (.string s))
    (hn : n = eqLen constraints idx.fields) :
    ((scanBounds storagePrefix cid idx n constraints).1 ≤
        indexKey storagePrefix cid idx.id (encodedFields idx v) id ∧
      ((scanBounds storagePrefix cid idx n constraints).2 = [] ∨
        indexKey storagePrefix cid idx.id (encodedFields idx v) id <
          (scanBounds storagePrefix cid idx n constraints).2)) ↔
      KeyReached constraints idx n v := by
  rw [encodedFields, mem_scanBounds (List.length_map _), ← List.map_take, List.map_map,
    List.map_map, List.map_inj_left, List.getElem?_map]
  refine and_congr (forall_congr' fun f => forall_congr' fun hf => ?_) ?_
  · subst hn
    exact eq_fields_iff hv hold hid hf
  · cases hf : idx.fields[n]? with
    | none => simp
    | some f =>
      simp only [Option.map_some, Option.some.injEq, forall_eq']
      split
      next => exact Iff.rfl
      next hfid => exact inBounds_iff hv hold hf hfid

end Reached

theorem idProbe_eq_some {constraints : Constraints} {s : Bytes} :
    idProbe constraints = some s ↔ ∃ c, constraints.get idField = some c ∧ c.eq = some (.string s) := by
  rw [← Option.bind_eq_some_iff]
  unfold idProbe
  split
  next t ht => simp [ht]
  next hne => exact ⟨fun h => by simp at h, fun h => absurd h (hne s)⟩

def Reaches (filter : Filter) (coll : CollectionMeta) (id : Bytes) (v : Value) : Prop :=
  match idProbe (collectConstraints filter) with
  | some _ => utf8Lossy id = id
  | none =>
    match bestIndex (collectConstraints filter) coll.indexes with
    | some (n, _, idx) => KeyReached (collectConstraints filter) idx n v
    | none => True

section Candidates

variable {parseJson : Bytes → DocResult Value} {isMatch : Bytes → Bool → Bytes → Bool}
  {snap : SnapshotHandle} {nowMs : Nat} {storagePrefix : Bytes} {coll : CollectionMeta}

theorem get_of_mem_candidates {path : AccessPath} {id stored : Bytes}
    (h : (id, some stored) ∈ candidates snap nowMs storagePrefix coll.id path) :
    snap.get (docKey storagePrefix coll.id id) nowMs = some stored := by
  cases path with
  | byId s =>
    simp only [candidates] at h
    split at h
    next other hget =>
      rw [List.mem_singleton, Prod.mk.injEq] at h
      obtain ⟨rfl, heq⟩ := h
      rw [hget, heq]
    next => simp at h
  | indexScan lo hi fields directions n =>
    obtain ⟨entry, -, heq⟩ := List.mem_map.mp h
    obtain ⟨rfl, hget⟩ := Prod.mk.inj heq
    exact hget
  | collectionScan =>
    obtain ⟨⟨k, value⟩, hmem, heq⟩ := List.mem_map.mp h
    obtain ⟨hid, hval⟩ := Prod.mk.inj heq
    cases Option.some.inj hval
    obtain ⟨hrange, hget⟩ := SnapshotHandle.mem_scan.mp hmem
    obtain ⟨tail, rfl⟩ := (prefix_iff_prefixUpperBound _ _).mpr hrange
    have htail : docIdFromDocKey storagePrefix.length (docPrefix storagePrefix coll.id ++ tail) = tail := by
      refine List.drop_left' ?_
      simp [docPrefix]
    rw [← hid, htail]
    exact hget

theorem mem_byId {s id stored : Bytes}
    (h : snap.get (docKey storagePrefix coll.id id) nowMs = some stored) :
    (id, some stored) ∈ candidates snap nowMs storagePrefix coll.id (.byId s) ↔ s = id := by
  simp only [candidates]
  constructor
  · intro hmem
    split at hmem
    next =>
      rw [List.mem_singleton, Prod.mk.injEq] at hmem
      exact hmem.1.symm
    next => simp at hmem
  · rintro rfl
    rw [h]
    exact List.mem_singleton.mpr rfl

theorem mem_collectionScan {id stored : Bytes}
    (h : snap.get (docKey storagePrefix coll.id id) nowMs = some stored) :
    (id, some stored) ∈ candidates snap nowMs storagePrefix coll.id .collectionScan := by
  have hprefix : docPrefix storagePrefix coll.id <+: docKey storagePrefix coll.id id :=
    List.prefix_append _ _
  refine List.mem_map.mpr ⟨(docKey storagePrefix coll.id id, stored), ?_, ?_⟩
  · exact SnapshotHandle.mem_scan.mpr ⟨(prefix_iff_prefixUpperBound _ _).mp hprefix, h⟩
  · have hid : docIdFromDocKey storagePrefix.length (docKey storagePrefix coll.id id) = id := by
      refine List.drop_left' ?_
      simp [docPrefix]
    simp only [hid]

theorem mem_indexScan {idx : IndexMeta} {n : Nat} {constraints : Constraints} {id stored : Bytes}
    {v : Value} (hc : Consistent parseJson snap nowMs storagePrefix coll) (hidx : idx ∈ coll.indexes)
    (hget : snap.get (docKey storagePrefix coll.id id) nowMs = some stored) (hv : v.IsBody)
    (hview : withStoredView parseJson stored = .ok (fromValue v)) :
    (id, some stored) ∈ candidates snap nowMs storagePrefix coll.id
        (buildIndexScan storagePrefix coll.id idx n constraints) ↔
      (scanBounds storagePrefix coll.id idx n constraints).1 ≤
          indexKey storagePrefix coll.id idx.id (encodedFields idx v) id ∧
        ((scanBounds storagePrefix coll.id idx n constraints).2 = [] ∨
          indexKey storagePrefix coll.id idx.id (encodedFields idx v) id <
            (scanBounds storagePrefix coll.id idx n constraints).2) := by
  constructor
  · intro h
    obtain ⟨⟨k, other⟩, hmem, heq⟩ := List.mem_map.mp h
    obtain ⟨rfl, -⟩ := Prod.mk.inj heq
    obtain ⟨hrange, hentry⟩ := SnapshotHandle.mem_scan.mp hmem
    have hprefix := indexPrefix_of_scanBounds hrange
    obtain ⟨w, hw, hk⟩ := (hc.entries idx hidx k other hprefix).mp hentry
    rw [hw.eq hget hv hview] at hk
    rw [← hk]
    exact hrange
  · intro hrange
    have hprefix := indexPrefix_of_scanBounds hrange
    have hentry := (hc.entries idx hidx _ id hprefix).mpr ⟨v, ⟨hv, stored, hget, hview⟩, rfl⟩
    refine List.mem_map.mpr ⟨(_, id), SnapshotHandle.mem_scan.mpr ⟨hrange, hentry⟩, ?_⟩
    simp only [hget]

/-- A matching document is a candidate of the plan exactly when the plan reaches it. -/
theorem mem_plan_iff_reaches (hc : Consistent parseJson snap nowMs storagePrefix coll)
    {filter : Filter} {id stored : Bytes} {v : Value}
    (hget : snap.get (docKey storagePrefix coll.id id) nowMs = some stored) (hv : v.IsBody)
    (hview : withStoredView parseJson stored = .ok (fromValue v))
    (hm : checkFilter parseJson isMatch stored filter id = true) :
    (id, some stored) ∈ candidates snap nowMs storagePrefix coll.id (plan filter storagePrefix coll) ↔
      Reaches filter coll id v := by
  rw [checkFilter, storedView_of_withStoredView parseJson hview] at hm
  have hold : ∀ f c, (collectConstraints filter).get f = some c →
      c.Holds (fieldSat isMatch (fromValue v) id f) := fun f c hf =>
    collectConstraints_holds (topLevelFields_of_matches filter hm) hf
  unfold plan Reaches
  dsimp only
  cases hprobe : idProbe (collectConstraints filter) with
  | some s =>
    obtain ⟨c, hcid, heq⟩ := idProbe_eq_some.mp hprobe
    obtain ⟨-, hsat⟩ := (hold idField c hcid).eq _ heq
    have hlossy : s = utf8Lossy id := by
      rw [fieldSat, if_pos rfl] at hsat
      simpa [Atom.matchesStr, strEq] using hsat
    subst hlossy
    exact mem_byId hget
  | none =>
    have hid : ∀ c s, (collectConstraints filter).get idField = some c → c.eq ≠ some (.string s) := by
      intro c s hcid heq
      have hsome := idProbe_eq_some.mpr ⟨c, hcid, heq⟩
      rw [hprobe] at hsome
      simp at hsome
    cases hbest : bestIndex (collectConstraints filter) coll.indexes with
    | none => exact iff_of_true (mem_collectionScan hget) trivial
    | some best =>
      obtain ⟨n, range, idx⟩ := best
      obtain ⟨hidx, hn⟩ := bestIndex_eq_some hbest
      exact (mem_indexScan hc hidx hget hv hview).trans (mem_scan_iff_keyReached hv hold hid hn)

/-- In a collection whose indexes are consistent with its documents, a document that matches the whole
filter is among the candidates of the planned path exactly when it is reached, and every candidate
with a body is a visible document. -/
theorem planned_candidates (hc : Consistent parseJson snap nowMs storagePrefix coll) (filter : Filter) :
    (∀ id stored v, snap.get (docKey storagePrefix coll.id id) nowMs = some stored → v.IsBody →
      withStoredView parseJson stored = .ok (fromValue v) →
      checkFilter parseJson isMatch stored filter id = true →
      ((id, some stored) ∈ candidates snap nowMs storagePrefix coll.id (plan filter storagePrefix coll) ↔
        Reaches filter coll id v)) ∧
    ∀ id stored, (id, some stored) ∈
        candidates snap nowMs storagePrefix coll.id (plan filter storagePrefix coll) →
      snap.get (docKey storagePrefix coll.id id) nowMs = some stored :=
  ⟨fun _ _ _ hget hv hview hm => mem_plan_iff_reaches hc hget hv hview hm,
    fun _ _ h => get_of_mem_candidates h⟩

end Candidates

def noJson : Bytes → DocResult Value := fun _ => .error .staleRevision

def noMatch : Bytes → Bool → Bytes → Bool := fun _ _ _ => false

def fieldIndex (field : Bytes) : IndexMeta := ⟨1, field, [field], [], false, none⟩

def indexedColl (field : Bytes) : CollectionMeta := ⟨1, [], [0x63], [fieldIndex field]⟩

def negZeroDoc : Value := .object [([0x61], .number (.float 0x8000000000000000))]

def zeroFilter (bits : UInt64) : Filter := .field [0x61] [.eq (.number (.float bits))]

def negZeroSnapshot : SnapshotHandle := loadedSnapshot [] (indexedColl [0x61]) [([0x78], negZeroDoc)]

theorem negZeroDoc_isBody : negZeroDoc.IsBody := by
  refine ⟨.object (by decide) (by decide) ?_, by decide +kernel, by decide +kernel⟩
  simp only [List.mem_cons, List.not_mem_nil, or_false, forall_eq]
  refine .number ?_
  show f64IsFinite 0x8000000000000000 = true
  decide

theorem negZeroSnapshot_consistent (parseJson : Bytes → DocResult Value) (nowMs : Nat) :
    Consistent parseJson negZeroSnapshot nowMs [] (indexedColl [0x61]) :=
  loadedSnapshot_consistent (by decide) (by decide) parseJson nowMs fun d hd => by
    cases List.mem_singleton.mp hd
    exact negZeroDoc_isBody

/-- With the index on the field, a filter for the positive zero matches the document and does not
find it. -/
theorem negZero_missed :
    Consistent noJson negZeroSnapshot 0 [] (indexedColl [0x61]) ∧
    negZeroSnapshot.get (docKey [] 1 [0x78]) 0 = some (vkZdoc :: fromValue negZeroDoc) ∧
    checkFilter noJson noMatch (vkZdoc :: fromValue negZeroDoc) (zeroFilter 0) [0x78] = true ∧
    candidates negZeroSnapshot 0 [] 1 (plan (zeroFilter 0) [] (indexedColl [0x61])) = [] := by
  refine ⟨negZeroSnapshot_consistent _ _, ?_, ?_, ?_⟩
  · decide +kernel
  · decide +kernel
  · decide +kernel

/-- A filter for the zero the document has finds it. -/
theorem negZero_found :
    checkFilter noJson noMatch (vkZdoc :: fromValue negZeroDoc) (zeroFilter 0x8000000000000000)
      [0x78] = true ∧
    ([0x78], some (vkZdoc :: fromValue negZeroDoc)) ∈ candidates negZeroSnapshot 0 [] 1
      (plan (zeroFilter 0x8000000000000000) [] (indexedColl [0x61])) := by
  have hm : checkFilter noJson noMatch (vkZdoc :: fromValue negZeroDoc)
      (zeroFilter 0x8000000000000000) [0x78] = true := by decide +kernel
  refine ⟨hm, ?_⟩
  have hget : negZeroSnapshot.get (docKey [] (indexedColl [0x61]).id [0x78]) 0 =
      some (vkZdoc :: fromValue negZeroDoc) := by decide +kernel
  refine ((planned_candidates (negZeroSnapshot_consistent noJson 0) (zeroFilter 0x8000000000000000)).1
    [0x78] _ negZeroDoc hget negZeroDoc_isBody rfl hm).mpr ?_
  refine ⟨fun f hf => ?_, fun f hf => ?_⟩
  · cases List.mem_singleton.mp hf
    rintro (⟨-, -, hlt⟩ | ⟨-, -, hlt⟩)
    · exact absurd hlt (by decide +kernel)
    · exact absurd hlt (by decide +kernel)
  · cases hf

end ZydecoDb
