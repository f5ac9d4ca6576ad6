import ZydecoDb.Document.Collection
import ZydecoDb.Document.Join

namespace ZydecoDb

open Lib ZDocBuilder ValueView

def joinField (v : Value) (path : Bytes) : Option Value :=
  (atSegments (path.splitOn 0x2E) v).bind fun u => if u.isScalar then some u else none

theorem indexValue_of_joinField {v u : Value} {path : Bytes} (h : joinField v path = some u) :
    extractPath v path = u := by
  obtain ⟨w, hw, hu⟩ := Option.bind_eq_some_iff.mp h
  obtain ⟨-, ⟨⟩⟩ := Option.ite_none_right_eq_some.mp hu
  rw [extractPath, extractSegments_eq, hw]
  rfl

theorem joinField_isSome {v : Value} {path : Bytes} (h : (extractPath v path).indexValue ≠ .null) :
    (joinField v path).isSome = true := by
  rw [extractPath, extractSegments_eq] at h
  unfold joinField
  cases hl : atSegments (path.splitOn 0x2E) v with
  | none => exact absurd (by rw [hl]; rfl) h
  | some u =>
    rw [hl, Option.getD_some] at h
    cases u with
    | array items => exact absurd rfl h
    | object members => exact absurd rfl h
    | _ => rfl

theorem viewToScalar_encodeZDoc {u : Value} (hu : u.Storable)
    (hlen : (encodeZDoc u).length < 2 ^ 32) (tail : Bytes) :
    viewToScalar (encodeZDoc u ++ tail) = .ok (if u.isScalar then some u else none) := by
  cases hu with
  | null => rfl
  | bool b => cases b <;> rfl
  | @number n h =>
    rw [encodeZDoc]
    rcases writeNumber_cases h with ⟨i, hw, hi⟩ | ⟨bits, -, hfin, hw⟩
    · have htag : typeByte (typeI64 :: toLe 8 i.toUInt64.toNat ++ tail) = typeI64 := rfl
      rw [hw]
      simp only [viewToScalar, htag, asI64_layout, hi]
      rfl
    · have htag : typeByte (typeF64 :: toLe 8 bits.toNat ++ tail) = typeF64 := rfl
      rw [hw]
      simp only [viewToScalar, htag, asF64_layout, hfin]
      rfl
  | @string s h =>
    have hread : asStr (encodeZDoc (.string s) ++ tail) = some s := by
      rw [encodeZDoc, List.length_cons, List.length_append] at hlen
      exact asStr_layout h (by omega) tail
    have htag : typeByte (encodeZDoc (.string s) ++ tail) = typeString := rfl
    simp only [viewToScalar, htag, hread]
    rfl
  | array h => rfl
  | object hk hs h => rfl

theorem isScalar_of_viewToScalar {v : ValueView} {u : Value} (h : viewToScalar v = .ok (some u)) :
    u.isScalar = true := by
  unfold viewToScalar at h
  dsimp only at h
  split at h
  next => cases h; rfl
  next =>
    split at h
    next => cases h; rfl
    next =>
      split at h
      next => cases h; rfl
      next =>
        split at h
        next => split at h <;> cases h; rfl
        next =>
          split at h
          next =>
            split at h
            next bits _ =>
              obtain ⟨n, -, rfl⟩ := Option.map_eq_some_iff.mp (Except.ok.inj h)
              rfl
            next => cases h
          next =>
            split at h
            next => split at h <;> cases h; rfl
            next => cases h

section

variable {parseJson : Bytes → DocResult Value} {stored : Bytes} {v : Value} (hv : v.IsBody)
  (hview : withStoredView parseJson stored = .ok (fromValue v))

include hview in
theorem storedToDoc_ok (hv : v.IsBody) (docId : Bytes) :
    ∃ doc, storedToDoc parseJson stored docId = .ok doc := by
  cases stored with
  | nil => simp [withStoredView] at hview
  | cons kind payload =>
    simp only [withStoredView] at hview
    simp only [storedToDoc]
    split at hview
    next hk =>
      cases Except.ok.inj hview
      rw [if_pos hk, hv.toValue_fromValue]
      exact ⟨_, rfl⟩
    next hk =>
      rw [if_neg hk]
      cases hp : parseJson payload with
      | error e =>
        rw [hp] at hview
        cases hview
      | ok u => exact ⟨_, rfl⟩

include hv hview in
theorem localJoinValue_eq (path : Bytes) :
    localJoinValue parseJson stored path = .ok (joinField v path) := by
  have hfetch : (if stored.head? = some vkZdoc then .ok (stripValueKind stored)
      else (parseJson (stripValueKind stored)).map fromValue) = .ok (fromValue v) := by
    cases stored with
    | nil => simp [withStoredView] at hview
    | cons kind payload =>
      simp only [withStoredView] at hview
      simpa [stripValueKind] using hview
  have hsize := hv.size
  unfold localJoinValue joinField
  simp only [hfetch]
  rw [fromValue_eq] at hsize ⊢
  dsimp only [Except.bind, getPath]
  generalize path.splitOn 0x2E = segs
  obtain ⟨tail, hget⟩ := getSegments_encodeZDoc hv.storable hsize []
  rw [List.append_nil] at hget
  rw [hget]
  cases hl : atSegments segs v with
  | none => rfl
  | some u =>
    obtain ⟨hst, hlen, -⟩ := atSegments_part hv.storable hl
    exact viewToScalar_encodeZDoc hst (by omega) tail

end

section Lists

variable (parseJson : Bytes → DocResult Value) (isMatch : Bytes → Bool → Bytes → Bool)

def matched (filter : Filter) (cands : List (Bytes × Option Bytes)) : List (Bytes × Bytes) :=
  cands.filterMap fun c => c.2.bind fun stored =>
    if checkFilter parseJson isMatch stored filter c.1 then some (c.1, stored) else none

def attached (e : Bytes × Bytes) : Value := ((storedToDoc parseJson e.2 e.1).toOption).getD .null

variable {parseJson isMatch}

theorem mem_matched {filter : Filter} {cands : List (Bytes × Option Bytes)} {id stored : Bytes} :
    (id, stored) ∈ matched parseJson isMatch filter cands ↔
      (id, some stored) ∈ cands ∧ checkFilter parseJson isMatch stored filter id = true := by
  rw [matched, List.mem_filterMap]
  constructor
  · rintro ⟨⟨id', body⟩, hmem, heq⟩
    obtain ⟨stored', rfl, heq⟩ := Option.bind_eq_some_iff.mp heq
    split at heq
    next hf =>
      obtain ⟨rfl, rfl⟩ := Prod.mk.inj (Option.some.inj heq)
      exact ⟨hmem, hf⟩
    next => simp at heq
  · rintro ⟨hmem, hf⟩
    exact ⟨(id, some stored), hmem, by simp [hf]⟩

section Cons

variable {filter : Filter} {id stored : Bytes} (cands : List (Bytes × Option Bytes))

theorem matched_cons_none :
    matched parseJson isMatch filter ((id, none) :: cands) = matched parseJson isMatch filter cands :=
  rfl

theorem matched_cons_of_check (h : checkFilter parseJson isMatch stored filter id = true) :
    matched parseJson isMatch filter ((id, some stored) :: cands) =
      (id, stored) :: matched parseJson isMatch filter cands := by
  simp [matched, h]

theorem matched_cons_of_not (h : ¬ checkFilter parseJson isMatch stored filter id = true) :
    matched parseJson isMatch filter ((id, some stored) :: cands) =
      matched parseJson isMatch filter cands := by
  simp [matched, h]

end Cons

theorem nodup_matched {filter : Filter} {cands : List (Bytes × Option Bytes)}
    (h : (cands.map Prod.fst).Nodup) : (matched parseJson isMatch filter cands).Nodup := by
  have hsub : ((matched parseJson isMatch filter cands).map Prod.fst).Sublist (cands.map Prod.fst) := by
    clear h
    induction cands with
    | nil => exact List.Sublist.slnil
    | cons c cands ih =>
      rw [matched, List.filterMap_cons]
      split
      next => exact ih.cons _
      next e he =>
        obtain ⟨stored, -, heq⟩ := Option.bind_eq_some_iff.mp he
        obtain ⟨-, ⟨⟩⟩ := Option.ite_none_right_eq_some.mp heq
        exact ih.cons_cons _
  exact (h.sublist hsub).of_map _

section Loops

variable {snap : SnapshotHandle} {nowMs : Nat} {storagePrefix : Bytes} {inner : CollectionMeta}
  (hbodies : ∀ id stored, snap.get (docKey storagePrefix inner.id id) nowMs = some stored →
    ∃ v : Value, v.IsBody ∧ withStoredView parseJson stored = .ok (fromValue v))

include hbodies

theorem fetchInnerLoop_spec (isMatch : Bytes → Bool → Bytes → Bool) (filter : Filter) (maxMatches : Nat) (ids : List Bytes)
    (docs : List Value) :
    fetchInnerLoop parseJson isMatch snap nowMs storagePrefix inner filter maxMatches ids docs =
        .ok (docs ++ (matched parseJson isMatch filter (ids.map fun id =>
          (id, snap.get (docKey storagePrefix inner.id id) nowMs))).map (attached parseJson)) ∨
      ∃ msg, fetchInnerLoop parseJson isMatch snap nowMs storagePrefix inner filter maxMatches ids
        docs = .error (.badFilter msg) := by
  induction ids generalizing docs with
  | nil => exact Or.inl (by simp [fetchInnerLoop, matched])
  | cons id ids ih =>
    rw [List.map_cons]
    simp only [fetchInnerLoop]
    cases hget : snap.get (docKey storagePrefix inner.id id) nowMs with
    | none =>
      rw [matched_cons_none]
      exact ih docs
    | some stored =>
      obtain ⟨v, hv, hview⟩ := hbodies id stored hget
      obtain ⟨doc, hdoc⟩ := storedToDoc_ok hview hv id
      have hcheck : checkFilter parseJson isMatch stored filter id =
          filter.matches isMatch (fromValue v) (some id) := by
        rw [checkFilter, storedView_of_withStoredView parseJson hview]
      have hatt : attached parseJson (id, stored) = doc := by
        rw [attached, hdoc]
        rfl
      simp only [hview, Except.bind]
      split
      next hm =>
        rw [← hcheck] at hm
        split
        next => exact Or.inr ⟨_, rfl⟩
        next =>
          rw [matched_cons_of_check _ hm, List.map_cons, hatt, List.append_cons]
          simp only [hdoc]
          exact ih (docs ++ [doc])
      next hm =>
        rw [← hcheck] at hm
        rw [matched_cons_of_not _ hm]
        exact ih docs

end Loops

def joinKey (parseJson : Bytes → DocResult Value) (spec : LookupSpec) (e : Bytes × Bytes) :
    Option Bytes :=
  ((foreignJoinValue parseJson spec e.1 e.2).toOption.join).map encodeJoinKey

section Hash

variable {spec : LookupSpec} (limits : AggregationLimits)

theorem addToHashSide_spec (state : HashSide × Nat) {id stored : Bytes} {value : Option Value}
    (hvalue : foreignJoinValue parseJson spec id stored = .ok value) :
    (∃ next, addToHashSide parseJson spec limits state id stored = .ok (next, true) ∧
      ∀ key, (next.1.get key).getD [] = (state.1.get key).getD [] ++
        if joinKey parseJson spec (id, stored) = some key then [(id, stored)] else []) ∨
    ∃ msg, addToHashSide parseJson spec limits state id stored = .error (.badFilter msg) := by
  have hkey : joinKey parseJson spec (id, stored) = value.map encodeJoinKey := by
    rw [joinKey, hvalue]
    rfl
  rw [hkey]
  simp only [addToHashSide, hvalue, Except.bind]
  cases value with
  | none => exact Or.inl ⟨state, rfl, fun key => by simp⟩
  | some v =>
    dsimp only
    generalize state.2 + (hashEntryOverhead + stored.length + id.length +
      if state.1.contains (encodeJoinKey v) then 0 else (encodeJoinKey v).length) = bytes
    split
    next => exact Or.inr ⟨_, rfl⟩
    next =>
      refine Or.inl ⟨_, rfl, fun key => ?_⟩
      simp only [SortedMap.get_insert, Option.map_some, Option.some.injEq]
      by_cases hk : key = encodeJoinKey v
      · rw [if_pos hk, if_pos hk.symm, hk]
        rfl
      · rw [if_neg hk, if_neg fun h => hk h.symm, List.append_nil]

theorem visit_addToHashSide_spec (isMatch : Bytes → Bool → Bytes → Bool) (filter : Filter)
    (maxCandidates : Nat)
    {cands : List (Bytes × Option Bytes)}
    (hvalues : ∀ id stored, (id, some stored) ∈ cands →
      ∃ value, foreignJoinValue parseJson spec id stored = .ok value)
    (state : HashSide × Nat) (stats : MatchVisitStats) :
    (∃ next stats', visitCandidates parseJson isMatch filter maxCandidates
        (addToHashSide parseJson spec limits) cands state stats = .ok (next, stats') ∧
      ∀ key, (next.1.get key).getD [] = (state.1.get key).getD [] ++
        (matched parseJson isMatch filter cands).filter fun e => joinKey parseJson spec e = some key) ∨
    ∃ msg, visitCandidates parseJson isMatch filter maxCandidates
      (addToHashSide parseJson spec limits) cands state stats = .error (.badFilter msg) := by
  induction cands generalizing state stats with
  | nil => exact Or.inl ⟨state, stats, rfl, fun key => by simp [matched]⟩
  | cons c cands ih =>
    obtain ⟨id, body⟩ := c
    have hrest : ∀ id stored, (id, some stored) ∈ cands →
        ∃ value, foreignJoinValue parseJson spec id stored = .ok value :=
      fun i s hm => hvalues i s (List.mem_cons_of_mem _ hm)
    simp only [visitCandidates]
    split
    next => exact Or.inr ⟨_, rfl⟩
    next =>
      cases body with
      | none =>
        rw [matched_cons_none]
        exact ih hrest state _
      | some stored =>
        simp only
        split
        next hm =>
          rw [matched_cons_of_check _ hm]
          obtain ⟨value, hvalue⟩ := hvalues id stored List.mem_cons_self
          rcases addToHashSide_spec limits state hvalue with ⟨next, hadd, hnext⟩ | ⟨msg, hadd⟩
          · simp only [hadd, Except.bind, if_true]
            rcases ih hrest next _ with ⟨last, stats', hvisit, hlast⟩ | hvisit
            · refine Or.inl ⟨last, stats', hvisit, fun key => ?_⟩
              rw [hlast key, hnext key, List.append_assoc, List.filter_cons]
              congr 1
              by_cases hk : joinKey parseJson spec (id, stored) = some key
              · simp [hk]
              · simp [hk]
            · exact Or.inr hvisit
          · exact Or.inr ⟨msg, by simp only [hadd, Except.bind]⟩
        next hm =>
          rw [matched_cons_of_not _ hm]
          exact ih hrest state _

end Hash

end Lists

end ZydecoDb
