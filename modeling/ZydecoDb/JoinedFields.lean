import ZydecoDb.Document.GroupValues
import ZydecoDb.Document.Join
import ZydecoDb.Lib.TextLines

namespace ZydecoDb

open Lib ZDocBuilder ValueView

def validPath (path : Bytes) : Bool :=
  path ≠ [] && (path.splitOn 0x2E).all fun segment => segment ≠ [] && segment.head? ≠ some 0x24

def joinedDoc (asField : Bytes) (inners : List Value) (members : List (Bytes × Value)) : Value :=
  .object (insertPair asField (.array inners) members)

theorem spliceMatches_eq {parseJson : Bytes → DocResult Value} {isMatch : Bytes → Bool → Bytes → Bool}
    {jsonLen : Value → Nat} {spec : LookupSpec} {stored docId : Bytes} {members : List (Bytes × Value)}
    (h : storedToDoc parseJson stored docId = .ok (.object members)) (postFilter : Filter)
    (inners : List Value) (maxMemoryBytes : Nat) (state : List Value × Nat) :
    spliceMatches parseJson isMatch jsonLen spec postFilter stored docId inners maxMemoryBytes state =
      if !postFilter.matches isMatch (fromValue (joinedDoc spec.asField inners members)) (some docId)
      then .ok state
      else if maxMemoryBytes < state.2 + jsonLen (joinedDoc spec.asField inners members) then
        .error (lookupError ("join state exceeds " ++ toString maxMemoryBytes ++ " bytes"))
      else .ok (state.1 ++ [joinedDoc spec.asField inners members],
        state.2 + jsonLen (joinedDoc spec.asField inners members)) := by
  rw [spliceMatches, h]
  rfl

/-- In the joined document the group keys, the accumulators and the filter after the join find the
array of matches at the path of the stage, and every other field as in the outer document. -/
structure UsableJoin (asField docId : Bytes) (inners : List Value) (members : List (Bytes × Value)) :
    Prop where
  groupKey : FieldView (getPath (fromValue (joinedDoc asField inners members)) asField)
    (some (.array inners))
  accumulators : reached (joinedDoc asField inners members) (asField.splitOn 0x2E) = [.array inners]
  filter : ∀ isMatch atoms, (Filter.field asField atoms).matches isMatch
    (fromValue (joinedDoc asField inners members)) (some docId) =
      atomsHold isMatch atoms (some (.array inners))
  others : ∀ path seg segs, path.splitOn 0x2E = seg :: segs → seg ≠ asField →
    FieldView (getPath (fromValue (joinedDoc asField inners members)) path)
      (atSegments (path.splitOn 0x2E) (.object members)) ∧
    reached (joinedDoc asField inners members) (path.splitOn 0x2E) =
      reached (.object members) (path.splitOn 0x2E)

variable {asField docId : Bytes} {inners : List Value} {members : List (Bytes × Value)}

theorem parsed_joinedDoc (hutf : validUtf8 asField = true) (hm : (Value.object members).Parsed)
    (hin : ∀ v ∈ inners, v.Parsed) : (joinedDoc asField inners members).Parsed := by
  cases hm with
  | object keys sorted values =>
    refine .object (fun m hmem => ?_) (sorted_insertPair sorted) fun m hmem => ?_
    · rcases mem_insertPair hmem with hnew | hold
      · rw [hnew]
        exact hutf
      · exact keys m hold
    · rcases mem_insertPair hmem with hnew | hold
      · rw [hnew]
        exact .array hin
      · exact values m hold

theorem atSegments_joinedDoc (seg : Bytes) (segs : List Bytes) :
    atSegments (seg :: segs) (joinedDoc asField inners members) =
      if seg = asField then atSegments segs (.array inners)
      else atSegments (seg :: segs) (.object members) := by
  rw [joinedDoc, atSegments, atSegments, SortedMap.lookup_insertPair]
  split
  next => rw [Option.bind_some]
  next => rfl

theorem reached_joinedDoc (seg : Bytes) (segs : List Bytes) :
    reached (joinedDoc asField inners members) (seg :: segs) =
      if seg = asField then reached (.array inners) segs
      else reached (.object members) (seg :: segs) := by
  rw [joinedDoc, reached, reached, reachedMember_eq, reachedMember_eq, SortedMap.lookup_insertPair]
  by_cases h : seg = asField
  · rw [if_pos h, if_pos h]
  · rw [if_neg h, if_neg h]

theorem usableJoin_of_plain (hdot : (0x2E : UInt8) ∉ asField) (hid : asField ≠ idField)
    (hutf : validUtf8 asField = true) (hm : (Value.object members).Parsed)
    (hin : ∀ v ∈ inners, v.Parsed)
    (hlen : (encodeZDoc (joinedDoc asField inners members)).length < 2 ^ 32) :
    UsableJoin asField docId inners members := by
  have hsplit : asField.splitOn 0x2E = [asField] := List.splitOn_eq_singleton hdot
  have hview := fieldView_getPath (parsed_joinedDoc hutf hm hin) hlen []
  rw [List.append_nil, ← fromValue_eq] at hview
  have hhere : FieldView (getPath (fromValue (joinedDoc asField inners members)) asField)
      (some (.array inners)) := by
    have hpath := hview asField
    rwa [hsplit, atSegments_joinedDoc, if_pos rfl] at hpath
  refine ⟨hhere, ?_, fun isMatch atoms => ?_, fun path seg segs hpath hne => ⟨?_, ?_⟩⟩
  · rw [hsplit, reached_joinedDoc, if_pos rfl, reached]
  · rw [Filter.matches, if_neg hid, atomsMatch_eq isMatch atoms hhere]
  · have hother := hview path
    rwa [hpath, atSegments_joinedDoc, if_neg hne, ← hpath] at hother
  · rw [hpath, reached_joinedDoc, if_neg hne]

theorem FieldView.none_left {fv : Option ValueView} (h : FieldView fv none) : fv = none := by
  cases h with
  | missing => rfl

def bareMembers : List (Bytes × Value) := [(idField, .string [])]

theorem parsed_bareMembers : (Value.object bareMembers).Parsed :=
  .object (List.forall_mem_singleton.mpr rfl) (List.pairwise_singleton _ _)
    (List.forall_mem_singleton.mpr (.string rfl))

theorem length_joined_bareMembers (hlen : asField.length < 2 ^ 31) :
    (encodeZDoc (joinedDoc asField [] bareMembers)).length < 2 ^ 32 := by
  have hsorted := sorted_insertPair (k := asField) (v := Value.array [])
    (l := bareMembers) (List.pairwise_singleton _ _)
  have hitems : (encodeZDoc (.array [])).length = 9 := rfl
  have hid : (encodeZDoc (.string [])).length = 5 := rfl
  have hname : idField.length = 3 := rfl
  rw [joinedDoc, encodeZDoc_object hsorted, objectLayout_eq, List.length_append, length_objectHead]
  simp only [bareMembers, insertPair]
  split
  · simp [laidOut, entryLayout, hitems, hid, hname]
    omega
  · split <;> simp [laidOut, entryLayout, hitems, hid, hname] <;> omega

theorem not_usableJoin_of_dot (hdot : (0x2E : UInt8) ∈ asField) (hutf : validUtf8 asField = true)
    (hlen : asField.length < 2 ^ 31) : ¬ UsableJoin asField docId [] bareMembers := by
  intro h
  obtain ⟨seg, rest, happ, hseg⟩ := List.eq_append_cons_of_mem hdot
  obtain ⟨seg₂, segs, hrest⟩ := List.exists_cons_of_ne_nil (List.splitOn_ne_nil (0x2E : UInt8) rest)
  have hsplit : asField.splitOn 0x2E = seg :: seg₂ :: segs := by
    rw [happ, splitOn_append_cons hseg, hrest]
  have hne : seg ≠ asField := by
    intro heq
    rw [← heq] at hdot
    exact hseg hdot
  have hnone : atSegments (asField.splitOn 0x2E) (joinedDoc asField [] bareMembers) = none := by
    rw [hsplit, atSegments_joinedDoc, if_neg hne, bareMembers, atSegments,
      SortedMap.lookup_cons_eq_ite]
    split <;> rfl
  have hparsed : (joinedDoc asField [] bareMembers).Parsed :=
    parsed_joinedDoc hutf parsed_bareMembers fun _ hv => by cases hv
  have hview := fieldView_getPath hparsed (length_joined_bareMembers hlen) [] asField
  rw [hnone, List.append_nil, ← fromValue_eq] at hview
  have hfound := h.groupKey
  rw [hview.none_left] at hfound
  cases hfound

theorem not_usableJoin_id : ¬ UsableJoin idField docId inners members := by
  intro h
  have hfilter := h.filter (fun _ _ _ => false) [.type .string]
  cases hfilter

/-- A joined field is usable by the later stages, whatever the outer document and its matches, exactly
when its path has no dot and is not the id. -/
theorem joined_field_usable_iff (asField : Bytes) (hutf : validUtf8 asField = true)
    (hlen : asField.length < 2 ^ 31) :
    (∀ (docId : Bytes) (members : List (Bytes × Value)) (inners : List Value),
      (Value.object members).Parsed → (members.lookup idField).isSome → (∀ v ∈ inners, v.Parsed) →
      (encodeZDoc (joinedDoc asField inners members)).length < 2 ^ 32 →
      UsableJoin asField docId inners members) ↔
    (0x2E : UInt8) ∉ asField ∧ asField ≠ idField := by
  constructor
  · intro hall
    have hbare := hall [] bareMembers [] parsed_bareMembers rfl (fun _ hv => by cases hv)
      (length_joined_bareMembers hlen)
    refine ⟨fun hdot => not_usableJoin_of_dot hdot hutf hlen hbare, fun hid => ?_⟩
    subst hid
    exact not_usableJoin_id hbare
  · rintro ⟨hdot, hid⟩ docId members inners hm - hin hsize
    exact usableJoin_of_plain hdot hid hutf hm hin hsize

/-- The field hits. -/
theorem joined_hits_usable :
    validPath [0x68, 0x69, 0x74, 0x73] = true ∧
    UsableJoin [0x68, 0x69, 0x74, 0x73] [0x37] [.bool true] bareMembers := by
  refine ⟨rfl, (joined_field_usable_iff [0x68, 0x69, 0x74, 0x73] rfl (by decide)).mpr
    ⟨by decide, by decide⟩ [0x37] bareMembers [.bool true] parsed_bareMembers rfl ?_ (by decide)⟩
  exact List.forall_mem_singleton.mpr (.bool true)

/-- The path a.b is accepted, and the array is stored under that name as it stands: no later stage
finds it. -/
theorem dotted_join_unusable :
    validPath [0x61, 0x2E, 0x62] = true ∧
    getPath (fromValue (joinedDoc [0x61, 0x2E, 0x62] [.bool true] bareMembers)) [0x61, 0x2E, 0x62] =
      none ∧
    ¬ UsableJoin [0x61, 0x2E, 0x62] [0x37] [.bool true] bareMembers := by
  have hnone : getPath (fromValue (joinedDoc [0x61, 0x2E, 0x62] [.bool true] bareMembers))
      [0x61, 0x2E, 0x62] = none := by decide
  refine ⟨rfl, hnone, fun h => ?_⟩
  have hfound := h.groupKey
  rw [hnone] at hfound
  cases hfound

end ZydecoDb
