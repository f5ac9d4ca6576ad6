import ZydecoDb.Document.Planner

namespace ZydecoDb

open Lib

def docIdFromDocKey (prefixLen : Nat) (key : Bytes) : Bytes := key.drop (prefixLen + 1 + 4)

def stripValueKind (stored : Bytes) : Bytes := stored.drop 1

section

open ZDocBuilder

-- the JSON parser, its error as a corrupt body is reported, and the regular expression engine
variable (parseJson : Bytes → DocResult Value) (isMatch : Bytes → Bool → Bytes → Bool)
  (snap : SnapshotHandle) (nowMs : Nat)

/-- The view a stored body is filtered by. Text kept from before the binary form is parsed and
re-encoded; text that does not parse is null. -/
def storedView (stored : Bytes) : ValueView :=
  if stored.headD vkZdoc = vkZdoc then stripValueKind stored
  else match parseJson (stripValueKind stored) with
    | .ok v => fromValue v
    | .error _ => fromValue .null

def withStoredView (stored : Bytes) : DocResult ValueView :=
  match stored with
  | [] => .error (.corrupt "empty stored document")
  | kind :: payload =>
    if kind = vkZdoc then .ok payload else (parseJson payload).map fromValue

theorem storedView_of_withStoredView {stored : Bytes} {view : ValueView}
    (h : withStoredView parseJson stored = .ok view) : storedView parseJson stored = view := by
  cases stored with
  | nil => simp [withStoredView] at h
  | cons kind payload =>
    simp only [withStoredView] at h
    unfold storedView stripValueKind
    split at h
    next hk =>
      cases h
      exact if_pos hk
    next hk =>
      rw [List.headD_cons, if_neg hk, List.drop_one, List.tail_cons]
      cases hp : parseJson payload with
      | error e =>
        rw [hp] at h
        cases h
      | ok v =>
        rw [hp] at h
        cases h
        rfl

def checkFilter (stored : Bytes) (filter : Filter) (docId : Bytes) : Bool :=
  filter.matches isMatch (storedView parseJson stored) (some docId)

def candidates (storagePrefix : Bytes) (collectionId : UInt32) :
    AccessPath → List (Bytes × Option Bytes)
  | .byId id =>
    match snap.get (docKey storagePrefix collectionId id) nowMs with
    | some stored => [(id, some stored)]
    | none => []
  | .indexScan lo hi _ _ _ =>
    (snap.scan lo hi nowMs).map fun entry =>
      (entry.2, snap.get (docKey storagePrefix collectionId entry.2) nowMs)
  | .collectionScan =>
    let lo := docPrefix storagePrefix collectionId
    (snap.scan lo (prefixUpperBound lo) nowMs).map fun entry =>
      (docIdFromDocKey storagePrefix.length entry.1, some entry.2)

structure MatchVisitStats where
  candidates : Nat
  matched : Nat
deriving DecidableEq, Repr

/-- The loop over the candidates: each is counted, and one that passes the whole filter is handed to
the visitor, which may stop the loop. -/
def visitCandidates {σ : Type} (filter : Filter) (maxCandidates : Nat)
    (visit : σ → Bytes → Bytes → DocResult (σ × Bool)) :
    List (Bytes × Option Bytes) → σ → MatchVisitStats → DocResult (σ × MatchVisitStats)
  | [], s, stats => .ok (s, stats)
  | (docId, body) :: rest, s, stats =>
    let stats := { stats with candidates := stats.candidates + 1 }
    if maxCandidates < stats.candidates then
      .error (.badFilter ("query scan exceeds " ++ toString maxCandidates ++ " candidate documents"))
    else match body with
      | none => visitCandidates filter maxCandidates visit rest s stats
      | some stored =>
        if checkFilter parseJson isMatch stored filter docId then
          let stats := { stats with matched := stats.matched + 1 }
          (visit s docId stored).bind fun (s, continues) =>
            if continues then visitCandidates filter maxCandidates visit rest s stats
            else .ok (s, stats)
        else visitCandidates filter maxCandidates visit rest s stats

def visitPlannedMatchesBoundedColl {σ : Type} (storagePrefix : Bytes) (coll : CollectionMeta)
    (filter : Filter) (maxCandidates : Nat) (visit : σ → Bytes → Bytes → DocResult (σ × Bool))
    (s : σ) : DocResult (σ × MatchVisitStats) :=
  visitCandidates parseJson isMatch filter maxCandidates visit
    (candidates snap nowMs storagePrefix coll.id (plan filter storagePrefix coll)) s ⟨0, 0⟩

end

end ZydecoDb
