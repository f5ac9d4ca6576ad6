import ZydecoDb.Document.Group
import ZydecoDb.FilterOnBytes

namespace ZydecoDb

open Lib ZDocBuilder ValueView

mutual

def reached : Value → List Bytes → List Value
  | v, [] => [v]
  | .object members, seg :: segs => reachedMember members seg segs
  | .array items, seg :: segs => reachedItems items (seg :: segs)
  | _, _ :: _ => []

def reachedItems : List Value → List Bytes → List Value
  | [], _ => []
  | v :: items, segs => reached v segs ++ reachedItems items segs

def reachedMember : List (Bytes × Value) → Bytes → List Bytes → List Value
  | [], _, _ => []
  | (key, v) :: members, seg, segs => if seg = key then reached v segs else reachedMember members seg segs

end

mutual

def intLeaves : Value → List Int
  | .number n => (n.asI64.map Int64.toInt).toList
  | .array items => itemLeaves items
  | _ => []

def itemLeaves : List Value → List Int
  | [] => []
  | v :: items => intLeaves v ++ itemLeaves items

end

mutual

def onlyInts : Value → Bool
  | .number n => n.asI64.isSome
  | .array items => allOnlyInts items
  | _ => false

def allOnlyInts : List Value → Bool
  | [] => true
  | v :: items => onlyInts v && allOnlyInts items

end

theorem reachedItems_eq (items : List Value) (segs : List Bytes) :
    reachedItems items segs = items.flatMap (reached · segs) := by
  induction items with
  | nil => rfl
  | cons v items ih => rw [reachedItems, ih, List.flatMap_cons]

theorem reachedMember_eq (members : List (Bytes × Value)) (seg : Bytes) (segs : List Bytes) :
    reachedMember members seg segs = match members.lookup seg with
      | some w => reached w segs
      | none => [] := by
  induction members with
  | nil => rfl
  | cons m members ih =>
    obtain ⟨key, v⟩ := m
    rw [reachedMember]
    by_cases h : seg = key
    · rw [if_pos h, h, List.lookup_cons_self]
    · rw [if_neg h, List.lookup_cons, beq_false_of_ne h, ih]

theorem itemLeaves_eq (items : List Value) : itemLeaves items = items.flatMap intLeaves := by
  induction items with
  | nil => rfl
  | cons v items ih => rw [itemLeaves, ih, List.flatMap_cons]

theorem allOnlyInts_iff (items : List Value) :
    allOnlyInts items = true ↔ ∀ w ∈ items, onlyInts w = true := by
  induction items with
  | nil => simp [allOnlyInts]
  | cons v items ih => rw [allOnlyInts, Bool.and_eq_true, ih, List.forall_mem_cons]

theorem valueDepth_reached {n : Nat} {v w : Value} {segs : List Bytes} (hn : valueDepth v ≤ n)
    (h : w ∈ reached v segs) : valueDepth w + segs.length ≤ valueDepth v := by
  induction n generalizing v segs with
  | zero =>
    have hpos := valueDepth_pos v
    omega
  | succ n ih =>
    cases segs with
    | nil =>
      rw [reached, List.mem_singleton] at h
      rw [h, List.length_nil, Nat.add_zero]
    | cons seg segs =>
      cases v with
      | array items =>
        rw [reached, reachedItems_eq, List.mem_flatMap] at h
        obtain ⟨u, hu, hw⟩ := h
        have hle := valueDepth_le_items hu
        rw [valueDepth] at hn ⊢
        have hrec := ih (by omega) hw
        omega
      | object members =>
        rw [reached, reachedMember_eq] at h
        cases hl : members.lookup seg with
        | none => simp [hl] at h
        | some u =>
          rw [hl] at h
          have hle : valueDepth u ≤ membersDepth members :=
            valueDepth_le_members (length_le_of_lookup hl).1
          rw [valueDepth] at hn ⊢
          have hrec := ih (by omega) h
          rw [List.length_cons]
          omega
      | _ => simp [reached] at h

section Walks

variable {σ τ : Type} {visit : ValueView → σ → DocResult σ} {visit' : Value → τ → DocResult τ}
  (ι : τ → σ)

def VisitsAs (visit : ValueView → σ → DocResult σ) (visit' : Value → τ → DocResult τ) (w : Value) :
    Prop :=
  w.Parsed → (encodeZDoc w).length < 2 ^ 32 → ∀ tail t,
    visit (encodeZDoc w ++ tail) (ι t) = (visit' w t).map ι

def visitAll (visit' : Value → τ → DocResult τ) : List Value → τ → DocResult τ
  | [], t => .ok t
  | w :: ws, t => (visit' w t).bind (visitAll visit' ws)

theorem visitAll_append (visit' : Value → τ → DocResult τ) (a b : List Value) (t : τ) :
    visitAll visit' (a ++ b) t = (visitAll visit' a t).bind (visitAll visit' b) := by
  induction a generalizing t with
  | nil => rfl
  | cons w a ih =>
    rw [List.cons_append, visitAll, visitAll]
    cases visit' w t with
    | error e => rfl
    | ok u => exact ih u

theorem visitAll_flatMap (visit' : Value → τ → DocResult τ) (f : Value → List Value)
    (ws : List Value) (t : τ) :
    visitAll visit' (ws.flatMap f) t = visitAll (fun w => visitAll visit' (f w)) ws t := by
  induction ws generalizing t with
  | nil => rfl
  | cons w ws ih =>
    rw [List.flatMap_cons, visitAll_append, visitAll]
    cases visitAll visit' (f w) t with
    | error e => rfl
    | ok u => exact ih u

theorem eachElement_eq {data : ValueView} {items : List Value} (hr : ReadsItems data items)
    (h : ∀ w ∈ items, VisitsAs ι visit visit' w) {n i : Nat} (hn : n + i = items.length) (t : τ) :
    eachElement visit data n i (ι t) = (visitAll visit' (items.drop i) t).map ι := by
  induction n generalizing i t with
  | zero =>
    have hnil : items.drop i = [] := List.drop_eq_nil_of_le (by omega)
    rw [hnil]
    rfl
  | succ n ih =>
    have hi : i < items.length := by omega
    have hget := List.getElem?_eq_getElem hi
    obtain ⟨hw, hlen, tail, htail⟩ := hr.item i _ hget
    have hvisit := h _ (List.mem_of_getElem? hget) hw hlen tail t
    rw [List.drop_eq_getElem_cons hi, visitAll, eachElement, htail]
    simp only [hvisit]
    cases visit' items[i] t with
    | error e => rfl
    | ok u => exact ih (by omega) u

/-- The walk over the bytes visits what the path reaches in the value. -/
theorem forEachAtPath_eq {levels : Nat} {v : Value} {segs : List Bytes} (hv : v.Parsed)
    (hlen : (encodeZDoc v).length < 2 ^ 32) (hd : valueDepth v ≤ levels)
    (h : ∀ w ∈ reached v segs, VisitsAs ι visit visit' w) (tail : Bytes) (t : τ) :
    forEachAtPath visit levels segs (encodeZDoc v ++ tail) (ι t) =
      (visitAll visit' (reached v segs) t).map ι := by
  induction levels generalizing v segs tail t with
  | zero =>
    have hpos := valueDepth_pos v
    omega
  | succ levels ih =>
    cases segs with
    | nil =>
      have hself := h v (by rw [reached]; exact List.mem_singleton.mpr rfl) hv hlen tail t
      rw [forEachAtPath, hself, reached, visitAll]
      cases visit' v t <;> rfl
    | cons seg segs =>
      cases v with
      | array items =>
        have htag : typeByte (encodeZDoc (.array items) ++ tail) = typeArray := rfl
        have hr := readsItems_encodeZDoc hv hlen tail
        have hitem : ∀ w ∈ items, VisitsAs ι (forEachAtPath visit levels (seg :: segs))
            (fun w => visitAll visit' (reached w (seg :: segs))) w := by
          intro w hw hparsed hsize rest u
          have hle := valueDepth_le_items hw
          rw [valueDepth] at hd
          refine ih hparsed hsize (by omega) (fun x hx => h x ?_) rest u
          rw [reached, reachedItems_eq, List.mem_flatMap]
          exact ⟨w, hw, hx⟩
        have heach := eachElement_eq ι hr hitem (n := items.length) (i := 0) (by omega) t
        rw [forEachAtPath, htag, if_neg (by decide), if_pos rfl, hr.count, Option.getD_some, heach,
          List.drop_zero, reached, reachedItems_eq, visitAll_flatMap]
      | object members =>
        have htag : typeByte (encodeZDoc (.object members) ++ tail) = typeObject := by
          rw [encodeZDoc]
          rfl
        cases hv with
        | object hk hs hm =>
          rw [encodeZDoc_object hs] at hlen htag ⊢
          obtain ⟨rest, hget⟩ := objectGet_layout hk hs hlen tail seg
          rw [forEachAtPath, if_pos htag, hget, reached, reachedMember_eq]
          cases hl : members.lookup seg with
          | none => rfl
          | some u =>
            obtain ⟨hmem, hsize⟩ := length_le_of_lookup hl
            have hle : valueDepth u ≤ membersDepth members := valueDepth_le_members hmem
            have hu : u.Parsed := hm _ hmem
            rw [valueDepth] at hd
            refine ih hu (by omega) (by omega) (fun x hx => h x ?_) rest t
            rw [reached, reachedMember_eq, hl]
            exact hx
      | number n =>
        rcases typeByte_number n tail with htag | htag <;>
          simp only [forEachAtPath, htag, reached] <;> rfl
      | bool b => cases b <;> rfl
      | null => rfl
      | string s => rfl

end Walks

end ZydecoDb
