import ZydecoDb.Document.Planner

namespace ZydecoDb

open Lib

section Bounds

variable {p q k : Bytes}

theorem below_prefixUpperBound (h : k < p) : prefixUpperBound p = [] ∨ k < prefixUpperBound p := by
  have hself := (prefix_iff_prefixUpperBound p p).mp List.prefix_rfl
  exact hself.2.imp_right h.trans

theorem prefix_of_longer_bounds (hlo : p ≤ k)
    (hhi : prefixUpperBound (p ++ q) = [] ∨ k < prefixUpperBound (p ++ q)) : p <+: k := by
  by_contra hout
  have hnot := mt (fun h => (prefix_iff_prefixUpperBound p k).mpr ⟨hlo, h⟩) hout
  obtain ⟨hne, hle⟩ := not_or.mp hnot
  have hlong : p <+: p ++ q := List.prefix_append p q
  have hin := ((prefix_iff_prefixUpperBound p (p ++ q)).mp hlong).2.resolve_left hne
  have hprefix : p ++ q <+: k := by
    refine (prefix_iff_prefixUpperBound (p ++ q) k).mpr ⟨?_, hhi⟩
    exact (hin.trans_le (not_lt.mp hle)).le
  exact hout (hlong.trans hprefix)

theorem le_of_startsWith (h : p <+: k) : p ≤ k := ((prefix_iff_prefixUpperBound p k).mp h).1

end Bounds

def directedOrder (ascending : Bool) (a b : IndexValue) : Ordering :=
  if ascending then a.order b else (a.order b).swap

theorem directedOrder_swap (ascending : Bool) (a b : IndexValue) :
    (directedOrder ascending a b).swap = directedOrder ascending b a := by
  cases ascending with
  | true => exact IndexValue.order_swap a b
  | false =>
    show (a.order b).swap.swap = (b.order a).swap
    rw [IndexValue.order_swap]

section Directed

variable {ascending : Bool} {v w : Value}

theorem encodeValueDirected_of_eq (h : directedOrder ascending v.indexValue w.indexValue = .eq) :
    encodeValueDirected v ascending = encodeValueDirected w ascending := by
  have hfield : v.indexValue = w.indexValue := by
    cases ascending with
    | true => exact IndexValue.eq_of_order h
    | false => exact IndexValue.eq_of_order (Ordering.swap_eq_eq.mp h)
  have hsame : encodeValueDirected v ascending ++ [] = encodeValueDirected w ascending ++ [] :=
    encodeValueDirected_append_inj.mpr ⟨hfield, rfl⟩
  simpa using hsame

theorem firstLess_of_directedOrder
    (h : directedOrder ascending v.indexValue w.indexValue = .lt) :
    FirstLess (encodeValueDirected v ascending) (encodeValueDirected w ascending) :=
  firstLess_encodeValueDirected h

theorem directedOrder_gt (h : directedOrder ascending v.indexValue w.indexValue = .gt) :
    directedOrder ascending w.indexValue v.indexValue = .lt := by
  rw [← directedOrder_swap, h]
  rfl

theorem lower_bound_iff (base rest : Bytes) :
    base ++ encodeValueDirected v ascending ≤ base ++ (encodeValueDirected w ascending ++ rest) ↔
      directedOrder ascending v.indexValue w.indexValue ≠ .gt := by
  cases h : directedOrder ascending v.indexValue w.indexValue with
  | lt =>
    have hless := ((firstLess_of_directedOrder h).append [] rest).prepend base
    rw [List.append_nil] at hless
    exact iff_of_true hless.lt.le (by simp)
  | eq =>
    rw [encodeValueDirected_of_eq h, ← List.append_assoc]
    exact iff_of_true (le_of_startsWith (List.prefix_append _ _)) (by simp)
  | gt =>
    have hless := ((firstLess_of_directedOrder (directedOrder_gt h)).append rest []).prepend base
    rw [List.append_nil] at hless
    exact iff_of_false (not_le.mpr hless.lt) (by simp)

theorem upper_bound_iff (base rest : Bytes) :
    (prefixUpperBound (base ++ encodeValueDirected w ascending) = [] ∨
      base ++ (encodeValueDirected v ascending ++ rest) <
        prefixUpperBound (base ++ encodeValueDirected w ascending)) ↔
      directedOrder ascending v.indexValue w.indexValue ≠ .gt := by
  cases h : directedOrder ascending v.indexValue w.indexValue with
  | lt =>
    have hless := ((firstLess_of_directedOrder h).append rest []).prepend base
    rw [List.append_nil] at hless
    exact iff_of_true (below_prefixUpperBound hless.lt) (by simp)
  | eq =>
    rw [encodeValueDirected_of_eq h, ← List.append_assoc]
    refine iff_of_true ?_ (by simp)
    exact ((prefix_iff_prefixUpperBound _ _).mp (List.prefix_append _ rest)).2
  | gt =>
    have hfirst := firstLess_of_directedOrder (directedOrder_gt h)
    have hless := (hfirst.append [] rest).prepend base
    rw [List.append_nil] at hless
    refine iff_of_false (fun hup => ?_) (by simp)
    have hprefix := (prefix_iff_prefixUpperBound _ _).mpr ⟨hless.lt.le, hup⟩
    rw [List.prefix_append_right_inj] at hprefix
    obtain ⟨tail, htail⟩ := hprefix
    have hlt := (hfirst.append tail rest).lt
    rw [htail] at hlt
    exact lt_irrefl _ hlt

end Directed

theorem encodeFieldsWithDirections_split (n : Nat) (vs : List Value) (directions : List Bool) :
    encodeFieldsWithDirections vs directions =
      encodeFieldsWithDirections (vs.take n) (directions.take n) ++
        encodeFieldsWithDirections (vs.drop n) (directions.drop n) := by
  induction n generalizing vs directions with
  | zero => rfl
  | succ n ih =>
    cases vs with
    | nil => rfl
    | cons v vs =>
      have hhead : (directions.take (n + 1)).headD true = directions.headD true := by
        cases directions <;> rfl
      have htake : (directions.take (n + 1)).tail = directions.tail.take n := by
        cases directions <;> simp
      have hdrop : directions.drop (n + 1) = directions.tail.drop n := by
        cases directions <;> simp
      simp only [List.take_succ_cons, List.drop_succ_cons, encodeFieldsWithDirections]
      rw [hhead, htake, hdrop, List.append_assoc, ← ih vs directions.tail]

def Constraint.InBounds (c : Constraint) (w : Value) : Prop :=
  (∀ l, c.lo = some l → l.indexValue.order w.indexValue ≠ .gt) ∧
    ∀ h, c.hi = some h → w.indexValue.order h.indexValue ≠ .gt

theorem directedOrder_desc_ne_gt {a b : IndexValue} :
    directedOrder false a b ≠ .gt ↔ b.order a ≠ .gt := by
  rw [← IndexValue.order_swap a b]
  exact Iff.rfl

theorem mem_rangeBounds {base rest : Bytes} {ascending : Bool} {c : Constraint} {w : Value} :
    ((rangeBounds base ascending c).1 ≤ base ++ (encodeValueDirected w ascending ++ rest) ∧
      ((rangeBounds base ascending c).2 = [] ∨
        base ++ (encodeValueDirected w ascending ++ rest) < (rangeBounds base ascending c).2)) ↔
      c.InBounds w := by
  have hbase : base <+: base ++ (encodeValueDirected w ascending ++ rest) := List.prefix_append _ _
  have hlow := le_of_startsWith hbase
  have hhigh := ((prefix_iff_prefixUpperBound _ _).mp hbase).2
  obtain ⟨eq, lo, hi⟩ := c
  cases ascending with
  | true =>
    refine and_congr ?_ ?_
    · cases lo with
      | none => exact iff_of_true hlow (by simp)
      | some l =>
        simp only [Option.some.injEq, forall_eq']
        exact lower_bound_iff base rest
    · cases hi with
      | none => exact iff_of_true hhigh (by simp)
      | some h =>
        simp only [Option.some.injEq, forall_eq']
        exact upper_bound_iff base rest
  | false =>
    rw [Constraint.InBounds, and_comm (a := ∀ l, _)]
    refine and_congr ?_ ?_
    · cases hi with
      | none => exact iff_of_true hlow (by simp)
      | some h =>
        simp only [Option.some.injEq, forall_eq']
        exact (lower_bound_iff base rest).trans directedOrder_desc_ne_gt
    · cases lo with
      | none => exact iff_of_true hhigh (by simp)
      | some l =>
        simp only [Option.some.injEq, forall_eq']
        exact (upper_bound_iff base rest).trans directedOrder_desc_ne_gt

theorem prefix_of_rangeBounds {base k : Bytes} {ascending : Bool} {c : Constraint}
    (hlo : (rangeBounds base ascending c).1 ≤ k)
    (hhi : (rangeBounds base ascending c).2 = [] ∨ k < (rangeBounds base ascending c).2) :
    base <+: k := by
  have hlow : base ≤ k := by
    refine le_trans ?_ hlo
    unfold rangeBounds
    simp only
    split
    next => exact le_of_startsWith (List.prefix_append _ _)
    next => exact le_rfl
  unfold rangeBounds at hhi
  simp only at hhi
  split at hhi
  next => exact prefix_of_longer_bounds hlow hhi
  next => exact (prefix_iff_prefixUpperBound _ _).mpr ⟨hlow, hhi⟩

section Scan

variable (storagePrefix : Bytes) (cid : UInt32) (idx : IndexMeta) (n : Nat) (constraints : Constraints)

def nextConstraint : Constraint :=
  (idx.fields[n]?.bind fun f => constraints.get f).getD .default

theorem scanBounds_eq :
    scanBounds storagePrefix cid idx n constraints =
      rangeBounds (scanBase storagePrefix cid idx n constraints) (idx.ascending.getD n true)
        (nextConstraint idx n constraints) := by
  have hopen : ∀ (base : Bytes) (ascending : Bool) (c : Constraint), c.hasRange = false →
      rangeBounds base ascending c = (base, prefixUpperBound base) := by
    intro base ascending c hc
    obtain ⟨eq, lo, hi⟩ := c
    obtain ⟨hlo, hhi⟩ := Bool.or_eq_false_iff.mp hc
    cases Option.not_isSome_iff_eq_none.mp (by simpa using hlo)
    cases Option.not_isSome_iff_eq_none.mp (by simpa using hhi)
    cases ascending <;> rfl
  unfold scanBounds nextConstraint
  simp only
  split
  next c hc =>
    rw [hc, Option.getD_some]
    split
    next => rfl
    next hr => exact (hopen _ _ _ (by simpa using hr)).symm
  next hc =>
    rw [hc, Option.getD_none]
    exact (hopen _ _ _ rfl).symm

variable {storagePrefix cid idx n constraints}

theorem indexPrefix_of_scanBounds {k : Bytes}
    (h : (scanBounds storagePrefix cid idx n constraints).1 ≤ k ∧
      ((scanBounds storagePrefix cid idx n constraints).2 = [] ∨
        k < (scanBounds storagePrefix cid idx n constraints).2)) :
    indexPrefix storagePrefix cid idx.id <+: k := by
  rw [scanBounds_eq] at h
  exact (List.prefix_append _ _).trans (prefix_of_rangeBounds h.1 h.2)

theorem headD_drop (directions : List Bool) (n : Nat) :
    (directions.drop n).headD true = directions.getD n true := by
  rw [List.headD_eq_head?_getD, List.head?_drop, List.getD_eq_getElem?_getD]

/-- An index key is in the planned range exactly when its fields meet the constraints. -/
theorem mem_scanBounds {vs : List Value} {id : Bytes} (hlen : vs.length = idx.fields.length) :
    ((scanBounds storagePrefix cid idx n constraints).1 ≤
        indexKey storagePrefix cid idx.id (encodeFieldsWithDirections vs idx.ascending) id ∧
      ((scanBounds storagePrefix cid idx n constraints).2 = [] ∨
        indexKey storagePrefix cid idx.id (encodeFieldsWithDirections vs idx.ascending) id <
          (scanBounds storagePrefix cid idx n constraints).2)) ↔
      (vs.take n).map Value.indexValue =
          ((idx.fields.take n).map (eqValue constraints)).map Value.indexValue ∧
        ∀ w, vs[n]? = some w → (nextConstraint idx n constraints).InBounds w := by
  have hkey : indexKey storagePrefix cid idx.id (encodeFieldsWithDirections vs idx.ascending) id =
      indexPrefix storagePrefix cid idx.id ++
        (encodeFieldsWithDirections (vs.take n) (idx.ascending.take n) ++
          (encodeFieldsWithDirections (vs.drop n) (idx.ascending.drop n) ++ id)) := by
    rw [indexKey, encodeFieldsWithDirections_split n vs idx.ascending]
    simp only [List.append_assoc]
  have htake : (vs.take n).length = ((idx.fields.take n).map (eqValue constraints)).length := by
    simp [hlen]
  -- both sides give the leading fields their values, and then the keys start with the base
  have hbase : (vs.take n).map Value.indexValue =
      ((idx.fields.take n).map (eqValue constraints)).map Value.indexValue →
      indexKey storagePrefix cid idx.id (encodeFieldsWithDirections vs idx.ascending) id =
        scanBase storagePrefix cid idx n constraints ++
          (encodeFieldsWithDirections (vs.drop n) (idx.ascending.drop n) ++ id) := by
    intro heq
    rw [hkey, encodeFieldsWithDirections_congr _ heq, scanBase, List.append_assoc]
  rw [scanBounds_eq]
  constructor
  · rintro ⟨hlo, hhi⟩
    obtain ⟨tail, htail⟩ := prefix_of_rangeBounds hlo hhi
    have heq : (vs.take n).map Value.indexValue =
        ((idx.fields.take n).map (eqValue constraints)).map Value.indexValue := by
      rw [hkey, scanBase, List.append_assoc, List.append_cancel_left_eq] at htail
      exact ((encodeFieldsWithDirections_append_inj htake.symm).mp htail).1.symm
    refine ⟨heq, fun w hw => ?_⟩
    rw [hbase heq] at hlo hhi
    have hdrop : vs.drop n = w :: vs.drop (n + 1) := by
      obtain ⟨hlt, rfl⟩ := List.getElem?_eq_some_iff.mp hw
      exact List.drop_eq_getElem_cons hlt
    rw [hdrop, encodeFieldsWithDirections, headD_drop, List.append_assoc] at hlo hhi
    exact mem_rangeBounds.mp ⟨hlo, hhi⟩
  · rintro ⟨heq, hin⟩
    rw [hbase heq]
    cases hw : vs[n]? with
    | none =>
      have hnone : nextConstraint idx n constraints = .default := by
        have hout : idx.fields[n]? = none := by
          rw [List.getElem?_eq_none_iff] at hw ⊢
          omega
        rw [nextConstraint, hout]
        rfl
      have hprefix := (prefix_iff_prefixUpperBound (scanBase storagePrefix cid idx n constraints) _).mp
        (List.prefix_append _ (encodeFieldsWithDirections (vs.drop n) (idx.ascending.drop n) ++ id))
      rw [hnone]
      generalize idx.ascending.getD n true = ascending
      cases ascending <;> exact hprefix
    | some w =>
      have hdrop : vs.drop n = w :: vs.drop (n + 1) := by
        obtain ⟨hlt, rfl⟩ := List.getElem?_eq_some_iff.mp hw
        exact List.drop_eq_getElem_cons hlt
      rw [hdrop, encodeFieldsWithDirections, headD_drop, List.append_assoc]
      exact mem_rangeBounds.mpr (hin w hw)

end Scan

end ZydecoDb
