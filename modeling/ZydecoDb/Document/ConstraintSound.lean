import ZydecoDb.Document.Planner

namespace ZydecoDb

open Lib

section

variable (isMatch : Bytes → Bool → Bytes → Bool) (view : ValueView) (id : Bytes)

def fieldSat (path : Bytes) (atom : Atom) : Bool :=
  if path = idField then atom.matchesStr isMatch (utf8Lossy id)
  else atom.matches isMatch (ValueView.getPath view path)

variable {isMatch view id}

theorem atomsMatch_mem {atoms : List Atom} {field : Option ValueView}
    (h : atomsMatch isMatch atoms field = true) : ∀ atom ∈ atoms, atom.matches isMatch field = true := by
  induction atoms with
  | nil => simp
  | cons a atoms ih =>
    rw [atomsMatch, Bool.and_eq_true] at h
    intro atom hm
    rcases List.mem_cons.mp hm with rfl | hm
    · exact h.1
    · exact ih h.2 atom hm

mutual

theorem topLevelFields_of_matches : ∀ (filter : Filter),
    filter.matches isMatch view (some id) = true →
    ∀ fp ∈ filter.topLevelFields, ∀ atom ∈ fp.2, fieldSat isMatch view id fp.1 atom = true
  | .field path atoms, h, fp, hfp, atom, hatom => by
    rw [Filter.topLevelFields, List.mem_singleton] at hfp
    subst hfp
    rw [Filter.matches] at h
    unfold fieldSat
    split at h
    next hid =>
      rw [if_pos hid]
      exact List.all_eq_true.mp h atom hatom
    next hid =>
      rw [if_neg hid]
      exact atomsMatch_mem h atom hatom
  | .and fs, h, fp, hfp, atom, hatom => by
    rw [Filter.topLevelFields] at hfp
    rw [Filter.matches] at h
    exact topLevelOf_of_allMatch fs h fp hfp atom hatom
  | .matchAll, _, fp, hfp, _, _ => by simp [Filter.topLevelFields] at hfp
  | .or _, _, fp, hfp, _, _ => by simp [Filter.topLevelFields] at hfp
  | .not _, _, fp, hfp, _, _ => by simp [Filter.topLevelFields] at hfp

theorem topLevelOf_of_allMatch : ∀ (fs : List Filter),
    allMatch isMatch fs view (some id) = true →
    ∀ fp ∈ topLevelOf fs, ∀ atom ∈ fp.2, fieldSat isMatch view id fp.1 atom = true
  | [], _, fp, hfp, _, _ => by simp [topLevelOf] at hfp
  | f :: fs, h, fp, hfp, atom, hatom => by
    rw [topLevelOf, List.mem_append] at hfp
    rw [allMatch, Bool.and_eq_true] at h
    rcases hfp with hfp | hfp
    · exact topLevelFields_of_matches f h.1 fp hfp atom hatom
    · exact topLevelOf_of_allMatch fs h.2 fp hfp atom hatom

end

end

structure Constraint.Holds (c : Constraint) (sat : Atom → Bool) : Prop where
  eq : ∀ t, c.eq = some t → t.isScalar = true ∧ sat (.eq t) = true
  lo : ∀ t, c.lo = some t → t.isScalar = true ∧ (sat (.gt t) = true ∨ sat (.gte t) = true)
  hi : ∀ t, c.hi = some t → t.isScalar = true ∧ (sat (.lt t) = true ∨ sat (.lte t) = true)

namespace Constraint.Holds

variable {c : Constraint} {sat : Atom → Bool}

theorem default (sat : Atom → Bool) : Constraint.default.Holds sat where
  eq _ h := by cases h
  lo _ h := by cases h
  hi _ h := by cases h

theorem add (h : c.Holds sat) {atom : Atom} (hatom : sat atom = true) : (c.add atom).Holds sat := by
  cases atom <;> simp only [Constraint.add] <;> try exact h
  all_goals split
  all_goals first | exact h | skip
  case eq.isTrue t hs =>
    exact ⟨fun u hu => Option.some.inj hu ▸ ⟨hs, hatom⟩, h.lo, h.hi⟩
  case gt.isTrue t hs =>
    exact ⟨h.eq, fun u hu => Option.some.inj hu ▸ ⟨hs, Or.inl hatom⟩, h.hi⟩
  case gte.isTrue t hs =>
    exact ⟨h.eq, fun u hu => Option.some.inj hu ▸ ⟨hs, Or.inr hatom⟩, h.hi⟩
  case lt.isTrue t hs =>
    exact ⟨h.eq, h.lo, fun u hu => Option.some.inj hu ▸ ⟨hs, Or.inl hatom⟩⟩
  case lte.isTrue t hs =>
    exact ⟨h.eq, h.lo, fun u hu => Option.some.inj hu ▸ ⟨hs, Or.inr hatom⟩⟩

theorem foldl_add (h : c.Holds sat) {atoms : List Atom} (hatoms : ∀ a ∈ atoms, sat a = true) :
    (atoms.foldl Constraint.add c).Holds sat := by
  induction atoms generalizing c with
  | nil => exact h
  | cons a atoms ih =>
    rw [List.foldl_cons]
    exact ih (h.add (hatoms a List.mem_cons_self)) fun b hb => hatoms b (List.mem_cons_of_mem _ hb)

end Constraint.Holds

/-- A constraint taken off a filter holds wherever the filter's own conditions do. -/
theorem collectConstraints_holds {filter : Filter} {sat : Bytes → Atom → Bool}
    (h : ∀ fp ∈ filter.topLevelFields, ∀ atom ∈ fp.2, sat fp.1 atom = true) {f : Bytes}
    {c : Constraint} (hc : (collectConstraints filter).get f = some c) : c.Holds (sat f) := by
  have hfold : ∀ (preds : List (Bytes × List Atom)) (map : Constraints),
      (∀ fp ∈ preds, ∀ atom ∈ fp.2, sat fp.1 atom = true) →
      (∀ g d, map.get g = some d → d.Holds (sat g)) →
      ∀ g d, (preds.foldl (fun map fp =>
        map.insert fp.1 (fp.2.foldl Constraint.add ((map.get fp.1).getD .default))) map).get g
          = some d → d.Holds (sat g) := by
    intro preds
    induction preds with
    | nil => exact fun map _ hmap => hmap
    | cons fp preds ih =>
      intro map hpreds hmap
      rw [List.foldl_cons]
      refine ih _ (fun q hq => hpreds q (List.mem_cons_of_mem _ hq)) fun g d hd => ?_
      rw [SortedMap.get_insert] at hd
      split at hd
      next hg =>
        cases Option.some.inj hd
        subst hg
        refine Constraint.Holds.foldl_add ?_ (hpreds fp List.mem_cons_self)
        cases hold : map.get fp.1 with
        | none => exact Constraint.Holds.default _
        | some old => exact hmap fp.1 old hold
      next => exact hmap g d hd
  exact hfold filter.topLevelFields .empty h (fun g d hd => by simp at hd) f c hc

end ZydecoDb
