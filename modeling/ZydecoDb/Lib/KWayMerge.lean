import ZydecoDb.Lib.Run

namespace Lib

section KWayMerge

variable {α : Type*} (r : α → α → Prop) [DecidableRel r]

def popMin : List (List α) → Option (α × List (List α))
  | [] => none
  | [] :: rest => (popMin rest).map fun p => (p.1, [] :: p.2)
  | (x :: xs) :: rest =>
    match popMin rest with
    | none => some (x, xs :: rest)
    | some (y, rest') => if r x y then some (x, xs :: rest) else some (y, (x :: xs) :: rest')

def kmergeFuel : Nat → List (List α) → List α
  | 0, _ => []
  | fuel + 1, sources =>
    match popMin r sources with
    | none => []
    | some (x, sources') => x :: kmergeFuel fuel sources'

def kmerge (sources : List (List α)) : List α :=
  kmergeFuel r sources.flatten.length sources

variable {r}

theorem popMin_eq_none {sources : List (List α)} (h : popMin r sources = none) :
    sources.flatten = [] := by
  induction sources with
  | nil => rfl
  | cons src rest ih =>
    cases src with
    | nil => simpa [popMin] using ih (by simpa [popMin] using h)
    | cons x xs =>
      simp only [popMin] at h
      split at h
      next => simp at h
      next => split at h <;> simp at h

/-- The least head comes from a later source, or it is the first one's and the others have none that is
less. -/
theorem popMin_cons_cases {src : List α} {rest sources' : List (List α)} {x : α}
    (h : popMin r (src :: rest) = some (x, sources')) :
    (∃ rest', popMin r rest = some (x, rest') ∧ sources' = src :: rest' ∧ ∀ z ∈ src.head?, ¬ r z x) ∨
    ∃ xs, src = x :: xs ∧ sources' = xs :: rest ∧
      (popMin r rest = none ∨ ∃ y rest', popMin r rest = some (y, rest') ∧ r x y) := by
  cases src with
  | nil =>
    obtain ⟨⟨y, rest'⟩, hp, he⟩ := Option.map_eq_some_iff.mp h
    cases he
    exact Or.inl ⟨rest', hp, rfl, by simp⟩
  | cons y ys =>
    simp only [popMin] at h
    split at h
    next hn =>
      cases Option.some.inj h
      exact Or.inr ⟨ys, rfl, rfl, Or.inl hn⟩
    next z rest' hz =>
      split at h
      next hle =>
        cases Option.some.inj h
        exact Or.inr ⟨ys, rfl, rfl, Or.inr ⟨z, rest', hz, hle⟩⟩
      next hle =>
        cases Option.some.inj h
        exact Or.inl ⟨rest', hz, rfl, by simpa using hle⟩

variable {sources sources' : List (List α)} {x : α}

section

variable (h : popMin r sources = some (x, sources'))
include h

theorem popMin_perm : sources.flatten.Perm (x :: sources'.flatten) := by
  induction sources generalizing sources' x with
  | nil => simp [popMin] at h
  | cons src rest ih =>
    rcases popMin_cons_cases h with ⟨rest', hp, rfl, -⟩ | ⟨xs, rfl, rfl, -⟩
    · exact ((ih hp).append_left src).trans List.perm_middle
    · exact List.Perm.refl _

theorem popMin_sorted
    (hs : ∀ src ∈ sources, src.Pairwise r) : ∀ src ∈ sources', src.Pairwise r := by
  induction sources generalizing sources' x with
  | nil => simp [popMin] at h
  | cons src rest ih =>
    obtain ⟨hsrc, hrest⟩ := List.forall_mem_cons.mp hs
    rcases popMin_cons_cases h with ⟨rest', hp, rfl, -⟩ | ⟨xs, rfl, rfl, -⟩
    · exact List.forall_mem_cons.mpr ⟨hsrc, ih hp hrest⟩
    · exact List.forall_mem_cons.mpr ⟨hsrc.of_cons, hrest⟩

theorem popMin_least [Std.Total r] [IsTrans α r]
    (hs : ∀ src ∈ sources, src.Pairwise r) : ∀ y ∈ sources.flatten, r x y := by
  have hrefl : ∀ z, r z z := fun z => (Std.Total.total z z).elim id id
  induction sources generalizing sources' x with
  | nil => simp [popMin] at h
  | cons src rest ih =>
    obtain ⟨hsrc, hrest⟩ := List.forall_mem_cons.mp hs
    rw [List.flatten_cons, List.forall_mem_append]
    rcases popMin_cons_cases h with ⟨rest', hp, rfl, hhead⟩ | ⟨xs, rfl, rfl, hfirst⟩
    · refine ⟨fun y hy => ?_, ih hp hrest⟩
      cases src with
      | nil => simp at hy
      | cons z zs =>
        have hxz : r x z := (Std.Total.total z x).resolve_left (hhead z rfl)
        rcases List.mem_cons.mp hy with rfl | hy
        · exact hxz
        · exact IsTrans.trans _ _ _ hxz ((List.pairwise_cons.mp hsrc).1 y hy)
    · refine ⟨List.forall_mem_cons.mpr ⟨hrefl x, (List.pairwise_cons.mp hsrc).1⟩, ?_⟩
      rcases hfirst with hn | ⟨y, rest', hp, hle⟩
      · simp [popMin_eq_none hn]
      · exact fun w hw => IsTrans.trans _ _ _ hle (ih hp hrest w hw)

end

theorem kmergeFuel_perm {fuel : Nat} {sources : List (List α)}
    (hf : sources.flatten.length ≤ fuel) :
    (kmergeFuel r fuel sources).Perm sources.flatten := by
  induction fuel generalizing sources with
  | zero =>
    have : sources.flatten = [] := List.length_eq_zero_iff.mp (Nat.le_zero.mp hf)
    rw [this]; exact List.Perm.refl _
  | succ fuel ih =>
    simp only [kmergeFuel]
    split
    next hn => rw [popMin_eq_none hn]
    next x sources' hp =>
      have hperm := popMin_perm hp
      have hlen := hperm.length_eq
      simp only [List.length_cons] at hlen
      exact ((ih (by omega)).cons x).trans hperm.symm

theorem kmerge_perm (sources : List (List α)) : (kmerge r sources).Perm sources.flatten :=
  kmergeFuel_perm le_rfl

theorem mem_kmerge {sources : List (List α)} {x : α} :
    x ∈ kmerge r sources ↔ ∃ src ∈ sources, x ∈ src := by
  rw [(kmerge_perm sources).mem_iff, List.mem_flatten]

theorem kmergeFuel_sorted [Std.Total r] [IsTrans α r] {fuel : Nat} {sources : List (List α)}
    (hf : sources.flatten.length ≤ fuel) (hs : ∀ src ∈ sources, src.Pairwise r) :
    (kmergeFuel r fuel sources).Pairwise r := by
  induction fuel generalizing sources with
  | zero => exact List.Pairwise.nil
  | succ fuel ih =>
    simp only [kmergeFuel]
    split
    next => exact List.Pairwise.nil
    next x sources' hp =>
      have hperm := popMin_perm hp
      have hlen := hperm.length_eq
      simp only [List.length_cons] at hlen
      have hfuel : sources'.flatten.length ≤ fuel := by omega
      refine List.pairwise_cons.mpr ⟨fun y hy => ?_, ih hfuel (popMin_sorted hp hs)⟩
      have hmem : y ∈ sources'.flatten := (kmergeFuel_perm hfuel).mem_iff.mp hy
      exact popMin_least hp hs y (hperm.mem_iff.mpr (List.mem_cons_of_mem _ hmem))

theorem kmerge_sorted [Std.Total r] [IsTrans α r] {sources : List (List α)}
    (hs : ∀ src ∈ sources, src.Pairwise r) : (kmerge r sources).Pairwise r :=
  kmergeFuel_sorted le_rfl hs

end KWayMerge

end Lib
