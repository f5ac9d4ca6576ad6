import ZydecoDb.Lib.Run

namespace Lib

structure SortedMap (K V : Type*) [LinearOrder K] where
  entries : List (K × V)
  sorted : entries.Pairwise fun a b => a.1 < b.1

section

variable {K V : Type*} [LinearOrder K]

def insertPair (k : K) (v : V) : List (K × V) → List (K × V)
  | [] => [(k, v)]
  | e :: l =>
    if k < e.1 then (k, v) :: e :: l
    else if k = e.1 then (k, v) :: l
    else e :: insertPair k v l

theorem mem_insertPair {k : K} {v : V} {l : List (K × V)} {e : K × V} (h : e ∈ insertPair k v l) :
    e = (k, v) ∨ e ∈ l := by
  induction l with
  | nil => exact Or.inl (List.mem_singleton.mp h)
  | cons e' l ih =>
    simp only [insertPair] at h
    split at h
    next => exact List.mem_cons.mp h
    next =>
      split at h
      next => exact (List.mem_cons.mp h).imp_right (List.mem_cons_of_mem _)
      next =>
        rcases List.mem_cons.mp h with he | h
        · exact Or.inr (he ▸ List.mem_cons_self)
        · exact (ih h).imp_right (List.mem_cons_of_mem _)

theorem sorted_insertPair {k : K} {v : V} {l : List (K × V)}
    (hl : l.Pairwise fun a b => a.1 < b.1) : (insertPair k v l).Pairwise fun a b => a.1 < b.1 := by
  induction l with
  | nil => exact List.pairwise_singleton _ _
  | cons e l ih =>
    have htail := List.pairwise_cons.mp hl
    simp only [insertPair]
    split
    next hlt =>
      refine List.pairwise_cons.mpr ⟨fun a ha => ?_, hl⟩
      rcases List.mem_cons.mp ha with rfl | ha
      · exact hlt
      · exact hlt.trans (htail.1 a ha)
    next hlt =>
      split
      next heq =>
        exact List.pairwise_cons.mpr ⟨fun a ha => heq ▸ htail.1 a ha, htail.2⟩
      next hne =>
        refine List.pairwise_cons.mpr ⟨fun a ha => ?_, ih htail.2⟩
        rcases mem_insertPair ha with hk | ha
        · rw [hk]
          exact lt_of_le_of_ne (not_lt.mp hlt) fun h => hne h.symm
        · exact htail.1 a ha

namespace SortedMap

def empty : SortedMap K V := ⟨[], List.Pairwise.nil⟩

def get (m : SortedMap K V) (k : K) : Option V := m.entries.lookup k

def contains (m : SortedMap K V) (k : K) : Bool := (m.get k).isSome

def insert (m : SortedMap K V) (k : K) (v : V) : SortedMap K V :=
  ⟨insertPair k v m.entries, sorted_insertPair m.sorted⟩

def size (m : SortedMap K V) : Nat := m.entries.length

variable {m : SortedMap K V} {k k' : K} {v : V}

@[simp] theorem get_empty : (empty : SortedMap K V).get k = none := rfl

theorem lookup_cons_eq_ite {_ : BEq K} [LawfulBEq K] (k a : K) (b : V) (l : List (K × V)) :
    ((a, b) :: l).lookup k = if k = a then some b else l.lookup k := by
  by_cases h : k = a
  · subst h
    rw [if_pos rfl, List.lookup_cons_self]
  · rw [if_neg h, List.lookup_cons, beq_false_of_ne h]

theorem lookup_insertPair {_ : BEq K} [LawfulBEq K] (k k' : K) (v : V) (l : List (K × V)) :
    (insertPair k v l).lookup k' = if k' = k then some v else l.lookup k' := by
  induction l with
  | nil => rw [insertPair, lookup_cons_eq_ite]
  | cons e l ih =>
    obtain ⟨a, b⟩ := e
    rw [insertPair]
    split
    next => rw [lookup_cons_eq_ite]
    next =>
      split
      next heq =>
        subst heq
        rw [lookup_cons_eq_ite, lookup_cons_eq_ite]
        by_cases hk : k' = k
        · rw [if_pos hk, if_pos hk]
        · rw [if_neg hk, if_neg hk, if_neg hk]
      next hne =>
        rw [lookup_cons_eq_ite, lookup_cons_eq_ite, ih]
        by_cases hk : k' = k
        · rw [if_pos hk, if_pos hk, if_neg fun h => hne (hk.symm.trans h)]
        · rw [if_neg hk, if_neg hk]

theorem get_insert : (m.insert k v).get k' = if k' = k then some v else m.get k' :=
  lookup_insertPair k k' v m.entries

@[simp] theorem get_insert_self : (m.insert k v).get k = some v := by
  rw [get_insert, if_pos rfl]

theorem get_insert_ne (h : k' ≠ k) : (m.insert k v).get k' = m.get k' := by
  rw [get_insert, if_neg h]

theorem mem_entries : (k, v) ∈ m.entries ↔ m.get k = some v := by
  obtain ⟨l, hl⟩ := m
  show (k, v) ∈ l ↔ l.lookup k = some v
  induction l with
  | nil => simp
  | cons e l ih =>
    obtain ⟨a, b⟩ := e
    have htail := List.pairwise_cons.mp hl
    have ih := ih htail.2
    rw [lookup_cons_eq_ite, List.mem_cons]
    by_cases hk : k = a
    · subst hk
      have hnot : (k, v) ∉ l := fun hm => lt_irrefl _ (htail.1 (k, v) hm)
      simp [hnot, eq_comm]
    · simp [hk, ih]

def sum (m : SortedMap K V) (f : V → Nat) : Nat := (m.entries.map fun e => f e.2).sum

theorem sum_insert (m : SortedMap K V) (k : K) (v : V) (f : V → Nat) :
    (m.insert k v).sum f + ((m.get k).map f).getD 0 = m.sum f + f v := by
  obtain ⟨l, hl⟩ := m
  show ((insertPair k v l).map fun e => f e.2).sum + ((l.lookup k).map f).getD 0 =
    (l.map fun e => f e.2).sum + f v
  induction l with
  | nil => simp [insertPair]
  | cons e l ih =>
    obtain ⟨a, b⟩ := e
    have htail := List.pairwise_cons.mp hl
    rw [insertPair, lookup_cons_eq_ite]
    split
    next hlt =>
      -- The key goes in front: nothing in the tail has it.
      have hnone : l.lookup k = none := by
        refine List.lookup_eq_none_iff.mpr fun p hp => ?_
        have hkp : k < p.1 := lt_trans hlt (htail.1 p hp)
        simpa using hkp.ne
      rw [if_neg (ne_of_lt hlt), hnone]
      simp only [List.map_cons, List.sum_cons, Option.map_none, Option.getD_none]
      omega
    next =>
      split
      next =>
        simp only [List.map_cons, List.sum_cons, Option.map_some, Option.getD_some]
        omega
      next =>
        have htl := ih htail.2
        simp only [List.map_cons, List.sum_cons]
        omega

theorem le_sum {f : V → Nat} (h : m.get k = some v) : f v ≤ m.sum f := by
  have hmem : f v ∈ m.entries.map fun e => f e.2 := List.mem_map.mpr ⟨(k, v), mem_entries.mpr h, rfl⟩
  exact List.le_sum_of_mem hmem

theorem keys_nodup (m : SortedMap K V) : (m.entries.map Prod.fst).Nodup := by
  have hlt : (m.entries.map Prod.fst).Pairwise (· < ·) := List.pairwise_map.mpr m.sorted
  exact hlt.imp fun h => ne_of_lt h

theorem size_le_length (m : SortedMap K V) {keys : List K} (h : ∀ k, m.get k ≠ none → k ∈ keys) :
    m.size ≤ keys.length := by
  have hsub : m.entries.map Prod.fst ⊆ keys := by
    intro k hk
    obtain ⟨⟨k', v⟩, hm, rfl⟩ := List.mem_map.mp hk
    refine h k' ?_
    rw [mem_entries.mp hm]
    simp
  have hlen := (List.subperm_of_subset m.keys_nodup hsub).length_le
  simpa [size] using hlen

theorem sum_le_mul_size (m : SortedMap K V) {f g : V → Nat} {n : Nat}
    (h : ∀ k v, m.get k = some v → f v ≤ g v + n) : m.sum f ≤ m.sum g + n * m.size := by
  have hm : ∀ e ∈ m.entries, f e.2 ≤ g e.2 + n := fun e he => h e.1 e.2 (mem_entries.mp he)
  unfold sum size
  generalize m.entries = l at hm
  induction l with
  | nil => simp
  | cons e l ih =>
    have hhead := hm e List.mem_cons_self
    have htail := ih fun a ha => hm a (List.mem_cons_of_mem _ ha)
    simp only [List.map_cons, List.sum_cons, List.length_cons, Nat.mul_succ]
    omega

end SortedMap

end

end Lib
