import ZydecoDb.Lib.ByteOrder
import Mathlib.Data.Prod.Lex

namespace ZydecoDb.Migrate

open Lib

structure Relationship where
  child : Bytes
  parent : Bytes

structure CollectionPlan where
  name : Bytes
  loadOrder : Nat
deriving DecidableEq

variable (names : List Bytes) (relationships : List Relationship)

def parentsOf (child : Bytes) : List Bytes :=
  relationships.foldl (fun parents r =>
    if r.child = child ∧ names.contains r.parent ∧ !parents.contains r.parent then parents ++ [r.parent]
    else parents) []

def CollectionPlan.rank (c : CollectionPlan) : ℕ ×ₗ Bytes := toLex (c.loadOrder, c.name)

def planned (name : Bytes) : CollectionPlan := ⟨name, (parentsOf names relationships name).length⟩

def assignLoadOrder (collections : List CollectionPlan) : List CollectionPlan :=
  (collections.map fun c => planned (collections.map CollectionPlan.name) relationships c.name).insertionSort
    fun a b => a.rank ≤ b.rank

def References (a b : Bytes) : Prop :=
  a ∈ names ∧ b ∈ names ∧ ∃ r ∈ relationships, r.child = a ∧ r.parent = b

def Acyclic : Prop := ∀ a, ¬ Relation.TransGen (References names relationships) a a

def LoadsParentsFirst (collections : List CollectionPlan) : Prop :=
  (assignLoadOrder relationships collections).Pairwise fun a b =>
    ¬ References (collections.map CollectionPlan.name) relationships a.name b.name

/-- The order the load follows: fewer references first, and by name where they are as many. -/
def LoadsEarlier (b a : Bytes) : Prop :=
  (parentsOf names relationships b).length < (parentsOf names relationships a).length ∨
    (parentsOf names relationships b).length = (parentsOf names relationships a).length ∧ b < a

variable {names relationships} {collections : List CollectionPlan}

/-- What is counted: the collections of the plan that a child references, each once. -/
theorem length_parentsOf (child : Bytes) : (parentsOf names relationships child).length =
    ((relationships.filter fun r => r.child = child ∧ names.contains r.parent).map
      Relationship.parent).toFinset.card := by
  have hfold : ∀ (rs : List Relationship) (acc : List Bytes), acc.Nodup →
      (rs.foldl (fun parents r => if r.child = child ∧ names.contains r.parent ∧
        !parents.contains r.parent then parents ++ [r.parent] else parents) acc).length =
      (acc ++ (rs.filter fun r => r.child = child ∧ names.contains r.parent).map
        Relationship.parent).toFinset.card := by
    intro rs
    induction rs with
    | nil => exact fun acc hacc => by simp [List.toFinset_card_of_nodup hacc]
    | cons r rs ih =>
      intro acc hacc
      rw [List.foldl_cons]
      split
      next h =>
        obtain ⟨hchild, hname, hnew⟩ := h
        have hnew : r.parent ∉ acc := by simpa using hnew
        have hnodup : (acc ++ [r.parent]).Nodup := List.concat_eq_append ▸ hacc.concat hnew
        rw [ih _ hnodup, List.filter_cons, if_pos (decide_eq_true ⟨hchild, hname⟩), List.map_cons,
          List.append_assoc]
        rfl
      next h =>
        rw [ih acc hacc]
        by_cases hkeep : r.child = child ∧ names.contains r.parent = true
        · have hold : r.parent ∈ acc := by
            by_contra hnew
            exact h ⟨hkeep.1, hkeep.2, by simpa using hnew⟩
          rw [List.filter_cons, if_pos (decide_eq_true hkeep)]
          congr 1
          ext p
          simp only [List.map_cons, List.toFinset_append, List.toFinset_cons, Finset.mem_union,
            Finset.mem_insert, List.mem_toFinset]
          constructor
          · tauto
          · rintro (hp | rfl | hp)
            · exact Or.inl hp
            · exact Or.inl hold
            · exact Or.inr hp
        · rw [List.filter_cons, if_neg fun h => hkeep (of_decide_eq_true h)]
  exact hfold relationships [] List.nodup_nil

theorem acyclic_of_height (height : Bytes → Nat)
    (h : ∀ a b, References names relationships a b → height b < height a) :
    Acyclic names relationships := by
  intro a hcycle
  have hless : ∀ b, Relation.TransGen (References names relationships) a b → height b < height a := by
    intro b hb
    induction hb with
    | single hab => exact h _ _ hab
    | tail _ hbc ih => exact (h _ _ hbc).trans ih
  exact lt_irrefl _ (hless a hcycle)

theorem mem_assignLoadOrder {c : CollectionPlan} : c ∈ assignLoadOrder relationships collections ↔
    ∃ name ∈ collections.map CollectionPlan.name,
      c = planned (collections.map CollectionPlan.name) relationships name := by
  rw [assignLoadOrder, List.mem_insertionSort, List.mem_map]
  constructor
  · rintro ⟨d, hd, rfl⟩
    exact ⟨d.name, List.mem_map_of_mem hd, rfl⟩
  · rintro ⟨name, hname, rfl⟩
    obtain ⟨d, hd, rfl⟩ := List.mem_map.mp hname
    exact ⟨d, hd, rfl⟩

theorem assignLoadOrder_sorted :
    (assignLoadOrder relationships collections).Pairwise fun a b => a.rank ≤ b.rank :=
  List.pairwise_insertionSort _ _

theorem rank_lt_iff {a b : Bytes} : (planned names relationships b).rank <
    (planned names relationships a).rank ↔ LoadsEarlier names relationships b a :=
  Prod.Lex.toLex_lt_toLex

/-- On a graph without cycles parents are loaded first exactly when every collection referenced has
fewer references than the one that references it, or as many and the smaller name. -/
theorem loadsParentsFirst_iff (collections : List CollectionPlan) (relationships : List Relationship)
    (hacyclic : Acyclic (collections.map CollectionPlan.name) relationships) :
    LoadsParentsFirst relationships collections ↔
      ∀ a b, References (collections.map CollectionPlan.name) relationships a b →
        LoadsEarlier (collections.map CollectionPlan.name) relationships b a := by
  have hsorted := @assignLoadOrder_sorted relationships collections
  constructor
  · intro hfirst a b hab
    have hne : a ≠ b := by
      intro heq
      subst heq
      exact hacyclic a (.single hab)
    obtain ⟨i, hi, hia⟩ := List.mem_iff_getElem.mp (mem_assignLoadOrder.mpr ⟨a, hab.1, rfl⟩)
    obtain ⟨j, hj, hjb⟩ := List.mem_iff_getElem.mp (mem_assignLoadOrder.mpr ⟨b, hab.2.1, rfl⟩)
    rw [← rank_lt_iff, ← hia, ← hjb]
    rcases lt_trichotomy i j with hij | hij | hij
    · have hnot := List.pairwise_iff_getElem.mp hfirst i j hi hj hij
      rw [hia, hjb] at hnot
      exact absurd hab hnot
    · subst hij
      exact absurd (congrArg CollectionPlan.name (hia.symm.trans hjb)) hne
    · refine lt_of_le_of_ne (List.pairwise_iff_getElem.mp hsorted j i hj hi hij) fun heq => hne ?_
      rw [hia, hjb] at heq
      exact (congrArg (fun r => (ofLex r).2) heq).symm
  · intro hcond
    refine hsorted.imp_of_mem fun {c d} hc hd hle href => ?_
    obtain ⟨a, -, rfl⟩ := mem_assignLoadOrder.mp hc
    obtain ⟨b, -, rfl⟩ := mem_assignLoadOrder.mp hd
    exact absurd (rank_lt_iff.mpr (hcond a b href)) (not_lt.mpr hle)

section Chains

def chain (x y z : UInt8) : List Relationship := [⟨[x], [y]⟩, ⟨[y], [z]⟩]

def chainPlans (x y z : UInt8) : List CollectionPlan := [⟨[x], 0⟩, ⟨[y], 0⟩, ⟨[z], 0⟩]

theorem chain_edges {x y z : UInt8} {a b : Bytes} (h : References names (chain x y z) a b) :
    a = [x] ∧ b = [y] ∨ a = [y] ∧ b = [z] := by
  obtain ⟨-, -, r, hr, rfl, rfl⟩ := h
  rcases List.mem_cons.mp hr with rfl | hr
  · exact Or.inl ⟨rfl, rfl⟩
  · rw [List.mem_singleton.mp hr]
    exact Or.inr ⟨rfl, rfl⟩

/-- Lines reference orders and orders customers, named p, o and c. -/
theorem orderLines_parents_first :
    Acyclic ((chainPlans 0x70 0x6F 0x63).map CollectionPlan.name) (chain 0x70 0x6F 0x63) ∧
      LoadsParentsFirst (chain 0x70 0x6F 0x63) (chainPlans 0x70 0x6F 0x63) := by
  have hacyclic : Acyclic ((chainPlans 0x70 0x6F 0x63).map CollectionPlan.name)
      (chain 0x70 0x6F 0x63) := by
    refine acyclic_of_height (fun t => (t.headD 0).toNat) fun a b hab => ?_
    rcases chain_edges hab with ⟨rfl, rfl⟩ | ⟨rfl, rfl⟩ <;> decide
  refine ⟨hacyclic, (loadsParentsFirst_iff (chainPlans 0x70 0x6F 0x63) _ hacyclic).mpr
    fun a b hab => ?_⟩
  unfold LoadsEarlier
  rcases chain_edges hab with ⟨rfl, rfl⟩ | ⟨rfl, rfl⟩ <;> decide

/-- The table a references b, and b references c: both have one reference, so the names decide, and a
is loaded before b. -/
theorem chain_loaded_out_of_order :
    Acyclic ((chainPlans 0x61 0x62 0x63).map CollectionPlan.name) (chain 0x61 0x62 0x63) ∧
      (assignLoadOrder (chain 0x61 0x62 0x63) (chainPlans 0x61 0x62 0x63)).map CollectionPlan.name =
        [[0x63], [0x61], [0x62]] ∧
      ¬ LoadsParentsFirst (chain 0x61 0x62 0x63) (chainPlans 0x61 0x62 0x63) := by
  have horder : assignLoadOrder (chain 0x61 0x62 0x63) (chainPlans 0x61 0x62 0x63) =
      [⟨[0x63], 0⟩, ⟨[0x61], 1⟩, ⟨[0x62], 1⟩] := by decide
  refine ⟨?_, by rw [horder]; rfl, fun hfirst => ?_⟩
  · refine acyclic_of_height (fun t => 255 - (t.headD 0).toNat) fun a b hab => ?_
    rcases chain_edges hab with ⟨rfl, rfl⟩ | ⟨rfl, rfl⟩ <;> decide
  · rw [LoadsParentsFirst, horder] at hfirst
    have hnot := (List.pairwise_cons.mp (List.pairwise_cons.mp hfirst).2).1 ⟨[0x62], 1⟩ (by simp)
    exact hnot ⟨by simp [chainPlans], by simp [chainPlans], ⟨[0x61], [0x62]⟩, by simp [chain], rfl, rfl⟩

end Chains

end ZydecoDb.Migrate
