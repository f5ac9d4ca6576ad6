import Mathlib.Tactic
import Mathlib.Algebra.Order.BigOperators.Group.List

namespace Lib

variable {K : Type*} [LinearOrder K]

structure Block (K : Type*) where
  lo : K
  hi : K
  keys : List K

namespace Block

def Covers (b : Block K) (k : K) : Prop := b.lo ≤ k ∧ k ≤ b.hi

instance decidableCovers (b : Block K) (k : K) : Decidable (b.Covers k) :=
  inferInstanceAs (Decidable (_ ∧ _))

structure Tight (b : Block K) : Prop where
  covers : ∀ k ∈ b.keys, b.Covers k
  lo_mem : b.lo ∈ b.keys
  hi_mem : b.hi ∈ b.keys

def Meets (a b : Block K) : Prop := a.lo ≤ b.hi ∧ b.lo ≤ a.hi

def Before (a b : Block K) : Prop := ∀ x ∈ a.keys, ∀ y ∈ b.keys, x < y

def inside (keys : List K) (b : Block K) : Nat := keys.countP fun k => b.Covers k

def allKeys (bs : List (Block K)) : List K := bs.flatMap keys

def crowding (bs : List (Block K)) : Nat := (bs.map (inside (allKeys bs))).sum

variable {bs cs : List (Block K)} {k : K}

theorem sum_inside (keys : List K) (bs : List (Block K)) :
    (bs.map (inside keys)).sum = (keys.map fun k => bs.countP fun b => b.Covers k).sum := by
  induction bs with
  | nil => simp
  | cons b bs ih =>
    have hkeys : (keys.map fun k => (b :: bs).countP fun b => b.Covers k).sum =
        keys.countP (fun k => b.Covers k) + (keys.map fun k => bs.countP fun b => b.Covers k).sum := by
      clear ih
      induction keys with
      | nil => rfl
      | cons k keys ih =>
        rw [List.map_cons, List.sum_cons, ih, List.map_cons, List.sum_cons, List.countP_cons,
          List.countP_cons]
        omega
    rw [List.map_cons, List.sum_cons, ih, hkeys]
    rfl

theorem crowding_perm (h : bs.Perm cs) : crowding bs = crowding cs := by
  have hkeys : (allKeys bs).Perm (allKeys cs) := h.flatMap_right keys
  have hinside : inside (allKeys bs) = inside (allKeys cs) := funext fun b => hkeys.countP_eq _
  unfold crowding
  rw [hinside]
  exact (h.map _).sum_eq

theorem crowding_append (bs cs : List (Block K)) :
    crowding (bs ++ cs) = (bs.map (inside (allKeys bs))).sum + (bs.map (inside (allKeys cs))).sum +
      ((cs.map (inside (allKeys bs))).sum + (cs.map (inside (allKeys cs))).sum) := by
  have hkeys : allKeys (bs ++ cs) = allKeys bs ++ allKeys cs := List.flatMap_append
  have hinside : ∀ ds : List (Block K), (ds.map (inside (allKeys (bs ++ cs)))).sum =
      (ds.map (inside (allKeys bs))).sum + (ds.map (inside (allKeys cs))).sum := by
    intro ds
    rw [hkeys]
    induction ds with
    | nil => rfl
    | cons d ds ih =>
      have hd : inside (allKeys bs ++ allKeys cs) d = inside (allKeys bs) d + inside (allKeys cs) d :=
        List.countP_append
      rw [List.map_cons, List.sum_cons, ih, hd, List.map_cons, List.sum_cons, List.map_cons, List.sum_cons]
      omega
  unfold crowding
  rw [List.map_append, List.sum_append, hinside, hinside]

theorem countP_covers_le_one (htight : ∀ b ∈ bs, b.Tight) (hsep : bs.Pairwise Before) (k : K) :
    (bs.countP fun b => b.Covers k) ≤ 1 := by
  induction bs with
  | nil => exact Nat.zero_le _
  | cons b bs ih =>
    obtain ⟨hhead, htail⟩ := List.pairwise_cons.mp hsep
    have hrest := ih (fun c hc => htight c (List.mem_cons_of_mem b hc)) htail
    rw [List.countP_cons]
    by_cases hk : b.Covers k
    · have hnone : (bs.countP fun b => b.Covers k) = 0 := by
        refine List.countP_eq_zero.mpr fun c hc hck => ?_
        have hlt := hhead c hc b.hi (htight b List.mem_cons_self).hi_mem c.lo
          (htight c (List.mem_cons_of_mem b hc)).lo_mem
        have hcov : c.Covers k := of_decide_eq_true hck
        exact absurd (hlt.trans_le hcov.1) (not_lt.mpr hk.2)
      rw [hnone]
      split <;> omega
    · rw [if_neg (by simpa using hk)]
      exact hrest

theorem sum_inside_le_length (htight : ∀ b ∈ bs, b.Tight) (hsep : bs.Pairwise Before) (keys : List K) :
    (bs.map (inside keys)).sum ≤ keys.length := by
  rw [sum_inside]
  have hle := List.sum_le_card_nsmul (keys.map fun k => bs.countP fun b => b.Covers k) 1 fun n hn => by
    obtain ⟨k, -, rfl⟩ := List.mem_map.mp hn
    exact countP_covers_le_one htight hsep k
  simpa using hle

theorem length_lt_sum_inside {o : Block K} {others : List (Block K)}
    (htight : ∀ b ∈ o :: others, b.Tight) (hmeet : ∃ b ∈ others, b.Meets o) :
    (allKeys (o :: others)).length < ((o :: others).map (inside (allKeys (o :: others)))).sum := by
  have hcovered : ∀ k ∈ allKeys (o :: others), 1 ≤ (o :: others).countP fun b => b.Covers k := by
    intro k hk
    obtain ⟨b, hb, hkb⟩ := List.mem_flatMap.mp hk
    exact List.countP_pos_iff.mpr ⟨b, hb, decide_eq_true ((htight b hb).covers k hkb)⟩
  have htwice : ∃ k ∈ allKeys (o :: others), 1 < (o :: others).countP fun b => b.Covers k := by
    obtain ⟨b, hb, hlo, hhi⟩ := hmeet
    have hbt := htight b (List.mem_cons_of_mem o hb)
    have hot := htight o List.mem_cons_self
    have htwo : ∀ k, o.Covers k → b.Covers k → 1 < (o :: others).countP fun b => b.Covers k := by
      intro k ho hbk
      rw [List.countP_cons, if_pos (decide_eq_true ho)]
      have hpos : 0 < others.countP fun b => b.Covers k :=
        List.countP_pos_iff.mpr ⟨b, hb, decide_eq_true hbk⟩
      omega
    rcases le_total o.lo b.lo with hle | hle
    · refine ⟨b.lo, List.mem_flatMap.mpr ⟨b, List.mem_cons_of_mem o hb, hbt.lo_mem⟩, ?_⟩
      exact htwo b.lo ⟨hle, hlo⟩ (hbt.covers b.lo hbt.lo_mem)
    · refine ⟨o.lo, List.mem_flatMap.mpr ⟨o, List.mem_cons_self, hot.lo_mem⟩, ?_⟩
      exact htwo o.lo (hot.covers o.lo hot.lo_mem) ⟨hle, hhi⟩
  have hlt := List.sum_lt_sum (fun _ => 1) (fun k => (o :: others).countP fun b => b.Covers k)
    hcovered htwice
  rw [sum_inside]
  simpa using hlt

/-- Replacing blocks that meet by separated ones over their keys lowers the crowding. -/
theorem crowding_merge_lt {o : Block K} {others rest outputs : List (Block K)}
    (htight : ∀ b ∈ o :: others, b.Tight) (hout : ∀ b ∈ outputs, b.Tight)
    (hrest : ∀ b ∈ rest, ∀ k ∈ b.keys, b.Covers k) (hne : others ≠ [])
    (hmeet : ∀ b ∈ others, b.Meets o) (hapart : ∀ b ∈ rest, ¬ b.Meets o)
    (hkeys : (allKeys outputs).Subperm (allKeys (o :: others))) (hsep : outputs.Pairwise Before) :
    crowding (outputs ++ rest) < crowding ((o :: others) ++ rest) := by
  rw [crowding_append, crowding_append]
  have hinputs := length_lt_sum_inside htight
    ((List.exists_mem_of_ne_nil others hne).imp fun b hb => ⟨hb, hmeet b hb⟩)
  have houtputs := sum_inside_le_length hout hsep (allKeys outputs)
  have hlength := hkeys.length_le
  -- the keys in the ranges of the other blocks are among those that were there
  have hothers : (rest.map (inside (allKeys outputs))).sum ≤ (rest.map (inside (allKeys (o :: others)))).sum :=
    List.sum_le_sum fun b _ => hkeys.countP_le _
  -- a key of another block in the range of an output was in the range of an input: beyond that of `o`
  have hacross : (outputs.map (inside (allKeys rest))).sum ≤ ((o :: others).map (inside (allKeys rest))).sum := by
    rw [sum_inside, sum_inside]
    refine List.sum_le_sum fun k hk => ?_
    by_cases hnone : (outputs.countP fun b => b.Covers k) = 0
    · omega
    · have hone := countP_covers_le_one hout hsep k
      suffices hin : 0 < (o :: others).countP fun b => b.Covers k by omega
      obtain ⟨w, hw, hwk⟩ := List.countP_pos_iff.mp (Nat.pos_of_ne_zero hnone)
      have hcov : w.Covers k := of_decide_eq_true hwk
      have hend : ∀ x ∈ w.keys, ∃ b ∈ o :: others, b.Covers x := by
        intro x hx
        have hmem : x ∈ allKeys (o :: others) := hkeys.subset (List.mem_flatMap.mpr ⟨w, hw, hx⟩)
        obtain ⟨b, hb, hxb⟩ := List.mem_flatMap.mp hmem
        exact ⟨b, hb, (htight b hb).covers x hxb⟩
      have hmeets : ∀ b ∈ o :: others, b.Meets o := by
        intro b hb
        rcases List.mem_cons.mp hb with rfl | hb
        · have hself := ((htight b List.mem_cons_self).covers b.lo (htight b List.mem_cons_self).lo_mem).2
          exact ⟨hself, hself⟩
        · exact hmeet b hb
      obtain ⟨r, hr, hkr⟩ := List.mem_flatMap.mp hk
      have hkcov := hrest r hr k hkr
      refine List.countP_pos_iff.mpr ?_
      rcases lt_or_ge o.hi r.lo with hafter | hnot
      · obtain ⟨b, hb, hbcov⟩ := hend w.hi (hout w hw).hi_mem
        refine ⟨b, hb, decide_eq_true ⟨?_, hcov.2.trans hbcov.2⟩⟩
        exact ((hmeets b hb).1.trans hafter.le).trans hkcov.1
      · have hbefore : r.hi < o.lo := not_le.mp fun hge => hapart r hr ⟨hnot, hge⟩
        obtain ⟨b, hb, hbcov⟩ := hend w.lo (hout w hw).lo_mem
        refine ⟨b, hb, decide_eq_true ⟨hbcov.1.trans hcov.1, ?_⟩⟩
        exact (hkcov.2.trans hbefore.le).trans (hmeets b hb).2
  omega

end Block

end Lib
