import ZydecoDb.GroupExact

namespace ZydecoDb

open Lib ZDocBuilder ValueView

variable {path : Bytes} {accs : List AccumulatorSpec}

def ofKey (k : Int64) (docs : List (IntDoc path accs)) : List (IntDoc path accs) :=
  docs.filter fun d => d.key = k

def trueTotal (docs : List (IntDoc path accs)) (k : Int64) (acc : AccumulatorSpec) : Int :=
  (added acc (ofKey k docs)).sum

def AllFit (docs : List (IntDoc path accs)) : Prop :=
  ∀ d ∈ docs, ∀ acc ∈ accs, i64Min ≤ trueTotal docs d.key acc ∧ trueTotal docs d.key acc ≤ i64Max

def rowOf (accs : List AccumulatorSpec) (k : Int64) (total : AccumulatorSpec → Int) : Value :=
  .object (accs.foldl (fun row acc => insertPair acc.outputField (.number (i64Number (total acc))) row)
    [(idField, .number (.ofI64 k))])

def exactRows (docs : List (IntDoc path accs)) : List Value :=
  (docs.map IntDoc.key).dedup.map fun k => rowOf accs k (trueTotal docs k)

/-- No two different keys of the documents are rounded to one double. -/
def NoCollision (docs : List (IntDoc path accs)) : Prop :=
  ∀ d ∈ docs, ∀ e ∈ docs, keyDouble d.key = keyDouble e.key → d.key = e.key

/-- The highest total inside `d` when every document that adds to the group comes before it. -/
def worstPeak (f : IntDoc path accs → List Int) (g : List (IntDoc path accs))
    (d : IntDoc path accs) : Int :=
  surplus f g - max 0 (f d).sum + peak (f d)

/-- No total leaves `i64`, above or below, even at its worst peak. -/
def OrderSafe (docs : List (IntDoc path accs)) : Prop :=
  ∀ d ∈ docs, ∀ acc ∈ accs,
    worstPeak (fun e => acc.op.contributions e.value) (ofKey d.key docs) d ≤ i64Max ∧
    worstPeak (fun e => (acc.op.contributions e.value).map (- ·)) (ofKey d.key docs) d ≤ -i64Min

section Orders

variable {docs docs' : List (IntDoc path accs)}

theorem NoCollision.perm (h : NoCollision docs) (hp : docs'.Perm docs) : NoCollision docs' :=
  fun d hd e he => h d (hp.mem_iff.mp hd) e (hp.mem_iff.mp he)

theorem trueTotal_perm (hp : docs'.Perm docs) (k : Int64) (acc : AccumulatorSpec) :
    trueTotal docs' k acc = trueTotal docs k acc :=
  ((hp.filter _).flatMap_right _).sum_eq

theorem bucket_eq_ofKey (h : NoCollision docs) {d : IntDoc path accs} (hd : d ∈ docs) :
    bucket (keyDouble d.key) docs = ofKey d.key docs := by
  refine List.filter_congr fun e he => ?_
  simp only [decide_eq_decide]
  exact ⟨fun hx => h e he d hd hx, fun hk => by rw [hk]⟩

theorem Steady.allFit (hs : Steady docs) (h : NoCollision docs) : AllFit docs := by
  intro d hd acc hacc
  have hstay := (hs (keyDouble d.key) acc hacc).sum
  rwa [bucket_eq_ofKey h hd] at hstay

theorem added_neg (acc : AccumulatorSpec) (g : List (IntDoc path accs)) :
    (added acc g).map (- ·) = g.flatMap fun e => (acc.op.contributions e.value).map (- ·) := by
  rw [added, List.map_flatMap]

/-- The worst peaks decide for every order of the documents at once. -/
theorem orderSafe_iff (h : NoCollision docs) :
    OrderSafe docs ↔ ∀ docs' : List (IntDoc path accs), docs'.Perm docs → Steady docs' := by
  have hmax : (0 : Int) ≤ i64Max := by decide
  have hmin : (0 : Int) ≤ -i64Min := by decide
  constructor
  · intro hsafe docs' hp x acc hacc
    cases hb : bucket x docs' with
    | nil => exact ⟨hmax, hmin⟩
    | cons d rest =>
      have hmem : d ∈ bucket x docs' := by
        rw [hb]
        exact List.mem_cons_self
      have hd' : d ∈ docs' := List.mem_of_mem_filter hmem
      have hx : keyDouble d.key = x := by simpa [bucket] using (List.mem_filter.mp hmem).2
      rw [← hb, ← hx, bucket_eq_ofKey (h.perm hp) hd']
      have hg : (ofKey d.key docs').Perm (ofKey d.key docs) := hp.filter _
      have heach : ∀ e ∈ ofKey d.key docs, e ∈ docs ∧ ofKey e.key docs = ofKey d.key docs := by
        intro e he
        have hkey : e.key = d.key := by simpa [ofKey] using (List.mem_filter.mp he).2
        exact ⟨List.mem_of_mem_filter he, by rw [hkey]⟩
      refine ⟨(peak_flatMap_perm_le_iff _ hmax).mpr (fun e he => ?_) _ hg, ?_⟩
      · have hwp := (hsafe e (heach e he).1 acc hacc).1
        rwa [(heach e he).2] at hwp
      · rw [added_neg]
        refine (peak_flatMap_perm_le_iff _ hmin).mpr (fun e he => ?_) _ hg
        have hwp := (hsafe e (heach e he).1 acc hacc).2
        rwa [(heach e he).2] at hwp
  · intro hall d hd acc hacc
    -- an order of the documents of the key is extended by the other documents
    have hstay : ∀ g : List (IntDoc path accs), g.Perm (ofKey d.key docs) →
        StaysWithin i64Min i64Max (added acc g) := by
      intro g hg
      have hrest : (g ++ docs.filter fun e => !decide (e.key = d.key)).Perm docs :=
        (hg.append_right _).trans (List.filter_append_perm _ _)
      have hx := hall _ hrest (keyDouble d.key) acc hacc
      have hbucket : bucket (keyDouble d.key) (g ++ docs.filter fun e => !decide (e.key = d.key)) =
          g := by
        have hin : bucket (keyDouble d.key) g = g := by
          refine List.filter_eq_self.mpr fun e he => ?_
          have hkey : e.key = d.key := by simpa [ofKey] using (List.mem_filter.mp (hg.mem_iff.mp he)).2
          rw [hkey]
          exact decide_eq_true rfl
        have hout : bucket (keyDouble d.key) (docs.filter fun e => !decide (e.key = d.key)) = [] := by
          refine List.filter_eq_nil_iff.mpr fun e he hx => ?_
          have hne : e.key ≠ d.key := by simpa using (List.mem_filter.mp he).2
          exact hne (h e (List.mem_of_mem_filter he) d hd (of_decide_eq_true hx))
        rw [bucket_append, hin, hout, List.append_nil]
      rwa [hbucket] at hx
    refine ⟨(peak_flatMap_perm_le_iff _ hmax).mp (fun g hg => (hstay g hg).1) d ?_,
      (peak_flatMap_perm_le_iff _ hmin).mp (fun g hg => ?_) d ?_⟩
    · simp [ofKey, hd]
    · have hneg := (hstay g hg).2
      rwa [added_neg] at hneg
    · simp [ofKey, hd]

end Orders

end ZydecoDb
