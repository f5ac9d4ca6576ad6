import ZydecoDb.Document.GroupSums

namespace ZydecoDb

open Lib ZDocBuilder ValueView

structure IntDoc (path : Bytes) (accs : List AccumulatorSpec) where
  value : Value
  parsed : value.Parsed
  depth : valueDepth value ≤ maxZdocDepth
  size : (encodeZDoc value).length < 2 ^ 32
  key : Int64
  key_eq : atSegments (path.splitOn 0x2E) value = some (.number (.ofI64 key))
  summable : ∀ acc ∈ accs, acc.op.Summable value

def keyDouble (key : Int64) : UInt64 := (Number.ofI64 key).asF64

def doubleKey (x : UInt64) : Bytes := tagNum :: encodeF64TotalOrder x

theorem doubleKey_injective {x y : UInt64} (h : doubleKey x = doubleKey y) : x = y := by
  have htail : encodeF64TotalOrder x = encodeF64TotalOrder y := (List.cons.inj h).2
  have happ : encodeF64TotalOrder x ++ [] = encodeF64TotalOrder y ++ [] := by rw [htail]
  exact (encodeF64TotalOrder_append_inj.mp happ).1

theorem length_doubleKey (x : UInt64) : (doubleKey x).length = 9 := by
  rw [doubleKey, encodeF64TotalOrder, List.length_cons, length_toBe]

section Updates

variable (f64Add : UInt64 → UInt64 → UInt64)

theorem addUp_eq {n : Int} (hlo : i64Min ≤ n) (hhi : n ≤ i64Max) (message : String) (l : List Int) :
    addUp message n l =
      if n + peak l ≤ i64Max ∧ - n + peak (l.map (- ·)) ≤ -i64Min then .ok (n + l.sum)
      else .error (badAggregation message) := by
  rw [addUp, sumWithin_eq hlo hhi]
  split_ifs <;> rfl

variable {path : Bytes} {accs : List AccumulatorSpec} (d : IntDoc path accs)
  {total next : AccumulatorSpec → Int}

theorem updateAll_ok {as : List AccumulatorSpec} (has : ∀ a ∈ as, a ∈ accs)
    (h : ∀ a ∈ as, addUp a.op.overflowText (total a) (a.op.contributions d.value) = .ok (next a)) :
    GroupEngine.updateAll f64Add (as.map fun a => a.op.state (total a)) as (encodeZDoc d.value) =
      .ok (as.map fun a => a.op.state (next a)) := by
  induction as with
  | nil => rfl
  | cons a as ih =>
    have hup := update_eq f64Add a d.parsed d.size d.depth (d.summable a (has a List.mem_cons_self))
      (total a)
    have hrest := ih (fun b hb => has b (List.mem_cons_of_mem a hb))
      fun b hb => h b (List.mem_cons_of_mem a hb)
    rw [h a List.mem_cons_self] at hup
    rw [List.map_cons, GroupEngine.updateAll, hup, List.map_cons]
    simp only [Except.map, Except.bind, hrest]

theorem updateAll_error (total : AccumulatorSpec → Int) {as : List AccumulatorSpec}
    (has : ∀ a ∈ as, a ∈ accs)
    (h : ∃ a ∈ as, ∀ m, addUp a.op.overflowText (total a) (a.op.contributions d.value) ≠ .ok m) :
    ∃ a ∈ as, GroupEngine.updateAll f64Add (as.map fun a => a.op.state (total a)) as
      (encodeZDoc d.value) = .error (badAggregation a.op.overflowText) := by
  induction as with
  | nil =>
    obtain ⟨a, ha, -⟩ := h
    cases ha
  | cons a as ih =>
    have hup := update_eq f64Add a d.parsed d.size d.depth (d.summable a (has a List.mem_cons_self))
      (total a)
    cases hadd : addUp a.op.overflowText (total a) (a.op.contributions d.value) with
    | error e =>
      have he : e = badAggregation a.op.overflowText := by
        rw [addUp] at hadd
        split at hadd
        next => cases hadd
        next =>
          cases hadd
          rfl
      refine ⟨a, List.mem_cons_self, ?_⟩
      rw [List.map_cons, GroupEngine.updateAll, hup, hadd, he]
      rfl
    | ok m =>
      obtain ⟨b, hb, hfail⟩ := h
      have hmem : b ∈ as := by
        rcases List.mem_cons.mp hb with rfl | hb
        · exact absurd hadd (hfail m)
        · exact hb
      obtain ⟨c, hc, hrest⟩ := ih (fun b hb => has b (List.mem_cons_of_mem a hb)) ⟨b, hmem, hfail⟩
      refine ⟨c, List.mem_cons_of_mem a hc, ?_⟩
      rw [List.map_cons, GroupEngine.updateAll, hup, hadd]
      simp only [Except.map, Except.bind, hrest]

end Updates

theorem asI64_ofI64 (i : Int64) : (Number.ofI64 i).asI64 = some i := by
  rw [Number.ofI64]
  split
  next => rfl
  next h =>
    have hlt : i.toUInt64.toNat < 2 ^ 63 := by
      have hzero : (0 : Int64).toInt = 0 := rfl
      have hint : i.toInt = i.toUInt64.toBitVec.toInt := rfl
      have hnat : i.toUInt64.toBitVec.toNat = i.toUInt64.toNat := rfl
      have hbound : i.toUInt64.toNat < 2 ^ 64 := i.toUInt64.toNat_lt
      rw [Int64.lt_iff_toInt_lt, hzero, hint, BitVec.toInt_eq_toNat_cond, hnat] at h
      split at h <;> omega
    rw [Number.asI64, if_pos hlt]
    rfl

section Keys

variable {path : Bytes} {accs : List AccumulatorSpec} (d : IntDoc path accs)

theorem groupKey_eq : groupKey (encodeZDoc d.value) (.field path) =
    .ok (doubleKey (keyDouble d.key), .number (.ofI64 d.key)) := by
  have hkey : (Number.ofI64 d.key).asI64 = some d.key := asI64_ofI64 d.key
  obtain ⟨hnum, hle, -⟩ := atSegments_part d.parsed d.key_eq
  have hsize := d.size
  obtain ⟨tail, hget⟩ : ∃ tail, getSegments (path.splitOn 0x2E) (encodeZDoc d.value ++ []) =
      (atSegments (path.splitOn 0x2E) d.value).map (encodeZDoc · ++ tail) :=
    getSegments_encodeZDoc d.parsed d.size []
  rw [List.append_nil, d.key_eq, Option.map_some] at hget
  have hview := encodeView_encodeZDoc hnum (by omega) tail
  have htag : typeByte (encodeZDoc (.number (.ofI64 d.key)) ++ tail) = typeI64 := by
    rw [writeNumber_asI64 hkey]
    rfl
  have hread : asI64 (encodeZDoc (.number (.ofI64 d.key)) ++ tail) = some d.key := by
    rw [writeNumber_asI64 hkey]
    exact asI64_layout d.key tail
  have hvalue : groupValue (some (encodeZDoc (.number (.ofI64 d.key)) ++ tail)) =
      .ok (.number (.ofI64 d.key)) := by
    simp only [groupValue, htag, hread]
    rfl
  simp only [groupKey, getPath, hget, hvalue, hview]
  rfl

end Keys

section Engine

variable {path : Bytes} {accs : List AccumulatorSpec}

def bucket (x : UInt64) (docs : List (IntDoc path accs)) : List (IntDoc path accs) :=
  docs.filter fun d => keyDouble d.key = x

def added (acc : AccumulatorSpec) (docs : List (IntDoc path accs)) : List Int :=
  docs.flatMap fun d => acc.op.contributions d.value

def groupOf (docs : List (IntDoc path accs)) : Option GroupState :=
  docs.head?.map fun d =>
    ⟨.number (.ofI64 d.key), accs.map fun acc => acc.op.state (added acc docs).sum⟩

theorem bucket_append (x : UInt64) (a b : List (IntDoc path accs)) :
    bucket x (a ++ b) = bucket x a ++ bucket x b := List.filter_append ..

theorem bucket_self (d : IntDoc path accs) : bucket (keyDouble d.key) [d] = [d] := by
  simp [bucket]

theorem bucket_other {x : UInt64} {d : IntDoc path accs} (h : keyDouble d.key ≠ x) :
    bucket x [d] = [] := by
  simp [bucket, h]

theorem added_append (acc : AccumulatorSpec) (a b : List (IntDoc path accs)) :
    added acc (a ++ b) = added acc a ++ added acc b := List.flatMap_append ..

/-- No group's total leaves `i64` on the way, in the order the documents come in. -/
def Steady (docs : List (IntDoc path accs)) : Prop :=
  ∀ x, ∀ acc ∈ accs, StaysWithin i64Min i64Max (added acc (bucket x docs))

theorem Steady.of_append {a b : List (IntDoc path accs)} (h : Steady (a ++ b)) : Steady a := by
  intro x acc hacc
  have hx := h x acc hacc
  rw [bucket_append, added_append] at hx
  exact (staysWithin_append.mp hx).1

def groupBytes (sizes : GroupSizes) (accs : List AccumulatorSpec) : Nat :=
  sizes.groupState + sizes.vec + 9 + accs.length * sizes.accumulatorState

/-- Groups of `n` keys stay within the stage's own limits on groups and on memory. -/
def Room (sizes : GroupSizes) (limits : GroupLimits) (accs : List AccumulatorSpec) (n : Nat) : Prop :=
  n ≤ limits.maxGroups ∧ groupBytes sizes accs * n ≤ limits.maxMemoryBytes.toNat

structure Grouped (sizes : GroupSizes) (done : List (IntDoc path accs)) (engine : GroupEngine) :
    Prop where
  groups : ∀ x, engine.groups.get (doubleKey x) = groupOf (bucket x done)
  only : ∀ k, engine.groups.get k ≠ none → ∃ d ∈ done, k = doubleKey (keyDouble d.key)
  memory : engine.memoryBytes = groupBytes sizes accs * engine.groups.size

theorem grouped_new (sizes : GroupSizes) : Grouped sizes ([] : List (IntDoc path accs)) .new where
  groups _ := rfl
  only _ h := absurd rfl h
  memory := (Nat.mul_zero _).symm

theorem size_insert {m : SortedMap Bytes GroupState} (k : Bytes) (g : GroupState) :
    (m.insert k g).size + (if m.get k = none then 0 else 1) = m.size + 1 := by
  have hsum := m.sum_insert k g fun _ => 1
  have hone : ∀ m : SortedMap Bytes GroupState, m.sum (fun _ => 1) = m.size := by
    intro m
    simp [SortedMap.sum, SortedMap.size]
  rw [hone, hone] at hsum
  cases hget : m.get k with
  | none => simpa [hget] using hsum
  | some g' => simpa [hget] using hsum

variable {sizes : GroupSizes} {limits : GroupLimits}

theorem estimatedGroupBytes_eq (sizes : GroupSizes) (accs : List AccumulatorSpec) (x : UInt64)
    (n : Number) (h : groupBytes sizes accs < 2 ^ 64) :
    GroupEngine.estimatedGroupBytes sizes (doubleKey x) (.number n) accs.length =
      .ok (groupBytes sizes accs) := by
  have hlen := length_doubleKey x
  rw [groupBytes] at h
  have hacc : checkedUsize (accs.length * sizes.accumulatorState) =
      some (accs.length * sizes.accumulatorState) := if_pos (by omega)
  have hbase : checkedUsize (sizes.groupState + sizes.vec) =
      some (sizes.groupState + sizes.vec) := if_pos (by omega)
  have hkey : checkedUsize (sizes.groupState + sizes.vec + 9) =
      some (sizes.groupState + sizes.vec + 9) := if_pos (by omega)
  have hall : checkedUsize (sizes.groupState + sizes.vec + 9 + accs.length * sizes.accumulatorState) =
      some (groupBytes sizes accs) := if_pos h
  simp only [GroupEngine.estimatedGroupBytes, hlen, hacc, hbase, hkey, hall, Option.bind_eq_bind,
    Option.bind_some, Nat.add_zero]

theorem openGroup_eq {done : List (IntDoc path accs)} {engine : GroupEngine} {x : UInt64}
    (hg : Grouped sizes done engine) (hroom : Room sizes limits accs (engine.groups.size + 1))
    (n : Number) :
    GroupEngine.openGroup sizes ⟨.field path, accs⟩ limits engine (doubleKey x) (.number n) =
      .ok ⟨engine.groups.insert (doubleKey x) ⟨.number n, accs.map AccumulatorState.new⟩,
        groupBytes sizes accs * (engine.groups.size + 1)⟩ := by
  have hmax := limits.maxMemoryBytes.toNat_lt
  have hbytes := hroom.2
  have hmul : groupBytes sizes accs * (engine.groups.size + 1) =
      groupBytes sizes accs * engine.groups.size + groupBytes sizes accs := Nat.mul_succ ..
  have hest := estimatedGroupBytes_eq sizes accs x n (by omega)
  have hnext : checkedUsize (engine.memoryBytes + groupBytes sizes accs) =
      some (groupBytes sizes accs * (engine.groups.size + 1)) := by
    rw [hg.memory, ← hmul]
    exact if_pos (by omega)
  have hcount : ¬ limits.maxGroups ≤ engine.groups.size := by
    have := hroom.1
    omega
  simp only [GroupEngine.openGroup, hcount, if_false, hest, Except.bind, hnext]
  rw [if_neg (by omega)]

theorem map_new (accs : List AccumulatorSpec) :
    accs.map AccumulatorState.new = accs.map fun acc => acc.op.state 0 := by
  refine List.map_congr_left fun acc _ => ?_
  obtain ⟨field, op⟩ := acc
  cases op <;> rfl

/-- With room for one more, the document's group is there or is opened. -/
theorem group_ready {done : List (IntDoc path accs)} {engine : GroupEngine} (d : IntDoc path accs)
    (hg : Grouped sizes done engine)
    (hroom : engine.groups.get (doubleKey (keyDouble d.key)) = none →
      Room sizes limits accs (engine.groups.size + 1)) :
    ∃ ready : GroupEngine,
      (if engine.groups.contains (doubleKey (keyDouble d.key)) then .ok engine
        else GroupEngine.openGroup sizes ⟨.field path, accs⟩ limits engine
          (doubleKey (keyDouble d.key)) (.number (.ofI64 d.key))) = .ok ready ∧
      ready.groups.get (doubleKey (keyDouble d.key)) =
        some ⟨.number (.ofI64 ((bucket (keyDouble d.key) done).headD d).key),
          accs.map fun acc => acc.op.state (added acc (bucket (keyDouble d.key) done)).sum⟩ ∧
      (∀ k, k ≠ doubleKey (keyDouble d.key) → ready.groups.get k = engine.groups.get k) ∧
      ready.memoryBytes = groupBytes sizes accs * ready.groups.size := by
  have hget := hg.groups (keyDouble d.key)
  cases hb : bucket (keyDouble d.key) done with
  | nil =>
    rw [hb] at hget
    have hnone : engine.groups.get (doubleKey (keyDouble d.key)) = none := hget
    have hcont : ¬ engine.groups.contains (doubleKey (keyDouble d.key)) = true := by
      rw [SortedMap.contains, hnone]
      decide
    refine ⟨_, (if_neg hcont).trans (openGroup_eq hg (hroom hnone) (.ofI64 d.key)), ?_, ?_, ?_⟩
    · rw [SortedMap.get_insert_self, map_new]
      rfl
    · exact fun k hk => SortedMap.get_insert_ne hk
    · have hsize := size_insert (m := engine.groups) (doubleKey (keyDouble d.key))
        ⟨.number (.ofI64 d.key), accs.map AccumulatorState.new⟩
      rw [if_pos hnone, Nat.add_zero] at hsize
      rw [hsize]
  | cons e rest =>
    rw [hb] at hget
    have hcont : engine.groups.contains (doubleKey (keyDouble d.key)) = true := by
      rw [SortedMap.contains, hget]
      rfl
    exact ⟨engine, if_pos hcont, hget, fun _ _ => rfl, hg.memory⟩

theorem steady_concat_iff {done : List (IntDoc path accs)} (d : IntDoc path accs)
    (h : Steady done) : Steady (done ++ [d]) ↔ ∀ acc ∈ accs, StaysWithin i64Min i64Max
      (added acc (bucket (keyDouble d.key) done) ++ acc.op.contributions d.value) := by
  have hself : ∀ acc : AccumulatorSpec, added acc [d] = acc.op.contributions d.value :=
    fun acc => by rw [added, List.flatMap_cons, List.flatMap_nil, List.append_nil]
  constructor
  · intro hs acc hacc
    have hx := hs (keyDouble d.key) acc hacc
    rwa [bucket_append, bucket_self, added_append, hself] at hx
  · intro hs x acc hacc
    by_cases hx : keyDouble d.key = x
    · rw [← hx, bucket_append, bucket_self, added_append, hself]
      exact hs acc hacc
    · rw [bucket_append, bucket_other hx, List.append_nil]
      exact h x acc hacc

end Engine

end ZydecoDb
