import ZydecoDb.Document.GroupValues

namespace ZydecoDb

open Lib ZDocBuilder ValueView

def addUp (message : String) (n : Int) (l : List Int) : DocResult Int :=
  match sumWithin i64Min i64Max n l with
  | some m => .ok m
  | none => .error (badAggregation message)

theorem addUp_append (message : String) (n : Int) (a b : List Int) :
    addUp message n (a ++ b) = (addUp message n a).bind fun m => addUp message m b := by
  rw [addUp, sumWithin_append, addUp]
  cases sumWithin i64Min i64Max n a with
  | none => rfl
  | some m => rfl

theorem visitAll_addUp (message : String) (f : Value → List Int) (ws : List Value) (n : Int) :
    visitAll (fun w m => addUp message m (f w)) ws n = addUp message n (ws.flatMap f) := by
  induction ws generalizing n with
  | nil => rfl
  | cons w ws ih =>
    rw [visitAll, List.flatMap_cons, addUp_append]
    cases addUp message n (f w) with
    | error e => rfl
    | ok m => exact ih m

theorem addUp_single (message : String) (n x : Int) : addUp message n [x] =
    match checkedAdd n x with
    | some m => .ok m
    | none => .error (badAggregation message) := by
  have hsum : sumWithin i64Min i64Max n [x] = checkedAdd n x := rfl
  rw [addUp, hsum]

namespace AccumulatorOp

def overflowText : AccumulatorOp → String
  | .sum _ => "$sum integer overflow"
  | .count => "$count integer overflow"
  | .size _ => "$size integer overflow"

def state : AccumulatorOp → Int → AccumulatorState
  | .sum _, n => .sum (.integer n)
  | .count, n => .count n
  | .size _, n => .size n

def arraySizes (w : Value) : List Int := (w.items.map fun items => (items.length : Int)).toList

def contributions (op : AccumulatorOp) (v : Value) : List Int :=
  match op with
  | .sum path => (reached v (path.splitOn 0x2E)).flatMap intLeaves
  | .count => [1]
  | .size path => (reached v (path.splitOn 0x2E)).flatMap arraySizes

def Summable (op : AccumulatorOp) (v : Value) : Prop :=
  match op with
  | .sum path => ∀ w ∈ reached v (path.splitOn 0x2E), onlyInts w = true
  | _ => True

end AccumulatorOp

open AccumulatorOp

theorem writeNumber_asI64 {n : Number} {i : Int64} (h : n.asI64 = some i) :
    encodeZDoc (.number n) = typeI64 :: toLe 8 i.toUInt64.toNat := by
  rw [encodeZDoc, writeNumber, h]

theorem sumState_add_int (f64Add : UInt64 → UInt64 → UInt64) {n : Number} {i : Int64}
    (h : n.asI64 = some i) (tail : Bytes) (sum : Int) :
    SumState.add f64Add (.integer sum) (encodeZDoc (.number n) ++ tail) =
      (addUp "$sum integer overflow" sum [i.toInt]).map .integer := by
  have htag : typeByte (encodeZDoc (.number n) ++ tail) = typeI64 := by
    rw [writeNumber_asI64 h]
    rfl
  have hread : asI64 (encodeZDoc (.number n) ++ tail) = some i := by
    rw [writeNumber_asI64 h]
    exact asI64_layout i tail
  rw [addUp_single]
  simp only [SumState.add, htag, if_true, hread]
  cases checkedAdd sum i.toInt with
  | none => rfl
  | some m => rfl

theorem sumAddTerminal_eq (f64Add : UInt64 → UInt64 → UInt64) {levels : Nat} {w : Value}
    (hd : valueDepth w ≤ levels) (hints : onlyInts w = true) :
    VisitsAs SumState.integer (sumAddTerminal f64Add levels)
      (fun w n => addUp "$sum integer overflow" n (intLeaves w)) w := by
  induction levels generalizing w with
  | zero =>
    have hpos := valueDepth_pos w
    omega
  | succ levels ih =>
    intro hw hlen tail sum
    beta_reduce
    cases w with
    | number n =>
      rw [onlyInts, Option.isSome_iff_exists] at hints
      obtain ⟨i, hi⟩ := hints
      have htag : typeByte (encodeZDoc (.number n) ++ tail) ≠ typeArray := by
        rw [writeNumber_asI64 hi]
        show typeI64 ≠ typeArray
        decide
      have hleaves : intLeaves (.number n) = [i.toInt] := by
        rw [intLeaves, hi]
        rfl
      rw [sumAddTerminal, if_neg htag, sumState_add_int f64Add hi, hleaves]
    | array items =>
      have htag : typeByte (encodeZDoc (.array items) ++ tail) = typeArray := rfl
      have hr := readsItems_encodeZDoc hw hlen tail
      rw [onlyInts, allOnlyInts_iff] at hints
      rw [valueDepth] at hd
      have hitem : ∀ u ∈ items, VisitsAs SumState.integer (sumAddTerminal f64Add levels)
          (fun w n => addUp "$sum integer overflow" n (intLeaves w)) u := by
        intro u hu
        have hle := valueDepth_le_items hu
        exact ih (by omega) (hints u hu)
      have heach := eachElement_eq SumState.integer hr hitem (n := items.length) (i := 0) (by omega) sum
      have hleaves : intLeaves (.array items) = items.flatMap intLeaves := by
        rw [intLeaves, itemLeaves_eq]
      rw [sumAddTerminal, if_pos htag, hr.count, Option.getD_some, heach, List.drop_zero,
        visitAll_addUp, hleaves]
    | _ => cases hints

theorem sizeTerminal_eq (w : Value) :
    VisitsAs id sizeTerminal (fun w n => addUp "$size integer overflow" n (arraySizes w)) w := by
  intro hw hlen tail total
  cases w with
  | array items =>
    have htag : typeByte (encodeZDoc (.array items) ++ tail) = typeArray := rfl
    have hr := readsItems_encodeZDoc hw hlen tail
    have hcount : items.length < 2 ^ 32 := by
      rw [encodeZDoc, encodeItems_eq, arrayLayout_eq, List.length_append, length_arrayHead,
        List.length_map] at hlen
      omega
    have hfits : ¬ i64Max < (items.length : Int) := by
      rw [i64Max]
      omega
    have hsizes : arraySizes (.array items) = [(items.length : Int)] := rfl
    simp only [sizeTerminal, htag, if_true, hr.count, Option.getD_some, id_eq, hfits, if_false, hsizes,
      addUp_single]
    cases checkedAdd total items.length with
    | none => rfl
    | some m => rfl
  | number n =>
    rcases typeByte_number n tail with htag | htag <;> simp only [sizeTerminal, htag] <;> rfl
  | bool b => cases b <;> rfl
  | _ => rfl

/-- Updating an accumulator from stored bytes adds up the integers at its path. -/
theorem update_eq (f64Add : UInt64 → UInt64 → UInt64) (acc : AccumulatorSpec) {v : Value}
    (hv : v.Parsed) (hlen : (encodeZDoc v).length < 2 ^ 32) (hd : valueDepth v ≤ maxZdocDepth)
    (hints : acc.op.Summable v) (n : Int) :
    (acc.op.state n).update f64Add acc (encodeZDoc v) =
      (addUp acc.op.overflowText n (acc.op.contributions v)).map acc.op.state := by
  obtain ⟨field, op⟩ := acc
  have hroot : encodeZDoc v ++ [] = encodeZDoc v := List.append_nil _
  cases op with
  | count =>
    simp only [AccumulatorState.update, AccumulatorOp.state, contributions, overflowText, addUp_single]
    cases checkedAdd n 1 with
    | none => rfl
    | some m => rfl
  | sum path =>
    have hvisit : ∀ w ∈ reached v (path.splitOn 0x2E), VisitsAs SumState.integer
        (sumAddTerminal f64Add (maxAccumulatorPathDepth + 1 - (path.splitOn 0x2E).length))
        (fun w n => addUp "$sum integer overflow" n (intLeaves w)) w := by
      intro w hw
      have hle := valueDepth_reached hd hw
      refine sumAddTerminal_eq f64Add ?_ (hints w hw)
      rw [maxAccumulatorPathDepth]
      omega
    have hwalk := forEachAtPath_eq SumState.integer hv hlen
      (hd.trans (Nat.le_succ maxAccumulatorPathDepth)) hvisit [] n
    rw [hroot, visitAll_addUp] at hwalk
    simp only [AccumulatorState.update, AccumulatorOp.state, contributions, overflowText, hwalk]
    cases addUp "$sum integer overflow" n ((reached v (path.splitOn 0x2E)).flatMap intLeaves) with
    | error e => rfl
    | ok m => rfl
  | size path =>
    have hvisit : ∀ w ∈ reached v (path.splitOn 0x2E), VisitsAs id sizeTerminal
        (fun w n => addUp "$size integer overflow" n (arraySizes w)) w := fun w _ => sizeTerminal_eq w
    have hwalk := forEachAtPath_eq id hv hlen (hd.trans (Nat.le_succ maxAccumulatorPathDepth))
      hvisit [] n
    rw [hroot, visitAll_addUp, id_eq] at hwalk
    simp only [AccumulatorState.update, AccumulatorOp.state, contributions, overflowText, hwalk]
    cases addUp "$size integer overflow" n ((reached v (path.splitOn 0x2E)).flatMap arraySizes) with
    | error e => rfl
    | ok m => rfl

end ZydecoDb
