import ZydecoDb.Document.Store
import ZydecoDb.Lib.FirstLess
import Mathlib

namespace ZydecoDb

open Lib

def f64Order (bits : UInt64) : Int :=
  if bits.toNat < 2 ^ 63 then bits.toNat else 2 ^ 63 - 1 - bits.toNat

namespace IndexValue

def typeRank : IndexValue → Nat
  | .null => 0
  | .bool _ => 1
  | .number _ => 2
  | .string _ => 3

def order : IndexValue → IndexValue → Ordering
  | .bool a, .bool b => cmp a b
  | .number a, .number b => cmp (f64Order a) (f64Order b)
  | .string s, .string t => byteCmp s t
  | a, b => cmp a.typeRank b.typeRank

end IndexValue

def compareFields : List Bool → List Value → List Value → Ordering
  | directions, v :: vs, w :: ws =>
    let field := v.indexValue.order w.indexValue
    (if directions.headD true then field else field.swap).then
      (compareFields directions.tail vs ws)
  | _, _, _ => .eq

def encodeFields (values : List Value) : Bytes := values.flatMap encodeValue

def walkStr : Bytes → Except Unit Bytes
  | [] => .error ()
  | b :: rest =>
    if b = 0x00 then
      match rest with
      | [] => .error ()
      | c :: rest => if c = 0x00 then .ok rest else if c = 0xFF then walkStr rest else .error ()
    else walkStr rest

def walkField : Bytes → Except Unit Bytes
  | [] => .error ()
  | tag :: rest =>
    if tag = tagNull then .ok rest
    else if tag = tagBool then if rest.length < 1 then .error () else .ok (rest.drop 1)
    else if tag = tagNum then if rest.length < 8 then .error () else .ok (rest.drop 8)
    else if tag = tagStr then walkStr rest
    else .error ()

def walkFields : Nat → Bytes → Except Unit Nat
  | _, [] => .ok 0
  | 0, _ :: _ => .error ()
  | fuel + 1, tag :: bytes =>
    (walkField (tag :: bytes)).bind fun rest => (walkFields fuel rest).map (· + 1)

def tryDecodeFields (bytes : Bytes) : Except Unit Nat := walkFields bytes.length bytes

theorem f64TotalOrder_toNat (bits : UInt64) :
    ((f64TotalOrder bits).toNat : Int) = f64Order bits + 2 ^ 63 := by
  have hlt := bits.toNat_lt
  have hnat := toNat_f64TotalOrder bits
  unfold f64Order
  split at hnat <;> split <;> omega

theorem firstLess_encodeF64TotalOrder {a b : UInt64} (h : f64Order a < f64Order b) :
    FirstLess (encodeF64TotalOrder a) (encodeF64TotalOrder b) := by
  have ha := f64TotalOrder_toNat a
  have hb := f64TotalOrder_toNat b
  exact firstLess_toBe (by omega) (f64TotalOrder b).toNat_lt

theorem firstLess_encodeStr {s t : Bytes} (h : s < t) : FirstLess (encodeStr s) (encodeStr t) := by
  have hpos : ∀ b : UInt8, b ≠ 0x00 → 0x00 < b := by
    intro b hb
    rw [UInt8.lt_iff_toNat_lt]
    have hne : b.toNat ≠ 0 := fun he => hb (UInt8.toNat_inj.mp he)
    simp only [UInt8.reduceToNat]
    omega
  induction s generalizing t with
  | nil =>
    cases t with
    | nil => exact absurd h (lt_irrefl _)
    | cons b t =>
      simp only [encodeStr]
      split
      next => exact .tail (.head (by decide))
      next hb => exact .head (hpos b hb)
  | cons a s ih =>
    cases t with
    | nil => exact absurd h (List.not_lt_nil _)
    | cons b t =>
      rcases cons_lt_cons.mp h with hab | ⟨rfl, hst⟩
      · have hb : b ≠ 0x00 := by
          rintro rfl
          rw [UInt8.lt_iff_toNat_lt] at hab
          simp at hab
        simp only [encodeStr, if_neg hb]
        split
        next => exact .head (hpos b hb)
        next => exact .head hab
      · simp only [encodeStr]
        split
        next => exact .tail (.tail (ih hst))
        next => exact .tail (ih hst)

theorem f64Order_injective {a b : UInt64} (h : f64Order a = f64Order b) : a = b := by
  have ha := f64TotalOrder_toNat a
  have hb := f64TotalOrder_toNat b
  exact f64TotalOrder_injective (UInt64.toNat_inj.mp (by omega))

namespace IndexValue

theorem order_swap (a b : IndexValue) : (a.order b).swap = b.order a := by
  cases a <;> cases b <;> exact cmp_swap _ _

theorem eq_of_order {a b : IndexValue} (h : a.order b = .eq) : a = b := by
  cases a <;> cases b <;> simp only [order, cmp_eq_eq_iff, byteCmp_eq_eq] at h
  case null.null => rfl
  case bool.bool => rw [h]
  case number.number => rw [f64Order_injective h]
  case string.string => rw [h]
  all_goals simp [typeRank] at h

theorem firstLess_of_order {a b : IndexValue} (h : a.order b = .lt) :
    FirstLess a.encode b.encode := by
  cases a <;> cases b <;> simp only [order, cmp_eq_lt_iff, byteCmp_eq_lt] at h
  case bool.bool x y =>
    obtain ⟨rfl, rfl⟩ := Bool.lt_iff.mp h
    exact .tail (.head (by decide))
  case number.number => exact .tail (firstLess_encodeF64TotalOrder h)
  case string.string => exact .tail (firstLess_encodeStr h)
  all_goals first
    | exact .head (by decide)
    | simp [typeRank] at h

end IndexValue

theorem firstLess_encodeValueDirected {v w : Value} {ascending : Bool}
    (h : (if ascending then v.indexValue.order w.indexValue
      else (v.indexValue.order w.indexValue).swap) = .lt) :
    FirstLess (encodeValueDirected v ascending) (encodeValueDirected w ascending) := by
  cases ascending with
  | true =>
    have hless := IndexValue.firstLess_of_order h
    rwa [← encodeValue_eq, ← encodeValue_eq] at hless
  | false =>
    have hlt : w.indexValue.order v.indexValue = .lt := by
      rw [← IndexValue.order_swap]
      exact h
    have hless := IndexValue.firstLess_of_order hlt
    rw [← encodeValue_eq, ← encodeValue_eq] at hless
    exact hless.complement

theorem compareFields_swap (directions : List Bool) (vs ws : List Value) :
    (compareFields directions vs ws).swap = compareFields directions ws vs := by
  induction vs generalizing directions ws with
  | nil => cases ws <;> rfl
  | cons v vs ih =>
    cases ws with
    | nil => rfl
    | cons w ws =>
      simp only [compareFields]
      rw [Ordering.swap_then, ih]
      congr 1
      split
      next => exact IndexValue.order_swap _ _
      next => rw [IndexValue.order_swap]

theorem indexValue_of_compareFields {directions : List Bool} {vs ws : List Value}
    (hlen : vs.length = ws.length) (h : compareFields directions vs ws = .eq) :
    vs.map Value.indexValue = ws.map Value.indexValue := by
  induction vs generalizing directions ws with
  | nil =>
    cases ws with
    | nil => rfl
    | cons w ws => simp at hlen
  | cons v vs ih =>
    cases ws with
    | nil => simp at hlen
    | cons w ws =>
      simp only [compareFields, Ordering.then_eq_eq] at h
      have hfield : v.indexValue.order w.indexValue = .eq := by
        have hfirst := h.1
        split at hfirst
        next => exact hfirst
        next => exact Ordering.swap_eq_eq.mp hfirst
      rw [List.map_cons, List.map_cons, IndexValue.eq_of_order hfield, ih (Nat.succ.inj hlen) h.2]

theorem encodeFieldsWithDirections_congr {vs ws : List Value} (directions : List Bool)
    (h : vs.map Value.indexValue = ws.map Value.indexValue) :
    encodeFieldsWithDirections vs directions = encodeFieldsWithDirections ws directions := by
  have hlen : vs.length = ws.length := by
    simpa using congrArg List.length h
  have hinj : encodeFieldsWithDirections vs directions ++ [] =
      encodeFieldsWithDirections ws directions ++ [] :=
    (encodeFieldsWithDirections_append_inj hlen).mpr ⟨h, rfl⟩
  simpa using hinj

theorem firstLess_of_compareFields {directions : List Bool} {vs ws : List Value}
    (h : compareFields directions vs ws = .lt) :
    FirstLess (encodeFieldsWithDirections vs directions)
      (encodeFieldsWithDirections ws directions) := by
  induction vs generalizing directions ws with
  | nil => simp [compareFields] at h
  | cons v vs ih =>
    cases ws with
    | nil => simp [compareFields] at h
    | cons w ws =>
      simp only [compareFields, Ordering.then_eq_lt] at h
      simp only [encodeFieldsWithDirections]
      rcases h with h | ⟨heq, h⟩
      · exact (firstLess_encodeValueDirected h).append _ _
      · have hfield : v.indexValue.order w.indexValue = .eq := by
          split at heq
          next => exact heq
          next => exact Ordering.swap_eq_eq.mp heq
        have hsame : encodeValueDirected v (directions.headD true) ++ [] =
            encodeValueDirected w (directions.headD true) ++ [] :=
          encodeValueDirected_append_inj.mpr ⟨IndexValue.eq_of_order hfield, rfl⟩
        rw [List.append_nil, List.append_nil] at hsame
        rw [hsame]
        exact (ih h).prepend _

theorem walkStr_encodeStr (s x : Bytes) : walkStr (encodeStr s ++ x) = .ok x := by
  induction s with
  | nil => rfl
  | cons b s ih =>
    simp only [encodeStr]
    split
    next => simpa [walkStr] using ih
    next hb =>
      rw [List.cons_append, walkStr.eq_def]
      simpa [hb] using ih

theorem walkField_encodeValue (v : Value) (x : Bytes) : walkField (encodeValue v ++ x) = .ok x := by
  cases v with
  | null => rfl
  | bool b => rfl
  | number n =>
    have hlen : (encodeF64TotalOrder n.asF64).length = 8 := length_toBe 8 _
    have hdrop : (encodeF64TotalOrder n.asF64 ++ x).drop 8 = x := List.drop_left' hlen
    have hlong : ¬ (encodeF64TotalOrder n.asF64 ++ x).length < 8 := by
      rw [List.length_append]
      omega
    simp only [encodeValue, List.cons_append, walkField, if_neg hlong, hdrop]
    rfl
  | string s => exact walkStr_encodeStr s x
  | array items => rfl
  | object members => rfl

theorem encodeValue_ne_nil (v : Value) : encodeValue v ≠ [] := by
  cases v <;> simp [encodeValue]

theorem walkFields_encodeFields {fuel : Nat} {vs : List Value} (h : vs.length ≤ fuel) :
    walkFields fuel (encodeFields vs) = .ok vs.length := by
  induction vs generalizing fuel with
  | nil => cases fuel <;> rfl
  | cons v vs ih =>
    obtain ⟨fuel, rfl⟩ : ∃ n, fuel = n + 1 := ⟨fuel - 1, by simp only [List.length_cons] at h; omega⟩
    have hwalk := walkField_encodeValue v (encodeFields vs)
    obtain ⟨b, rest, hb⟩ : ∃ b rest, encodeValue v ++ encodeFields vs = b :: rest :=
      List.exists_cons_of_ne_nil (by simp [encodeValue_ne_nil])
    have hcons : encodeFields (v :: vs) = b :: rest := by
      rw [← hb]
      rfl
    rw [hb] at hwalk
    rw [hcons, walkFields, hwalk]
    show Except.map _ (walkFields fuel (encodeFields vs)) = _
    rw [ih (by simpa using h)]
    rfl

theorem length_le_encodeFields (vs : List Value) : vs.length ≤ (encodeFields vs).length := by
  induction vs with
  | nil => exact le_rfl
  | cons v vs ih =>
    have hpos := List.length_pos_iff.mpr (encodeValue_ne_nil v)
    have hlen : (encodeFields (v :: vs)).length =
        (encodeValue v).length + (encodeFields vs).length := List.length_append
    rw [List.length_cons]
    omega

theorem bump_concat (p : Bytes) (b : UInt8) :
    bump (p ++ [b]) = if b = 0xFF then bump p else some (p ++ [b + 1]) := by
  induction p with
  | nil =>
    simp only [List.nil_append, bump]
  | cons a p ih =>
    rw [List.cons_append, bump, ih]
    by_cases hb : b = 0xFF
    · simp only [if_pos hb]
      rfl
    · simp only [if_neg hb]
      rfl

theorem prefixUpperBound_eq_bump (p : Bytes) : prefixUpperBound p = (bump p).getD [] := by
  unfold prefixUpperBound
  induction p using List.reverseRecOn with
  | nil => rfl
  | append_singleton p b ih =>
    rw [List.reverse_append, bump_concat]
    simp only [List.reverse_singleton, List.singleton_append, popUpperBound]
    split
    next => exact ih
    next => simp

theorem prefixUpperBound_ne_nil {p : Bytes} {b : UInt8} (hb : b ∈ p) (hne : b ≠ 0xFF) :
    prefixUpperBound p ≠ [] := by
  have hpop : ∀ l : Bytes, b ∈ l → popUpperBound l ≠ [] := by
    intro l hl
    induction l with
    | nil => exact absurd hl List.not_mem_nil
    | cons last rest ih =>
      rw [popUpperBound]
      split
      next heq => exact ih ((List.mem_cons.mp hl).resolve_left (heq ▸ hne))
      next => simp
  exact hpop _ (List.mem_reverse.mpr hb)

/-- The keys under a prefix are those from it up to its upper bound. -/
theorem prefix_iff_prefixUpperBound (p k : Bytes) :
    p <+: k ↔ p ≤ k ∧ (prefixUpperBound p = [] ∨ k < prefixUpperBound p) := by
  cases h : bump p with
  | none =>
    have hnone : prefixUpperBound p = [] := by rw [prefixUpperBound_eq_bump, h]; rfl
    simp [hnone, le_iff_prefix_of_bump_none h]
  | some q =>
    have hsome : prefixUpperBound p = q := by rw [prefixUpperBound_eq_bump, h]; rfl
    rw [hsome, ← mem_range_bump h]
    simp [bump_ne_nil h]

end ZydecoDb
