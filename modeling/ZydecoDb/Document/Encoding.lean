import ZydecoDb.Document.Value
import ZydecoDb.Lib.BigEndian
import Mathlib.Data.Nat.Bitwise

namespace ZydecoDb

open Lib

def tagNull : UInt8 := 0x00
def tagBool : UInt8 := 0x01
def tagNum : UInt8 := 0x02
def tagStr : UInt8 := 0x03

def f64SignBit : UInt64 := (1 : UInt64) <<< 63

def f64TotalOrder (bits : UInt64) : UInt64 :=
  if bits &&& f64SignBit ≠ 0 then ~~~bits else bits ||| f64SignBit

def encodeF64TotalOrder (bits : UInt64) : Bytes := toBe 8 (f64TotalOrder bits).toNat

def encodeStr : Bytes → Bytes
  | [] => [0x00, 0x00]
  | b :: s => if b = 0x00 then 0x00 :: 0xFF :: encodeStr s else b :: encodeStr s

def encodeValue : Value → Bytes
  | .null => [tagNull]
  | .bool b => [tagBool, if b then 1 else 0]
  | .number n => tagNum :: encodeF64TotalOrder n.asF64
  | .string s => tagStr :: encodeStr s
  | .array _ | .object _ => [tagNull]

def invertEncoding (bytes : Bytes) : Bytes := bytes.map (~~~ ·)

def encodeValueDesc (v : Value) : Bytes := invertEncoding (encodeValue v)

def encodeValueDirected (v : Value) (ascending : Bool) : Bytes :=
  if ascending then encodeValue v else encodeValueDesc v

def encodeFieldsWithDirections : List Value → List Bool → Bytes
  | [], _ => []
  | v :: values, directions =>
    encodeValueDirected v (directions.headD true) ++
      encodeFieldsWithDirections values directions.tail

inductive IndexValue
  | null
  | bool (b : Bool)
  | number (bits : UInt64)
  | string (s : Bytes)
deriving DecidableEq, Repr

def Value.indexValue : Value → IndexValue
  | .null => .null
  | .bool b => .bool b
  | .number n => .number n.asF64
  | .string s => .string s
  | .array _ | .object _ => .null

theorem and_f64SignBit_ne_zero (bits : UInt64) :
    bits &&& f64SignBit ≠ 0 ↔ 2 ^ 63 ≤ bits.toNat := by
  have hlt := bits.toNat_lt
  have hsign : f64SignBit.toNat = 2 ^ 63 := by decide
  rw [← UInt64.toNat_inj.ne, UInt64.toNat_and, hsign, Nat.and_two_pow, Nat.testBit_eq_decide_div_mod_eq]
  have hbit : bits.toNat / 2 ^ 63 % 2 = 1 ↔ 2 ^ 63 ≤ bits.toNat := by omega
  by_cases h : bits.toNat / 2 ^ 63 % 2 = 1
  · rw [decide_eq_true h]
    exact iff_of_true (by decide) (hbit.mp h)
  · rw [decide_eq_false h]
    exact iff_of_false (by simp) (mt hbit.mpr h)

theorem toNat_f64TotalOrder (bits : UInt64) : (f64TotalOrder bits).toNat =
    if 2 ^ 63 ≤ bits.toNat then 2 ^ 64 - 1 - bits.toNat else bits.toNat + 2 ^ 63 := by
  have hlt := bits.toNat_lt
  have hsign : f64SignBit.toNat = 2 ^ 63 := by decide
  unfold f64TotalOrder
  split
  next h =>
    rw [if_pos ((and_f64SignBit_ne_zero bits).mp h), UInt64.toNat_not]
    rfl
  next h =>
    have hsmall := mt (and_f64SignBit_ne_zero bits).mpr h
    have hor := Nat.two_pow_add_eq_or_of_lt (not_le.mp hsmall) 1
    rw [Nat.mul_one] at hor
    rw [if_neg hsmall, UInt64.toNat_or, hsign, Nat.or_comm, ← hor, Nat.add_comm]

theorem f64TotalOrder_injective {a b : UInt64} (h : f64TotalOrder a = f64TotalOrder b) : a = b := by
  have ha := toNat_f64TotalOrder a
  have hb := toNat_f64TotalOrder b
  have hlt := a.toNat_lt
  have hlt' := b.toNat_lt
  rw [h] at ha
  refine UInt64.toNat_inj.mp ?_
  split at ha <;> split at hb <;> omega

theorem encodeStr_append_inj {s t x y : Bytes} :
    encodeStr s ++ x = encodeStr t ++ y ↔ s = t ∧ x = y := by
  refine ⟨fun h => ?_, fun ⟨hs, hx⟩ => by rw [hs, hx]⟩
  induction s generalizing t with
  | nil =>
    cases t with
    | nil => simpa [encodeStr] using h
    | cons b t =>
      by_cases hb : b = 0x00
      · simp [encodeStr, hb] at h
      · simp [encodeStr, hb, eq_comm] at h
  | cons a s ih =>
    cases t with
    | nil =>
      by_cases ha : a = 0x00
      · simp [encodeStr, ha] at h
      · simp [encodeStr, ha] at h
    | cons b t =>
      by_cases ha : a = 0x00 <;> by_cases hb : b = 0x00
      · simp only [encodeStr, ha, hb, if_true, List.cons_append, List.cons.injEq, true_and] at h
        obtain ⟨rfl, hx⟩ := ih h
        exact ⟨by rw [ha, hb], hx⟩
      · simp [encodeStr, ha, hb, eq_comm] at h
      · simp [encodeStr, ha, hb] at h
      · simp only [encodeStr, ha, hb, if_false, List.cons_append, List.cons.injEq] at h
        obtain ⟨rfl, hx⟩ := ih h.2
        exact ⟨by rw [h.1], hx⟩

theorem toBe_append_inj {w m n : Nat} (hm : m < 256 ^ w) (hn : n < 256 ^ w) {x y : Bytes} :
    toBe w m ++ x = toBe w n ++ y ↔ m = n ∧ x = y := by
  refine ⟨fun h => ?_, fun ⟨hs, hx⟩ => by rw [hs, hx]⟩
  obtain ⟨hbe, hx⟩ := List.append_inj h (by simp)
  have hof := congrArg ofBe hbe
  rw [ofBe_toBe hm, ofBe_toBe hn] at hof
  exact ⟨hof, hx⟩

theorem encodeF64TotalOrder_append_inj {a b : UInt64} {x y : Bytes} :
    encodeF64TotalOrder a ++ x = encodeF64TotalOrder b ++ y ↔ a = b ∧ x = y := by
  have hlt := fun c : UInt64 => (f64TotalOrder c).toNat_lt
  rw [encodeF64TotalOrder, encodeF64TotalOrder, toBe_append_inj (hlt a) (hlt b)]
  refine and_congr_left fun _ => ⟨fun h => ?_, fun h => by rw [h]⟩
  exact f64TotalOrder_injective (UInt64.toNat_inj.mp h)

def IndexValue.encode : IndexValue → Bytes
  | .null => [tagNull]
  | .bool b => [tagBool, if b then 1 else 0]
  | .number bits => tagNum :: encodeF64TotalOrder bits
  | .string s => tagStr :: encodeStr s

theorem encodeValue_eq (v : Value) : encodeValue v = v.indexValue.encode := by
  cases v <;> rfl

theorem encodeValue_append_inj {v w : Value} {x y : Bytes} :
    encodeValue v ++ x = encodeValue w ++ y ↔ v.indexValue = w.indexValue ∧ x = y := by
  rw [encodeValue_eq, encodeValue_eq]
  generalize v.indexValue = a
  generalize w.indexValue = b
  cases a <;> cases b <;>
    simp [IndexValue.encode, tagNull, tagBool, tagNum, tagStr, encodeF64TotalOrder_append_inj,
      encodeStr_append_inj]
  next b c => cases b <;> cases c <;> simp

theorem invertEncoding_invertEncoding (b : Bytes) : invertEncoding (invertEncoding b) = b := by
  have hnot : ((fun c : UInt8 => ~~~c) ∘ fun c => ~~~c) = id := by
    funext c
    exact UInt8.not_not
  rw [invertEncoding, invertEncoding, List.map_map, hnot, List.map_id]

theorem invertEncoding_append (a b : Bytes) :
    invertEncoding (a ++ b) = invertEncoding a ++ invertEncoding b := List.map_append

theorem invertEncoding_inj {a b : Bytes} : invertEncoding a = invertEncoding b ↔ a = b := by
  refine ⟨fun h => ?_, fun h => by rw [h]⟩
  rw [← invertEncoding_invertEncoding a, h, invertEncoding_invertEncoding]

theorem encodeValueDirected_append_inj {v w : Value} {ascending : Bool} {x y : Bytes} :
    encodeValueDirected v ascending ++ x = encodeValueDirected w ascending ++ y ↔
      v.indexValue = w.indexValue ∧ x = y := by
  cases ascending with
  | true => exact encodeValue_append_inj
  | false =>
    -- complementing both sides gives the ascending encodings back
    rw [← invertEncoding_inj, invertEncoding_append, invertEncoding_append]
    show invertEncoding (invertEncoding (encodeValue v)) ++ _ =
      invertEncoding (invertEncoding (encodeValue w)) ++ _ ↔ _
    rw [invertEncoding_invertEncoding, invertEncoding_invertEncoding, encodeValue_append_inj,
      invertEncoding_inj]

/-- No encoded tuple runs into what follows it, whatever its directions. -/
theorem encodeFieldsWithDirections_append_inj {vs ws : List Value} (hlen : vs.length = ws.length)
    {directions : List Bool} {x y : Bytes} :
    encodeFieldsWithDirections vs directions ++ x = encodeFieldsWithDirections ws directions ++ y ↔
      vs.map Value.indexValue = ws.map Value.indexValue ∧ x = y := by
  induction vs generalizing ws directions with
  | nil =>
    cases ws with
    | nil => simp [encodeFieldsWithDirections]
    | cons w ws => simp at hlen
  | cons v vs ih =>
    cases ws with
    | nil => simp at hlen
    | cons w ws =>
      simp only [encodeFieldsWithDirections, List.append_assoc]
      rw [encodeValueDirected_append_inj, ih (Nat.succ.inj hlen)]
      simp [and_assoc]

end ZydecoDb
