import ZydecoDb.Document.WirePages
import ZydecoDb.Lib.ReaderRules

namespace ZydecoDb

open Lib Lib.Reader

namespace Wire

def Short (b : Bytes) : Prop := b.length < 2 ^ 32

instance decidableShort (b : Bytes) : Decidable (Short b) :=
  inferInstanceAs (Decidable (b.length < 2 ^ 32))

theorem reads_u8 (c : UInt8) : Reads u8 [c] c := Reader.reads_u8 _ _ c

theorem reads_u32 {n : Nat} (h : n < 2 ^ 32) : Reads u32 (toBe 4 n) n :=
  reads_word _ _ (by omega)

theorem reads_limit (n : UInt32) : Reads u32 (toBe 4 n.toNat) n.toNat := reads_u32 n.toNat_lt

theorem reads_u64 (n : UInt64) : Reads u64 (toBe 8 n.toNat) n := by
  have hlt : n.toNat < 256 ^ 8 := by
    have h := n.toNat_lt
    omega
  have h := (reads_word lengthOverflow payloadTruncated hlt).map UInt64.ofNat
  rw [UInt64.ofNat_toNat] at h
  exact h

theorem reads_lp {b : Bytes} (h : Short b) : Reads lp (putLp b) b :=
  Reader.reads_lp _ _ (by unfold Short at h; omega)

theorem reads_lpString {s : Utf8String} (h : Short s.bytes) : Reads lpString (putLp s.bytes) s := by
  refine (reads_lp h).checked ?_
  rw [dif_pos s.valid]
  exact Reads.pure s

theorem reads_bool (b : Bool) : Reads bool [putBool b] b := by
  have h := (reads_u8 (putBool b)).map fun c => decide (c ≠ 0)
  have hb : decide (putBool b ≠ 0) = b := by cases b <;> rfl
  rw [hb] at h
  exact h

theorem reads_countUpTo (what : String) {max n : Nat} (h : n ≤ max) (hmax : max < 2 ^ 32) :
    Reads (countUpTo what max) (toBe 4 n) n := by
  refine (reads_u32 (Nat.lt_of_le_of_lt h hmax)).checked ?_
  rw [if_neg (by omega)]
  exact Reads.pure n

theorem reads_optU64 (n : UInt64) : Reads optU64 (toBe 8 n.toNat) n := by
  intro pre rest hlen
  have hleft : 8 ≤ (pre ++ (toBe 8 n.toNat ++ rest)).length - pre.length := by
    simp only [List.length_append, length_toBe]
    omega
  have hr := reads_u64 n pre rest hlen
  unfold optU64
  rw [run_bind]
  simp only [Reader.remaining]
  change (if 8 ≤ (pre ++ (toBe 8 n.toNat ++ rest)).length - pre.length then u64
    else pure 0 : DocReader UInt64).run _ _ = _
  rw [if_pos hleft, hr]

theorem readsLast_optU64_nil : ReadsLast optU64 [] 0 :=
  readsLast_remaining (Reads.pure 0).last

theorem readsLast_optU64 (n : UInt64) : ReadsLast optU64 (putOptU64 n) n := by
  unfold putOptU64
  split
  next => exact (reads_optU64 n).last
  next h =>
    have hn : n = 0 := by simpa using h
    rw [hn]
    exact readsLast_optU64_nil

theorem reads_relaxedFlags (r : Bool) :
    Reads (checkWriteFlags (relaxedFlags r) flagRelaxed) [] () := by
  cases r <;> exact Reads.pure ()

@[simp] theorem relaxedFlags_bit (r : Bool) :
    decide (relaxedFlags r &&& flagRelaxed ≠ 0) = r := by
  cases r <;> rfl

theorem reads_fields {fields : List Utf8String} (h : ∀ f ∈ fields, Short f.bytes) :
    Reads (times lpString fields.length) (fields.flatMap fun f => putLp f.bytes) fields :=
  reads_list _ fun f hf => reads_lpString (h f hf)

theorem reads_takeFieldList {fields : List Utf8String} (hcount : fields.length ≤ maxFieldList)
    (h : ∀ f ∈ fields, Short f.bytes) : Reads takeFieldList (putFieldList fields) fields :=
  (reads_countUpTo _ hcount (by decide)).bind (reads_fields h)

theorem reads_collectionAndBytes {c : Utf8String} {b : Bytes} (hc : Short c.bytes) (hb : Short b) :
    Reads collectionAndBytes (putLp c.bytes ++ putLp b) (c, b) :=
  (reads_lpString hc).bind ((reads_lp hb).map (Prod.mk c))

end Wire

end ZydecoDb
