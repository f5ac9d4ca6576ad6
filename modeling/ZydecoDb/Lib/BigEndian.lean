import ZydecoDb.Lib.ByteOrder

namespace Lib

def toBe : Nat → Nat → Bytes
  | 0, _ => []
  | w + 1, n => toBe w (n / 256) ++ [UInt8.ofNat (n % 256)]

def ofBe (b : Bytes) : Nat := b.foldl (fun n c => n * 256 + c.toNat) 0

@[simp] theorem length_toBe (w n : Nat) : (toBe w n).length = w := by
  induction w generalizing n with
  | zero => rfl
  | succ w ih => simp [toBe, ih]

theorem ofBe_concat (b : Bytes) (c : UInt8) : ofBe (b ++ [c]) = ofBe b * 256 + c.toNat := by
  simp [ofBe]

theorem ofBe_toBe_mod (w n : Nat) : ofBe (toBe w n) = n % 256 ^ w := by
  induction w generalizing n with
  | zero => simp [toBe, ofBe, Nat.mod_one]
  | succ w ih =>
    have hbyte : (UInt8.ofNat (n % 256)).toNat = n % 256 := by simp
    have hmod : n % 256 ^ (w + 1) = n % 256 + 256 * (n / 256 % 256 ^ w) := by
      rw [pow_succ, Nat.mul_comm, Nat.mod_mul]
    rw [toBe, ofBe_concat, ih, hbyte, hmod]
    omega

theorem ofBe_toBe {w n : Nat} (h : n < 256 ^ w) : ofBe (toBe w n) = n := by
  rw [ofBe_toBe_mod, Nat.mod_eq_of_lt h]

def beAt (w off : Nat) (buf : Bytes) : Nat := ofBe ((buf.drop off).take w)

theorem beAt_append_mod {w n off : Nat} {a b buf : Bytes}
    (hb : buf = a ++ (toBe w n ++ b)) (hoff : off = a.length) : beAt w off buf = n % 256 ^ w := by
  subst hb hoff
  rw [beAt, List.drop_left, List.take_left' (length_toBe w n), ofBe_toBe_mod]

theorem beAt_append {w n off : Nat} {a b buf : Bytes} (hn : n < 256 ^ w)
    (hb : buf = a ++ (toBe w n ++ b)) (hoff : off = a.length) : beAt w off buf = n := by
  rw [beAt_append_mod hb hoff, Nat.mod_eq_of_lt hn]

theorem beAt_take {w off n : Nat} (h : off + w ≤ n) (buf : Bytes) :
    beAt w off (buf.take n) = beAt w off buf := by
  rw [beAt, beAt, List.drop_take, List.take_take, Nat.min_eq_left (by omega)]

theorem beAt_congr {w off : Nat} {a b : Bytes}
    (h : ∀ i ∈ List.range' off w, a[i]? = b[i]?) : beAt w off a = beAt w off b := by
  have htake : (a.drop off).take w = (b.drop off).take w := by
    refine List.ext_getElem? fun i => ?_
    rw [List.getElem?_take, List.getElem?_take]
    split
    next hi =>
      rw [List.getElem?_drop, List.getElem?_drop]
      exact h (off + i) (List.mem_range'_1.mpr ⟨by omega, by omega⟩)
    next => rfl
  rw [beAt, beAt, htake]

end Lib
