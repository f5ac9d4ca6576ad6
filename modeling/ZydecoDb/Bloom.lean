import ZydecoDb.Lib.BigEndian

namespace ZydecoDb

open Lib

def numHashes : Nat := 7
def bitsPerKey : Nat := 10

structure BloomFilter where
  bits : Bytes
  numBits : Nat
deriving DecidableEq, Repr

namespace BloomFilter

def numBitsFor (n : Nat) : Nat := max (max n 1 * bitsPerKey) 64

def bitMask (bit : Nat) : UInt8 := 1 <<< UInt8.ofNat (bit % 8)

def setBit (bits : Bytes) (bit : Nat) : Bytes := bits.modify (bit / 8) (· ||| bitMask bit)

def testBit (bits : Bytes) (bit : Nat) : Bool := bits.getD (bit / 8) 0 &&& bitMask bit ≠ 0

def nthBit (h1 h2 : UInt64) (i numBits : Nat) : Nat :=
  (h1 + UInt64.ofNat i * h2).toNat % numBits

section Hash

-- `xxh3_64_with_seed` is code outside the repository; nothing is assumed of it.
variable (hash : Bytes → UInt64 → UInt64)

def hashes (key : Bytes) : UInt64 × UInt64 := (hash key 0, hash key 0x9E3779B97F4A7C15)

def bitsOf (numBits : Nat) (key : Bytes) : List Nat :=
  (List.range numHashes).map fun i => nthBit (hashes hash key).1 (hashes hash key).2 i numBits

def add (bf : BloomFilter) (key : Bytes) : BloomFilter :=
  { bf with bits := (bitsOf hash bf.numBits key).foldl setBit bf.bits }

def build (keys : List Bytes) : BloomFilter :=
  let numBits := numBitsFor keys.length
  keys.foldl (add hash) ⟨List.replicate ((numBits + 7) / 8) 0, numBits⟩

def maybeContains (bf : BloomFilter) (key : Bytes) : Bool :=
  bf.numBits = 0 || (bitsOf hash bf.numBits key).all (testBit bf.bits)

end Hash

def encode (bf : BloomFilter) : Bytes := toBe 4 bf.numBits ++ bf.bits

def decode (buf : Bytes) : Option BloomFilter :=
  if buf.length < 4 then none
  else
    let numBits := beAt 4 0 buf
    if (buf.drop 4).length < (numBits + 7) / 8 then none else some ⟨buf.drop 4, numBits⟩

theorem bitMask_ne_zero (bit : Nat) : bitMask bit ≠ 0 := by
  have hmask : ∀ i < 8, (1 : UInt8) <<< UInt8.ofNat i ≠ 0 := by decide
  exact hmask (bit % 8) (Nat.mod_lt _ (by decide))

theorem or_and_self (x m : UInt8) : (x ||| m) &&& m = m := by
  apply UInt8.toBitVec_inj.mp
  ext i
  simp
  intro h
  exact Or.inr h

theorem or_and_ne_zero {x m : UInt8} (y : UInt8) (h : x &&& m ≠ 0) : (x ||| y) &&& m ≠ 0 := by
  have hsplit : (x ||| y) &&& m = x &&& m ||| y &&& m := by
    apply UInt8.toBitVec_inj.mp
    ext i
    simp [Bool.and_or_distrib_right]
  rw [hsplit, Ne, UInt8.or_eq_zero_iff]
  exact fun hz => h hz.1

@[simp] theorem length_setBit (bits : Bytes) (bit : Nat) :
    (setBit bits bit).length = bits.length := by simp [setBit]

theorem testBit_setBit_self {bits : Bytes} {bit : Nat} (h : bit / 8 < bits.length) :
    testBit (setBit bits bit) bit = true := by
  have hget : (setBit bits bit).getD (bit / 8) 0 = bits.getD (bit / 8) 0 ||| bitMask bit := by
    simp [setBit, List.getD_eq_getElem?_getD, h]
  rw [testBit, hget, or_and_self]
  exact decide_eq_true (bitMask_ne_zero bit)

theorem testBit_setBit_of {bits : Bytes} {b : Nat} (bit : Nat) (h : testBit bits b = true) :
    testBit (setBit bits bit) b = true := by
  have h := of_decide_eq_true h
  apply decide_eq_true
  by_cases hsame : bit / 8 = b / 8
  · have hget : (setBit bits bit).getD (b / 8) 0 = bits.getD (b / 8) 0 ||| bitMask bit ∨
        (setBit bits bit).getD (b / 8) 0 = bits.getD (b / 8) 0 := by
      by_cases hlt : b / 8 < bits.length
      · exact Or.inl (by simp [setBit, List.getD_eq_getElem?_getD, hlt, hsame])
      · exact Or.inr (by simp [setBit, List.getD_eq_getElem?_getD, hlt])
    rcases hget with hget | hget
    · rw [hget]
      exact or_and_ne_zero _ h
    · rw [hget]
      exact h
  · have hget : (setBit bits bit).getD (b / 8) 0 = bits.getD (b / 8) 0 := by
      simp [setBit, List.getD_eq_getElem?_getD, hsame]
    rw [hget]
    exact h

theorem foldl_setBit_of {bits : Bytes} {b : Nat} (l : List Nat) (h : testBit bits b = true) :
    testBit (l.foldl setBit bits) b = true := by
  induction l generalizing bits with
  | nil => exact h
  | cons bit l ih => exact ih (testBit_setBit_of bit h)

theorem length_foldl_setBit (l : List Nat) (bits : Bytes) :
    (l.foldl setBit bits).length = bits.length := by
  induction l generalizing bits with
  | nil => rfl
  | cons bit l ih => rw [List.foldl_cons, ih, length_setBit]

theorem testBit_foldl_setBit {bits : Bytes} {l : List Nat} (hl : ∀ b ∈ l, b / 8 < bits.length) :
    ∀ b ∈ l, testBit (l.foldl setBit bits) b = true := by
  induction l generalizing bits with
  | nil => simp
  | cons bit l ih =>
    intro b hb
    have hrest : ∀ b ∈ l, b / 8 < (setBit bits bit).length := by
      intro b hb
      rw [length_setBit]
      exact hl b (List.mem_cons_of_mem _ hb)
    rcases List.mem_cons.mp hb with rfl | hb
    · exact foldl_setBit_of l (testBit_setBit_self (hl b List.mem_cons_self))
    · exact ih hrest b hb

section Hash

variable {hash : Bytes → UInt64 → UInt64} {bf : BloomFilter}

def Sized (bf : BloomFilter) : Prop := 0 < bf.numBits ∧ bf.bits.length = (bf.numBits + 7) / 8

theorem Sized.add (h : bf.Sized) (key : Bytes) : (bf.add hash key).Sized :=
  ⟨h.1, (length_foldl_setBit _ _).trans h.2⟩

theorem Sized.bit_lt (h : bf.Sized) {key : Bytes} {b : Nat} (hb : b ∈ bitsOf hash bf.numBits key) :
    b / 8 < bf.bits.length := by
  obtain ⟨i, -, rfl⟩ := List.mem_map.mp hb
  have hlt : nthBit (hashes hash key).1 (hashes hash key).2 i bf.numBits < bf.numBits :=
    Nat.mod_lt _ h.1
  have hlen := h.2
  omega

theorem Sized.maybeContains_add (h : bf.Sized) (key : Bytes) :
    (bf.add hash key).maybeContains hash key = true := by
  simp only [maybeContains, Bool.or_eq_true, List.all_eq_true]
  exact Or.inr (testBit_foldl_setBit fun b hb => h.bit_lt hb)

theorem maybeContains_add_of {key : Bytes} (k : Bytes) (h : bf.maybeContains hash key = true) :
    (bf.add hash k).maybeContains hash key = true := by
  simp only [maybeContains, Bool.or_eq_true, List.all_eq_true] at h ⊢
  exact h.imp_right fun h b hb => foldl_setBit_of _ (h b hb)

theorem foldl_add_of {key : Bytes} (keys : List Bytes) (h : bf.maybeContains hash key = true) :
    (keys.foldl (add hash) bf).maybeContains hash key = true := by
  induction keys generalizing bf with
  | nil => exact h
  | cons k keys ih => exact ih (maybeContains_add_of k h)

theorem Sized.foldl_add (h : bf.Sized) (keys : List Bytes) :
    (keys.foldl (BloomFilter.add hash) bf).Sized ∧
      (keys.foldl (BloomFilter.add hash) bf).numBits = bf.numBits ∧
      ∀ key ∈ keys, (keys.foldl (BloomFilter.add hash) bf).maybeContains hash key = true := by
  induction keys generalizing bf with
  | nil => exact ⟨h, rfl, by simp⟩
  | cons k keys ih =>
    obtain ⟨hs, hn, hk⟩ := ih (h.add k)
    refine ⟨hs, hn, fun key hkey => ?_⟩
    rcases List.mem_cons.mp hkey with rfl | hkey
    · exact foldl_add_of keys (h.maybeContains_add key)
    · exact hk key hkey

/-- A key that was added is never denied. -/
theorem build_spec (hash : Bytes → UInt64 → UInt64) (keys : List Bytes) :
    (build hash keys).Sized ∧ (build hash keys).numBits = numBitsFor keys.length ∧
      ∀ key ∈ keys, (build hash keys).maybeContains hash key = true := by
  have hzero : Sized ⟨List.replicate ((numBitsFor keys.length + 7) / 8) 0, numBitsFor keys.length⟩ :=
    ⟨lt_of_lt_of_le (by decide) (le_max_right _ 64), by simp⟩
  exact hzero.foldl_add keys

theorem decode_encode (h : bf.Sized) (hn : bf.numBits < 256 ^ 4) : decode bf.encode = some bf := by
  have hbits : beAt 4 0 bf.encode = bf.numBits := beAt_append (a := []) hn rfl rfl
  have hdrop : bf.encode.drop 4 = bf.bits := List.drop_left' (length_toBe 4 _)
  have hlen : ¬ bf.encode.length < 4 := by simp [encode]
  unfold decode
  rw [if_neg hlen, hbits, hdrop, if_neg (by rw [h.2]; exact lt_irrefl _)]

end Hash

end BloomFilter

end ZydecoDb
