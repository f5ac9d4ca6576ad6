import ZydecoDb.Lib.ByteOrder

namespace Lib

def toLe : Nat → Nat → Bytes
  | 0, _ => []
  | w + 1, n => UInt8.ofNat (n % 256) :: toLe w (n / 256)

def ofLe : Bytes → Nat
  | [] => 0
  | b :: bs => b.toNat + 256 * ofLe bs

@[simp] theorem length_toLe (w n : Nat) : (toLe w n).length = w := by
  induction w generalizing n with
  | zero => rfl
  | succ w ih => simp [toLe, ih]

theorem ofLe_toLe {w n : Nat} (h : n < 256 ^ w) : ofLe (toLe w n) = n := by
  induction w generalizing n with
  | zero =>
    rw [Nat.pow_zero] at h
    rw [toLe, ofLe]
    omega
  | succ w ih =>
    have hpow : 256 ^ (w + 1) = 256 ^ w * 256 := Nat.pow_succ ..
    have hbyte : (UInt8.ofNat (n % 256)).toNat = n % 256 := by simp
    rw [toLe, ofLe, ih (by omega), hbyte]
    omega

def readLe (w : Nat) (data : Bytes) (pos : Nat) : Option Nat :=
  if pos + w ≤ data.length then some (ofLe ((data.drop pos).take w)) else none

theorem readLe_append {w n pos : Nat} {data a b : Bytes} (hd : data = a ++ (toLe w n ++ b))
    (hp : pos = a.length) (hn : n < 256 ^ w) : readLe w data pos = some n := by
  subst hd hp
  have hfit : a.length + w ≤ (a ++ (toLe w n ++ b)).length := by
    simp only [List.length_append, length_toLe]
    omega
  rw [readLe, if_pos hfit, List.drop_left, List.take_left' (length_toLe w n), ofLe_toLe hn]

def patch (pos : Nat) (bytes out : Bytes) : Bytes :=
  out.take pos ++ (bytes ++ out.drop (pos + bytes.length))

theorem patch_append {pos : Nat} {bytes a x b : Bytes} (hp : pos = a.length)
    (hx : x.length = bytes.length) : patch pos bytes (a ++ (x ++ b)) = a ++ (bytes ++ b) := by
  subst hp
  have hdrop : (a ++ (x ++ b)).drop (a.length + bytes.length) = b := by
    rw [← List.drop_drop, List.drop_left, ← hx, List.drop_left]
  rw [patch, List.take_left, hdrop]

def backfill : Nat → List Nat → Bytes → Bytes
  | _, [], out => out
  | pos, offset :: offsets, out => backfill (pos + 4) offsets (patch pos (toLe 4 offset) out)

def offsetTable (offsets : List Nat) : Bytes := offsets.flatMap (toLe 4)

@[simp] theorem length_offsetTable (offsets : List Nat) :
    (offsetTable offsets).length = 4 * offsets.length := by
  induction offsets with
  | nil => rfl
  | cons offset offsets ih =>
    have hcons : (offsetTable (offset :: offsets)).length =
        (toLe 4 offset).length + (offsetTable offsets).length := List.length_append
    rw [hcons, ih, length_toLe, List.length_cons]
    omega

theorem backfill_append {pos : Nat} {offsets : List Nat} {a x b : Bytes} (hp : pos = a.length)
    (hx : x.length = 4 * offsets.length) :
    backfill pos offsets (a ++ (x ++ b)) = a ++ (offsetTable offsets ++ b) := by
  induction offsets generalizing pos a x with
  | nil =>
    have hnil : x = [] := List.length_eq_zero_iff.mp hx
    rw [hnil]
    rfl
  | cons offset offsets ih =>
    rw [List.length_cons] at hx
    have hsplit : x = x.take 4 ++ x.drop 4 := (List.take_append_drop 4 x).symm
    have hfour : (x.take 4).length = (toLe 4 offset).length := by
      rw [List.length_take, length_toLe]
      omega
    have hrest : (x.drop 4).length = 4 * offsets.length := by
      rw [List.length_drop]
      omega
    have hpos : pos + 4 = (a ++ toLe 4 offset).length := by
      rw [List.length_append, length_toLe, hp]
    rw [backfill, hsplit, List.append_assoc, patch_append hp hfour, ← List.append_assoc,
      ih hpos hrest]
    simp [offsetTable]

def runningOffsets : Nat → List Bytes → List Nat
  | _, [] => []
  | base, b :: bs => base :: runningOffsets (base + b.length) bs

@[simp] theorem length_runningOffsets (base : Nat) (bs : List Bytes) :
    (runningOffsets base bs).length = bs.length := by
  induction bs generalizing base with
  | nil => rfl
  | cons b bs ih => simp [runningOffsets, ih]

theorem runningOffsets_getElem {base i : Nat} {bs : List Bytes} (h : i < bs.length) :
    (runningOffsets base bs)[i]? = some (base + (bs.take i).flatten.length) := by
  induction bs generalizing base i with
  | nil => simp at h
  | cons b bs ih =>
    cases i with
    | zero => simp [runningOffsets]
    | succ i =>
      rw [List.length_cons] at h
      rw [runningOffsets, List.getElem?_cons_succ, ih (by omega), List.take_succ_cons,
        List.flatten_cons, List.length_append, Nat.add_assoc]

theorem readLe_offsetTable {offsets : List Nat} {data a b : Bytes} {i n pos : Nat}
    (hd : data = a ++ (offsetTable offsets ++ b)) (hp : pos = a.length + 4 * i)
    (hi : offsets[i]? = some n) (hn : n < 2 ^ 32) : readLe 4 data pos = some n := by
  obtain ⟨hlt, hget⟩ := List.getElem?_eq_some_iff.mp hi
  have hsplit : offsets = offsets.take i ++ n :: offsets.drop (i + 1) := by
    rw [← hget, List.getElem_cons_drop, List.take_append_drop]
  have htable : offsetTable offsets = offsetTable (offsets.take i) ++
      (toLe 4 n ++ offsetTable (offsets.drop (i + 1))) := by
    conv_lhs => rw [hsplit]
    simp [offsetTable]
  refine readLe_append (a := a ++ offsetTable (offsets.take i))
    (b := offsetTable (offsets.drop (i + 1)) ++ b) ?_ ?_ hn
  · rw [hd, htable]
    simp only [List.append_assoc]
  · rw [hp, List.length_append, length_offsetTable, List.length_take]
    omega

end Lib
