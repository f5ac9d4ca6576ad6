import ZydecoDb.Lib.ByteOrder

namespace Lib

/-- Binary search for a key over the closed range `low..=high`. A key that cannot be read ends the
search. -/
def searchKeyLoop (keyAt : Nat → Option Bytes) (key : Bytes) : Nat → Nat → Nat → Option Nat
  | 0, _, _ => none
  | fuel + 1, low, high =>
    let mid := low + (high - low) / 2
    match keyAt mid with
    | none => none
    | some midKey =>
      if midKey = key then some mid
      else if midKey < key then
        if high < mid + 1 then none else searchKeyLoop keyAt key fuel (mid + 1) high
      else if mid = 0 then none
      else if mid - 1 < low then none
      else searchKeyLoop keyAt key fuel low (mid - 1)

def searchKey (keyAt : Nat → Option Bytes) (key : Bytes) (count : Nat) : Option Nat :=
  if count = 0 then none else searchKeyLoop keyAt key count 0 (count - 1)

variable {keys : List Bytes} {keyAt : Nat → Option Bytes} {key : Bytes}

theorem lt_of_keys_lt (hs : keys.Pairwise (· < ·)) {i j : Nat} {a b : Bytes}
    (hi : keys[i]? = some a) (hj : keys[j]? = some b) (hab : a < b) : i < j := by
  obtain ⟨hil, rfl⟩ := List.getElem?_eq_some_iff.mp hi
  obtain ⟨hjl, rfl⟩ := List.getElem?_eq_some_iff.mp hj
  by_contra hge
  rcases Nat.lt_or_ge j i with hlt | hle
  · exact lt_asymm hab (List.pairwise_iff_getElem.mp hs j i hjl hil hlt)
  · have heq : i = j := by omega
    subst heq
    exact lt_irrefl _ hab

theorem searchKeyLoop_of_mem (hs : keys.Pairwise (· < ·)) (hat : ∀ i < keys.length, keyAt i = keys[i]?)
    {fuel low high i : Nat} (hi : keys[i]? = some key) (hlow : low ≤ i) (hhigh : i ≤ high)
    (hlen : high < keys.length) (hfuel : high - low < fuel) :
    searchKeyLoop keyAt key fuel low high = some i := by
  induction fuel generalizing low high with
  | zero => omega
  | succ fuel ih =>
    have hmid : low + (high - low) / 2 < keys.length := by omega
    have hread : keyAt (low + (high - low) / 2) = some (keys.get ⟨_, hmid⟩) := by
      rw [hat _ hmid]
      exact List.getElem?_eq_getElem hmid
    have hget : keys[low + (high - low) / 2]? = some (keys.get ⟨_, hmid⟩) :=
      List.getElem?_eq_getElem hmid
    generalize hm : low + (high - low) / 2 = mid at hmid hread hget
    generalize keys.get ⟨mid, hmid⟩ = midKey at hread hget
    simp only [searchKeyLoop, hm, hread]
    split
    next heq =>
      have hij : mid = i := by
        obtain ⟨hil, hik⟩ := List.getElem?_eq_some_iff.mp hi
        obtain ⟨hml, hmk⟩ := List.getElem?_eq_some_iff.mp hget
        have hnd : keys.Nodup := hs.imp ne_of_lt
        exact hnd.getElem_inj_iff.mp (by rw [hik, hmk, heq])
      rw [hij]
    next hne =>
      split
      next hlt =>
        have hlater := lt_of_keys_lt hs hget hi hlt
        rw [if_neg (by omega)]
        exact ih (by omega) hhigh hlen (by omega)
      next hge =>
        have hgt : key < midKey := lt_of_le_of_ne (not_lt.mp hge) fun h => hne h.symm
        have hearlier := lt_of_keys_lt hs hi hget hgt
        rw [if_neg (by omega), if_neg (by omega)]
        exact ih hlow (by omega) (by omega) (by omega)

theorem searchKeyLoop_sound {fuel low high i : Nat}
    (h : searchKeyLoop keyAt key fuel low high = some i) (hle : low ≤ high) :
    keyAt i = some key ∧ i ≤ high := by
  induction fuel generalizing low high with
  | zero => simp [searchKeyLoop] at h
  | succ fuel ih =>
    simp only [searchKeyLoop] at h
    split at h
    next => simp at h
    next midKey hread =>
      split at h
      next heq =>
        cases Option.some.inj h
        exact ⟨heq ▸ hread, by omega⟩
      next =>
        split at h
        next =>
          split at h
          next => simp at h
          next => exact ih h (by omega)
        next =>
          obtain ⟨-, h⟩ := Option.ite_none_left_eq_some.mp h
          split at h
          next => simp at h
          next =>
            obtain ⟨hkey, hi⟩ := ih h (by omega)
            exact ⟨hkey, by omega⟩

theorem searchKey_of_mem (hs : keys.Pairwise (· < ·)) (hat : ∀ i < keys.length, keyAt i = keys[i]?)
    {i : Nat} (hi : keys[i]? = some key) : searchKey keyAt key keys.length = some i := by
  obtain ⟨hlt, -⟩ := List.getElem?_eq_some_iff.mp hi
  rw [searchKey, if_neg (by omega)]
  exact searchKeyLoop_of_mem hs hat hi (Nat.zero_le i) (by omega) (by omega) (by omega)

theorem searchKey_of_not_mem (hat : ∀ i < keys.length, keyAt i = keys[i]?) (h : key ∉ keys) :
    searchKey keyAt key keys.length = none := by
  unfold searchKey
  split
  next => rfl
  next hne =>
    cases hr : searchKeyLoop keyAt key keys.length 0 (keys.length - 1) with
    | none => rfl
    | some i =>
      obtain ⟨hkey, hi⟩ := searchKeyLoop_sound hr (Nat.zero_le _)
      rw [hat i (by omega)] at hkey
      exact absurd (List.mem_of_getElem? hkey) h

end Lib
