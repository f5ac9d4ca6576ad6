import ZydecoDb.TableReader

namespace ZydecoDb

open Lib

/-- A version as the engine stores it: the key and the value passed its checks, and the numbers are
those of their machine types, with no expiry written as none. -/
structure Version.Storable (v : Version) : Prop where
  key_ne : v.userKey ≠ []
  key_le : v.userKey.length ≤ maxKeyBytes
  value_le : v.entry.valueLen ≤ maxValueBytes
  seq_le : v.seq ≤ u64Max
  expiry_le : v.entry.expiryField ≤ u64Max
  expiry_ne : ∀ b, v.entry ≠ .value b (some 0)

theorem encodeEntry_length (v : Version) : (encodeEntry v).length = encodeEntryLen v := by
  simp only [encodeEntry, encodeEntryLen, List.length_cons, List.length_append, length_toBe,
    Entry.valueLen]
  omega

theorem fromU8_asU8 (k : EntryKind) : EntryKind.fromU8 k.asU8 = some k := by cases k <;> rfl

theorem Version.Storable.ofFields_eq {v : Version} (h : v.Storable) :
    Entry.ofFields v.entry.kind v.entry.valueBytes v.entry.expiryField = v.entry := by
  have hne := h.expiry_ne
  cases he : v.entry with
  | tombstone => rfl
  | value b expiresAt =>
    cases expiresAt with
    | none => rfl
    | some n =>
      have hn : n ≠ 0 := fun h0 => hne b (he.trans (by rw [h0]))
      simp [Entry.ofFields, Entry.kind, Entry.expiryField, Entry.valueBytes, hn]

theorem decodeEntry_append {v : Version} (h : v.Storable) (rest : Bytes) :
    decodeEntry (encodeEntry v ++ rest) = .ok (v, (encodeEntry v).length) := by
  have hseq : v.seq < 256 ^ 8 := lt_of_le_of_lt h.seq_le (by decide)
  have hkl : v.userKey.length < 256 ^ 4 := lt_of_le_of_lt h.key_le (by decide)
  have hvl : v.entry.valueLen < 256 ^ 4 := lt_of_le_of_lt h.value_le (by decide)
  have hex : v.entry.expiryField < 256 ^ 8 := lt_of_le_of_lt h.expiry_le (by decide)
  have hlen := encodeEntry_length v
  unfold encodeEntryLen at hlen
  generalize hbuf : encodeEntry v ++ rest = buf
  have hflat : buf = v.entry.kind.asU8 :: (toBe 8 v.seq ++ (toBe 4 v.userKey.length ++
      (toBe 4 v.entry.valueLen ++ (toBe 8 v.entry.expiryField ++
        (v.userKey ++ (v.entry.valueBytes ++ rest)))))) := by
    simp [← hbuf, encodeEntry]
  have hblen : buf.length = (encodeEntry v).length + rest.length := by
    rw [← hbuf, List.length_append]
  have h1 : beAt 8 1 buf = v.seq := beAt_append (a := [v.entry.kind.asU8]) hseq hflat rfl
  have h2 : beAt 4 9 buf = v.userKey.length :=
    beAt_append (a := v.entry.kind.asU8 :: toBe 8 v.seq) hkl (by simpa using hflat) (by simp)
  have h3 : beAt 4 13 buf = v.entry.valueLen :=
    beAt_append (a := v.entry.kind.asU8 :: (toBe 8 v.seq ++ toBe 4 v.userKey.length)) hvl
      (by simpa using hflat) (by simp)
  have h4 : beAt 8 17 buf = v.entry.expiryField :=
    beAt_append (a := v.entry.kind.asU8 :: (toBe 8 v.seq ++ (toBe 4 v.userKey.length ++
      toBe 4 v.entry.valueLen))) hex (by simpa using hflat) (by simp)
  have hfixed : buf = (v.entry.kind.asU8 :: (toBe 8 v.seq ++ (toBe 4 v.userKey.length ++
      (toBe 4 v.entry.valueLen ++ toBe 8 v.entry.expiryField)))) ++
        (v.userKey ++ (v.entry.valueBytes ++ rest)) := by simpa using hflat
  have hkey : (buf.drop sstableEntryFixed).take v.userKey.length = v.userKey := by
    rw [hfixed, List.drop_left' (by simp [sstableEntryFixed]), List.take_left]
  have hval : (buf.drop (sstableEntryFixed + v.userKey.length)).take v.entry.valueLen =
      v.entry.valueBytes := by
    rw [← List.drop_drop, hfixed, List.drop_left' (by simp [sstableEntryFixed]), List.drop_left]
    exact List.take_left
  have hkind : buf.getD 0 0 = v.entry.kind.asU8 := by simp [hflat]
  unfold decodeEntry
  rw [if_neg (by simp only [sstableEntryFixed]; omega), hkind, fromU8_asU8]
  simp only [h1, h2, h3, h4, hkey, hval]
  rw [if_neg (by simp only [sstableEntryFixed]; omega), h.ofFields_eq]
  simp only [sstableEntryFixed, hlen]

def rangeOf (lo hi : Bytes) (vs : List Version) : List Version :=
  vs.filter fun v => lo ≤ v.userKey ∧ (hi = [] ∨ v.userKey < hi)

theorem rangeOf_append (lo hi : Bytes) (vs ws : List Version) :
    rangeOf lo hi (vs ++ ws) = rangeOf lo hi vs ++ rangeOf lo hi ws := List.filter_append ..

theorem rangeOf_cons_below {lo hi : Bytes} {v : Version} {vs : List Version} (h : v.userKey < lo) :
    rangeOf lo hi (v :: vs) = rangeOf lo hi vs :=
  List.filter_cons_of_neg (by simp [not_le.mpr h])

theorem rangeOf_cons_in {lo hi : Bytes} {v : Version} {vs : List Version} (hlo : lo ≤ v.userKey)
    (hhi : hi = [] ∨ v.userKey < hi) : rangeOf lo hi (v :: vs) = v :: rangeOf lo hi vs :=
  List.filter_cons_of_pos (by simp [hlo, hhi])

theorem rangeOf_past {lo hi : Bytes} {vs : List Version} (hne : hi ≠ [])
    (h : ∀ v ∈ vs, hi ≤ v.userKey) : rangeOf lo hi vs = [] := by
  rw [rangeOf, List.filter_eq_nil_iff]
  intro v hv
  simp [hne, not_lt.mpr (h v hv)]

section Block

variable {vs : List Version} {fuel : Nat}

theorem encodeEntry_ne (v : Version) (rest : Bytes) : encodeEntry v ++ rest ≠ [] := by
  simp [encodeEntry]

theorem scanBlockForLatest_eq {k : Bytes} (hs : ∀ v ∈ vs, v.Storable)
    (hasc : vs.Pairwise fun a b => a.userKey ≤ b.userKey)
    (hf : (vs.flatMap encodeEntry).length ≤ fuel) :
    scanBlockForLatest k fuel (vs.flatMap encodeEntry) =
      .ok (vs.find? fun v => v.userKey = k) := by
  induction vs generalizing fuel with
  | nil => cases fuel <;> rfl
  | cons v vs ih =>
    obtain ⟨hv, hvs⟩ := List.pairwise_cons.mp hasc
    have hlen := encodeEntry_length v
    rw [List.flatMap_cons] at hf ⊢
    rw [List.length_append, hlen, encodeEntryLen] at hf
    obtain ⟨fuel, rfl⟩ : ∃ f, fuel = f + 1 := ⟨fuel - 1, by omega⟩
    rw [scanBlockForLatest, if_neg (encodeEntry_ne v _),
      decodeEntry_append (hs v List.mem_cons_self)]
    simp only [bind, Except.bind, List.drop_left]
    by_cases hk : v.userKey = k
    · rw [if_pos hk, List.find?_cons_of_pos (by simpa using hk)]
    · rw [if_neg hk, List.find?_cons_of_neg (by simpa using hk)]
      split
      next hlt =>
        have hnone : vs.find? (fun w => w.userKey = k) = none := by
          rw [List.find?_eq_none]
          intro w hw
          have hge := lt_of_lt_of_le hlt (hv w hw)
          simpa using hge.ne'
        rw [hnone]
      next =>
        exact ih (fun w hw => hs w (List.mem_cons_of_mem _ hw)) hvs (by omega)

theorem decodeInRange_eq (lo hi : Bytes) (hs : ∀ v ∈ vs, v.Storable)
    (hasc : vs.Pairwise fun a b => a.userKey ≤ b.userKey)
    (hf : (vs.flatMap encodeEntry).length ≤ fuel) :
    ∃ exhausted, decodeInRange lo hi fuel (vs.flatMap encodeEntry) =
        .ok (rangeOf lo hi vs, exhausted) ∧
      (exhausted = true → hi ≠ [] ∧ ∃ v ∈ vs, hi ≤ v.userKey) := by
  induction vs generalizing fuel with
  | nil => exact ⟨false, by cases fuel <;> rfl, by simp⟩
  | cons v vs ih =>
    obtain ⟨hv, hvs⟩ := List.pairwise_cons.mp hasc
    have hlen := encodeEntry_length v
    rw [List.flatMap_cons] at hf ⊢
    rw [List.length_append, hlen, encodeEntryLen] at hf
    obtain ⟨fuel, rfl⟩ : ∃ f, fuel = f + 1 := ⟨fuel - 1, by omega⟩
    rw [decodeInRange, if_neg (encodeEntry_ne v _),
      decodeEntry_append (hs v List.mem_cons_self)]
    simp only [bind, Except.bind, List.drop_left]
    obtain ⟨exhausted, hrest, hex⟩ := ih (fun w hw => hs w (List.mem_cons_of_mem _ hw)) hvs
      (show (vs.flatMap encodeEntry).length ≤ fuel by omega)
    have hex' : exhausted = true → hi ≠ [] ∧ ∃ w ∈ v :: vs, hi ≤ w.userKey := fun h =>
      ⟨(hex h).1, (hex h).2.imp fun w hw => ⟨List.mem_cons_of_mem _ hw.1, hw.2⟩⟩
    by_cases hlo : v.userKey < lo
    · rw [if_pos hlo, hrest, rangeOf_cons_below hlo]
      exact ⟨exhausted, rfl, hex'⟩
    · rw [if_neg hlo]
      by_cases hhi : hi ≠ [] ∧ hi ≤ v.userKey
      · -- every entry behind this one is at or above `hi` too
        have hnone : rangeOf lo hi (v :: vs) = [] := by
          apply rangeOf_past hhi.1
          intro w hw
          rcases List.mem_cons.mp hw with rfl | hw
          · exact hhi.2
          · exact hhi.2.trans (hv w hw)
        rw [if_pos hhi, hnone]
        exact ⟨true, rfl, fun _ => ⟨hhi.1, v, List.mem_cons_self, hhi.2⟩⟩
      · have hin : hi = [] ∨ v.userKey < hi := by
          by_cases he : hi = []
          · exact Or.inl he
          · exact Or.inr (not_le.mp fun h => hhi ⟨he, h⟩)
        rw [if_neg hhi, hrest, rangeOf_cons_in (not_lt.mp hlo) hin]
        exact ⟨exhausted, rfl, hex'⟩

end Block

end ZydecoDb
