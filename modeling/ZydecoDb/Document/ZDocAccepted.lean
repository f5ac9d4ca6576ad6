import ZydecoDb.Document.ZDocDecode

namespace ZydecoDb

open Lib

theorem itemsDepth_le {n : Nat} {items : List Value} (h : ∀ v ∈ items, valueDepth v ≤ n) :
    itemsDepth items ≤ n := by
  induction items with
  | nil => exact Nat.zero_le n
  | cons v items ih =>
    have hv := h v List.mem_cons_self
    have hrest := ih fun w hw => h w (List.mem_cons_of_mem v hw)
    rw [itemsDepth]
    omega

theorem membersDepth_le {n : Nat} {members : List (Bytes × Value)}
    (h : ∀ m ∈ members, valueDepth m.2 ≤ n) : membersDepth members ≤ n := by
  induction members with
  | nil => exact Nat.zero_le n
  | cons m members ih =>
    have hm := h m List.mem_cons_self
    have hrest := ih fun w hw => h w (List.mem_cons_of_mem m hw)
    rw [membersDepth]
    omega

theorem exact_ofI64 (i : Int64) : (Number.ofI64 i).Exact := by
  unfold Number.ofI64
  split
  next h => exact h
  next h =>
    have hmsb : i.toBitVec.msb = false := by
      rw [← BitVec.slt_zero_eq_msb]
      simpa [Int64.lt_iff_toBitVec_slt] using h
    have hlt := BitVec.msb_eq_false_iff_two_mul_lt.mp hmsb
    have hnat : i.toUInt64.toNat = i.toBitVec.toNat := rfl
    unfold Number.Exact
    omega

theorem exact_fromF64 {bits : UInt64} {n : Number} (h : Number.fromF64 bits = some n) : n.Exact := by
  unfold Number.fromF64 at h
  obtain ⟨hf, ⟨⟩⟩ := Option.ite_none_right_eq_some.mp h
  exact hf

namespace ValueView

theorem mem_of_readEntries {α : Type} {read : Nat → DocResult α} {n i : Nat} {l : List α}
    (h : readEntries read n i = .ok l) : ∀ a ∈ l, ∃ j, read j = .ok a := by
  induction n generalizing i l with
  | zero =>
    cases Except.ok.inj h
    intro a ha
    cases ha
  | succ n ih =>
    obtain ⟨a, ha, h⟩ := except_bind_eq_ok.mp h
    obtain ⟨rest, hrest, rfl⟩ := except_map_eq_ok.mp h
    intro b hb
    rcases List.mem_cons.mp hb with rfl | hb
    · exact ⟨i, ha⟩
    · exact ih hrest b hb

theorem validUtf8_of_utf8Slice {data s : Bytes} {lo hi : Nat} (h : utf8Slice data lo hi = some s) :
    validUtf8 s = true := by
  obtain ⟨bytes, -, h⟩ := Option.bind_eq_some_iff.mp h
  obtain ⟨hv, ⟨⟩⟩ := Option.ite_none_right_eq_some.mp h
  exact hv

theorem key_of_getAt {data : ValueView} {i : Nat} {k : Bytes} {v : ValueView}
    (h : getAt data i = some (k, v)) : validUtf8 k = true := by
  obtain ⟨count, -, h⟩ := Option.bind_eq_some_iff.mp h
  split at h
  next => cases h
  next =>
    obtain ⟨key, hkey, h⟩ := Option.bind_eq_some_iff.mp h
    obtain ⟨view, -, h⟩ := Option.map_eq_some_iff.mp h
    cases h
    obtain ⟨off, -, hkey⟩ := Option.bind_eq_some_iff.mp hkey
    obtain ⟨len, -, hkey⟩ := Option.bind_eq_some_iff.mp hkey
    exact validUtf8_of_utf8Slice hkey

theorem sorted_foldl_insertPair (entries : List (Bytes × Value)) {members : List (Bytes × Value)}
    (hs : members.Pairwise fun a b => a.1 < b.1) :
    (entries.foldl (fun map p => insertPair p.1 p.2 map) members).Pairwise (fun a b => a.1 < b.1) ∧
      ∀ m ∈ entries.foldl (fun map p => insertPair p.1 p.2 map) members, m ∈ entries ∨ m ∈ members := by
  induction entries generalizing members with
  | nil => exact ⟨hs, fun m hm => .inr hm⟩
  | cons p entries ih =>
    obtain ⟨hsort, hmem⟩ := ih (sorted_insertPair hs)
    refine ⟨hsort, fun m hm => ?_⟩
    rcases hmem m hm with hm | hm
    · exact .inl (List.mem_cons_of_mem p hm)
    · rcases mem_insertPair hm with rfl | hm
      · exact .inl List.mem_cons_self
      · exact .inr hm

/-- Every value the decoder accepts can be stored again. -/
theorem toValueAtDepth_storable {levels : Nat} {data : ValueView} {v : Value}
    (h : toValueAtDepth levels data = .ok v) : v.Storable ∧ valueDepth v ≤ levels := by
  induction levels generalizing data v with
  | zero => cases h
  | succ levels ih =>
    have hscalar : ∀ {w : Value}, w.Storable → valueDepth w = 1 → w = v →
        v.Storable ∧ valueDepth v ≤ levels + 1 := by
      rintro w hw hd rfl
      exact ⟨hw, by omega⟩
    unfold toValueAtDepth at h
    dsimp only at h
    split at h
    next => exact hscalar .null rfl (Except.ok.inj h)
    next =>
    split at h
    next => exact hscalar (.bool false) rfl (Except.ok.inj h)
    next =>
    split at h
    next => exact hscalar (.bool true) rfl (Except.ok.inj h)
    next =>
    split at h
    next =>
      split at h
      next i _ => exact hscalar (.number (exact_ofI64 i)) rfl (Except.ok.inj h)
      next => cases h
    next =>
    split at h
    next =>
      split at h
      next bits _ =>
        split at h
        next n hn => exact hscalar (.number (exact_fromF64 hn)) rfl (Except.ok.inj h)
        next => exact hscalar .null rfl (Except.ok.inj h)
      next => cases h
    next =>
    split at h
    next =>
      split at h
      next str hstr =>
        obtain ⟨len, -, hslice⟩ : ∃ len, readU32 data 1 = some len ∧
            utf8Slice data 5 (5 + len) = some str := by
          unfold asStr at hstr
          split at hstr
          next => cases hstr
          next => exact Option.bind_eq_some_iff.mp hstr
        exact hscalar (.string (validUtf8_of_utf8Slice hslice)) rfl (Except.ok.inj h)
      next => cases h
    next =>
    split at h
    next =>
      split at h
      next => cases h
      next n _ =>
        obtain ⟨items, hitems, rfl⟩ := except_map_eq_ok.mp h
        have hall : ∀ w ∈ items, w.Storable ∧ valueDepth w ≤ levels := by
          intro w hw
          obtain ⟨j, hj⟩ := mem_of_readEntries hitems w hw
          split at hj
          next item _ => exact ih hj
          next => cases hj
        have hdepth := itemsDepth_le fun w hw => (hall w hw).2
        refine ⟨.array fun w hw => (hall w hw).1, ?_⟩
        rw [valueDepth]
        omega
    next =>
    split at h
    next =>
      split at h
      next => cases h
      next n _ =>
        obtain ⟨entries, hentries, rfl⟩ := except_map_eq_ok.mp h
        obtain ⟨hsorted, hfrom⟩ := sorted_foldl_insertPair entries List.Pairwise.nil
        have hall : ∀ m ∈ entries.foldl (fun map p => insertPair p.1 p.2 map) [],
            validUtf8 m.1 = true ∧ m.2.Storable ∧ valueDepth m.2 ≤ levels := by
          intro m hm
          obtain ⟨j, hj⟩ := mem_of_readEntries hentries m ((hfrom m hm).resolve_right List.not_mem_nil)
          split at hj
          next k view hget =>
            obtain ⟨w, hw, rfl⟩ := except_map_eq_ok.mp hj
            exact ⟨key_of_getAt hget, ih hw⟩
          next => cases hj
        have hdepth := membersDepth_le fun m hm => (hall m hm).2.2
        refine ⟨.object (fun m hm => (hall m hm).1) hsorted fun m hm => (hall m hm).2.1, ?_⟩
        rw [valueDepth]
        omega
    next => cases h

end ValueView

open ValueView ZDocBuilder

/-- Whatever bytes are decoded, the value that comes out is one the format keeps: within the nesting
limit, with UTF-8 strings and sorted keys, and read back as it is once it is written again. -/
theorem zdoc_accepted_storable (data : Bytes) (v : Value) (h : toValue data = .ok v) :
    v.Storable ∧ valueDepth v ≤ maxZdocDepth ∧
      ((fromValue v).length < 2 ^ 32 → toValue (fromValue v) = .ok v) := by
  obtain ⟨hst, hd⟩ := toValueAtDepth_storable h
  refine ⟨hst, hd, fun hlen => ?_⟩
  rw [fromValue_eq] at hlen ⊢
  have hback := toValueAtDepth_encodeZDoc hst hd hlen []
  rwa [List.append_nil] at hback

/-- Both entries of the array are stored once, at offset 17; written again they are stored twice. -/
theorem shared_entry_storable :
    let v : Value := .array [.bool true, .bool true]
    v.Storable ∧ valueDepth v ≤ maxZdocDepth ∧ toValue (fromValue v) = .ok v := by
  intro v
  obtain ⟨hst, hd, hback⟩ := zdoc_accepted_storable
    [typeArray, 18, 0, 0, 0, 2, 0, 0, 0, 17, 0, 0, 0, 17, 0, 0, 0, typeBoolTrue] v rfl
  exact ⟨hst, hd, hback (by decide)⟩

end ZydecoDb
