import ZydecoDb.TableBlocks

namespace ZydecoDb

open Lib

abbrev IndexedBlock := IndexEntry × List Version

namespace TableFile

variable {crc : Bytes → UInt32} {t : TableFile} {ibs : List IndexedBlock}

/-- What the index promises of a block: it is not empty, the entry names its first key, and reading
it gives the encoding of its versions. -/
def ReadsBlock (crc : Bytes → UInt32) (t : TableFile) (p : IndexedBlock) : Prop :=
  ∃ v vs, p.2 = v :: vs ∧ p.1.firstUserKey = v.userKey ∧
    t.readBlock crc p.1 = .ok (p.2.flatMap encodeEntry)

structure Reads (crc : Bytes → UInt32) (t : TableFile) (ibs : List IndexedBlock) : Prop where
  block : ∀ p ∈ ibs, t.ReadsBlock crc p
  ascending : (ibs.flatMap Prod.snd).Pairwise fun a b => a.userKey ≤ b.userKey
  storable : ∀ v ∈ ibs.flatMap Prod.snd, v.Storable

theorem Reads.sublist {ibs' : List IndexedBlock} (h : t.Reads crc ibs) (hs : ibs'.Sublist ibs) :
    t.Reads crc ibs' where
  block p hp := h.block p (hs.subset hp)
  ascending := h.ascending.sublist (by
    rw [List.flatMap_def, List.flatMap_def]
    exact (hs.map _).flatten)
  storable v hv := by
    obtain ⟨p, hp, hv⟩ := List.mem_flatMap.mp hv
    exact h.storable v (List.mem_flatMap.mpr ⟨p, hs.subset hp, hv⟩)

theorem Reads.tail {p : IndexedBlock} (h : t.Reads crc (p :: ibs)) : t.Reads crc ibs :=
  h.sublist (List.sublist_cons_self _ _)

theorem Reads.drop (h : t.Reads crc ibs) (n : Nat) : t.Reads crc (ibs.drop n) :=
  h.sublist (List.drop_sublist _ _)

theorem Reads.le_of_append {ibs' : List IndexedBlock} (h : t.Reads crc (ibs ++ ibs'))
    {v w : Version} (hv : v ∈ ibs.flatMap Prod.snd) (hw : w ∈ ibs'.flatMap Prod.snd) :
    v.userKey ≤ w.userKey := by
  have hasc := h.ascending
  rw [List.flatMap_append, List.pairwise_append] at hasc
  exact hasc.2.2 v hv w hw

theorem Reads.first_le {p : IndexedBlock} (h : t.Reads crc (p :: ibs)) :
    ∀ v ∈ (p :: ibs).flatMap Prod.snd, p.1.firstUserKey ≤ v.userKey := by
  obtain ⟨w, ws, hp, hfirst, -⟩ := h.block p List.mem_cons_self
  have hasc := h.ascending
  rw [List.flatMap_cons, hp, List.cons_append] at hasc ⊢
  rw [hfirst]
  intro v hv
  rcases List.mem_cons.mp hv with rfl | hv
  · exact le_rfl
  · exact (List.pairwise_cons.mp hasc).1 v hv

theorem Reads.head {p : IndexedBlock} (h : t.Reads crc (p :: ibs)) :
    (∀ v ∈ p.2, v.Storable) ∧ p.2.Pairwise fun a b => a.userKey ≤ b.userKey := by
  have hasc := h.ascending
  have hst := h.storable
  rw [List.flatMap_cons] at hasc hst
  exact ⟨fun v hv => hst v (List.mem_append_left _ hv), (List.pairwise_append.mp hasc).1⟩

theorem latestFrom_eq {k : Bytes} (h : t.Reads crc ibs) :
    t.latestFrom crc k (ibs.map Prod.fst) =
      .ok ((ibs.flatMap Prod.snd).find? fun v => v.userKey = k) := by
  induction ibs with
  | nil => rfl
  | cons p ibs ih =>
    obtain ⟨-, -, -, -, hread⟩ := h.block p List.mem_cons_self
    obtain ⟨hst, hasc⟩ := h.head
    rw [List.map_cons, latestFrom]
    split
    next hlt =>
      have hnone : ((p :: ibs).flatMap Prod.snd).find? (fun v => v.userKey = k) = none := by
        rw [List.find?_eq_none]
        intro v hv
        have hgt := lt_of_lt_of_le hlt (h.first_le v hv)
        simpa using hgt.ne'
      rw [hnone]
    next =>
      rw [hread]
      simp only [bind, Except.bind]
      rw [scanBlockForLatest_eq hst hasc le_rfl, List.flatMap_cons, List.find?_append]
      cases hf : p.2.find? fun v => v.userKey = k with
      | some v => rfl
      | none => simpa using ih h.tail

theorem loadNextBlock_eq (lo hi : Bytes) (h : t.Reads crc ibs) :
    ∃ pairs ibs' exhausted, SstableRangeIter.loadNextBlock crc t lo hi (ibs.map Prod.fst) =
        .ok (pairs, ibs'.map Prod.fst, exhausted) ∧ t.Reads crc ibs' ∧
      rangeOf lo hi (ibs.flatMap Prod.snd) =
        pairs ++ (if exhausted then [] else rangeOf lo hi (ibs'.flatMap Prod.snd)) ∧
      (pairs = [] → rangeOf lo hi (ibs.flatMap Prod.snd) = []) := by
  induction ibs with
  | nil => exact ⟨[], [], false, rfl, h, rfl, fun _ => rfl⟩
  | cons p ibs ih =>
    obtain ⟨-, -, -, -, hread⟩ := h.block p List.mem_cons_self
    obtain ⟨hst, hasc⟩ := h.head
    rw [List.map_cons, SstableRangeIter.loadNextBlock]
    split
    next hhi =>
      have hnone : rangeOf lo hi ((p :: ibs).flatMap Prod.snd) = [] :=
        rangeOf_past hhi.1 fun v hv => hhi.2.trans (h.first_le v hv)
      have hrest : rangeOf lo hi (ibs.flatMap Prod.snd) = [] :=
        rangeOf_past hhi.1 fun v hv => hhi.2.trans (h.first_le v (List.mem_append_right _ hv))
      refine ⟨[], ibs, false, rfl, h.tail, ?_, fun _ => hnone⟩
      rw [hnone, hrest]
      rfl
    next =>
      obtain ⟨exhausted, hdec, hex⟩ := decodeInRange_eq lo hi hst hasc le_rfl
      have hend : exhausted = true → rangeOf lo hi (ibs.flatMap Prod.snd) = [] := by
        intro he
        obtain ⟨hne, w, hw, hle⟩ := hex he
        have happ : t.Reads crc ([p] ++ ibs) := h
        exact rangeOf_past hne fun v hv => hle.trans (happ.le_of_append (by simpa using hw) hv)
      rw [hread]
      simp only [bind, Except.bind]
      rw [hdec, List.flatMap_cons, rangeOf_append]
      simp only
      split
      next hstop =>
        refine ⟨_, ibs, exhausted, rfl, h.tail, ?_, fun hnil => ?_⟩
        · cases he : exhausted with
          | true =>
            rw [hend he]
            rfl
          | false => rfl
        · rw [hnil, hend (hstop.resolve_left fun hne => hne hnil), List.append_nil]
      next hgo =>
        obtain ⟨hnil, -⟩ := not_or.mp hgo
        rw [not_not] at hnil
        rw [hnil, List.nil_append]
        exact ih h.tail

theorem collect_eq {lo hi : Bytes} {current : List Version} {exhausted : Bool} {fuel : Nat}
    (h : t.Reads crc ibs)
    (hf : (current ++ (if exhausted then [] else rangeOf lo hi (ibs.flatMap Prod.snd))).length <
      fuel) :
    SstableRangeIter.collect crc fuel ⟨t, lo, hi, ibs.map Prod.fst, current, exhausted⟩ =
      .ok (current ++ (if exhausted then [] else rangeOf lo hi (ibs.flatMap Prod.snd))) := by
  induction fuel generalizing ibs current exhausted with
  | zero => omega
  | succ fuel ih =>
    rw [SstableRangeIter.collect]
    cases current with
    | cons v rest =>
      have hrec : SstableRangeIter.collect crc fuel
          ⟨t, lo, hi, ibs.map Prod.fst, rest, exhausted⟩ = _ := ih h (by simpa using hf)
      simp only [SstableRangeIter.next, bind, Except.bind]
      rw [hrec]
      rfl
    | nil =>
      cases exhausted with
      | true => rfl
      | false =>
        obtain ⟨pairs, ibs', ex, hload, hreads, hsplit, hnone⟩ := loadNextBlock_eq lo hi h
        simp only [SstableRangeIter.next, bind, Except.bind, Bool.false_eq_true, if_false,
          List.nil_append] at hf ⊢
        rw [hload]
        cases pairs with
        | nil =>
          rw [hnone rfl]
        | cons v rest =>
          rw [hsplit] at hf
          have hrec : SstableRangeIter.collect crc fuel
              ⟨t, lo, hi, ibs'.map Prod.fst, rest, ex⟩ = _ := ih hreads (by simpa using hf)
          simp only
          rw [hrec, hsplit]
          rfl

theorem Reads.split_at {j : Nat} {p : IndexedBlock} (hp : ibs[j]? = some p) :
    ibs = ibs.take j ++ (p :: ibs.drop (j + 1)) := by
  obtain ⟨hj, rfl⟩ := List.getElem?_eq_some_iff.mp hp
  rw [← List.drop_eq_getElem_cons hj, List.take_append_drop]

theorem Reads.le_first (h : t.Reads crc ibs) {j : Nat} {p : IndexedBlock} (hp : ibs[j]? = some p)
    {v : Version} (hv : v ∈ (ibs.take j).flatMap Prod.snd) : v.userKey ≤ p.1.firstUserKey := by
  obtain ⟨w, ws, hb, hfirst, -⟩ := h.block p (List.mem_of_getElem? hp)
  rw [Reads.split_at hp] at h
  rw [hfirst]
  exact h.le_of_append hv (by simp [hb])

theorem Reads.first_mono (h : t.Reads crc ibs) {i j : Nat} {p q : IndexedBlock} (hij : i ≤ j)
    (hp : ibs[i]? = some p) (hq : ibs[j]? = some q) : p.1.firstUserKey ≤ q.1.firstUserKey := by
  rcases Nat.lt_or_eq_of_le hij with hlt | rfl
  · obtain ⟨v, vs, hb, hfirst, -⟩ := h.block p (List.mem_of_getElem? hp)
    have hmem : p ∈ ibs.take j := by
      apply List.mem_of_getElem? (i := i)
      rw [List.getElem?_take_of_lt hlt, hp]
    rw [hfirst]
    exact h.le_first hq (List.mem_flatMap.mpr ⟨p, hmem, by simp [hb]⟩)
  · cases Option.some.inj (hp.symm.trans hq)
    exact le_rfl

section Indexed

variable (hidx : t.index = ibs.map Prod.fst) (h : t.Reads crc ibs)
include hidx h

theorem lastBlockAt_spec {key : Bytes} {i : Nat} (hi : t.lastBlockAt key = some i) :
    ∃ p, ibs[i]? = some p ∧ p.1.firstUserKey ≤ key := by
  have hlast := searchLast_spec (n := t.index.length)
    (p := fun i => (t.index[i]?.map fun e => decide (e.firstUserKey ≤ key)).getD false) (by
      intro i j hij hj hpj
      obtain ⟨q, hq⟩ : ∃ q, ibs[j]? = some q :=
        ⟨_, List.getElem?_eq_getElem (by simpa [hidx] using hj)⟩
      obtain ⟨p, hp⟩ : ∃ p, ibs[i]? = some p :=
        ⟨_, List.getElem?_eq_getElem (by simp [hidx] at hj; omega)⟩
      have hle := h.first_mono hij hp hq
      simp only [hidx, List.getElem?_map, hp, hq, Option.map_some, Option.getD_some,
        decide_eq_true_eq] at hpj ⊢
      exact hle.trans hpj)
  unfold lastBlockAt at hi
  rw [hi] at hlast
  obtain ⟨hlt, hp, -⟩ := hlast
  obtain ⟨p, hget⟩ : ∃ p, ibs[i]? = some p :=
    ⟨_, List.getElem?_eq_getElem (by simpa [hidx] using hlt)⟩
  refine ⟨p, hget, ?_⟩
  simpa [hidx, hget] using hp

/-- The walk back passes only blocks whose keys are all smaller. -/
theorem earliestBlockForKey_spec {key : Bytes} {i : Nat}
    (hi : i = 0 ∨ ∃ p, ibs[i]? = some p ∧ p.1.firstUserKey ≤ key) :
    ∃ j, t.earliestBlockForKey crc key i = .ok j ∧
      ∀ v ∈ (ibs.take j).flatMap Prod.snd, v.userKey < key := by
  induction i with
  | zero => exact ⟨0, rfl, by simp⟩
  | succ i ih =>
    obtain ⟨p, hp, hle⟩ := hi.resolve_left (Nat.succ_ne_zero i)
    obtain ⟨q, hq⟩ : ∃ q, ibs[i]? = some q := by
      have hlt := (List.getElem?_eq_some_iff.mp hp).1
      exact ⟨_, List.getElem?_eq_getElem (by omega)⟩
    have hip : t.index[i + 1]? = some p.1 := by rw [hidx, List.getElem?_map, hp]; rfl
    have hiq : t.index[i]? = some q.1 := by rw [hidx, List.getElem?_map, hq]; rfl
    rw [earliestBlockForKey, hip, hiq]
    simp only
    split
    next hkey =>
      obtain ⟨w, ws, hqb, hfirst, hread⟩ := h.block q (List.mem_of_getElem? hq)
      have hsub : t.Reads crc (q :: ibs.drop (i + 1)) := by
        apply h.sublist
        conv_rhs => rw [Reads.split_at hq]
        exact List.sublist_append_right _ _
      rw [hread]
      simp only [bind, Except.bind]
      rw [scanBlockForLatest_eq hsub.head.1 hsub.head.2 le_rfl]
      cases hf : q.2.find? fun v => v.userKey = key with
      | some v => exact ih (Or.inr ⟨q, hq, hkey ▸ h.first_mono (Nat.le_succ i) hq hp⟩)
      | none =>
        -- the block before holds no entry of the key, so all of it is below
        refine ⟨i + 1, rfl, ?_⟩
        have hbelow : ∀ v ∈ q.2, v.userKey < key := by
          intro v hv
          have hmem : v ∈ (ibs.take (i + 1)).flatMap Prod.snd := by
            rw [List.take_succ_eq_append_getElem (List.getElem?_eq_some_iff.mp hq).1,
              (List.getElem?_eq_some_iff.mp hq).2]
            simp [hv]
          have hne := List.find?_eq_none.mp hf v hv
          exact lt_of_le_of_ne ((h.le_first hp hmem).trans hle) (by simpa using hne)
        intro v hv
        rw [List.take_succ_eq_append_getElem (List.getElem?_eq_some_iff.mp hq).1,
          (List.getElem?_eq_some_iff.mp hq).2, List.flatMap_append, List.mem_append] at hv
        rcases hv with hv | hv
        · have hfw : q.1.firstUserKey < key := by
            rw [hfirst]
            exact hbelow w (by simp [hqb])
          exact lt_of_le_of_lt (h.le_first hq hv) hfw
        · exact hbelow v (by simpa using hv)
    next hkey =>
      exact ⟨i + 1, rfl, fun v hv => lt_of_le_of_lt (h.le_first hp hv) (lt_of_le_of_ne hle hkey)⟩

/-- The lookup finds the first version of the key in the file. -/
theorem getLatest_eq (k : Bytes) : t.getLatest crc k =
    .ok ((ibs.flatMap Prod.snd).find? fun v => v.userKey = k) := by
  unfold getLatest candidateBlock
  by_cases hnil : t.index = []
  · have hibs : ibs = [] := by
      rw [hidx] at hnil
      exact List.map_eq_nil_iff.mp hnil
    simp [hnil, hibs]
  · rw [if_neg hnil]
    have hstart : (t.lastBlockAt k).or (some 0) = some ((t.lastBlockAt k).getD 0) := by
      cases t.lastBlockAt k <;> rfl
    have hcand : (t.lastBlockAt k).getD 0 = 0 ∨
        ∃ p, ibs[(t.lastBlockAt k).getD 0]? = some p ∧ p.1.firstUserKey ≤ k := by
      cases hl : t.lastBlockAt k with
      | none => exact Or.inl rfl
      | some i => exact Or.inr (lastBlockAt_spec hidx h hl)
    obtain ⟨j, hj, hbelow⟩ := earliestBlockForKey_spec hidx h hcand
    rw [hstart]
    simp only [hj, bind, Except.bind]
    rw [hidx, ← List.map_drop, latestFrom_eq (h.drop j)]
    have hnone : ((ibs.take j).flatMap Prod.snd).find? (fun v => v.userKey = k) = none := by
      rw [List.find?_eq_none]
      intro v hv
      simpa using (hbelow v hv).ne
    conv_rhs => rw [← List.take_append_drop j ibs, List.flatMap_append, List.find?_append, hnone]
    rfl

theorem rangeStart_spec (lo : Bytes) : ∃ j, t.rangeStart crc lo = .ok j ∧
    ∀ v ∈ (ibs.take j).flatMap Prod.snd, v.userKey < lo := by
  have hzero : t.rangeStartBlock lo = 0 ∨
      ∃ p, ibs[t.rangeStartBlock lo]? = some p ∧ p.1.firstUserKey ≤ lo := by
    unfold rangeStartBlock
    split
    next => exact Or.inl rfl
    next =>
      cases hl : t.lastBlockAt lo with
      | none => exact Or.inl rfl
      | some i => exact Or.inr (lastBlockAt_spec hidx h hl)
  unfold rangeStart
  split
  next hlo =>
    -- no stored key is empty, so the search starts at the first block
    rcases hzero with h0 | ⟨p, hp, hle⟩
    · rw [h0]
      exact ⟨0, rfl, by simp⟩
    · obtain ⟨v, vs, hb, hfirst, -⟩ := h.block p (List.mem_of_getElem? hp)
      have hst := h.storable v (List.mem_flatMap.mpr ⟨p, List.mem_of_getElem? hp, by simp [hb]⟩)
      rw [hlo, hfirst] at hle
      exact absurd (le_antisymm hle (nil_le _)) hst.key_ne
  next => exact earliestBlockForKey_spec hidx h hzero

theorem rangeIter_collect (lo hi : Bytes) {fuel : Nat}
    (hf : (rangeOf lo hi (ibs.flatMap Prod.snd)).length < fuel) :
    ∃ it, t.rangeIter crc lo hi = .ok it ∧
      it.collect crc fuel = .ok (rangeOf lo hi (ibs.flatMap Prod.snd)) := by
  obtain ⟨j, hj, hbelow⟩ := rangeStart_spec hidx h lo
  have hsplit : rangeOf lo hi (ibs.flatMap Prod.snd) =
      rangeOf lo hi ((ibs.drop j).flatMap Prod.snd) := by
    have hnone : rangeOf lo hi ((ibs.take j).flatMap Prod.snd) = [] := by
      rw [rangeOf, List.filter_eq_nil_iff]
      intro v hv
      simp [not_le.mpr (hbelow v hv)]
    conv_lhs => rw [← List.take_append_drop j ibs, List.flatMap_append, rangeOf_append, hnone]
    rfl
  refine ⟨⟨t, lo, hi, (ibs.drop j).map Prod.fst, [], false⟩, ?_, ?_⟩
  · simp only [rangeIter, hj, bind, Except.bind]
    rw [hidx, List.map_drop]
  · rw [hsplit] at hf ⊢
    exact collect_eq (h.drop j) (by simpa using hf)

theorem fullIter_collect {fuel : Nat} (hf : (ibs.flatMap Prod.snd).length < fuel) :
    t.fullIter.collect crc fuel = .ok (ibs.flatMap Prod.snd) := by
  have hall : rangeOf [] [] (ibs.flatMap Prod.snd) = ibs.flatMap Prod.snd := by
    rw [rangeOf, List.filter_eq_self]
    intro v _
    simp [nil_le]
  rw [← hall] at hf ⊢
  rw [fullIter, hidx]
  exact collect_eq h (by simpa using hf)

end Indexed

end TableFile

end ZydecoDb
