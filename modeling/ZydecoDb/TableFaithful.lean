import ZydecoDb.TableFormat

namespace ZydecoDb

open Lib

structure TableFile.Faithful (crc : Bytes → UInt32) (hash : Bytes → UInt64 → UInt64)
    (t : TableFile) (entries : List Version) : Prop where
  latest : ∀ k, t.getLatest crc k = .ok (newest entries k)
  range : ∀ lo hi fuel, entries.length < fuel → ∃ it, t.rangeIter crc lo hi = .ok it ∧
    it.collect crc fuel = .ok (rangeOf lo hi entries)
  full : ∀ fuel, entries.length < fuel → t.fullIter.collect crc fuel = .ok entries
  rangeRev : ∀ lo hi fuel, entries.length < fuel → ∃ back, t.rangeIterRev crc lo hi fuel = .ok back ∧
    back.Perm (rangeOf lo hi entries) ∧ back.Pairwise Version.leRev
  bloom : ∀ v ∈ entries, t.mightContain hash v.userKey = true

section Open

variable {crc : Bytes → UInt32} {hash : Bytes → UInt64 → UInt64} {entries : List Version}
  {withBloom : Bool}

def reachedBlocks (crc : Bytes → UInt32) (entries : List Version) : List IndexedBlock :=
  (indexedBlocks crc entries).take ((packBlocks 0 entries).length % 256 ^ 4)

theorem bloomOf_mightContain {t : TableFile} (hb : t.bloom = bloomOf hash entries withBloom) :
    ∀ v ∈ entries, t.mightContain hash v.userKey = true := by
  intro v hv
  unfold TableFile.mightContain
  rw [hb, bloomOf]
  split
  next bf hbf =>
    obtain ⟨-, ⟨⟩⟩ := Option.ite_none_right_eq_some.mp hbf
    exact (BloomFilter.build_spec hash _).2.2 _ (List.mem_map_of_mem hv)
  next => rfl

theorem rangeOf_length_le (lo hi : Bytes) (vs : List Version) :
    (rangeOf lo hi vs).length ≤ vs.length := List.length_filter_le _ _

theorem openTable_reached (hsort : entries.Pairwise Version.le) (hst : ∀ v ∈ entries, v.Storable)
    (hlen : (sstableBytes crc hash entries withBloom).length < 2 ^ 64)
    (hbits : withBloom = true → BloomFilter.numBitsFor entries.length < 2 ^ 32) :
    ∃ t, openTable crc (sstableBytes crc hash entries withBloom) = .ok t ∧
      t.index = (reachedBlocks crc entries).map Prod.fst ∧ t.Reads crc (reachedBlocks crc entries) ∧
      t.bloom = bloomOf hash entries withBloom := by
  refine ⟨_, openTable_sstableBytes hst hlen hbits, ?_, ?_, rfl⟩
  · rw [reachedBlocks, List.map_take, indexedBlocks_fst]
  · have hall : TableFile.Reads crc ⟨sstableBytes crc hash entries withBloom, sstableFormatVersion,
        (tableIndex crc entries).take ((packBlocks 0 entries).length % 256 ^ 4),
        bloomOf hash entries withBloom⟩ (indexedBlocks crc entries) := by
      refine ⟨?_, ?_, ?_⟩
      · exact readsBlock_of_write rfl (packBlocks_ne_nil 0 entries) (List.nil_append _).symm rfl
      · rw [indexedBlocks_flatMap]
        exact keyAscending_of_sorted hsort
      · rw [indexedBlocks_flatMap]
        exact hst
    exact hall.sublist (List.take_sublist _ _)

theorem faithful_of_reads {t : TableFile} (hsort : entries.Pairwise Version.le)
    {ibs : List IndexedBlock} (hidx : t.index = ibs.map Prod.fst) (h : t.Reads crc ibs)
    (hall : ibs.flatMap Prod.snd = entries) (hb : t.bloom = bloomOf hash entries withBloom) :
    t.Faithful crc hash entries where
  latest k := by
    rw [TableFile.getLatest_eq hidx h, hall, newest, newest_eq_find (newestFirst_of_sorted hsort)]
  range lo hi fuel hf := by
    have hlt : (rangeOf lo hi (ibs.flatMap Prod.snd)).length < fuel := by
      rw [hall]
      exact lt_of_le_of_lt (rangeOf_length_le _ _ _) hf
    rw [← hall]
    exact TableFile.rangeIter_collect hidx h lo hi hlt
  full fuel hf := by
    rw [← hall] at hf ⊢
    exact TableFile.fullIter_collect hidx h hf
  rangeRev lo hi fuel hf := by
    have hlt : (rangeOf lo hi (ibs.flatMap Prod.snd)).length < fuel := by
      rw [hall]
      exact lt_of_le_of_lt (rangeOf_length_le _ _ _) hf
    obtain ⟨it, hit, hc⟩ := TableFile.rangeIter_collect hidx h lo hi hlt
    rw [hall] at hc
    refine ⟨sortRev (rangeOf lo hi entries), ?_, List.perm_insertionSort _ _, sortRev_sorted _⟩
    simp only [TableFile.rangeIterRev, hit, hc, bind, Except.bind]
  bloom := bloomOf_mightContain hb

theorem length_reachedBlocks_lt
    (h : 256 ^ 4 ≤ (packBlocks 0 entries).length) :
    ((reachedBlocks crc entries).flatMap Prod.snd).length < entries.length := by
  have hlen := indexedBlocks_length crc entries
  have hcut : (packBlocks 0 entries).length % 256 ^ 4 < (indexedBlocks crc entries).length := by
    rw [hlen]
    exact lt_of_lt_of_le (Nat.mod_lt _ (by decide)) h
  obtain ⟨p, hp⟩ : ∃ p, p ∈ (indexedBlocks crc entries).drop
      ((packBlocks 0 entries).length % 256 ^ 4) :=
    List.exists_mem_of_ne_nil _ (by
      rw [Ne, List.drop_eq_nil_iff]
      omega)
  have hne : p.2 ≠ [] := by
    have hmem : p.2 ∈ (indexedBlocks crc entries).map Prod.snd :=
      List.mem_map_of_mem (List.mem_of_mem_drop hp)
    rw [indexedBlocks_snd] at hmem
    exact packBlocks_ne_nil 0 entries _ hmem
  have hpos : 0 < (((indexedBlocks crc entries).drop
      ((packBlocks 0 entries).length % 256 ^ 4)).flatMap Prod.snd).length := by
    obtain ⟨v, vs, hv⟩ := List.exists_cons_of_ne_nil hne
    have hmem : v ∈ p.2 := by simp [hv]
    exact List.length_pos_of_mem (List.mem_flatMap.mpr ⟨p, hp, hmem⟩)
  have hsplit : entries.length = ((reachedBlocks crc entries).flatMap Prod.snd).length +
      (((indexedBlocks crc entries).drop
        ((packBlocks 0 entries).length % 256 ^ 4)).flatMap Prod.snd).length := by
    rw [← List.length_append, ← List.flatMap_append, reachedBlocks, List.take_append_drop,
      indexedBlocks_flatMap]
  omega

theorem reachedBlocks_eq (h : (packBlocks 0 entries).length < 2 ^ 32) :
    reachedBlocks crc entries = indexedBlocks crc entries := by
  have hmod : (packBlocks 0 entries).length % 256 ^ 4 = (packBlocks 0 entries).length :=
    Nat.mod_eq_of_lt h
  rw [reachedBlocks, hmod, ← indexedBlocks_length crc, List.take_length]

/-- The file of a table, opened, answers as the reader the engine's model keeps for the table. -/
theorem openTable_refines (hsort : entries.Pairwise Version.le) (hst : ∀ v ∈ entries, v.Storable)
    (hlen : (sstableBytes crc hash entries withBloom).length < 2 ^ 64)
    (hbits : withBloom = true → BloomFilter.numBitsFor entries.length < 2 ^ 32)
    (hblocks : (packBlocks 0 entries).length < 2 ^ 32) (id level : Nat) :
    let reader := (buildSstable id level entries
      ((bloomOf hash entries withBloom).map fun bf => bf.maybeContains hash)).reader
    ∃ t, openTable crc (sstableBytes crc hash entries withBloom) = .ok t ∧
      (∀ k, t.mightContain hash k = reader.mightContain k) ∧
      (∀ k, t.getLatest crc k = .ok (reader.getLatest k)) ∧
      ∀ lo hi fuel, entries.length < fuel → ∃ it, t.rangeIter crc lo hi = .ok it ∧
        it.collect crc fuel = .ok (reader.rangeIter lo hi) := by
  obtain ⟨t, hopen, hidx, hreads, hbloom⟩ := openTable_reached hsort hst hlen hbits
  have hall : (reachedBlocks crc entries).flatMap Prod.snd = entries := by
    rw [reachedBlocks_eq hblocks, indexedBlocks_flatMap]
  refine ⟨t, hopen, fun k => ?_, fun k => ?_, (faithful_of_reads hsort hidx hreads hall hbloom).range⟩
  · unfold TableFile.mightContain SstableReader.mightContain
    rw [hbloom]
    simp only [buildSstable]
    cases bloomOf hash entries withBloom <;> rfl
  · rw [TableFile.getLatest_eq hidx hreads, hall]
    rfl

end Open

def foldChecksum (b : Bytes) : UInt32 := b.foldl (fun a x => 31 * a + x.toUInt32) 7

def foldHash (b : Bytes) (seed : UInt64) : UInt64 := b.foldl (fun a x => 31 * a + x.toUInt64) seed

def blockSized : Version := ⟨[1, 7], 3, .value (List.replicate sstableBlockSize 0) none⟩

def twoBlocks : List Version := [blockSized, ⟨[1, 7], 1, .value [10] (some 5)⟩, ⟨[1, 8], 2, .tombstone⟩]

theorem blockSized_len : encodeEntryLen blockSized = 27 + sstableBlockSize := by
  simp [encodeEntryLen, blockSized, Entry.valueLen, Entry.valueBytes]

theorem twoBlocks_storable : ∀ v ∈ twoBlocks, v.Storable := by
  have hlen : blockSized.entry.valueBytes.length ≤ maxValueBytes := by
    simp only [blockSized, Entry.valueBytes, List.length_replicate]
    decide
  intro v hv
  simp only [twoBlocks, List.mem_cons, List.not_mem_nil, or_false] at hv
  rcases hv with rfl | rfl | rfl
  · exact ⟨by decide, by decide, hlen, by decide, by decide, by simp [blockSized]⟩
  all_goals exact ⟨by decide, by decide, by decide, by decide, by decide, by simp⟩

theorem twoBlocks_packed : packBlocks 0 twoBlocks =
    [[blockSized], [⟨[1, 7], 1, .value [10] (some 5)⟩, ⟨[1, 8], 2, .tombstone⟩]] := by
  rw [twoBlocks, packBlocks, if_pos (by rw [encodeEntry_length, blockSized_len]; omega)]
  rfl

theorem twoBlocks_len :
    (sstableBytes foldChecksum foldHash twoBlocks true).length < 2 ^ 64 := by
  have hkeys : blockFirstKeys 0 twoBlocks = [[1, 7], [1, 7]] := by
    rw [blockFirstKeys_eq, twoBlocks_packed]
    rfl
  rw [sstableBytes_length, sstableLen, hkeys, twoBlocks, List.map_cons, blockSized_len]
  decide
/-- A value that fills a block, and behind it the version it overwrote and a deleted key: the opened
file finds the newest version, the tombstone, and nothing of a key that is not there. -/
theorem openTable_refines_twoBlocks : ∃ t, openTable foldChecksum
    (sstableBytes foldChecksum foldHash twoBlocks true) = .ok t ∧
      t.getLatest foldChecksum [1, 7] = .ok (some blockSized) ∧
      t.getLatest foldChecksum [1, 8] = .ok (some ⟨[1, 8], 2, .tombstone⟩) ∧
      t.getLatest foldChecksum [1, 9] = .ok none := by
  obtain ⟨t, hopen, -, hget, -⟩ := @openTable_refines foldChecksum foldHash twoBlocks true (by decide)
    twoBlocks_storable twoBlocks_len (by decide) (by rw [twoBlocks_packed]; decide) 1 0
  exact ⟨t, hopen, hget [1, 7], hget [1, 8], hget [1, 9]⟩

/-- A table built from sorted versions is faithful exactly when the count of its blocks fits the 32
bits the index writes it with. -/
theorem sstable_faithful_iff (crc : Bytes → UInt32) (hash : Bytes → UInt64 → UInt64)
    (entries : List Version) (withBloom : Bool) (hsort : entries.Pairwise Version.le)
    (hst : ∀ v ∈ entries, v.Storable)
    (hlen : (sstableBytes crc hash entries withBloom).length < 2 ^ 64)
    (hbits : withBloom = true → BloomFilter.numBitsFor entries.length < 2 ^ 32) :
    (∃ t, openTable crc (sstableBytes crc hash entries withBloom) = .ok t ∧
      t.Faithful crc hash entries) ↔ (packBlocks 0 entries).length < 2 ^ 32 := by
  obtain ⟨t, hopen, hidx, hreads, hbloom⟩ := openTable_reached hsort hst hlen hbits
  constructor
  · rintro ⟨t', ht', hf⟩
    cases Except.ok.inj (hopen.symm.trans ht')
    by_contra hmany
    have hlt : ((reachedBlocks crc entries).flatMap Prod.snd).length < entries.length :=
      length_reachedBlocks_lt (not_lt.mp hmany)
    have hfull := hf.full (entries.length + 1) (Nat.lt_succ_self _)
    rw [TableFile.fullIter_collect hidx hreads (hlt.trans (Nat.lt_succ_self _))] at hfull
    rw [Except.ok.inj hfull] at hlt
    exact lt_irrefl _ hlt
  · intro hfew
    refine ⟨t, hopen, faithful_of_reads hsort hidx hreads ?_ hbloom⟩
    rw [reachedBlocks_eq hfew, indexedBlocks_flatMap]

/-- Two versions of one key in different blocks and a deleted key, built with a filter. -/
theorem sstable_faithful_twoBlocks :
    ∃ t, openTable foldChecksum (sstableBytes foldChecksum foldHash twoBlocks true) = .ok t ∧
      t.Faithful foldChecksum foldHash twoBlocks :=
  (sstable_faithful_iff foldChecksum foldHash twoBlocks true (by decide) twoBlocks_storable
    twoBlocks_len (by decide)).mpr (by rw [twoBlocks_packed]; decide)

def blockSizedVersions (n : Nat) : List Version :=
  (List.range n).map fun i => ⟨[1], n - i, .value (List.replicate sstableBlockSize 0) none⟩

theorem blockSizedVersions_sorted (n : Nat) : (blockSizedVersions n).Pairwise Version.le := by
  rw [blockSizedVersions, List.pairwise_map]
  refine List.pairwise_lt_range.imp_of_mem fun {i j} hi hj hij => ?_
  have hj := List.mem_range.mp hj
  exact Or.inr ⟨rfl, Or.inl (by simp only [Version.internalKey]; omega)⟩

theorem blockSizedVersions_storable {n : Nat} (hn : n ≤ u64Max) :
    ∀ v ∈ blockSizedVersions n, v.Storable := by
  intro v hv
  obtain ⟨i, -, rfl⟩ := List.mem_map.mp hv
  have hlen : (List.replicate sstableBlockSize (0 : UInt8)).length ≤ maxValueBytes := by
    rw [List.length_replicate]
    decide
  refine ⟨by simp, ?_, hlen, by simp only; omega, Nat.zero_le _, by simp⟩
  simp [maxKeyBytes]

theorem blockSizedVersions_len (n : Nat) : ∀ v ∈ blockSizedVersions n,
    encodeEntryLen v = 26 + sstableBlockSize := by
  intro v hv
  obtain ⟨i, -, rfl⟩ := List.mem_map.mp hv
  simp [encodeEntryLen, Entry.valueLen, Entry.valueBytes]

theorem packBlocks_blockSized (n : Nat) :
    packBlocks 0 (blockSizedVersions n) = (blockSizedVersions n).map fun v => [v] :=
  packBlocks_of_large fun v hv => by rw [blockSizedVersions_len n v hv]; omega

theorem sstableLen_blockSized (n : Nat) :
    sstableLen (blockSizedVersions n) false = n * (59 + sstableBlockSize) + 48 := by
  have hkeys : blockFirstKeys 0 (blockSizedVersions n) = List.replicate n [1] := by
    rw [blockFirstKeys_eq, packBlocks_blockSized, blockSizedVersions]
    simp [Function.comp_def]
  have hsum : ((blockSizedVersions n).map encodeEntryLen).sum = n * (26 + sstableBlockSize) := by
    rw [List.map_congr_left (blockSizedVersions_len n)]
    simp [blockSizedVersions, Function.comp_def]
  rw [sstableLen, hsum, hkeys]
  simp only [indexLen, List.length_replicate, List.map_replicate, List.sum_replicate, smul_eq_mul,
    List.length_cons, List.length_nil, Bool.false_and, Bool.false_eq_true, if_false]
  ring

/-- A table of `2^32` blocks: the count of its index is written as 0, and the key it holds reads as
absent. -/
theorem table_of_too_many_blocks_reads_empty :
    (blockSizedVersions (2 ^ 32)).Pairwise Version.le ∧
    (∀ v ∈ blockSizedVersions (2 ^ 32), v.Storable) ∧ ∃ t, openTable (fun _ => 0) (sstableBytes (fun _ => 0) (fun _ _ => 0)
        (blockSizedVersions (2 ^ 32)) false) = .ok t ∧
      t.getLatest (fun _ => 0) [1] = .ok none ∧ newest (blockSizedVersions (2 ^ 32)) [1] ≠ none := by
  have hst : ∀ v ∈ blockSizedVersions (2 ^ 32), v.Storable :=
    blockSizedVersions_storable (by decide)
  have hlen : (sstableBytes (fun _ => 0) (fun _ _ => 0) (blockSizedVersions (2 ^ 32)) false).length <
      256 ^ 8 := by
    rw [sstableBytes_length, sstableLen_blockSized]
    decide
  have hcount : (packBlocks 0 (blockSizedVersions (2 ^ 32))).length % 256 ^ 4 = 0 := by
    rw [packBlocks_blockSized, List.length_map, blockSizedVersions, List.length_map,
      List.length_range]
    rfl
  refine ⟨blockSizedVersions_sorted _, hst, _, openTable_sstableBytes hst hlen (by simp), ?_, ?_⟩
  · rw [hcount]
    rfl
  · rw [Ne, newest_eq_none]
    intro hnone
    have hmem : (⟨[1], 2 ^ 32, .value (List.replicate sstableBlockSize 0) none⟩ : Version) ∈
        blockSizedVersions (2 ^ 32) := List.mem_map.mpr ⟨0, List.mem_range.mpr (by decide), rfl⟩
    exact hnone _ hmem rfl

end ZydecoDb
