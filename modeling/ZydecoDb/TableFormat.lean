import ZydecoDb.TableSearch

namespace ZydecoDb

open Lib

theorem packBlocks_flatten (len : Nat) (vs : List Version) : (packBlocks len vs).flatten = vs := by
  induction vs generalizing len with
  | nil => rfl
  | cons v vs ih =>
    rw [packBlocks]
    split
    next => rw [List.flatten_cons, ih]; rfl
    next =>
      have hrest := ih (len + (encodeEntry v).length)
      split
      next hnil =>
        rw [hnil] at hrest
        rw [← hrest]
        rfl
      next block blocks hcons =>
        rw [hcons, List.flatten_cons] at hrest
        rw [List.flatten_cons, List.cons_append, hrest]

theorem packBlocks_ne_nil (len : Nat) (vs : List Version) : ∀ b ∈ packBlocks len vs, b ≠ [] := by
  induction vs generalizing len with
  | nil => simp [packBlocks]
  | cons v vs ih =>
    rw [packBlocks]
    split
    next => exact List.forall_mem_cons.mpr ⟨by simp, ih 0⟩
    next =>
      have hrest := ih (len + (encodeEntry v).length)
      split
      next => simp
      next block blocks hcons =>
        rw [hcons] at hrest
        exact List.forall_mem_cons.mpr ⟨by simp, (List.forall_mem_cons.mp hrest).2⟩

theorem packBlocks_of_large {vs : List Version} (h : ∀ v ∈ vs, sstableBlockSize ≤ encodeEntryLen v) :
    packBlocks 0 vs = vs.map fun v => [v] := by
  induction vs with
  | nil => rfl
  | cons v vs ih =>
    have hv : 0 + (encodeEntry v).length ≥ sstableBlockSize := by
      rw [encodeEntry_length, Nat.zero_add]
      exact h v List.mem_cons_self
    rw [packBlocks, if_pos hv, ih fun w hw => h w (List.mem_cons_of_mem _ hw)]
    rfl

section Crc

variable {crc : Bytes → UInt32}

theorem appendBlockCrc_length (body : Bytes) : (appendBlockCrc crc body).length = body.length + 4 := by
  simp [appendBlockCrc]

theorem verifyBlockCrc_append (body : Bytes) (what : String) :
    verifyBlockCrc crc sstableFormatVersion (appendBlockCrc crc body) what = .ok body := by
  have hlen : (appendBlockCrc crc body).length = body.length + 4 := appendBlockCrc_length body
  have hsplit : (appendBlockCrc crc body).length - blockCrcLen = body.length := by
    rw [hlen, blockCrcLen]
    omega
  have hcrc : beAt 4 body.length (appendBlockCrc crc body) = (crc body).toNat := by
    refine beAt_append (b := []) (UInt32.toNat_lt _) ?_ rfl
    rw [List.append_nil]
    rfl
  have htake : (appendBlockCrc crc body).take body.length = body := List.take_left
  unfold verifyBlockCrc
  rw [if_neg (lt_irrefl _), if_neg (by rw [hlen, blockCrcLen]; omega), hsplit]
  simp only
  rw [hcrc, htake, if_neg (by simp)]

theorem fileRange_append {data a b c : Bytes} {offset : Nat} (hd : data = a ++ (b ++ c))
    (ho : offset = a.length) (what : String) : fileRange data offset b.length what = .ok b := by
  subst hd ho
  unfold fileRange
  rw [if_neg (by simp only [List.length_append]; omega), List.drop_left, List.take_left]

theorem readsBlock_of_write {t : TableFile} (hver : t.version = sstableFormatVersion)
    {blocks : List (List Version)} (hne : ∀ b ∈ blocks, b ≠ []) {off : Nat} {pre post : Bytes}
    (hd : t.data = pre ++ ((writeBlocks crc off blocks).flatMap Prod.fst ++ post))
    (ho : off = pre.length) :
    ∀ p ∈ ((writeBlocks crc off blocks).map Prod.snd).zip blocks, t.ReadsBlock crc p := by
  induction blocks generalizing off pre with
  | nil => simp
  | cons block blocks ih =>
    rw [writeBlocks, List.map_cons, List.zip_cons_cons, List.forall_mem_cons]
    rw [writeBlocks, List.flatMap_cons, List.append_assoc] at hd
    constructor
    · obtain ⟨v, vs, hb⟩ := List.exists_cons_of_ne_nil (hne block List.mem_cons_self)
      refine ⟨v, vs, hb, by simp [hb], ?_⟩
      unfold TableFile.readBlock
      simp only
      rw [fileRange_append hd ho, hver]
      exact verifyBlockCrc_append _ _
    · apply ih (fun b hb => hne b (List.mem_cons_of_mem _ hb))
      · rw [hd, ← List.append_assoc]
      · rw [ho, List.length_append]

theorem writeBlocks_length (off : Nat) (blocks : List (List Version)) :
    (writeBlocks crc off blocks).length = blocks.length := by
  induction blocks generalizing off with
  | nil => rfl
  | cons block blocks ih => rw [writeBlocks, List.length_cons, ih, List.length_cons]

def IndexEntry.Fits (e : IndexEntry) : Prop :=
  e.firstUserKey.length < 256 ^ 4 ∧ e.firstSeq < 256 ^ 8 ∧ e.offset < 256 ^ 8 ∧ e.length < 256 ^ 8

theorem IndexEntry.encode_length (e : IndexEntry) :
    e.encode.length = 4 + e.firstUserKey.length + 24 := by
  simp only [IndexEntry.encode, List.length_append, length_toBe]
  omega

theorem decodeIndexEntries_eq {index : List IndexEntry} (hfit : ∀ e ∈ index, e.Fits) {count off : Nat}
    {buf a post : Bytes} (hb : buf = a ++ (index.flatMap IndexEntry.encode ++ post))
    (ho : off = a.length) (hc : count ≤ index.length) :
    decodeIndexEntries buf count off = .ok (index.take count) := by
  induction count generalizing index off a with
  | zero => rfl
  | succ count ih =>
    obtain ⟨e, index, rfl⟩ : ∃ e l, index = e :: l :=
      List.exists_cons_of_length_pos (by omega)
    obtain ⟨hk, hs, hoff, hl⟩ := hfit e List.mem_cons_self
    rw [List.flatMap_cons, List.append_assoc] at hb
    have hflat : buf = a ++ (toBe 4 e.firstUserKey.length ++ (e.firstUserKey ++ (toBe 8 e.firstSeq ++
        (toBe 8 e.offset ++ (toBe 8 e.length ++
          (index.flatMap IndexEntry.encode ++ post)))))) := by
      rw [hb]
      simp [IndexEntry.encode]
    have hlen : buf.length = off + (4 + e.firstUserKey.length + 24) +
        (index.flatMap IndexEntry.encode ++ post).length := by
      rw [hb, List.length_append, List.length_append, e.encode_length, ho]
      omega
    have h1 : beAt 4 off buf = e.firstUserKey.length := beAt_append hk hflat ho
    have h2 : beAt 8 (off + 4 + e.firstUserKey.length) buf = e.firstSeq :=
      beAt_append (a := a ++ (toBe 4 e.firstUserKey.length ++ e.firstUserKey)) hs
        (by simpa using hflat) (by simp [ho]; omega)
    have h3 : beAt 8 (off + 4 + e.firstUserKey.length + 8) buf = e.offset :=
      beAt_append (a := a ++ (toBe 4 e.firstUserKey.length ++ (e.firstUserKey ++
        toBe 8 e.firstSeq))) hoff (by simpa using hflat) (by simp [ho]; omega)
    have h4 : beAt 8 (off + 4 + e.firstUserKey.length + 16) buf = e.length :=
      beAt_append (a := a ++ (toBe 4 e.firstUserKey.length ++ (e.firstUserKey ++
        (toBe 8 e.firstSeq ++ toBe 8 e.offset)))) hl (by simpa using hflat) (by simp [ho]; omega)
    have hkey : (buf.drop (off + 4)).take e.firstUserKey.length = e.firstUserKey := by
      have hsplit : buf = (a ++ toBe 4 e.firstUserKey.length) ++ (e.firstUserKey ++
          (toBe 8 e.firstSeq ++ (toBe 8 e.offset ++ (toBe 8 e.length ++
            (index.flatMap IndexEntry.encode ++ post))))) := by simpa using hflat
      rw [hsplit, List.drop_left' (by simp [ho]), List.take_left]
    have hrec : decodeIndexEntries buf count (off + 4 + e.firstUserKey.length + 24) =
        .ok (index.take count) := by
      apply ih (fun e' he' => hfit e' (List.mem_cons_of_mem _ he')) (a := a ++ e.encode)
      · rw [hb, List.append_assoc]
      · rw [List.length_append, e.encode_length, ho]
        omega
      · simpa using hc
    rw [decodeIndexEntries, if_neg (by omega), h1]
    simp only
    rw [if_neg (by omega), if_neg (by omega), hrec, h2, h3, h4, hkey]
    rfl

theorem decodeIndex_encode {index : List IndexEntry} (hfit : ∀ e ∈ index, e.Fits) :
    decodeIndex (encodeIndex index) = .ok (index.take (index.length % 256 ^ 4)) := by
  have hcount : beAt 4 0 (encodeIndex index) = index.length % 256 ^ 4 :=
    beAt_append_mod (a := []) rfl rfl
  have hbuf : encodeIndex index =
      toBe 4 index.length ++ (index.flatMap IndexEntry.encode ++ []) := by simp [encodeIndex]
  unfold decodeIndex
  rw [if_neg (by simp [encodeIndex]), hcount]
  exact decodeIndexEntries_eq hfit hbuf (by simp) (Nat.mod_le _ _)

theorem mem_writeBlocks {off : Nat} {blocks : List (List Version)} {p : Bytes × IndexEntry}
    (hp : p ∈ writeBlocks crc off blocks) (hne : ∀ b ∈ blocks, b ≠ []) :
    p.2.offset + p.2.length ≤ off + ((writeBlocks crc off blocks).flatMap Prod.fst).length ∧
      ∃ b ∈ blocks, ∃ v ∈ b, p.2.firstUserKey = v.userKey ∧ p.2.firstSeq = v.seq := by
  induction blocks generalizing off with
  | nil => simp [writeBlocks] at hp
  | cons block blocks ih =>
    rw [writeBlocks] at hp ⊢
    rw [List.flatMap_cons, List.length_append]
    rcases List.mem_cons.mp hp with rfl | hp
    · obtain ⟨v, vs, hb⟩ := List.exists_cons_of_ne_nil (hne block List.mem_cons_self)
      exact ⟨by simp only; omega, block, List.mem_cons_self, v, by simp [hb], by simp [hb],
        by simp [hb]⟩
    · obtain ⟨hle, b, hb, hv⟩ := ih hp fun b hb => hne b (List.mem_cons_of_mem _ hb)
      simp only at hle ⊢
      exact ⟨by omega, b, List.mem_cons_of_mem _ hb, hv⟩

def Footer.Fits (f : Footer) : Prop :=
  f.indexOffset < 256 ^ 8 ∧ f.indexLength < 256 ^ 8 ∧ f.bloomOffset < 256 ^ 8 ∧
    f.bloomLength < 256 ^ 8

theorem Footer.encode_length (f : Footer) : f.encode.length = footerLen := by
  simp [Footer.encode, footerLen]

theorem parseFooter_append {f : Footer} (hf : f.Fits) (hver : f.version = sstableFormatVersion)
    (pre : Bytes) : parseFooter (pre ++ f.encode) = .ok f := by
  obtain ⟨h1, h2, h3, h4⟩ := hf
  have hlen := f.encode_length
  have hdrop : (pre ++ f.encode).drop ((pre ++ f.encode).length - footerLen) = f.encode := by
    rw [List.length_append, hlen, Nat.add_sub_cancel, List.drop_left]
  have e1 : beAt 8 0 f.encode = f.indexOffset := beAt_append (a := []) h1 rfl rfl
  have e2 : beAt 8 8 f.encode = f.indexLength :=
    beAt_append (a := toBe 8 f.indexOffset) h2 rfl (by simp)
  have e3 : beAt 8 16 f.encode = f.bloomOffset :=
    beAt_append (a := toBe 8 f.indexOffset ++ toBe 8 f.indexLength)
      (b := toBe 8 f.bloomLength ++ (toBe 4 sstableMagic ++ toBe 4 f.version)) h3
      (by simp [Footer.encode]) (by simp)
  have e4 : beAt 8 24 f.encode = f.bloomLength :=
    beAt_append (a := toBe 8 f.indexOffset ++ (toBe 8 f.indexLength ++ toBe 8 f.bloomOffset))
      (b := toBe 4 sstableMagic ++ toBe 4 f.version) h4 (by simp [Footer.encode]) (by simp)
  have e5 : beAt 4 32 f.encode = sstableMagic :=
    beAt_append (a := toBe 8 f.indexOffset ++ (toBe 8 f.indexLength ++ (toBe 8 f.bloomOffset ++
      toBe 8 f.bloomLength))) (b := toBe 4 f.version) (by decide) (by simp [Footer.encode]) (by simp)
  have e6 : beAt 4 36 f.encode = f.version :=
    beAt_append (a := toBe 8 f.indexOffset ++ (toBe 8 f.indexLength ++ (toBe 8 f.bloomOffset ++
      (toBe 8 f.bloomLength ++ toBe 4 sstableMagic)))) (b := []) (by rw [hver]; decide)
      (by simp [Footer.encode]) (by simp)
  unfold parseFooter
  rw [if_neg (by rw [List.length_append, hlen]; omega), hdrop]
  simp only [e1, e2, e3, e4, e5, e6]
  rw [if_neg (by simp), if_neg (by simp [hver])]

section Open

variable {hash : Bytes → UInt64 → UInt64} {sorted : List Version} {withBloom : Bool}

def indexedBlocks (crc : Bytes → UInt32) (sorted : List Version) : List IndexedBlock :=
  (tableIndex crc sorted).zip (packBlocks 0 sorted)

theorem tableIndex_length : (tableIndex crc sorted).length = (packBlocks 0 sorted).length := by
  rw [tableIndex, List.length_map, dataBlocks, writeBlocks_length]

theorem indexedBlocks_fst : (indexedBlocks crc sorted).map Prod.fst = tableIndex crc sorted :=
  List.map_fst_zip tableIndex_length.le

theorem indexedBlocks_snd : (indexedBlocks crc sorted).map Prod.snd = packBlocks 0 sorted :=
  List.map_snd_zip tableIndex_length.ge

theorem indexedBlocks_length (crc : Bytes → UInt32) (sorted : List Version) :
    (indexedBlocks crc sorted).length = (packBlocks 0 sorted).length := by
  rw [← List.length_map (f := Prod.snd), indexedBlocks_snd]

theorem indexedBlocks_flatMap : (indexedBlocks crc sorted).flatMap Prod.snd = sorted := by
  rw [List.flatMap_def, indexedBlocks_snd, packBlocks_flatten]

theorem tableIndex_fits (hst : ∀ v ∈ sorted, v.Storable)
    (hlen : (dataBytes crc sorted).length < 256 ^ 8) : ∀ e ∈ tableIndex crc sorted, e.Fits := by
  intro e he
  obtain ⟨p, hp, rfl⟩ := List.mem_map.mp he
  obtain ⟨hle, b, hb, v, hv, hkey, hseq⟩ := mem_writeBlocks hp (packBlocks_ne_nil 0 sorted)
  have hle : p.2.offset + p.2.length ≤ 0 + (dataBytes crc sorted).length := hle
  have hv : v ∈ sorted := by
    rw [← packBlocks_flatten 0 sorted]
    exact List.mem_flatten.mpr ⟨b, hb, hv⟩
  have h := hst v hv
  refine ⟨?_, ?_, by omega, by omega⟩
  · rw [hkey]
    exact lt_of_le_of_lt h.key_le (by decide)
  · rw [hseq]
    exact lt_of_le_of_lt h.seq_le (by decide)

def bloomOf (hash : Bytes → UInt64 → UInt64) (sorted : List Version) (withBloom : Bool) :
    Option BloomFilter :=
  if withBloom && !sorted.isEmpty then some (BloomFilter.build hash (sorted.map Version.userKey))
  else none

section Parts

variable (hlen : (sstableBytes crc hash sorted withBloom).length < 256 ^ 8)
include hlen

theorem dataBytes_lt : (dataBytes crc sorted).length < 256 ^ 8 := by
  rw [sstableBytes, List.length_append] at hlen
  omega

theorem parseFooter_sstableBytes : parseFooter (sstableBytes crc hash sorted withBloom) =
    .ok (tableFooter crc hash sorted withBloom) := by
  have hsize := hlen
  rw [sstableBytes, List.length_append, List.length_append, List.length_append] at hsize
  have hfits : (tableFooter crc hash sorted withBloom).Fits := by
    refine ⟨?_, ?_, ?_, ?_⟩ <;> simp only [tableFooter]
    · omega
    · omega
    · split <;> omega
    · omega
  rw [sstableBytes, ← List.append_assoc, ← List.append_assoc]
  exact parseFooter_append hfits rfl _

theorem readIndex_sstableBytes (hst : ∀ v ∈ sorted, v.Storable) :
    (fileRange (sstableBytes crc hash sorted withBloom)
        (tableFooter crc hash sorted withBloom).indexOffset
        (tableFooter crc hash sorted withBloom).indexLength "index").bind (fun raw =>
      (verifyBlockCrc crc sstableFormatVersion raw "index").bind decodeIndex) =
    .ok ((tableIndex crc sorted).take ((packBlocks 0 sorted).length % 256 ^ 4)) := by
  have hraw : fileRange (sstableBytes crc hash sorted withBloom)
      (tableFooter crc hash sorted withBloom).indexOffset
      (tableFooter crc hash sorted withBloom).indexLength "index" = .ok (indexBytes crc sorted) :=
    fileRange_append (a := dataBytes crc sorted ++ bloomBytes crc hash sorted withBloom)
      (by rw [sstableBytes, List.append_assoc]) (by rw [List.length_append]; rfl) _
  rw [hraw, Except.bind, indexBytes, verifyBlockCrc_append, Except.bind,
    decodeIndex_encode (tableIndex_fits hst (dataBytes_lt hlen)), tableIndex_length]

end Parts

theorem bloomLength_eq_zero : (tableFooter crc hash sorted withBloom).bloomLength = 0 ↔
    ¬ (withBloom && !sorted.isEmpty) = true := by
  simp only [tableFooter, bloomBytes]
  split
  next h => simp [h, appendBlockCrc_length]
  next h => simp [h]

theorem readBloom_sstableBytes (crc : Bytes → UInt32) (hash : Bytes → UInt64 → UInt64)
    (hwith : (withBloom && !sorted.isEmpty) = true)
    (hbits : BloomFilter.numBitsFor sorted.length < 256 ^ 4) :
    (fileRange (sstableBytes crc hash sorted withBloom)
        (tableFooter crc hash sorted withBloom).bloomOffset
        (tableFooter crc hash sorted withBloom).bloomLength "bloom").bind (fun raw =>
      (verifyBlockCrc crc sstableFormatVersion raw "bloom").map BloomFilter.decode) =
    .ok (bloomOf hash sorted withBloom) := by
  have hspec := BloomFilter.build_spec hash (sorted.map Version.userKey)
  have hnum : (BloomFilter.build hash (sorted.map Version.userKey)).numBits < 256 ^ 4 := by
    rw [hspec.2.1, List.length_map]
    exact hbits
  have hraw : fileRange (sstableBytes crc hash sorted withBloom)
      (tableFooter crc hash sorted withBloom).bloomOffset
      (tableFooter crc hash sorted withBloom).bloomLength "bloom" =
        .ok (bloomBytes crc hash sorted withBloom) := by
    simp only [tableFooter, if_pos hwith]
    exact fileRange_append rfl rfl _
  rw [hraw, Except.bind, bloomBytes, if_pos hwith, verifyBlockCrc_append, Except.map,
    BloomFilter.decode_encode hspec.1 hnum, bloomOf, if_pos hwith]

/-- Open reads back what was built, its index cut to a four byte count. -/
theorem openTable_sstableBytes (hst : ∀ v ∈ sorted, v.Storable)
    (hlen : (sstableBytes crc hash sorted withBloom).length < 256 ^ 8)
    (hbits : withBloom = true → BloomFilter.numBitsFor sorted.length < 256 ^ 4) :
    openTable crc (sstableBytes crc hash sorted withBloom) = .ok
      ⟨sstableBytes crc hash sorted withBloom, sstableFormatVersion,
        (tableIndex crc sorted).take ((packBlocks 0 sorted).length % 256 ^ 4),
        bloomOf hash sorted withBloom⟩ := by
  obtain ⟨raw, hraw, hindex⟩ := except_bind_eq_ok.mp (readIndex_sstableBytes hlen hst)
  obtain ⟨body, hbody, hindex⟩ := except_bind_eq_ok.mp hindex
  have hver : (tableFooter crc hash sorted withBloom).version = sstableFormatVersion := rfl
  unfold openTable
  simp only [parseFooter_sstableBytes hlen, bind, Except.bind, hver, hraw, hbody, hindex]
  split
  next h0 => rw [bloomOf, if_neg (bloomLength_eq_zero.mp h0)]
  next h0 =>
    have hwith : (withBloom && !sorted.isEmpty) = true := by
      by_contra hno
      exact h0 (bloomLength_eq_zero.mpr hno)
    have hbits := hbits (Bool.and_eq_true_iff.mp hwith).1
    obtain ⟨raw', hraw', hbloom⟩ := except_bind_eq_ok.mp
      (readBloom_sstableBytes crc hash hwith hbits)
    obtain ⟨body', hbody', hdec⟩ := except_map_eq_ok.mp hbloom
    simp only [hraw', hbody', hdec]

/-! The size the catalog records for a table is that of its file. -/

theorem blockFirstKeys_eq (len : Nat) (vs : List Version) : blockFirstKeys len vs =
    let keys := (packBlocks len vs).map fun b => (b.head?.map Version.userKey).getD []
    if len = 0 then keys else keys.tail := by
  induction vs generalizing len with
  | nil => simp [blockFirstKeys, packBlocks]
  | cons v vs ih =>
    have hpos : len + encodeEntryLen v ≠ 0 := by
      rw [encodeEntryLen]
      omega
    rw [blockFirstKeys, packBlocks, encodeEntry_length]
    by_cases hfull : len + encodeEntryLen v ≥ sstableBlockSize
    · simp only [if_pos hfull, ih 0, if_true, List.map_cons]
      split <;> rfl
    · simp only [if_neg hfull, ih (len + encodeEntryLen v), if_neg hpos]
      cases packBlocks (len + encodeEntryLen v) vs with
      | nil => split <;> rfl
      | cons block blocks => split <;> rfl

theorem writeBlocks_flatMap_length (off : Nat) (blocks : List (List Version)) :
    ((writeBlocks crc off blocks).flatMap Prod.fst).length =
      (blocks.flatten.map encodeEntryLen).sum + 4 * blocks.length := by
  have hblock : ∀ b : List Version, (b.flatMap encodeEntry).length = (b.map encodeEntryLen).sum := by
    intro b
    rw [List.length_flatMap]
    exact congrArg List.sum (List.map_congr_left fun v _ => encodeEntry_length v)
  induction blocks generalizing off with
  | nil => rfl
  | cons block blocks ih =>
    rw [writeBlocks, List.flatMap_cons, List.length_append, ih, appendBlockCrc_length, hblock,
      List.flatten_cons, List.map_append, List.sum_append, List.length_cons]
    omega

theorem writeBlocks_firstKeys (off : Nat) (blocks : List (List Version)) :
    (writeBlocks crc off blocks).map (fun p => p.2.firstUserKey) =
      blocks.map fun b => (b.head?.map Version.userKey).getD [] := by
  induction blocks generalizing off with
  | nil => rfl
  | cons block blocks ih => rw [writeBlocks, List.map_cons, List.map_cons, ih]

theorem encodeIndex_length (index : List IndexEntry) :
    (encodeIndex index).length = indexLen (index.map IndexEntry.firstUserKey) := by
  have hentries : (index.flatMap IndexEntry.encode).length =
      ((index.map IndexEntry.firstUserKey).map fun k => 28 + k.length).sum := by
    rw [List.length_flatMap, List.map_map]
    refine congrArg List.sum (List.map_congr_left fun e _ => ?_)
    rw [e.encode_length, Function.comp_apply]
    omega
  rw [encodeIndex, List.length_append, length_toBe, hentries, indexLen]

theorem bloomBytes_length : (bloomBytes crc hash sorted withBloom).length =
    if withBloom && !sorted.isEmpty then bloomLen sorted.length + 4 else 0 := by
  rw [bloomBytes]
  split
  next h =>
    obtain ⟨hsized, hnum, -⟩ := BloomFilter.build_spec hash (sorted.map Version.userKey)
    have hpos : 1 ≤ sorted.length := by
      cases sorted with
      | nil => simp at h
      | cons v vs => simp
    rw [appendBlockCrc_length, BloomFilter.encode, List.length_append, length_toBe, hsized.2, hnum,
      List.length_map, BloomFilter.numBitsFor, bitsPerKey, max_eq_left hpos, bloomLen]
  next => rfl

theorem sstableBytes_length :
    (sstableBytes crc hash sorted withBloom).length = sstableLen sorted withBloom := by
  have hkeys : (tableIndex crc sorted).map IndexEntry.firstUserKey = blockFirstKeys 0 sorted := by
    rw [blockFirstKeys_eq, tableIndex, List.map_map]
    exact writeBlocks_firstKeys 0 _
  have hcount : (blockFirstKeys 0 sorted).length = (packBlocks 0 sorted).length := by
    rw [← hkeys, List.length_map, tableIndex_length]
  rw [sstableBytes, List.length_append, List.length_append, List.length_append,
    Footer.encode_length, bloomBytes_length, indexBytes, appendBlockCrc_length, encodeIndex_length,
    hkeys, dataBytes, dataBlocks, writeBlocks_flatMap_length, packBlocks_flatten, sstableLen, hcount,
    footerLen]
  omega

end Open

end Crc

end ZydecoDb
