import ZydecoDb.Manifest

namespace ZydecoDb

open Lib

theorem readU64_at {a b p : Bytes} {n off : Nat} (hn : n < 256 ^ 8) (hp : p = a ++ (toBe 8 n ++ b))
    (hoff : off = a.length) : readU64 p off = .ok n := by
  subst hp hoff
  have hlen : a.length + 8 ≤ (a ++ (toBe 8 n ++ b)).length := by
    simp only [List.length_append, length_toBe]
    omega
  have htake : (toBe 8 n ++ b).take 8 = toBe 8 n := List.take_left' (length_toBe 8 n)
  rw [readU64, if_pos hlen, List.drop_left, htake, ofBe_toBe hn]

theorem readU8_at {a b p : Bytes} {n off : Nat} (hn : n < 256) (hp : p = a ++ UInt8.ofNat n :: b)
    (hoff : off = a.length) : readU8 p off = .ok n := by
  subst hp hoff
  have hget : (a ++ UInt8.ofNat n :: b)[a.length]? = some (UInt8.ofNat n) := by simp
  have hbyte : (UInt8.ofNat n).toNat = n := by
    rw [UInt8.toNat_ofNat', Nat.mod_eq_of_lt hn]
  rw [readU8, hget]
  simp only [hbyte]

theorem readBytes_at {a k b p : Bytes} {off : Nat} (hk : k.length < 256 ^ 4)
    (hp : p = a ++ (toBe 4 k.length ++ (k ++ b))) (hoff : off = a.length) :
    readBytes p off = .ok (k, 4 + k.length) := by
  subst hp hoff
  have hlen : (a ++ (toBe 4 k.length ++ (k ++ b))).length =
      a.length + (4 + (k.length + b.length)) := by
    simp only [List.length_append, length_toBe]
  have htake : ((a ++ (toBe 4 k.length ++ (k ++ b))).drop a.length).take 4 = toBe 4 k.length := by
    rw [List.drop_left]
    exact List.take_left' (length_toBe 4 _)
  have hdrop : (a ++ (toBe 4 k.length ++ (k ++ b))).drop (a.length + 4) = k ++ b := by
    rw [← List.append_assoc]
    exact List.drop_left' (by simp)
  rw [readBytes, if_pos (by omega), htake, ofBe_toBe hk, hdrop]
  simp only
  rw [if_pos (by omega), List.take_left]

theorem decodeSstableMeta_payload {m : SstableMeta} (h : m.Fits) :
    decodeSstableMeta (ManifestRecord.payload (.sstableAdd m)) = .ok m := by
  obtain ⟨hid, hlevel, hmin, hmax, hminSeq, hmaxSeq, hsize⟩ := h
  have hkey : maxKeyBytes < 256 ^ 4 := by decide
  generalize hp : ManifestRecord.payload (.sstableAdd m) = p
  simp only [ManifestRecord.payload, List.append_assoc, List.cons_append, List.nil_append] at hp
  set keys := toBe 8 m.id ++ UInt8.ofNat m.level :: (toBe 4 m.minKey.length ++ (m.minKey ++
    (toBe 4 m.maxKey.length ++ m.maxKey))) with hkeys
  have hlen : 9 + (4 + m.minKey.length) + (4 + m.maxKey.length) = keys.length := by
    simp [keys]
    omega
  have h1 : readU64 p 0 = .ok m.id := readU64_at (a := []) hid hp.symm rfl
  have h2 : readU8 p 8 = .ok m.level := readU8_at (a := toBe 8 m.id) hlevel hp.symm (by simp)
  have h3 : readBytes p 9 = .ok (m.minKey, 4 + m.minKey.length) :=
    readBytes_at (a := toBe 8 m.id ++ [UInt8.ofNat m.level]) (by omega) (by simp [← hp]; rfl)
      (by simp)
  have h4 : readBytes p (9 + (4 + m.minKey.length)) = .ok (m.maxKey, 4 + m.maxKey.length) :=
    readBytes_at (a := toBe 8 m.id ++ [UInt8.ofNat m.level] ++ toBe 4 m.minKey.length ++ m.minKey)
      (by omega) (by simp [← hp]; rfl) (by simp; omega)
  have h5 : readU64 p keys.length = .ok m.minSeq :=
    readU64_at (a := keys) hminSeq (by simp [← hp, hkeys]; rfl) rfl
  have h6 : readU64 p (keys.length + 8) = .ok m.maxSeq :=
    readU64_at (a := keys ++ toBe 8 m.minSeq) hmaxSeq (by simp [← hp, hkeys]; rfl)
      (by simp)
  have h7 : readU64 p (keys.length + 16) = .ok m.sizeBytes :=
    readU64_at (a := keys ++ (toBe 8 m.minSeq ++ toBe 8 m.maxSeq)) (b := []) hsize
      (by simp [← hp, hkeys]) (by simp)
  simp only [decodeSstableMeta, hlen, h1, h2, h3, h4, h5, h6, h7, Except.bind, Except.map]

theorem decodePayload_payload {r : ManifestRecord} (h : r.Fits) :
    decodePayload r.typeByte r.payload = .ok r := by
  have hu64 : ∀ n, n < 256 ^ 8 → readU64 (toBe 8 n) 0 = .ok n := fun n hn =>
    readU64_at (a := []) (b := []) hn (by simp) rfl
  cases r with
  | sstableAdd m =>
    rw [decodePayload, ManifestRecord.typeByte, if_pos rfl, decodeSstableMeta_payload h]
    rfl
  | sstableRemove id =>
    rw [decodePayload, ManifestRecord.typeByte, if_neg (by decide), if_pos rfl,
      ManifestRecord.payload, hu64 id h]
    rfl
  | seqCheckpoint seq =>
    rw [decodePayload, ManifestRecord.typeByte, if_neg (by decide), if_neg (by decide), if_pos rfl,
      ManifestRecord.payload, hu64 seq h]
    rfl
  | walTruncate id =>
    rw [decodePayload, ManifestRecord.typeByte, if_neg (by decide), if_neg (by decide),
      if_neg (by decide), if_pos rfl, ManifestRecord.payload, hu64 id h]
    rfl

theorem payload_length_lt {r : ManifestRecord} (h : r.Fits) : r.payload.length < 256 ^ 4 := by
  have hkey : 2 * maxKeyBytes + 64 < 256 ^ 4 := by decide
  cases r with
  | sstableAdd m =>
    obtain ⟨-, -, hmin, hmax, -⟩ := h
    simp only [ManifestRecord.payload, List.length_append, length_toBe, List.length_singleton]
    omega
  | sstableRemove id => simp [ManifestRecord.payload]
  | seqCheckpoint seq => simp [ManifestRecord.payload]
  | walTruncate id => simp [ManifestRecord.payload]

section Crc

variable (crc : Bytes → UInt32)

theorem encode_length (r : ManifestRecord) : (r.encode crc).length = 5 + r.payload.length + 4 := by
  simp only [ManifestRecord.encode, frameBody, List.length_append, List.length_cons, length_toBe]
  omega

variable {r : ManifestRecord}

theorem ofBe_length_field (h : r.Fits) (tail : Bytes) :
    ofBe ((toBe 4 r.payload.length ++ tail).take 4) = r.payload.length := by
  rw [List.take_left' (length_toBe 4 _), ofBe_toBe (payload_length_lt h)]

theorem decodeOne_encode (h : r.Fits) (rest : Bytes) :
    ManifestRecord.decodeOne crc (r.encode crc ++ rest) = .ok (some (r, (r.encode crc).length)) := by
  have hlen : (r.encode crc ++ rest).length = 5 + r.payload.length + 4 + rest.length := by
    rw [List.length_append, encode_length]
  have hbody : (frameBody r.typeByte r.payload).length = 5 + r.payload.length := by
    simp only [frameBody, List.length_cons, List.length_append, length_toBe]
    omega
  have htake : (r.encode crc ++ rest).take (5 + r.payload.length) =
      frameBody r.typeByte r.payload := by
    rw [ManifestRecord.encode, List.append_assoc]
    exact List.take_left' hbody
  have hcrc : ((r.encode crc ++ rest).drop (5 + r.payload.length)).take 4 =
      toBe 4 (crc (frameBody r.typeByte r.payload)).toNat := by
    rw [ManifestRecord.encode, List.append_assoc, List.drop_left' hbody]
    exact List.take_left' (length_toBe 4 _)
  have hu32 : (crc (frameBody r.typeByte r.payload)).toNat < 256 ^ 4 := UInt32.toNat_lt _
  have hpay : (frameBody r.typeByte r.payload).drop 5 = r.payload := by
    simp only [frameBody, List.drop_succ_cons]
    exact List.drop_left' (length_toBe 4 _)
  have hbuf : r.encode crc ++ rest = r.typeByte :: (toBe 4 r.payload.length ++
      (r.payload ++ (toBe 4 (crc (frameBody r.typeByte r.payload)).toNat ++ rest))) := by
    simp [ManifestRecord.encode, frameBody]
  have hhead := ofBe_length_field h
    (r.payload ++ (toBe 4 (crc (frameBody r.typeByte r.payload)).toNat ++ rest))
  unfold ManifestRecord.decodeOne
  split
  next he => simp [hbuf] at he
  next rtype tail he =>
    rw [hbuf, List.cons.injEq] at he
    obtain ⟨rfl, rfl⟩ := he
    rw [if_neg (by omega)]
    simp only [hhead]
    rw [if_neg (by omega), htake, hcrc, ofBe_toBe hu32, if_neg (by simp), hpay,
      decodePayload_payload h, encode_length]
    rfl

theorem decodeOne_short (h : r.Fits) {n : Nat} (hn : n < (r.encode crc).length) :
    ManifestRecord.decodeOne crc ((r.encode crc).take n) = .ok none := by
  have hlen : ((r.encode crc).take n).length = n := List.length_take_of_le hn.le
  rw [encode_length] at hn
  unfold ManifestRecord.decodeOne
  split
  next => rfl
  next rtype tail he =>
    split
    next => rfl
    next h5 =>
      have hhead : tail.take 4 = toBe 4 r.payload.length := by
        have hn5 : 5 ≤ n := by omega
        have htake : ((r.encode crc).take n).take 5 =
            r.typeByte :: toBe 4 r.payload.length := by
          rw [List.take_take, Nat.min_eq_left hn5, ManifestRecord.encode, frameBody,
            List.cons_append, List.take_succ_cons, List.append_assoc]
          exact congrArg _ (List.take_left' (length_toBe 4 _))
        rw [he, List.take_succ_cons, List.cons.injEq] at htake
        exact htake.2
      simp only [hhead, ofBe_toBe (payload_length_lt h)]
      rw [if_pos (by omega)]

theorem decodeOne_pos {buf : Bytes} {n : Nat}
    (h : ManifestRecord.decodeOne crc buf = .ok (some (r, n))) : 0 < n := by
  unfold ManifestRecord.decodeOne at h
  split at h
  next => simp at h
  next =>
    split at h
    next => simp at h
    next =>
      simp only at h
      split at h
      next => simp at h
      next =>
        split at h
        next => simp at h
        next =>
          obtain ⟨r', -, h⟩ := except_map_eq_ok.mp h
          simp only [Option.some.injEq, Prod.mk.injEq] at h
          omega

def manifestCodec : FrameCodec ManifestRecord EngineError where
  encode := ManifestRecord.encode crc
  decode := ManifestRecord.decodeOne crc
  fits := ManifestRecord.Fits
  encode_ne r _ := by simp [ManifestRecord.encode, frameBody]
  decode_encode _ h := decodeOne_encode crc h
  decode_short _ h _ := decodeOne_short crc h
  decode_pos _ _ _ := decodeOne_pos crc

/-- Records are applied until the bytes end or stop making a record: a short tail and a checksum
mismatch end the replay, an unknown record type refuses it. -/
def replay (buf : Bytes) : Except EngineError ManifestState :=
  match (manifestCodec crc).read buf with
  | (recs, .clean) => .ok (.ofRecords recs)
  | (recs, .short _) => .ok (.ofRecords recs)
  | (recs, .bad (.io _) _) => .ok (.ofRecords recs)
  | (_, .bad e _) => .error e

theorem replay_torn {recs : List ManifestRecord} (hr : ∀ r ∈ recs, r.Fits) (h : r.Fits) {n : Nat}
    (hn : n < (r.encode crc).length) :
    replay crc ((manifestCodec crc).encodeAll recs ++ (r.encode crc).take n) =
      .ok (.ofRecords recs) := by
  have hread := (manifestCodec crc).read_encodeAll_append hr ((r.encode crc).take n)
  have htorn := (manifestCodec crc).read_torn ((manifestCodec crc).torn_take h hn)
  simp only [show (manifestCodec crc).encode r = r.encode crc from rfl] at htorn
  rw [replay, hread, htorn, List.append_nil]
  split_ifs <;> rfl

theorem replay_encodeAll {recs : List ManifestRecord} (hr : ∀ r ∈ recs, r.Fits) :
    replay crc ((manifestCodec crc).encodeAll recs) = .ok (.ofRecords recs) := by
  rw [replay, (manifestCodec crc).read_encodeAll hr]

/-- A torn append replays as one of its prefixes. -/
theorem replay_cut {recs added : List ManifestRecord} (hr : ∀ r ∈ recs, r.Fits)
    (ha : ∀ r ∈ added, r.Fits) (n : Nat) : ∃ j ≤ added.length,
      replay crc ((manifestCodec crc).encodeAll recs ++ ((manifestCodec crc).encodeAll added).take n) =
        .ok (.ofRecords (recs ++ added.take j)) := by
  obtain ⟨j, hj, torn, he, ht, -⟩ := (manifestCodec crc).take_encodeAll ha n
  refine ⟨j, hj, ?_⟩
  have hfits : ∀ r ∈ recs ++ added.take j, r.Fits := by
    intro r hr'
    rcases List.mem_append.mp hr' with hr' | hr'
    · exact hr r hr'
    · exact ha r (List.mem_of_mem_take hr')
  rw [he, ← List.append_assoc, ← (manifestCodec crc).encodeAll_append]
  rcases ht with rfl | ⟨r, hr', m, hm, rfl⟩
  · rw [List.append_nil]
    exact replay_encodeAll crc hfits
  · exact replay_torn crc hfits hr' hm

theorem replay_record_cut {recs added : List ManifestRecord} (hr : ∀ r ∈ recs, r.Fits)
    (ha : ∀ r ∈ added, r.Fits) (j : Nat) :
    replay crc ((manifestCodec crc).encodeAll recs ++ ((manifestCodec crc).encodeAll added).take
      ((manifestCodec crc).encodeAll (added.take j)).length) =
        .ok (.ofRecords (recs ++ added.take j)) := by
  have hsplit : (manifestCodec crc).encodeAll added = (manifestCodec crc).encodeAll (added.take j) ++
      (manifestCodec crc).encodeAll (added.drop j) := by
    rw [← (manifestCodec crc).encodeAll_append, List.take_append_drop]
  rw [hsplit, List.take_left, ← (manifestCodec crc).encodeAll_append]
  refine replay_encodeAll crc fun r hr' => ?_
  rcases List.mem_append.mp hr' with hr' | hr'
  · exact hr r hr'
  · exact ha r (List.mem_of_mem_take hr')

end Crc

end ZydecoDb
