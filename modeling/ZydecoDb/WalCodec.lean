import ZydecoDb.Wal

namespace ZydecoDb

open Lib

theorem WalOp.length_bytes (op : WalOp) :
    op.bytes.length = batchOpFixed + op.key.length + op.value.length := by
  simp only [WalOp.bytes, batchOpFixed, List.length_cons, List.length_append, length_toBe]
  omega

theorem WalOp.fields_at {op : WalOp} (h : op.Fits) {a b buf : Bytes} {off : Nat}
    (hb : buf = a ++ (op.bytes ++ b)) (hoff : off = a.length) :
    buf.getD off 0 = op.command ∧ beAt 8 (off + 1) buf = op.expiresAt ∧
      beAt 4 (off + 9) buf = op.key.length ∧ beAt 4 (off + 13) buf = op.value.length ∧
      (buf.drop (off + batchOpFixed)).take op.key.length = op.key ∧
      (buf.drop (off + batchOpFixed + op.key.length)).take op.value.length = op.value := by
  obtain ⟨-, hexp, hkey, hval⟩ := h
  have hflat : buf = a ++ (op.command :: (toBe 8 op.expiresAt ++ (toBe 4 op.key.length ++
      (toBe 4 op.value.length ++ (op.key ++ (op.value ++ b)))))) := by
    rw [hb, WalOp.bytes]
    simp
  subst hoff
  refine ⟨?_, ?_, ?_, ?_, ?_, ?_⟩
  · rw [hflat]
    simp
  · exact beAt_append (a := a ++ [op.command]) hexp
      (by rw [hflat, List.append_assoc, List.singleton_append]) (by simp)
  · exact beAt_append (a := a ++ op.command :: toBe 8 op.expiresAt) hkey
      (by rw [hflat, List.append_assoc, List.cons_append]) (by simp)
  · exact beAt_append (a := a ++ op.command :: (toBe 8 op.expiresAt ++ toBe 4 op.key.length)) hval
      (by rw [hflat, List.append_assoc, List.cons_append, List.append_assoc]) (by simp)
  · have hsplit : buf = (a ++ op.command :: (toBe 8 op.expiresAt ++ (toBe 4 op.key.length ++
        toBe 4 op.value.length))) ++ (op.key ++ (op.value ++ b)) := by
      rw [hflat]
      simp
    rw [hsplit, List.drop_left' (by simp [batchOpFixed]), List.take_left]
  · have hsplit : buf = (a ++ op.command :: (toBe 8 op.expiresAt ++ (toBe 4 op.key.length ++
        (toBe 4 op.value.length ++ op.key)))) ++ (op.value ++ b) := by
      rw [hflat]
      simp
    rw [hsplit, List.drop_left' (by simp [batchOpFixed]; omega), List.take_left]

theorem decodeOps_bytes {ops : List WalOp} (h : ∀ op ∈ ops, op.Fits) {a b buf : Bytes} {off : Nat}
    (hb : buf = a ++ (ops.flatMap WalOp.bytes ++ b)) (hoff : off = a.length) :
    decodeOps buf ops.length off = .ok (some (ops, off + (ops.flatMap WalOp.bytes).length)) := by
  induction ops generalizing a off with
  | nil => simp [decodeOps]
  | cons op ops ih =>
    have hfit := h op List.mem_cons_self
    have hlen := op.length_bytes
    rw [List.flatMap_cons, List.append_assoc] at hb
    obtain ⟨hcmd, hexp, hkl, hvl, hk, hv⟩ := WalOp.fields_at hfit hb hoff
    have hbuf : buf.length = a.length + (op.bytes.length +
        ((ops.flatMap WalOp.bytes).length + b.length)) := by
      rw [hb]
      simp only [List.length_append]
    have hnext : off + batchOpFixed + op.key.length + op.value.length =
        (a ++ op.bytes).length := by
      rw [List.length_append]
      omega
    have hrec := ih (fun o ho => h o (List.mem_cons_of_mem _ ho)) (a := a ++ op.bytes)
      (by rw [hb, List.append_assoc]) hnext
    simp only [List.length_cons, decodeOps, hcmd, hexp, hkl, hvl, hk, hv]
    rw [if_neg (by omega), if_neg (by omega), if_neg (by rcases hfit.1 with hc | hc <;> simp [hc]),
      hrec, List.flatMap_cons, List.length_append]
    simp only [Except.map, Option.map, Except.ok.injEq, Option.some.injEq, Prod.mk.injEq, true_and]
    omega

/-- Operations cut short are incomplete, never misread. -/
theorem decodeOps_short {ops : List WalOp} (h : ∀ op ∈ ops, op.Fits) {a b buf : Bytes}
    {off n : Nat} (hb : buf = a ++ (ops.flatMap WalOp.bytes ++ b)) (hoff : off = a.length)
    (hlo : off ≤ n) (hn : n < off + (ops.flatMap WalOp.bytes).length) :
    decodeOps (buf.take n) ops.length off = .ok none := by
  induction ops generalizing a off with
  | nil =>
    simp only [List.flatMap_nil, List.length_nil] at hn
    omega
  | cons op ops ih =>
    have hfit := h op List.mem_cons_self
    have hlen := op.length_bytes
    rw [List.flatMap_cons, List.append_assoc] at hb
    rw [List.flatMap_cons, List.length_append] at hn
    obtain ⟨hcmd, -, hkl, hvl, -, -⟩ := WalOp.fields_at hfit hb hoff
    have hbuf : buf.length = a.length + (op.bytes.length +
        ((ops.flatMap WalOp.bytes).length + b.length)) := by
      rw [hb]
      simp only [List.length_append]
    have htake : (buf.take n).length = n := List.length_take_of_le (by omega)
    simp only [List.length_cons, decodeOps, htake]
    split
    next => rfl
    next hfix =>
      -- the fixed part is there, so the lengths are read as they were written
      simp only [batchOpFixed] at hfix hlen
      rw [beAt_take (by omega), beAt_take (by omega), hkl, hvl]
      split
      next => rfl
      next hend =>
        simp only [batchOpFixed] at hend
        have hcmd' : (buf.take n).getD off 0 = op.command := by
          rw [← hcmd, List.getD_eq_getElem?_getD, List.getD_eq_getElem?_getD,
            List.getElem?_take_of_lt (by omega)]
        have hnext : off + batchOpFixed + op.key.length + op.value.length =
            (a ++ op.bytes).length := by
          simp only [List.length_append, batchOpFixed]
          omega
        have hrec := ih (fun o ho => h o (List.mem_cons_of_mem _ ho)) (a := a ++ op.bytes)
          (by rw [hb, List.append_assoc]) hnext (by simp only [batchOpFixed]; omega)
          (by simp only [batchOpFixed]; omega)
        rw [hcmd', if_neg (by rcases hfit.1 with hc | hc <;> simp [hc]), hrec]
        rfl

theorem WalRecord.fields {r : WalRecord} (h : r.Fits) {b buf : Bytes} (hb : buf = r.body ++ b) :
    buf.getD 0 0 = r.command ∧ beAt 8 1 buf = r.seq ∧ beAt 8 9 buf = r.expiresAt ∧
      beAt 4 17 buf = r.key.length ∧ beAt 4 21 buf = r.value.length ∧
      (buf.drop entryFixed).take r.key.length = r.key ∧
      (buf.drop (entryFixed + r.key.length)).take r.value.length = r.value := by
  obtain ⟨-, hseq, hexp, hkey, hval⟩ := h
  have hflat : buf = [r.command] ++ (toBe 8 r.seq ++ (toBe 8 r.expiresAt ++ (toBe 4 r.key.length ++
      (toBe 4 r.value.length ++ (r.key ++ (r.value ++ b)))))) := by
    rw [hb, WalRecord.body]
    simp
  have hlens : buf = ([r.command] ++ (toBe 8 r.seq ++ toBe 8 r.expiresAt)) ++ (toBe 4 r.key.length ++
      (toBe 4 r.value.length ++ (r.key ++ (r.value ++ b)))) := by
    rw [hflat]
    simp
  refine ⟨by rw [hflat]; rfl, beAt_append hseq hflat rfl, ?_, beAt_append hkey hlens (by simp),
    ?_, ?_, ?_⟩
  · exact beAt_append (a := [r.command] ++ toBe 8 r.seq) hexp (by rw [hflat, List.append_assoc])
      (by simp)
  · exact beAt_append (a := [r.command] ++ (toBe 8 r.seq ++ toBe 8 r.expiresAt) ++
      toBe 4 r.key.length) hval (by rw [hlens, List.append_assoc ([r.command] ++ _)]) (by simp)
  · have hsplit : buf = ([r.command] ++ (toBe 8 r.seq ++ toBe 8 r.expiresAt) ++
        (toBe 4 r.key.length ++ toBe 4 r.value.length)) ++ (r.key ++ (r.value ++ b)) := by
      rw [hlens]
      simp
    rw [hsplit, List.drop_left' (by simp [entryFixed]), List.take_left]
  · have hsplit : buf = ([r.command] ++ (toBe 8 r.seq ++ toBe 8 r.expiresAt) ++
        (toBe 4 r.key.length ++ (toBe 4 r.value.length ++ r.key))) ++ (r.value ++ b) := by
      rw [hlens]
      simp
    rw [hsplit, List.drop_left' (by simp [entryFixed]; omega), List.take_left]

theorem WalRecord.length_body (r : WalRecord) :
    r.body.length = entryFixed + r.key.length + r.value.length := by
  simp only [WalRecord.body, entryFixed, List.length_cons, List.length_append, length_toBe]
  omega

theorem WalBatch.length_body (b : WalBatch) :
    b.body.length = batchHeader + (b.ops.flatMap WalOp.bytes).length := by
  simp only [WalBatch.body, batchHeader, List.length_cons, List.length_append, length_toBe]
  omega

theorem WalBatch.fields {b : WalBatch} (h : (WalEntry.batch b).Fits) {tail buf : Bytes}
    (hb : buf = b.body ++ tail) : beAt 8 1 buf = b.seq ∧ beAt 4 9 buf = b.ops.length ∧
      ∃ a, a.length = batchHeader ∧ buf = a ++ (b.ops.flatMap WalOp.bytes ++ tail) := by
  obtain ⟨hseq, hcount, -⟩ := h
  have hflat : buf = [walBatch] ++ (toBe 8 b.seq ++ (toBe 4 b.ops.length ++
      (b.ops.flatMap WalOp.bytes ++ tail))) := by
    rw [hb, WalBatch.body]
    simp
  refine ⟨beAt_append hseq hflat rfl, ?_, [walBatch] ++ (toBe 8 b.seq ++ toBe 4 b.ops.length),
    by simp [batchHeader], ?_⟩
  · exact beAt_append (a := [walBatch] ++ toBe 8 b.seq) hcount (by rw [hflat, List.append_assoc])
      (by simp)
  · rw [hflat]
    simp

theorem WalEntry.body_head {e : WalEntry} : ∃ c rest, e.body = c :: rest := by
  cases e with
  | single r => exact ⟨_, _, rfl⟩
  | batch b => exact ⟨_, _, rfl⟩

section Crc

variable (crc : Bytes → UInt32)

theorem WalEntry.length_encode (e : WalEntry) : (e.encode crc).length = e.body.length + 4 := by
  simp [WalEntry.encode]

theorem decodeOne_of_head {e : WalEntry} (h : e.Fits) {buf : Bytes} (hne : buf ≠ [])
    (hhead : buf.head? = e.body.head?) : WalEntry.decodeOne crc buf =
      match e with
      | .single _ => decodeSingle crc buf
      | .batch _ => decodeBatch crc buf := by
  cases buf with
  | nil => exact absurd rfl hne
  | cons c rest =>
    cases e with
    | single r =>
      cases Option.some.inj hhead
      rcases h.1 with hc | hc
      · simp [WalEntry.decodeOne, hc, walPut, walDel, walBatch]
      · simp [WalEntry.decodeOne, hc, walPut, walDel, walBatch]
    | batch b =>
      cases Option.some.inj hhead
      simp [WalEntry.decodeOne]

theorem beAt_crc {body tail buf : Bytes} (hb : buf = body ++ (toBe 4 (crc body).toNat ++ tail)) :
    beAt 4 body.length buf = (crc (buf.take body.length)).toNat := by
  have htake : buf.take body.length = body := by rw [hb, List.take_left]
  rw [htake]
  exact beAt_append (UInt32.toNat_lt _) hb rfl

theorem decodeSingle_encode {r : WalRecord} (h : r.Fits) (tail : Bytes) :
    decodeSingle crc ((WalEntry.single r).encode crc ++ tail) =
      .ok (some (.single r, ((WalEntry.single r).encode crc).length)) := by
  have hb : (WalEntry.single r).encode crc ++ tail =
      r.body ++ (toBe 4 (crc r.body).toNat ++ tail) := by
    rw [WalEntry.encode, List.append_assoc]
    rfl
  have hlen := r.length_body
  have hcrc := beAt_crc crc hb
  have htotal : ((WalEntry.single r).encode crc ++ tail).length = r.body.length + 4 + tail.length := by
    rw [List.length_append, WalEntry.length_encode]
    rfl
  have hout : ((WalEntry.single r).encode crc).length = r.body.length + 4 := by
    rw [WalEntry.length_encode]
    rfl
  obtain ⟨hcmd, hseq, hexp, hkl, hvl, hk, hv⟩ := WalRecord.fields h hb
  rw [decodeSingle, if_neg (by omega)]
  simp only [hcmd, hseq, hexp, hkl, hvl, hk, hv]
  rw [if_neg (by omega), ← hlen, if_neg (by simp [hcrc]), hout]

theorem decodeSingle_short {r : WalRecord} (h : r.Fits) {n : Nat}
    (hn : n < ((WalEntry.single r).encode crc).length) :
    decodeSingle crc (((WalEntry.single r).encode crc).take n) = .ok none := by
  have htake : (((WalEntry.single r).encode crc).take n).length = n := List.length_take_of_le hn.le
  have hlen := r.length_body
  have hout : ((WalEntry.single r).encode crc).length = r.body.length + 4 := by
    rw [WalEntry.length_encode]
    rfl
  have hbody : (WalEntry.single r).encode crc = r.body ++ toBe 4 (crc r.body).toNat := rfl
  obtain ⟨-, -, -, hkl, hvl, -, -⟩ := WalRecord.fields h hbody
  unfold decodeSingle
  rw [htake]
  split
  next => rfl
  next hfix =>
    have hfixed : entryFixed = 25 := rfl
    rw [beAt_take (by omega), beAt_take (by omega), hkl, hvl]
    simp only
    rw [if_pos (by omega)]

theorem decodeBatch_encode {b : WalBatch} (h : (WalEntry.batch b).Fits) (tail : Bytes) :
    decodeBatch crc ((WalEntry.batch b).encode crc ++ tail) =
      .ok (some (.batch b, ((WalEntry.batch b).encode crc).length)) := by
  have hb : (WalEntry.batch b).encode crc ++ tail =
      b.body ++ (toBe 4 (crc b.body).toNat ++ tail) := by
    rw [WalEntry.encode, List.append_assoc]
    rfl
  have hlen := b.length_body
  have hcrc := beAt_crc crc hb
  have htotal : ((WalEntry.batch b).encode crc ++ tail).length = b.body.length + 4 + tail.length := by
    rw [List.length_append, WalEntry.length_encode]
    rfl
  have hout : ((WalEntry.batch b).encode crc).length = b.body.length + 4 := by
    rw [WalEntry.length_encode]
    rfl
  obtain ⟨hseq, hcount, a, ha, hops⟩ := WalBatch.fields h hb
  have hdec := decodeOps_bytes h.2.2 hops ha.symm
  rw [decodeBatch, if_neg (by omega), hcount, hdec, hseq]
  simp only
  rw [← hlen, if_neg (by omega), if_neg (by simp [hcrc]), hout]

theorem decodeBatch_short {b : WalBatch} (h : (WalEntry.batch b).Fits) {n : Nat}
    (hn : n < ((WalEntry.batch b).encode crc).length) :
    decodeBatch crc (((WalEntry.batch b).encode crc).take n) = .ok none := by
  have htake : (((WalEntry.batch b).encode crc).take n).length = n := List.length_take_of_le hn.le
  have hlen := b.length_body
  have hout : ((WalEntry.batch b).encode crc).length = b.body.length + 4 := by
    rw [WalEntry.length_encode]
    rfl
  have hbody : (WalEntry.batch b).encode crc = b.body ++ toBe 4 (crc b.body).toNat := rfl
  obtain ⟨-, hcount, a, ha, hops⟩ := WalBatch.fields h hbody
  unfold decodeBatch
  rw [htake]
  split
  next => rfl
  next hfix =>
    rw [beAt_take (by simp only [batchHeader] at hfix; omega), hcount]
    by_cases hall : n < batchHeader + (b.ops.flatMap WalOp.bytes).length
    · rw [decodeOps_short h.2.2 hops ha.symm (not_lt.mp hfix) hall]
    · -- the operations are all there, only the checksum is not
      have hcut : ((WalEntry.batch b).encode crc).take n = a ++ (b.ops.flatMap WalOp.bytes ++
          (toBe 4 (crc b.body).toNat).take (n - (a ++ b.ops.flatMap WalOp.bytes).length)) := by
        rw [hops, ← List.append_assoc, List.take_append, List.take_of_length_le
          (by rw [List.length_append]; omega), List.append_assoc]
      rw [decodeOps_bytes h.2.2 hcut ha.symm]
      simp only
      rw [if_pos (by omega)]

theorem WalEntry.head_encode_take {e : WalEntry} {n : Nat} (hn : n ≠ 0) (tail : Bytes) :
    ((e.encode crc ++ tail).take n).head? = e.body.head? := by
  obtain ⟨c, rest, hc⟩ := e.body_head
  obtain ⟨m, rfl⟩ := Nat.exists_eq_succ_of_ne_zero hn
  simp [WalEntry.encode, hc]

theorem WalEntry.decodeOne_encode {e : WalEntry} (h : e.Fits) (tail : Bytes) :
    WalEntry.decodeOne crc (e.encode crc ++ tail) = .ok (some (e, (e.encode crc).length)) := by
  obtain ⟨c, rest, hc⟩ := e.body_head
  rw [decodeOne_of_head crc h (by simp [WalEntry.encode, hc]) (by simp [WalEntry.encode, hc])]
  cases e with
  | single r => exact decodeSingle_encode crc h tail
  | batch b => exact decodeBatch_encode crc h tail

theorem WalEntry.decodeOne_short {e : WalEntry} (h : e.Fits) {n : Nat}
    (hn : n < (e.encode crc).length) :
    WalEntry.decodeOne crc ((e.encode crc).take n) = .ok none := by
  by_cases hz : n = 0
  · subst hz
    rfl
  have hhead : ((e.encode crc).take n).head? = e.body.head? := by
    simpa using e.head_encode_take crc hz []
  obtain ⟨c, rest, hc⟩ := e.body_head
  have hne : (e.encode crc).take n ≠ [] := by
    intro he
    rw [he, hc] at hhead
    simp at hhead
  rw [decodeOne_of_head crc h hne hhead]
  cases e with
  | single r => exact decodeSingle_short crc h hn
  | batch b => exact decodeBatch_short crc h hn

theorem WalEntry.decodeOne_bounds {buf : Bytes} {e : WalEntry} {n : Nat}
    (h : WalEntry.decodeOne crc buf = .ok (some (e, n))) : 0 < n ∧ n ≤ buf.length := by
  unfold WalEntry.decodeOne at h
  split at h
  next => simp at h
  next =>
    split at h
    next =>
      unfold decodeBatch at h
      repeat' split at h
      all_goals simp at h
      omega
    next =>
      split at h
      next =>
        unfold decodeSingle at h
        simp only at h
        repeat' split at h
        all_goals simp at h
        omega
      next => simp at h

def walCodec : FrameCodec WalEntry EngineError where
  encode := WalEntry.encode crc
  decode := WalEntry.decodeOne crc
  fits := WalEntry.Fits
  encode_ne e _ := by
    obtain ⟨c, rest, hc⟩ := e.body_head
    simp [WalEntry.encode, hc]
  decode_encode _ h := WalEntry.decodeOne_encode crc h
  decode_short _ h _ := WalEntry.decodeOne_short crc h
  decode_pos _ _ _ h := (WalEntry.decodeOne_bounds crc h).1

def hasValidRecordAfter (failed : Bytes) : Bool :=
  match frameLen failed with
  | none => false
  | some len =>
    if len < failed.length then
      match WalEntry.decodeOne crc (failed.drop len) with
      | .ok (some _) => true
      | _ => false
    else false

def replaySegmentBody (body : Bytes) : List WalEntry × ReplayOutcome :=
  match (walCodec crc).read body with
  | (entries, .clean) => (entries, .clean)
  | (entries, .short _) => (entries, .tornTail)
  | (entries, .bad _ rest) =>
    (entries, if hasValidRecordAfter crc rest then .corruption else .tornTail)

theorem replaySegmentBody_encodeAll {entries : List WalEntry} (h : ∀ e ∈ entries, e.Fits) :
    replaySegmentBody crc ((walCodec crc).encodeAll entries) = (entries, .clean) := by
  rw [replaySegmentBody, (walCodec crc).read_encodeAll h]

theorem replaySegmentBody_torn {entries : List WalEntry} (h : ∀ e ∈ entries, e.Fits) {tail : Bytes}
    (ht : (walCodec crc).Torn tail) :
    replaySegmentBody crc ((walCodec crc).encodeAll entries ++ tail) =
      (entries, if tail = [] then .clean else .tornTail) := by
  rw [replaySegmentBody, (walCodec crc).read_encodeAll_append h, (walCodec crc).read_torn ht,
    List.append_nil]
  by_cases hne : tail = [] <;> simp [hne]

end Crc

end ZydecoDb
