import ZydecoDb.WalCodec

namespace ZydecoDb

open Lib

def opLengthFields : Nat → List WalOp → List Nat
  | _, [] => []
  | offset, op :: ops => List.range' (offset + 9) 8 ++ opLengthFields (offset + op.bytes.length) ops

def WalEntry.framing : WalEntry → List Nat
  | .single _ => 0 :: List.range' 17 8
  | .batch b => 0 :: (List.range' 9 4 ++ opLengthFields batchHeader b.ops)

structure WalEntry.Damaged (crc : Bytes → UInt32) (e : WalEntry) (bytes : Bytes) : Prop where
  length : bytes.length = (e.encode crc).length
  framing : ∀ i ∈ e.framing, bytes[i]? = (e.encode crc)[i]?
  checksum : beAt 4 e.body.length bytes ≠ (crc (bytes.take e.body.length)).toNat

def OpsFramed (buf : Bytes) : Nat → List WalOp → Prop
  | _, [] => True
  | offset, op :: ops => beAt 4 (offset + 9) buf = op.key.length ∧
      beAt 4 (offset + 13) buf = op.value.length ∧ OpsFramed buf (offset + op.bytes.length) ops

theorem opLengthFields_lt {ops : List WalOp} {off i : Nat} (h : i ∈ opLengthFields off ops) :
    i < off + (ops.flatMap WalOp.bytes).length := by
  induction ops generalizing off with
  | nil => cases h
  | cons op ops ih =>
    have hop := op.length_bytes
    have hfixed : batchOpFixed = 17 := rfl
    rw [List.flatMap_cons, List.length_append]
    rcases List.mem_append.mp h with h | h
    · rw [List.mem_range'_1] at h
      omega
    · have hlt := ih h
      omega

theorem opsFramed_bytes {ops : List WalOp} (h : ∀ op ∈ ops, op.Fits) {a b buf : Bytes} {off : Nat}
    (hb : buf = a ++ (ops.flatMap WalOp.bytes ++ b)) (hoff : off = a.length) :
    OpsFramed buf off ops := by
  induction ops generalizing a off with
  | nil => exact trivial
  | cons op ops ih =>
    rw [List.flatMap_cons, List.append_assoc] at hb
    obtain ⟨-, -, hkl, hvl, -, -⟩ := WalOp.fields_at (h op List.mem_cons_self) hb hoff
    refine ⟨hkl, hvl, ih (fun o ho => h o (List.mem_cons_of_mem _ ho)) (a := a ++ op.bytes)
      (by rw [hb, List.append_assoc]) ?_⟩
    rw [List.length_append, hoff]

theorem OpsFramed.congr {ops : List WalOp} {buf buf' : Bytes} {off : Nat} (h : OpsFramed buf off ops)
    (hsame : ∀ i ∈ opLengthFields off ops, buf'[i]? = buf[i]?) : OpsFramed buf' off ops := by
  induction ops generalizing off with
  | nil => exact trivial
  | cons op ops ih =>
    obtain ⟨hk, hv, hrest⟩ := h
    have hhere : ∀ i, off + 9 ≤ i → i < off + 17 → buf'[i]? = buf[i]? := by
      intro i hlo hhi
      refine hsame i (List.mem_append_left _ (List.mem_range'_1.mpr ⟨hlo, ?_⟩))
      omega
    refine ⟨?_, ?_, ih hrest fun i hi => hsame i (List.mem_append_right _ hi)⟩
    · rw [← hk]
      refine beAt_congr fun i hi => ?_
      rw [List.mem_range'_1] at hi
      exact hhere i (by omega) (by omega)
    · rw [← hv]
      refine beAt_congr fun i hi => ?_
      rw [List.mem_range'_1] at hi
      exact hhere i (by omega) (by omega)

theorem OpsFramed.frameOps {ops : List WalOp} {buf : Bytes} {off : Nat} (h : OpsFramed buf off ops)
    (hlen : off + (ops.flatMap WalOp.bytes).length ≤ buf.length) :
    ZydecoDb.frameOps buf ops.length off = some (off + (ops.flatMap WalOp.bytes).length) := by
  induction ops generalizing off with
  | nil => rfl
  | cons op ops ih =>
    obtain ⟨hk, hv, hrest⟩ := h
    have hop := op.length_bytes
    rw [List.flatMap_cons, List.length_append] at hlen
    have hnext : off + batchOpFixed + op.key.length + op.value.length = off + op.bytes.length := by
      omega
    rw [List.length_cons, ZydecoDb.frameOps, if_neg (by omega), hk, hv, hnext, ih hrest (by omega),
      List.flatMap_cons, List.length_append]
    simp only [Option.some.injEq]
    omega

theorem OpsFramed.decodeOps {ops : List WalOp} {buf : Bytes} {off : Nat} (h : OpsFramed buf off ops)
    (hlen : off + (ops.flatMap WalOp.bytes).length ≤ buf.length) :
    (∃ e, ZydecoDb.decodeOps buf ops.length off = .error e) ∨
      ∃ ops', ZydecoDb.decodeOps buf ops.length off =
        .ok (some (ops', off + (ops.flatMap WalOp.bytes).length)) := by
  induction ops generalizing off with
  | nil => exact Or.inr ⟨[], rfl⟩
  | cons op ops ih =>
    obtain ⟨hk, hv, hrest⟩ := h
    have hop := op.length_bytes
    rw [List.flatMap_cons, List.length_append] at hlen
    have hnext : off + batchOpFixed + op.key.length + op.value.length = off + op.bytes.length := by
      omega
    simp only [List.length_cons, ZydecoDb.decodeOps, hk, hv]
    rw [if_neg (by omega), if_neg (by omega)]
    split
    next => exact Or.inl ⟨_, rfl⟩
    next =>
      rw [hnext]
      rcases ih hrest (by omega) with ⟨e, he⟩ | ⟨ops', he⟩
      · rw [he]
        exact Or.inl ⟨e, rfl⟩
      · rw [he, List.flatMap_cons, List.length_append, ← Nat.add_assoc]
        exact Or.inr ⟨_, rfl⟩

section Crc

variable {crc : Bytes → UInt32} {e : WalEntry} {d : Bytes}

namespace WalEntry.Damaged

section

variable (h : e.Damaged crc d)
include h

theorem length_body : d.length = e.body.length + 4 := by
  rw [h.length, WalEntry.length_encode]

theorem same_framing (tail : Bytes) {i : Nat} (hi : i ∈ e.framing)
    (hlt : i < (e.encode crc).length) : (d ++ tail)[i]? = (e.encode crc ++ tail)[i]? := by
  rw [List.getElem?_append_left (h.length ▸ hlt), List.getElem?_append_left hlt]
  exact h.framing i hi

theorem checksum_fails (tail : Bytes) :
    beAt 4 e.body.length (d ++ tail) ≠ (crc ((d ++ tail).take e.body.length)).toNat := by
  have hlen := h.length_body
  have htake : (d ++ tail).take d.length = d := List.take_left
  have hcrc : beAt 4 e.body.length (d ++ tail) = beAt 4 e.body.length d := by
    rw [← beAt_take (n := d.length) (by omega) (d ++ tail), htake]
  rw [hcrc, List.take_append_of_le_length (by omega)]
  exact h.checksum

theorem head (tail : Bytes) : (d ++ tail).head? = e.body.head? := by
  obtain ⟨c, rest, hc⟩ := e.body_head
  have hzero : 0 ∈ e.framing := by
    cases e with
    | single r => exact List.mem_cons_self
    | batch b => exact List.mem_cons_self
  have hsame := h.same_framing tail hzero (by rw [WalEntry.length_encode]; omega)
  rw [List.head?_eq_getElem?, hsame, WalEntry.encode, hc]
  rfl

theorem ne_nil (tail : Bytes) : d ++ tail ≠ [] := by
  intro hnil
  have hlen := h.length_body
  have hd : d = [] := (List.append_eq_nil_iff.mp hnil).1
  rw [hd, List.length_nil] at hlen
  omega

end

end WalEntry.Damaged

theorem WalRecord.damaged_lengths {r : WalRecord} (hfit : r.Fits)
    (h : (WalEntry.single r).Damaged crc d) (tail : Bytes) :
    beAt 4 17 (d ++ tail) = r.key.length ∧ beAt 4 21 (d ++ tail) = r.value.length := by
  have hb : (WalEntry.single r).encode crc ++ tail = r.body ++ (toBe 4 (crc r.body).toNat ++ tail) := by
    rw [WalEntry.encode, List.append_assoc]
    rfl
  obtain ⟨-, -, -, hkl, hvl, -, -⟩ := WalRecord.fields hfit hb
  have hlen := r.length_body
  have hsame : ∀ i, 17 ≤ i → i < 25 →
      (d ++ tail)[i]? = ((WalEntry.single r).encode crc ++ tail)[i]? := by
    intro i hlo hhi
    refine h.same_framing tail (List.mem_cons_of_mem _ (List.mem_range'_1.mpr ⟨hlo, hhi⟩)) ?_
    rw [WalEntry.length_encode]
    change i < r.body.length + 4
    simp only [entryFixed] at hlen
    omega
  constructor
  · rw [← hkl]
    refine beAt_congr fun i hi => ?_
    rw [List.mem_range'_1] at hi
    exact hsame i (by omega) (by omega)
  · rw [← hvl]
    refine beAt_congr fun i hi => ?_
    rw [List.mem_range'_1] at hi
    exact hsame i (by omega) (by omega)

theorem WalBatch.damaged_lengths {b : WalBatch} (hfit : (WalEntry.batch b).Fits)
    (h : (WalEntry.batch b).Damaged crc d) (tail : Bytes) :
    beAt 4 9 (d ++ tail) = b.ops.length ∧ OpsFramed (d ++ tail) batchHeader b.ops := by
  have hb : (WalEntry.batch b).encode crc ++ tail = b.body ++ (toBe 4 (crc b.body).toNat ++ tail) := by
    rw [WalEntry.encode, List.append_assoc]
    rfl
  obtain ⟨-, hcount, a, ha, hops⟩ := WalBatch.fields hfit hb
  have hlen := b.length_body
  have hsame : ∀ i ∈ (WalEntry.batch b).framing,
      (d ++ tail)[i]? = ((WalEntry.batch b).encode crc ++ tail)[i]? := by
    intro i hi
    refine h.same_framing tail hi ?_
    have hheader : batchHeader = 13 := rfl
    rw [WalEntry.length_encode]
    change i < b.body.length + 4
    rcases List.mem_cons.mp hi with rfl | hi
    · omega
    · rcases List.mem_append.mp hi with hi | hi
      · rw [List.mem_range'_1] at hi
        omega
      · have hlt := opLengthFields_lt hi
        omega
  constructor
  · rw [← hcount]
    exact beAt_congr fun i hi => hsame i (List.mem_cons_of_mem _ (List.mem_append_left _ hi))
  · exact (opsFramed_bytes hfit.2.2 hops ha.symm).congr fun i hi =>
      hsame i (List.mem_cons_of_mem _ (List.mem_append_right _ hi))

theorem WalEntry.Damaged.decodeOne (h : e.Damaged crc d) (hfit : e.Fits) (tail : Bytes) :
    ∃ error, WalEntry.decodeOne crc (d ++ tail) = .error error := by
  have hlen := h.length_body
  have hbuf : (d ++ tail).length = e.body.length + 4 + tail.length := by
    rw [List.length_append, hlen]
  have hcrc := h.checksum_fails tail
  rw [decodeOne_of_head crc hfit (h.ne_nil tail) (h.head tail)]
  cases e with
  | single r =>
    obtain ⟨hkl, hvl⟩ := WalRecord.damaged_lengths hfit h tail
    have hbody := r.length_body
    change (d ++ tail).length = r.body.length + 4 + tail.length at hbuf
    change beAt 4 r.body.length _ ≠ (crc (List.take r.body.length _)).toNat at hcrc
    simp only [decodeSingle, hkl, hvl]
    rw [if_neg (by omega), if_neg (by omega), ← hbody, if_pos hcrc]
    exact ⟨_, rfl⟩
  | batch b =>
    obtain ⟨hcount, hops⟩ := WalBatch.damaged_lengths hfit h tail
    have hbody := b.length_body
    change (d ++ tail).length = b.body.length + 4 + tail.length at hbuf
    change beAt 4 b.body.length _ ≠ (crc (List.take b.body.length _)).toNat at hcrc
    simp only [decodeBatch, hcount]
    rw [if_neg (by omega)]
    rcases hops.decodeOps (by omega) with ⟨error, he⟩ | ⟨ops, he⟩
    · rw [he]
      exact ⟨error, rfl⟩
    · rw [he, ← hbody]
      simp only
      rw [if_neg (by omega), if_pos hcrc]
      exact ⟨_, rfl⟩

theorem WalEntry.Damaged.frameLen (h : e.Damaged crc d) (hfit : e.Fits) (tail : Bytes) :
    ZydecoDb.frameLen (d ++ tail) = some d.length := by
  have hlen := h.length_body
  have hbuf : (d ++ tail).length = e.body.length + 4 + tail.length := by
    rw [List.length_append, hlen]
  have hhead := h.head tail
  cases hd : d ++ tail with
  | nil => exact absurd hd (h.ne_nil tail)
  | cons c rest =>
    rw [hd] at hhead
    cases e with
    | single r =>
      obtain ⟨hkl, hvl⟩ := WalRecord.damaged_lengths hfit h tail
      have hbody := r.length_body
      change d.length = r.body.length + 4 at hlen
      change (d ++ tail).length = r.body.length + 4 + tail.length at hbuf
      have hc : c = r.command := Option.some.inj hhead
      rw [hd] at hkl hvl hbuf
      rw [ZydecoDb.frameLen, if_pos (hc ▸ hfit.1), if_neg (by omega), hkl, hvl, hlen, hbody]
    | batch b =>
      obtain ⟨hcount, hops⟩ := WalBatch.damaged_lengths hfit h tail
      have hbody := b.length_body
      change d.length = b.body.length + 4 at hlen
      change (d ++ tail).length = b.body.length + 4 + tail.length at hbuf
      have hc : c = walBatch := Option.some.inj hhead
      have hstep := hops.frameOps (by omega)
      rw [hd] at hcount hstep hbuf
      have hother : ¬ (c = walPut ∨ c = walDel) := by
        rw [hc]
        decide
      rw [ZydecoDb.frameLen, if_neg hother, if_pos hc, if_neg (by omega), hcount, hstep, hlen, hbody]
      rfl

theorem hasValidRecordAfter_of_decode {failed rest : Bytes} {len n : Nat}
    (hlen : ZydecoDb.frameLen failed = some len) (hlt : len < failed.length)
    (hdecode : WalEntry.decodeOne crc rest = .ok (some (e, n))) (hrest : failed.drop len = rest) :
    hasValidRecordAfter crc failed = true := by
  simp only [hasValidRecordAfter, hlen, hrest, hdecode, if_pos hlt]

/-- A damaged record in front of others is corruption, not a torn tail. -/
theorem replaySegmentBody_damaged {before after : List WalEntry} (hbefore : ∀ w ∈ before, w.Fits)
    (hfit : e.Fits) (hafter : ∀ w ∈ after, w.Fits) (hne : after ≠ []) (h : e.Damaged crc d) :
    replaySegmentBody crc ((walCodec crc).encodeAll before ++ (d ++ (walCodec crc).encodeAll after)) =
      (before, .corruption) := by
  obtain ⟨error, he⟩ := h.decodeOne hfit ((walCodec crc).encodeAll after)
  obtain ⟨next, rest, rfl⟩ := List.exists_cons_of_ne_nil hne
  have hnext : (next.encode crc).length ≠ 0 := by
    rw [WalEntry.length_encode]
    omega
  have hvalid : hasValidRecordAfter crc (d ++ (walCodec crc).encodeAll (next :: rest)) = true := by
    refine hasValidRecordAfter_of_decode (h.frameLen hfit _) ?_
      (WalEntry.decodeOne_encode crc (hafter next List.mem_cons_self) ((walCodec crc).encodeAll rest)) ?_
    · rw [(walCodec crc).encodeAll_cons, List.length_append, List.length_append]
      change d.length < d.length + ((next.encode crc).length + _)
      omega
    · rw [List.drop_left]
      exact (walCodec crc).encodeAll_cons next rest
  rw [replaySegmentBody, (walCodec crc).read_encodeAll_append hbefore,
    (walCodec crc).read_of_error (h.ne_nil _) he, List.append_nil]
  simp only [hvalid, if_true]

end Crc

end ZydecoDb
