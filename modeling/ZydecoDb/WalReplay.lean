import ZydecoDb.WalCrash
import ZydecoDb.WalDamage

namespace ZydecoDb

open Lib

variable {crc : Bytes → UInt32}

theorem validLen_add_rest {fuel : Nat} {body : Bytes} (h : body.length ≤ fuel) :
    validLen crc fuel body + ((walCodec crc).read body).2.rest.length = body.length := by
  induction fuel generalizing body with
  | zero =>
    have hnil : body = [] := List.length_eq_zero_iff.mp (by omega)
    rw [hnil]
    rfl
  | succ fuel ih =>
    by_cases hne : body = []
    · rw [hne]
      rfl
    cases hd : WalEntry.decodeOne crc body with
    | error error =>
      rw [validLen, hd, (walCodec crc).read_of_error hne hd]
      exact Nat.zero_add _
    | ok decoded =>
      cases decoded with
      | none =>
        rw [validLen, hd, (walCodec crc).read_of_short hne hd]
        exact Nat.zero_add _
      | some p =>
        obtain ⟨hpos, hle⟩ := WalEntry.decodeOne_bounds crc hd
        have hlen : (body.drop p.2).length = body.length - p.2 := List.length_drop
        have hrec := ih (show (body.drop p.2).length ≤ fuel by omega)
        rw [validLen, hd, (walCodec crc).read_of_decode hne hd]
        dsimp only
        omega

/-- The scan the truncation makes for itself ends where the replay of the segment stopped. -/
theorem truncateTornSegment_eq_read {buf : Bytes} (h : segmentHeaderLen ≤ buf.length) :
    truncateTornSegment crc buf =
      buf.take (buf.length - ((walCodec crc).read (buf.drop segmentHeaderLen)).2.rest.length) := by
  have hscan : validLen crc (buf.drop segmentHeaderLen).length (buf.drop segmentHeaderLen) +
      ((walCodec crc).read (buf.drop segmentHeaderLen)).2.rest.length =
        (buf.drop segmentHeaderLen).length := validLen_add_rest le_rfl
  have hlen : (buf.drop segmentHeaderLen).length = buf.length - segmentHeaderLen := List.length_drop
  rw [truncateTornSegment, if_neg (not_lt.mpr h)]
  congr 1
  omega

theorem truncateTornSegment_torn (firstSeq : Nat) {entries : List WalEntry}
    (h : ∀ w ∈ entries, w.Fits) {tail : Bytes} (ht : (walCodec crc).Torn tail) :
    truncateTornSegment crc (segmentHeader firstSeq ++ ((walCodec crc).encodeAll entries ++ tail)) =
      segmentHeader firstSeq ++ (walCodec crc).encodeAll entries := by
  have hheader := segmentHeader_length firstSeq
  have hrest : ((walCodec crc).read ((walCodec crc).encodeAll entries ++ tail)).2.rest = tail := by
    rw [(walCodec crc).read_encodeAll_append h, (walCodec crc).read_torn ht]
    by_cases hne : tail = []
    · rw [if_pos hne, hne]
      rfl
    · rw [if_neg hne]
      rfl
  have hlen : (segmentHeader firstSeq ++ ((walCodec crc).encodeAll entries ++ tail)).length -
      tail.length = (segmentHeader firstSeq ++ (walCodec crc).encodeAll entries).length := by
    simp only [List.length_append]
    omega
  rw [truncateTornSegment_eq_read (by rw [List.length_append]; omega), List.drop_left' hheader, hrest, hlen,
    ← List.append_assoc, List.take_left]

/-- Replaying whole records and a strict part of one more gives the whole ones, and truncation takes the
part away. A record that is damaged with its framing intact and is not the last stops the replay as
corruption. The commands of a batch's operations are not counted as framing: they may be damaged too. -/
theorem replay_segment (crc : Bytes → UInt32) (firstSeq : Nat) {entries : List WalEntry}
    (hfits : ∀ w ∈ entries, w.Fits) :
    (∀ next : WalEntry, next.Fits → ∀ n < (next.encode crc).length,
      replaySegmentBody crc (entries.flatMap (WalEntry.encode crc) ++ (next.encode crc).take n) =
          (entries, if n = 0 then .clean else .tornTail) ∧
        readSegment crc (truncateTornSegment crc (segmentHeader firstSeq ++
          (entries.flatMap (WalEntry.encode crc) ++ (next.encode crc).take n))) =
            .ok (entries, .clean)) ∧
    ∀ before e after damaged, entries = before ++ e :: after → after ≠ [] → e.Damaged crc damaged →
      replaySegmentBody crc (before.flatMap (WalEntry.encode crc) ++
        (damaged ++ after.flatMap (WalEntry.encode crc))) = (before, .corruption) := by
  constructor
  · intro next hnext n hn
    have htorn : (walCodec crc).Torn ((next.encode crc).take n) := (walCodec crc).torn_take hnext hn
    have hnil : (next.encode crc).take n = [] ↔ n = 0 := by
      rw [List.take_eq_nil_iff]
      constructor
      · rintro (h | h)
        · exact h
        · rw [h, List.length_nil] at hn
          omega
      · exact Or.inl
    constructor
    · have h := replaySegmentBody_torn crc hfits htorn
      simp only [hnil] at h
      exact h
    · have htrunc := truncateTornSegment_torn firstSeq hfits htorn
      change readSegment crc (truncateTornSegment crc (segmentHeader firstSeq ++
        ((walCodec crc).encodeAll entries ++ (next.encode crc).take n))) = _
      rw [htrunc, readSegment_body, replaySegmentBody_encodeAll crc hfits]
  · rintro before e after damaged rfl hne hdamaged
    exact replaySegmentBody_damaged (fun w hw => hfits w (List.mem_append_left _ hw))
      (hfits e (List.mem_append_right _ List.mem_cons_self))
      (fun w hw => hfits w (List.mem_append_right _ (List.mem_cons_of_mem e hw))) hne hdamaged

def byteSum (b : Bytes) : UInt32 := b.foldl (fun n c => n + c.toUInt32) 0

def loggedPut : WalEntry := .single ⟨walPut, 1, 0, [1, 7], [9]⟩

def loggedDelete : WalEntry := .single ⟨walDel, 2, 0, [1, 7], []⟩

def loggedBatch : WalEntry := .batch ⟨3, [⟨walPut, 0, [1, 8], [5]⟩]⟩

/-- Two records and the first eight bytes of a batch; then the expiry of the first record changed. -/
theorem replay_put_delete :
    replaySegmentBody byteSum ([loggedPut, loggedDelete].flatMap (WalEntry.encode byteSum) ++
        (loggedBatch.encode byteSum).take 8) = ([loggedPut, loggedDelete], .tornTail) ∧
      loggedPut.Damaged byteSum ((loggedPut.encode byteSum).set 16 4) ∧
      replaySegmentBody byteSum ((loggedPut.encode byteSum).set 16 4 ++ loggedDelete.encode byteSum) =
        ([], .corruption) := by
  have hfits : ∀ w ∈ [loggedPut, loggedDelete], w.Fits := by decide
  have hdamaged : loggedPut.Damaged byteSum ((loggedPut.encode byteSum).set 16 4) :=
    ⟨by decide +kernel, by decide +kernel, by decide +kernel⟩
  have hreplay := replay_segment byteSum 1 hfits
  refine ⟨(hreplay.1 loggedBatch (by decide) 8 (by decide +kernel)).1, hdamaged, ?_⟩
  have hbad := hreplay.2 [] loggedPut [loggedDelete] _ rfl (by decide) hdamaged
  rw [List.flatMap_nil, List.nil_append, List.flatMap_singleton] at hbad
  exact hbad

end ZydecoDb
