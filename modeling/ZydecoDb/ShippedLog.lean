import ZydecoDb.Shipping

namespace ZydecoDb

open Lib

theorem isSpace_of_isDigit {b : UInt8} (h : isDigit b = true) : isSpace b = false := by
  simp only [isDigit, Bool.and_eq_true, decide_eq_true_eq, UInt8.le_iff_toNat_le] at h
  have hlow : 48 ≤ b.toNat := h.1
  have hne : b ≠ space := fun hb => by rw [hb] at hlow; revert hlow; decide
  have hhigh : ¬ b ≤ 13 := fun hb => by
    have hb' : b.toNat ≤ 13 := UInt8.le_iff_toNat_le.mp hb
    omega
  simp [isSpace, hne, hhigh]

theorem parseU64_digits {ds : Bytes} (hne : ds ≠ []) (hds : ∀ b ∈ ds, isDigit b = true)
    (hlt : digitsValue ds < 2 ^ 64) : parseU64 ds = some (digitsValue ds) := by
  have hplus : ds.head? ≠ some 43 := by
    intro h
    have hb := hds 43 (List.mem_of_mem_head? h)
    revert hb
    decide
  rw [parseU64, if_neg hplus]
  exact if_pos ⟨hne, List.all_eq_true.mpr hds, hlt⟩

theorem parseU64_some {ds : Bytes} {n : Nat} (hplus : ds.head? ≠ some 43)
    (h : parseU64 ds = some n) : (∀ b ∈ ds, isDigit b = true) ∧ digitsValue ds = n := by
  rw [parseU64, if_neg hplus] at h
  obtain ⟨hds, ⟨⟩⟩ := Option.ite_none_right_eq_some.mp h
  exact ⟨List.all_eq_true.mp hds.2.1, rfl⟩

namespace HexDigest

theorem byte_bounds (d : HexDigest) {b : UInt8} (hb : b ∈ d.hex) :
    (48 ≤ b.toNat ∧ b.toNat ≤ 57) ∨ (97 ≤ b.toNat ∧ b.toNat ≤ 102) := by
  have h := d.lower b hb
  simp only [isDigit, Bool.and_eq_true, decide_eq_true_eq, UInt8.le_iff_toNat_le] at h
  exact h

theorem isSpace_hex (d : HexDigest) : ∀ b ∈ d.hex, isSpace b = false := by
  intro b hb
  have h := d.byte_bounds hb
  have hne : b ≠ space := fun hs => by
    rw [hs] at h
    revert h
    decide
  have hhigh : ¬ b ≤ 13 := fun hs => by
    have hs' : b.toNat ≤ 13 := UInt8.le_iff_toNat_le.mp hs
    omega
  simp [isSpace, hne, hhigh]

theorem hex_ne_nil (d : HexDigest) : d.hex ≠ [] := by
  intro h
  have hlen := d.length_eq
  rw [h] at hlen
  cases hlen

theorem toAsciiLowercase_hex (d : HexDigest) : toAsciiLowercase d.hex = d.hex := by
  have h : ∀ b ∈ d.hex, (if 65 ≤ b ∧ b ≤ 90 then b + 32 else b) = b := by
    intro b hb
    have hb := d.byte_bounds hb
    refine if_neg fun hup => ?_
    have hlow : 65 ≤ b.toNat := UInt8.le_iff_toNat_le.mp hup.1
    have hhigh : b.toNat ≤ 90 := UInt8.le_iff_toNat_le.mp hup.2
    omega
  exact (List.map_congr_left h).trans (List.map_id _)

theorem isHex64_hex (d : HexDigest) : isHex64 d.hex = true := by
  have hall : d.hex.all isHexDigit = true := by
    refine List.all_eq_true.mpr fun b hb => ?_
    rcases d.lower b hb with h | h
    · simp [isHexDigit, h]
    · simp [isHexDigit, h.1, h.2]
  rw [isHex64, d.length_eq, hall]
  rfl

end HexDigest

namespace Shipment

theorem isDigit_decimal (n : UInt64) : ∀ b ∈ decimal n, isDigit b = true :=
  isDigit_decimalDigits

theorem decimal_ne_nil (n : UInt64) : decimal n ≠ [] := decimalDigits_ne_nil 19 n.toNat

theorem digitsValue_decimal (n : UInt64) : digitsValue (decimal n) = n.toNat := by
  have h : n.toNat < 2 ^ 64 := n.toNat_lt
  exact digitsValue_decimalDigits (by omega)

theorem parseU64_decimal (n : UInt64) : parseU64 (decimal n) = some n.toNat := by
  have hv := digitsValue_decimal n
  have h := parseU64_digits (decimal_ne_nil n) (isDigit_decimal n) (by rw [hv]; exact n.toNat_lt)
  rw [h, hv]

theorem isSpace_decimal (n : UInt64) : ∀ b ∈ decimal n, isSpace b = false :=
  fun b hb => isSpace_of_isDigit (isDigit_decimal n b hb)

def macWords (s : Shipment) : List Bytes := (s.hmac.map HexDigest.hex).toList

def fields (s : Shipment) : Bytes :=
  decimal s.sealSeq ++ space :: (s.sha256.hex ++
    match s.hmac with
    | some mac => space :: mac.hex
    | none => [])

theorem line_eq (s : Shipment) : s.line = decimal s.segmentId ++ space :: s.fields := rfl

theorem words_fields (s : Shipment) :
    words s.fields = decimal s.sealSeq :: s.sha256.hex :: s.macWords := by
  rw [fields, words_cons (isSpace_decimal _) (decimal_ne_nil _), macWords]
  cases s.hmac with
  | none =>
    have h := words_single s.sha256.isSpace_hex s.sha256.hex_ne_nil
    simp only [List.append_nil, h]
    rfl
  | some mac =>
    have h := words_single mac.isSpace_hex mac.hex_ne_nil
    have hcons := words_cons s.sha256.isSpace_hex s.sha256.hex_ne_nil mac.hex
    simp only [hcons, h]
    rfl

theorem parseFields_fields (s : Shipment) {id : Bytes} {n : Nat} (h : parseU64 id = some n) :
    parseFields (id :: words s.fields) = .ok { s.entry with segmentId := n } := by
  have hsha := s.sha256.isHex64_hex
  rw [words_fields]
  simp only [parseFields, h, parseU64_decimal, s.sha256.toAsciiLowercase_hex, hsha, macWords, entry]
  cases s.hmac with
  | none => rfl
  | some mac =>
    have hmac := mac.isHex64_hex
    simp [mac.toAsciiLowercase_hex, hmac]

theorem newline_notMem_of_isSpace {t : Bytes} (h : ∀ b ∈ t, isSpace b = false) : newline ∉ t := by
  intro hn
  have hb := h newline hn
  revert hb
  decide

theorem newline_notMem_line (s : Shipment) : newline ∉ s.line := by
  have hid := newline_notMem_of_isSpace (isSpace_decimal s.segmentId)
  have hseq := newline_notMem_of_isSpace (isSpace_decimal s.sealSeq)
  have hsha := newline_notMem_of_isSpace s.sha256.isSpace_hex
  have hspace : newline ≠ space := by decide
  rw [line]
  cases s.hmac with
  | none => simp [hid, hseq, hsha, hspace]
  | some mac =>
    have hmac := newline_notMem_of_isSpace mac.isSpace_hex
    simp [hid, hseq, hsha, hmac, hspace]

theorem parseFields_shifted (s : Shipment) {ws : List Bytes} (hws : ws ≠ []) (id : Bytes)
    (e : ShippedEntry) : parseFields (ws ++ id :: words s.fields) ≠ .ok e := by
  have hlen : (decimal s.sealSeq).length ≤ 20 := length_decimalDigits_le 20 _
  have hseq : isHex64 (toAsciiLowercase (decimal s.sealSeq)) = false := by
    rw [isHex64, toAsciiLowercase, List.length_map]
    simp only [Bool.and_eq_false_iff, decide_eq_false_iff_not]
    exact Or.inl (by omega)
  rw [words_fields]
  intro h
  match ws, hws with
  | [w], _ =>
    simp only [List.cons_append, List.nil_append, parseFields, hseq] at h
    split at h
    next => cases h
    next =>
      split at h
      next => cases h
      next =>
        split at h
        next => cases h
        next => cases h
  | [w, w'], _ => simp [parseFields] at h
  | w :: w' :: w'' :: ws, _ =>
    simp only [List.cons_append, parseFields] at h
    rw [if_pos (by simp only [List.length_append, List.length_cons]; omega)] at h
    cases h

/-- A line glued to a torn tail reads as itself only behind zeros. -/
theorem parseFields_glued (s : Shipment) {tail : Bytes} (hd : ∀ b ∈ tail.head?, isDigit b = true) :
    parseFields (words (tail ++ s.line)) = .ok s.entry ↔ ∀ b ∈ tail, b = 48 := by
  have hplus : (tail ++ decimal s.segmentId).head? ≠ some 43 := by
    intro h
    have hb : isDigit 43 = true := by
      cases tail with
      | nil => exact isDigit_decimal _ _ (List.mem_of_mem_head? h)
      | cons b tail => exact hd 43 h
    revert hb
    decide
  rw [line_eq]
  constructor
  · intro h
    obtain ⟨ws, v, hwords, hv⟩ := words_append_word (fun b hb => isSpace_of_isDigit (hd b hb))
      (isSpace_decimal s.segmentId) (decimal_ne_nil _) s.fields
    rw [hwords] at h
    by_cases hws : ws = []
    case neg => exact absurd h (s.parseFields_shifted hws _ _)
    rw [hws, hv hws, List.nil_append] at h
    cases hid : parseU64 (tail ++ decimal s.segmentId) with
    | none =>
      simp only [words_fields, parseFields, hid] at h
      split at h
      next => cases h
      next => cases h
    | some n =>
      rw [s.parseFields_fields hid] at h
      have hn : n = s.segmentId.toNat := congrArg ShippedEntry.segmentId (Except.ok.inj h)
      obtain ⟨hds, hval⟩ := parseU64_some hplus hid
      rw [digitsValue_append, digitsValue_decimal, hn] at hval
      have hpos : 0 < 10 ^ (decimal s.segmentId).length := Nat.pow_pos (by decide)
      have hzero : digitsValue tail = 0 := by
        rcases Nat.eq_zero_or_pos (digitsValue tail) with h | h
        · exact h
        · have := Nat.mul_pos h hpos
          omega
      exact eq_zero_of_digitsValue (fun b hb => hds b (List.mem_append_left _ hb)) hzero
  · intro hz
    have hdigit : ∀ b ∈ tail ++ decimal s.segmentId, isDigit b = true := by
      intro b hb
      rcases List.mem_append.mp hb with hb | hb
      · rw [hz b hb]
        rfl
      · exact isDigit_decimal _ b hb
    have hval : digitsValue (tail ++ decimal s.segmentId) = s.segmentId.toNat := by
      rw [digitsValue_append, digitsValue_zeros hz, digitsValue_decimal, Nat.zero_mul, Nat.zero_add]
    have hne : tail ++ decimal s.segmentId ≠ [] :=
      fun h => decimal_ne_nil _ (List.append_eq_nil_iff.mp h).2
    have hid := parseU64_digits hne hdigit (by rw [hval]; exact s.segmentId.toNat_lt)
    rw [hval] at hid
    have hspace := fun b hb => isSpace_of_isDigit (hdigit b hb)
    rw [← List.append_assoc, words_cons hspace hne, s.parseFields_fields hid]
    rfl

end Shipment

def unfinished (log : Bytes) : Bytes := (log.splitOn newline).getLastD []

variable {ls : List Bytes}

theorem unfinished_unlines {tail : Bytes} (hls : ∀ l ∈ ls, newline ∉ l) (ht : newline ∉ tail) :
    unfinished (unlines ls tail) = tail := by
  rw [unfinished, splitOn_unlines hls ht, List.getLastD_concat]

structure Lines (ls : List Bytes) (es : List ShippedEntry) : Prop where
  unbroken : ∀ l ∈ ls, newline ∉ l
  reads : List.Forall₂ (fun l e => parseFields (words l) = .ok e) ls es
  increasing : es.Pairwise fun e f => e.segmentId < f.segmentId

theorem words_ne_nil {l : Bytes} {e : ShippedEntry} (h : parseFields (words l) = .ok e) :
    words l ≠ [] := by
  intro hl
  rw [hl] at h
  cases h

variable {es : List ShippedEntry}

theorem readLines_append (out : List ShippedEntry) {ls rest : List (Nat × Bytes)}
    (h : List.Forall₂ (fun l e => parseFields (words l.2) = .ok e) ls es)
    (hinc : (out ++ es).Pairwise fun e f => e.segmentId < f.segmentId) :
    readLines out (ls ++ rest) = readLines (out ++ es) rest := by
  induction h generalizing out with
  | nil => rw [List.nil_append, List.append_nil]
  | @cons l e ls es hl _ ih =>
    have hcons : out ++ e :: es = (out ++ [e]) ++ es := by
      rw [List.append_assoc, List.singleton_append]
    have hrest := ih (out ++ [e]) (hcons ▸ hinc)
    rw [hcons, ← hrest, List.cons_append, readLines, hl]
    cases hlast : out.getLast? with
    | none => rfl
    | some last =>
      have hlt : last.segmentId < e.segmentId :=
        (List.pairwise_append.mp hinc).2.2 last (List.mem_of_getLast? hlast) e List.mem_cons_self
      exact if_neg (by omega)

theorem numbered_reads (h : List.Forall₂ (fun l e => parseFields (words l) = .ok e) ls es)
    (k : Nat) :
    List.Forall₂ (fun l e => parseFields (words l.2) = .ok e)
      (((ls.zipIdx k).map fun p => (p.2, p.1)).filter fun p => words p.2 ≠ []) es := by
  induction h generalizing k with
  | nil => exact List.Forall₂.nil
  | cons hl _ ih =>
    rw [List.zipIdx_cons, List.map_cons, List.filter_cons_of_pos (by simpa using words_ne_nil hl)]
    exact List.Forall₂.cons hl (ih (k + 1))

theorem readShippedLog_unlines {tail : Bytes} (h : Lines ls es) (ht : newline ∉ tail) :
    readShippedLog (unlines ls tail) = readLines es [(ls.length + 1, tail)] := by
  have hnum : (1 + ls.length, tail) = (ls.length + 1, tail) := by rw [Nat.add_comm]
  rw [readShippedLog, logLines, splitOn_unlines h.unbroken ht, List.zipIdx_append, List.map_append,
    List.filter_append, readLines_append [] (numbered_reads h.reads 1) h.increasing, List.nil_append,
    List.zipIdx_singleton, List.map_singleton, hnum]
  by_cases hblank : words tail = []
  · rw [List.filter_cons_of_neg (by simpa using hblank), List.filter_nil, readLines, readLines,
      hblank]
    rfl
  · rw [List.filter_cons_of_pos (by simpa using hblank), List.filter_nil]

theorem readShippedLog_newline {tail : Bytes} (h : Lines ls es) (ht : newline ∉ tail) :
    readShippedLog (unlines ls tail ++ [newline]) = readLines es [(ls.length + 1, tail)] := by
  rw [← readShippedLog_unlines h ht, readShippedLog, readShippedLog, logLines, logLines,
    splitOn_unlines h.unbroken ht]
  have hsplit : (unlines ls tail ++ [newline]).splitOn newline = (ls ++ [tail]) ++ [[]] := by
    have hline : unlines ls tail ++ [newline] = unlines (ls ++ [tail]) [] := by simp [unlines]
    rw [hline]
    refine splitOn_unlines (fun l hl => ?_) (by simp)
    rcases List.mem_append.mp hl with hl | hl
    · exact h.unbroken l hl
    · rw [List.mem_singleton.mp hl]
      exact ht
  rw [hsplit, List.zipIdx_append, List.map_append, List.filter_append, List.zipIdx_singleton,
    List.map_singleton, List.filter_cons_of_neg (by simp [words, wordsFrom]), List.filter_nil,
    List.append_nil]

theorem readLines_last (out : List ShippedEntry) (n : Nat) {t : Bytes} {e : ShippedEntry}
    (h : parseFields (words t) = .ok e) :
    (out.getLast? = some e ∧ readLines out [(n, t)] = .ok out) ∨
    (out.getLast? ≠ some e ∧ (∃ last, out.getLast? = some last ∧ e.segmentId ≤ last.segmentId) ∧
      ∃ err, readLines out [(n, t)] = .error err) ∨
    ((∀ last, out.getLast? = some last → last.segmentId < e.segmentId) ∧
      readLines out [(n, t)] = .ok (out ++ [e])) := by
  rw [readLines, h]
  cases hlast : out.getLast? with
  | none => exact Or.inr (Or.inr ⟨fun _ h => (by cases h), rfl⟩)
  | some last =>
    by_cases hle : e.segmentId ≤ last.segmentId
    · by_cases heq : e = last
      · exact Or.inl ⟨by rw [heq], by simp [heq, readLines]⟩
      · refine Or.inr (Or.inl ⟨fun h => heq (Option.some.inj h).symm, ⟨last, rfl, hle⟩, ?_⟩)
        exact ⟨_, by simp only [hle, heq, if_true, if_false]; rfl⟩
    · refine Or.inr (Or.inr ⟨fun l hl => ?_, by simp only [hle, if_false, readLines]⟩)
      cases Option.some.inj hl
      omega

theorem readLines_last_eq_nothing {out : List ShippedEntry} {n : Nat} {t : Bytes} :
    readLines out [(n, t)] = .ok out ↔
      ∀ e, parseFields (words t) = .ok e → out.getLast? = some e := by
  constructor
  · intro hread e he
    rcases readLines_last out n he with ⟨hlast, -⟩ | ⟨-, -, err, herr⟩ | ⟨-, hnew⟩
    · exact hlast
    · rw [hread] at herr
      cases herr
    · rw [hread] at hnew
      have hlen := congrArg List.length (Except.ok.inj hnew)
      simp at hlen
  · intro h
    cases ht : parseFields (words t) with
    | error what =>
      rw [readLines, ht]
      rfl
    | ok e =>
      have hlast := h e ht
      rcases readLines_last out n ht with ⟨-, hread⟩ | ⟨hne, -⟩ | ⟨hlt, -⟩
      · exact hread
      · exact absurd hlast hne
      · exact absurd (hlt e hlast) (Nat.lt_irrefl _)

theorem readLines_last_eq_entry {out : List ShippedEntry} {n : Nat} {t : Bytes} {e : ShippedEntry} :
    readLines out [(n, t)] = .ok (out ++ [e]) ↔ parseFields (words t) = .ok e ∧
      ∀ last, out.getLast? = some last → last.segmentId < e.segmentId := by
  have hlen : Except.ok (ε := EngineError) out ≠ .ok (out ++ [e]) := fun h => by
    have hlen := congrArg List.length (Except.ok.inj h)
    simp at hlen
  constructor
  · intro hread
    cases ht : parseFields (words t) with
    | error what =>
      rw [readLines, ht] at hread
      exact absurd hread hlen
    | ok f =>
      rcases readLines_last out n ht with ⟨-, hf⟩ | ⟨-, -, err, hf⟩ | ⟨hlt, hf⟩
      · exact absurd (hf.symm.trans hread) hlen
      · rw [hread] at hf
        cases hf
      · have heq := Except.ok.inj (hf.symm.trans hread)
        have hfe : f = e := by simpa using heq
        exact hfe ▸ ⟨rfl, hlt⟩
  · rintro ⟨ht, hlt⟩
    rcases readLines_last out n ht with ⟨hlast, -⟩ | ⟨-, ⟨last, hlast, hle⟩, -⟩ | h
    · exact absurd (hlt e hlast) (Nat.lt_irrefl _)
    · have := hlt last hlast
      omega
    · exact h.2

end ZydecoDb
