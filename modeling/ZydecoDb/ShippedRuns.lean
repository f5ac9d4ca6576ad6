import ZydecoDb.ShippedLog

namespace ZydecoDb

open Lib

/-- When a ship leaves the log as it should: nothing is written for the last segment recorded; the
whole line is written, behind nothing but zeros, for a segment past it; or what the cut leaves does
not read as a new entry. -/
def Ship.Clean (st : ShipLog) (a : Ship) : Prop :=
  (∃ last, st.completed.getLast? = some last ∧ last.segmentId = a.shipment.segmentId.toNat) ∨
    match a.cut with
    | none => (∀ b ∈ unfinished st.log, b = 48) ∧ ∀ last, st.completed.getLast? = some last →
        last.segmentId < a.shipment.segmentId.toNat
    | some n => ∀ e, parseFields (words (unfinished st.log ++ a.shipment.line.take n)) = .ok e →
        st.completed.getLast? = some e

structure ShipLog.Inv (st : ShipLog) (ls : List Bytes) (tail : Bytes) : Prop where
  log_eq : st.log = unlines ls tail
  lines : Lines ls st.completed
  unbroken : newline ∉ tail
  silent : ∀ e, parseFields (words tail) = .ok e → st.completed.getLast? = some e
  digit : ∀ b ∈ tail.head?, isDigit b = true

theorem ShipLog.inv_empty : ShipLog.empty.Inv [] [] where
  log_eq := rfl
  lines := ⟨by simp, List.Forall₂.nil, List.Pairwise.nil⟩
  unbroken := by simp
  silent e h := by cases h
  digit b h := by cases h

namespace ShipLog

variable {st : ShipLog} {ls : List Bytes} {tail : Bytes}

theorem Inv.unfinished_eq (h : st.Inv ls tail) : unfinished st.log = tail := by
  rw [h.log_eq, unfinished_unlines h.lines.unbroken h.unbroken]

theorem Inv.read (h : st.Inv ls tail) : readShippedLog st.log = .ok st.completed := by
  rw [h.log_eq, readShippedLog_unlines h.lines h.unbroken]
  exact readLines_last_eq_nothing.mpr h.silent

theorem step_recorded {last : ShippedEntry} {a : Ship}
    (hread : readShippedLog st.log = .ok st.completed) (hlast : st.completed.getLast? = some last)
    (hid : last.segmentId = a.shipment.segmentId.toNat) : step st a = some st := by
  rw [step, shipSegment, hread]
  simp only [hlast, hid, if_true]
  by_cases heq : last = a.shipment.entry
  · simp [heq]
  · simp [heq]

theorem step_append {a : Ship} (hread : readShippedLog st.log = .ok st.completed)
    (hid : ¬ ∃ last, st.completed.getLast? = some last ∧
      last.segmentId = a.shipment.segmentId.toNat) :
    step st a = some (match a.cut with
      | none => ⟨st.log ++ (a.shipment.line ++ [newline]), st.completed ++ [a.shipment.entry]⟩
      | some n => ⟨st.log ++ (a.shipment.line ++ [newline]).take n, st.completed⟩) := by
  have happ : shipSegment st.log a.shipment a.cut =
      shipSegment.append st.log a.shipment a.cut := by
    rw [shipSegment, hread]
    cases hlast : st.completed.getLast? with
    | none => simp only [hlast]
    | some last =>
      simp only [hlast]
      exact if_neg fun h => hid ⟨last, hlast, h⟩
  rw [step, happ]
  unfold shipSegment.append
  cases a.cut with
  | none => rfl
  | some n => rfl

theorem Inv.read_whole (h : st.Inv ls tail) (s : Shipment) :
    readShippedLog (st.log ++ (s.line ++ [newline])) = .ok (st.completed ++ [s.entry]) ↔
      (∀ b ∈ tail, b = 48) ∧ ∀ last, st.completed.getLast? = some last →
        last.segmentId < s.segmentId.toNat := by
  have hunbroken : newline ∉ tail ++ s.line := by simp [h.unbroken, s.newline_notMem_line]
  have hlog : st.log ++ (s.line ++ [newline]) = unlines ls (tail ++ s.line) ++ [newline] := by
    rw [h.log_eq]
    simp [unlines]
  have hparse := s.parseFields_glued h.digit
  rw [hlog, readShippedLog_newline h.lines hunbroken, readLines_last_eq_entry, hparse]
  rfl

theorem Inv.read_cut (h : st.Inv ls tail) (s : Shipment) (n : Nat) :
    readShippedLog (st.log ++ s.line.take n) = .ok st.completed ↔
      ∀ e, parseFields (words (tail ++ s.line.take n)) = .ok e →
        st.completed.getLast? = some e := by
  have hunbroken : newline ∉ tail ++ s.line.take n := by
    have hcut : newline ∉ s.line.take n := fun hn => s.newline_notMem_line (List.mem_of_mem_take hn)
    simp [h.unbroken, hcut]
  have hlog : st.log ++ s.line.take n = unlines ls (tail ++ s.line.take n) := by
    rw [h.log_eq, unlines, unlines, List.append_assoc]
  rw [hlog, readShippedLog_unlines h.lines hunbroken, readLines_last_eq_nothing]

theorem lt_of_getLast {es : List ShippedEntry} {n : Nat}
    (hinc : es.Pairwise fun e f => e.segmentId < f.segmentId)
    (hlast : ∀ last, es.getLast? = some last → last.segmentId < n) :
    ∀ e ∈ es, e.segmentId < n := by
  intro e he
  cases hl : es.getLast? with
  | none =>
    rw [List.getLast?_eq_none_iff.mp hl] at he
    cases he
  | some last =>
    have hlt := hlast last hl
    rw [← List.dropLast_append_getLast? last hl] at hinc he
    rcases List.mem_append.mp he with he | he
    · have := (List.pairwise_append.mp hinc).2.2 e he last (List.mem_singleton.mpr rfl)
      omega
    · rw [List.mem_singleton.mp he]
      exact hlt

theorem Inv.whole (h : st.Inv ls tail) (s : Shipment) (hz : ∀ b ∈ tail, b = 48)
    (hlt : ∀ last, st.completed.getLast? = some last → last.segmentId < s.segmentId.toNat) :
    Inv ⟨st.log ++ (s.line ++ [newline]), st.completed ++ [s.entry]⟩ (ls ++ [tail ++ s.line]) [] where
  log_eq := by
    rw [h.log_eq]
    simp [unlines]
  lines :=
    { unbroken := by
        intro l hl
        rcases List.mem_append.mp hl with hl | hl
        · exact h.lines.unbroken l hl
        · rw [List.mem_singleton.mp hl]
          simp [h.unbroken, s.newline_notMem_line]
      reads := by
        have hparse := (s.parseFields_glued h.digit).mpr hz
        exact List.rel_append h.lines.reads (List.Forall₂.cons hparse List.Forall₂.nil)
      increasing := by
        refine List.pairwise_append.mpr ⟨h.lines.increasing, List.pairwise_singleton _ _, ?_⟩
        intro e he f hf
        rw [List.mem_singleton.mp hf]
        exact lt_of_getLast h.lines.increasing hlt e he }
  unbroken := by simp
  silent e he := by cases he
  digit b hb := by cases hb

theorem Inv.cut (h : st.Inv ls tail) (s : Shipment) (n : Nat)
    (hsilent : ∀ e, parseFields (words (tail ++ s.line.take n)) = .ok e →
      st.completed.getLast? = some e) :
    Inv ⟨st.log ++ s.line.take n, st.completed⟩ ls (tail ++ s.line.take n) where
  log_eq := by rw [h.log_eq, unlines, unlines, List.append_assoc]
  lines := h.lines
  unbroken := by
    have hcut : newline ∉ s.line.take n := fun hn => s.newline_notMem_line (List.mem_of_mem_take hn)
    simp [h.unbroken, hcut]
  silent := hsilent
  digit b hb := by
    cases tail with
    | cons c tail => exact h.digit b hb
    | nil =>
      have hhead : b ∈ s.line.head? := by
        cases n with
        | zero => cases hb
        | succ n =>
          rw [List.nil_append, List.head?_take, if_neg (by omega)] at hb
          exact hb
      rw [Shipment.line_eq, List.head?_append_of_ne_nil _ (Shipment.decimal_ne_nil _)] at hhead
      exact Shipment.isDigit_decimal _ b (List.mem_of_mem_head? hhead)

end ShipLog

/-- A shipment is read back exactly when it starts on a clean line. -/
theorem ShipLog.Inv.step {st : ShipLog} (h : ∃ ls tail, st.Inv ls tail) (a : Ship) :
    ∃ st', ShipLog.step st a = some st' ∧
      (readShippedLog st'.log = .ok st'.completed ↔ a.Clean st) ∧
      (a.Clean st → ∃ ls tail, st'.Inv ls tail) := by
  obtain ⟨ls, tail, h⟩ := h
  by_cases hid : ∃ last, st.completed.getLast? = some last ∧
      last.segmentId = a.shipment.segmentId.toNat
  · obtain ⟨last, hlast, hseg⟩ := hid
    refine ⟨st, step_recorded h.read hlast hseg, ?_, fun _ => ⟨ls, tail, h⟩⟩
    exact iff_of_true h.read (Or.inl ⟨last, hlast, hseg⟩)
  refine ⟨_, step_append h.read hid, ?_⟩
  simp only [Ship.Clean, hid, false_or, h.unfinished_eq]
  cases hcut : a.cut with
  | none =>
    refine ⟨h.read_whole a.shipment, fun hc => ?_⟩
    exact ⟨_, _, h.whole a.shipment hc.1 hc.2⟩
  | some n =>
    have htake : (a.shipment.line ++ [newline]).take n = a.shipment.line.take n :=
      List.take_append_of_le_length (a.cut_le n hcut)
    simp only [htake]
    refine ⟨h.read_cut a.shipment n, fun hc => ?_⟩
    exact ⟨_, _, h.cut a.shipment n hc⟩

/-- Throughout a run of ships, some of them cut by crashes, the log reads as the ships that have
completed exactly when every ship is clean where it is made. -/
theorem shippedLog_reads_completed (as : List Ship) :
    (∀ bs st, bs <+: as → runFrom ShipLog.step .empty bs = some st →
      readShippedLog st.log = .ok st.completed) ↔
    MeetsAlong ShipLog.step (fun st a => a.Clean st) .empty as :=
  forall_prefix_iff_meetsAlong (I := fun st : ShipLog => ∃ ls tail, st.Inv ls tail)
    (P := fun st : ShipLog => readShippedLog st.log = .ok st.completed)
    (fun _ a h _ _ => ShipLog.Inv.step h a) ⟨[], [], ShipLog.inv_empty⟩ rfl (meetsAlong_true _ _)

def plainDigest : HexDigest := ⟨List.replicate 64 97, rfl, by simp⟩

def plainShipment (id : UInt64) : Shipment := ⟨id, id * 10, plainDigest, none⟩

def tornShips : List Ship :=
  [⟨plainShipment 1, none, by simp⟩, ⟨plainShipment 2, some 1, by decide⟩,
    ⟨plainShipment 3, none, by simp⟩]

def nextShip : Ship := ⟨plainShipment 4, none, by simp⟩

/-- Segment 3 is recorded as 23, and with the next one the log cannot be read any more. -/
theorem tornShips_misread :
    (runFrom ShipLog.step .empty tornShips).map ShipLog.completed =
      some [(plainShipment 1).entry, (plainShipment 3).entry] ∧
    (runFrom ShipLog.step .empty tornShips).map (readShippedLog ·.log) =
      some (.ok [(plainShipment 1).entry, ⟨23, 30, plainDigest.hex, none⟩]) ∧
    (runFrom ShipLog.step .empty (tornShips ++ [nextShip])).map (readShippedLog ·.log) =
      some (.error (.io "shipped.log line 3: out of order segment_id 4 (<= 23)")) :=
  ⟨rfl, rfl, rfl⟩

end ZydecoDb
