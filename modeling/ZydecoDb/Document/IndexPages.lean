import ZydecoDb.Document.Query
import ZydecoDb.RepeatableRead

namespace ZydecoDb

open Lib

structure ScanSpec where
  lo : Bytes
  hi : Bytes
  limit : Nat
  docPrefix : Bytes
  includeBodies : Bool

structure IndexQuery where
  collection : Bytes
  indexName : Bytes
  lo : Option Bytes
  hi : Option Bytes
  limit : Nat
  includeBodies : Bool

section Pages
-- `parseBound` is the JSON parser on the array of a bound.
variable (parseBound : Bytes → DocResult (List Value)) (codec : BodyCodec) (catalog : DocCatalog)
  (storagePrefix : Bytes) (q : IndexQuery) (now : Nat) (view : ReadView) (seqUpper : Nat)

def encodeBoundDirected (idxPrefix : Bytes) (directions : List Bool) (unbounded : Bytes) :
    Option Bytes → DocResult Bytes
  | some json => (parseBound json).map fun vals =>
      idxPrefix ++ encodeFieldsWithDirections vals directions
  | none => .ok unbounded

def resumeAfter (lo : Bytes) : Option Bytes → DocResult Bytes
  | some c => (splitCursorSeq c).map fun p => p.2 ++ [0x00]
  | none => .ok lo

def buildIndexScanSpec (cursor : Option Bytes) : DocResult ScanSpec :=
  (catalog.collection storagePrefix q.collection).bind fun coll =>
    match coll.indexes.find? fun idx => idx.name = q.indexName with
    | none => .error (.indexNotFound q.indexName)
    | some idx =>
      let idxPrefix := indexPrefix storagePrefix coll.id idx.id
      (encodeBoundDirected parseBound idxPrefix idx.ascending idxPrefix q.lo).bind fun lo =>
        (resumeAfter lo cursor).bind fun lo =>
          (encodeBoundDirected parseBound idxPrefix idx.ascending (prefixUpperBound idxPrefix) q.hi).map
            fun hi => ⟨lo, hi, max q.limit 1, docPrefix storagePrefix coll.id, q.includeBodies⟩

def indexRow (spec : ScanSpec) (entry : Bytes × Bytes) : DocResult (Bytes × Option Body) :=
  if spec.includeBodies then
    match view.handleGet (spec.docPrefix ++ entry.2) seqUpper now with
    | some stored => (storedToJsonVec codec stored).map fun body => (entry.2, some body)
    | none => .ok (entry.2, none)
  else .ok (entry.2, none)

def pageLoop (spec : ScanSpec) : List (Bytes × Bytes) → Nat → Option Bytes →
    DocResult (List (Bytes × Option Body) × Option Bytes)
  | [], _, _ => .ok ([], none)
  | entry :: rest, n, lastKey =>
    if n = spec.limit then .ok ([], lastKey.map (withCursorSeq seqUpper))
    else (indexRow codec now view seqUpper spec entry).bind fun row =>
      (pageLoop spec rest (n + 1) (some entry.1)).map fun page => (row :: page.1, page.2)

/-- A page of the view at a ceiling. `none` is the panic of the scan. -/
def executeIndexScan (spec : ScanSpec) :
    Option (DocResult (List (Bytes × Option Body) × Option Bytes)) :=
  (view.scan seqUpper spec.lo spec.hi now).map fun entries =>
    pageLoop codec now view seqUpper spec entries 0 none

def queryPage (st : EngineState) (cursor : Option Bytes) :
    Option (DocResult (List (Bytes × Option Body) × Option Bytes)) :=
  match buildIndexScanSpec parseBound catalog storagePrefix q cursor with
  | .error e => some (.error e)
  | .ok spec => executeIndexScan codec now st.view (st.readSnapshot cursor) spec

end Pages

section Resume
variable {snap : SnapshotHandle} {lo hi k value : Bytes} {now : Nat}

end Resume

section Follow
variable {parseBound : Bytes → DocResult (List Value)} {codec : BodyCodec} {catalog : DocCatalog}
  {storagePrefix : Bytes} {q : IndexQuery} {view : ReadView} {now seqUpper : Nat} {spec : ScanSpec}
  {cursor : Option Bytes}

theorem encodeBoundDirected_cases {p b unbounded : Bytes} {directions : List Bool} {bound : Option Bytes}
    (h : encodeBoundDirected parseBound p directions unbounded bound = .ok b) :
    b = unbounded ∨ ∃ e, b = p ++ e := by
  cases bound with
  | none => exact .inl (Except.ok.inj h).symm
  | some json =>
    obtain ⟨vals, -, rfl⟩ := except_map_eq_ok.mp h
    exact .inr ⟨_, rfl⟩

theorem buildIndexScanSpec_cases
    (h : buildIndexScanSpec parseBound catalog storagePrefix q cursor = .ok spec) :
    ∃ coll idx lo, catalog.collection storagePrefix q.collection = .ok coll ∧
      coll.indexes.find? (fun idx => idx.name = q.indexName) = some idx ∧
      encodeBoundDirected parseBound (indexPrefix storagePrefix coll.id idx.id) idx.ascending
        (indexPrefix storagePrefix coll.id idx.id) q.lo = .ok lo ∧
      resumeAfter lo cursor = .ok spec.lo ∧
      encodeBoundDirected parseBound (indexPrefix storagePrefix coll.id idx.id) idx.ascending
        (prefixUpperBound (indexPrefix storagePrefix coll.id idx.id)) q.hi = .ok spec.hi ∧
      spec.limit = max q.limit 1 ∧ spec.docPrefix = docPrefix storagePrefix coll.id ∧
      spec.includeBodies = q.includeBodies := by
  obtain ⟨coll, hcoll, h⟩ := except_bind_eq_ok.mp h
  split at h
  next => cases h
  next idx hidx =>
    obtain ⟨lo, hlo, h⟩ := except_bind_eq_ok.mp h
    obtain ⟨start, hstart, h⟩ := except_bind_eq_ok.mp h
    obtain ⟨hi, hhi, rfl⟩ := except_map_eq_ok.mp h
    exact ⟨coll, idx, lo, hcoll, hidx, hlo, hstart, hhi, rfl, rfl, rfl⟩

/-- The engine has numbers above the ceiling, keeps its sources in order and reads at the ceiling what
the view read there. -/
structure Rereads (view : ReadView) (seqUpper now : Nat) (st : EngineState) : Prop where
  ceiling : seqUpper ≤ st.nextSeq - 1
  ordered : st.view.Ordered
  reads : ∀ k, st.view.getWithSeq k seqUpper now = view.getWithSeq k seqUpper now

theorem Rereads.scan_eq {st : EngineState} (h : Rereads view seqUpper now st) (hview : view.Ordered)
    {lo hi : Bytes} (hrange : ReadView.ScanRange lo hi) :
    st.view.scan seqUpper lo hi now = view.scan seqUpper lo hi now := by
  refine ReadView.scan_congr h.ordered.tables h.ordered.coherent hview.tables hview.coherent hrange
    fun k => ?_
  have hreads := h.reads k
  simp only [ReadView.getWithSeq, ReadView.firstVisible_eq_newestAt h.ordered,
    ReadView.firstVisible_eq_newestAt hview] at hreads
  rw [valueAt, valueAt, hreads]

def ageQuery : IndexQuery := ⟨[0x63], [0x61], none, none, 1, false⟩

def byAge : IndexMeta := ⟨1, [0x61], [[0x61]], [], false, none⟩

def people : CollectionMeta := ⟨1, [ksUser], [0x63], [byAge]⟩

def ageCatalog : DocCatalog := ⟨2, 2, [people]⟩

/-- Every entry a page scans is one of its index exactly when the cursor does not lie in front of it:
the cursor's key is taken for the lower bound as the client sends it. -/
theorem index_page_confined_iff {coll : CollectionMeta} {idx : IndexMeta}
    (h : buildIndexScanSpec parseBound catalog storagePrefix q cursor = .ok spec)
    (hcoll : catalog.collection storagePrefix q.collection = .ok coll)
    (hidx : coll.indexes.find? (fun idx => idx.name = q.indexName) = some idx) :
    (∀ snap now, ∀ entry ∈ SnapshotHandle.scan snap spec.lo spec.hi now,
      indexPrefix storagePrefix coll.id idx.id <+: entry.1) ↔
    ∀ c, cursor = some c → indexPrefix storagePrefix coll.id idx.id ≤ c.drop 8 ++ [0x00] := by
  obtain ⟨coll', idx', lo, hcoll', hidx', hlo, hstart, hhi, -⟩ := buildIndexScanSpec_cases h
  cases hcoll.symm.trans hcoll'
  cases hidx.symm.trans hidx'
  generalize indexPrefix storagePrefix coll.id idx.id = p at *
  have hext : ∀ e, p ≤ p ++ e ∧ (prefixUpperBound p = [] ∨ p ++ e < prefixUpperBound p) :=
    fun e => (prefix_iff_prefixUpperBound p _).mp (List.prefix_append p e)
  have hlo : p ≤ lo := by
    rcases encodeBoundDirected_cases hlo with rfl | ⟨e, rfl⟩
    · exact le_rfl
    · exact (hext e).1
  have hbound : (∀ k, (spec.hi = [] ∨ k < spec.hi) → prefixUpperBound p = [] ∨ k < prefixUpperBound p) ∧
      (spec.hi = [] ∨ p ≤ spec.hi) := by
    rcases encodeBoundDirected_cases hhi with heq | ⟨e, heq⟩ <;> rw [heq]
    · exact ⟨fun k hk => hk, (hext []).2.imp_right fun hlt => by simpa using hlt.le⟩
    · refine ⟨fun k hk => ?_, .inr (hext e).1⟩
      rcases hk with hk | hk
      · rw [(List.append_eq_nil_iff.mp hk).1]
        exact .inl rfl
      · exact (hext e).2.imp_right hk.trans
  have hconfined : p ≤ spec.lo → ∀ snap now, ∀ entry ∈ SnapshotHandle.scan snap spec.lo spec.hi now,
      p <+: entry.1 := by
    intro hle snap now entry hmem
    obtain ⟨⟨hk, hk'⟩, -⟩ := SnapshotHandle.mem_scan.mp hmem
    exact (prefix_iff_prefixUpperBound p _).mpr ⟨hle.trans hk, hbound.1 _ hk'⟩
  cases cursor with
  | none =>
    rw [← Except.ok.inj hstart] at hconfined ⊢
    exact ⟨fun _ c hc => (nomatch hc), fun _ => hconfined hlo⟩
  | some c =>
    obtain ⟨⟨seq, body⟩, hsplit, hstart⟩ := except_map_eq_ok.mp hstart
    cases ite_error_eq_ok hsplit
    rw [← hstart] at hconfined ⊢
    refine ⟨fun hall c' hc' => ?_, fun hle => hconfined (hle c rfl)⟩
    cases hc'
    by_contra hlt
    -- a store may hold any key in front of the index, and the scan begins there
    have hprefix := hall ⟨[⟨c.drop 8 ++ [0x00], 0, .value [] none⟩], 0⟩ 0 (c.drop 8 ++ [0x00], [])
      (SnapshotHandle.mem_scan.mpr ⟨⟨le_rfl, hbound.2.imp_right (not_le.mp hlt).trans_le⟩,
        by simp [SnapshotHandle.get, SnapshotHandle.getWithSeq, Lib.newestAt, Lib.newest, outcome,
          Version.resolve, Entry.isTombstone, Entry.isExpired, Entry.valueBytes]⟩)
    exact hlt ((prefix_iff_prefixUpperBound p _).mp hprefix).1

/-- A cursor with no key behind its number starts the scan in front of the index. -/
theorem short_cursor_not_confined :
    let p := indexPrefix [ksUser] people.id byAge.id
    ¬ ∀ snap now, ∀ entry ∈ SnapshotHandle.scan snap [0x00] (prefixUpperBound p) now, p <+: entry.1 := by
  intro p h
  have hspec : buildIndexScanSpec (fun _ => .ok []) ageCatalog [ksUser] ageQuery (some (toBe 8 0)) =
      .ok ⟨[0x00], prefixUpperBound p, 1, docPrefix [ksUser] 1, false⟩ := rfl
  have hcoll : ageCatalog.collection [ksUser] ageQuery.collection = .ok people := rfl
  exact absurd ((index_page_confined_iff hspec hcoll rfl).mp h _ rfl) (by decide)

end Follow

end ZydecoDb
