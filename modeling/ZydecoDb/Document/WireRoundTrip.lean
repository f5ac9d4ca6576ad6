import ZydecoDb.Document.WireReads

namespace ZydecoDb

open Lib Lib.Reader Wire

namespace DocPutPayload

def Fits (p : DocPutPayload) : Prop :=
  Short p.collection.bytes ∧ Short p.docId ∧ Short p.body

theorem reads (p : DocPutPayload) (h : p.Fits) : ReadsLast reader p.encode p := by
  obtain ⟨hcollection, hdocId, hbody⟩ := h
  unfold reader encode
  refine (reads_lpString hcollection).bindLast ((Wire.reads_lp hdocId).bindLast
    ((Wire.reads_lp hbody).bindLast ((reads_optU8 _).bindLast
      ((reads_relaxedFlags p.relaxed).bindLast ?_))))
  rw [relaxedFlags_bit]
  exact (readsLast_optU64 p.expiresAt).map (DocPutPayload.mk _ _ _ _)

end DocPutPayload

namespace DocDelPayload

def Fits (p : DocDelPayload) : Prop := Short p.collection.bytes ∧ Short p.docId

theorem reads (p : DocDelPayload) (h : p.Fits) : Reads reader p.encode p :=
  (reads_collectionAndBytes h.1 h.2).map fun r => DocDelPayload.mk r.1 r.2

end DocDelPayload

namespace IndexDefPayload

def Fits (p : IndexDefPayload) : Prop :=
  Short p.collection.bytes ∧ Short p.indexName.bytes ∧ p.fields.length ≤ maxIndexFields ∧
    ∀ f ∈ p.fields, Short f.bytes

/-- What comes back: a definition without a descending field, or with flags that are not one for
each field, is one whose fields are all ascending. -/
def explicit (p : IndexDefPayload) : IndexDefPayload :=
  { p with directions :=
      if p.writeDirs then p.directions else List.replicate p.fields.length true }

theorem readsLast_directions {dirs : List Bool} {count : Nat} (h : dirs.length = count) :
    ReadsLast (directionsReader count) ([indexDirTag] ++ dirs.map putBool) dirs := by
  refine readsLast_remaining (readsLast_peek ?_)
  have hlen : count < ([indexDirTag] ++ dirs.map putBool).length := by
    simp only [List.length_append, List.length_map, List.length_singleton]
    omega
  rw [if_pos ⟨hlen, rfl⟩]
  have hflags := reads_list (p := bool) (fun d => [putBool d]) fun d (_ : d ∈ dirs) => reads_bool d
  rw [h] at hflags
  rw [← List.map_eq_flatMap] at hflags
  exact (Wire.reads_u8 indexDirTag).bindLast hflags.last

theorem readsLast_directions_nil (count : Nat) :
    ReadsLast (directionsReader count) [] (List.replicate count true) := by
  refine readsLast_remaining (readsLast_peek ?_)
  rw [if_neg (by simp)]
  exact (Reads.pure _).last

theorem readsLast_trailers (p : IndexDefPayload) :
    ReadsLast (do
        let expireAfterSeconds ← optU64
        let directions ← directionsReader p.fields.length
        pure (⟨p.collection, p.indexName, p.fields, p.unique, expireAfterSeconds, directions⟩ :
          IndexDefPayload))
      ((if p.expireAfterSeconds ≠ 0 ∨ p.writeDirs then toBe 8 p.expireAfterSeconds.toNat else []) ++
        if p.writeDirs then [indexDirTag] ++ p.directions.map putBool else []) p.explicit := by
  unfold explicit
  cases hw : p.writeDirs with
  | true =>
    have hlen : p.directions.length = p.fields.length := by
      rw [writeDirs, Bool.and_eq_true, decide_eq_true_iff] at hw
      exact hw.2
    rw [if_pos (Or.inr rfl), if_pos rfl, if_pos rfl]
    exact (reads_optU64 _).bindLast ((readsLast_directions hlen).map (IndexDefPayload.mk _ _ _ _ _))
  | false =>
    have hdirs := (readsLast_directions_nil p.fields.length).map
      (IndexDefPayload.mk p.collection p.indexName p.fields p.unique p.expireAfterSeconds)
    simp only [Bool.false_eq_true, or_false, if_false]
    by_cases hexpire : p.expireAfterSeconds = 0
    · rw [if_neg (not_not.mpr hexpire), List.append_nil]
      rw [hexpire] at hdirs ⊢
      exact readsLast_optU64_nil.bindNil hdirs
    · rw [if_pos hexpire]
      exact (reads_optU64 _).bindLast hdirs

theorem reads (p : IndexDefPayload) (h : p.Fits) : ReadsLast reader p.encode p.explicit := by
  obtain ⟨hcollection, hindexName, hcount, hfields⟩ := h
  unfold reader encode putFieldList
  rw [List.append_assoc (toBe 4 _)]
  exact (reads_lpString hcollection).bindLast ((reads_lpString hindexName).bindLast
    ((reads_bool p.unique).bindLast ((reads_countUpTo _ hcount (by decide)).bindLast
      ((reads_fields hfields).bindLast p.readsLast_trailers))))

end IndexDefPayload

namespace QueryPayload

def Fits : QueryPayload → Prop
  | .byId collection docId => Short collection.bytes ∧ Short docId
  | .indexRange collection indexName lo hi cursor _ _ =>
    Short collection.bytes ∧ Short indexName.bytes ∧ Short lo ∧ Short hi ∧ Short cursor

theorem readsLast_includeBodies (b : Bool) :
    ReadsLast includeBodiesReader (if b then [] else [0]) b := by
  refine readsLast_remaining ?_
  cases b with
  | true => exact (Reads.pure true).last
  | false => exact (reads_bool false).last

theorem reads (p : QueryPayload) (h : p.Fits) : ReadsLast reader p.encode p := by
  cases p with
  | byId collection docId =>
    refine (Wire.reads_u8 modeById).bindLast ?_
    exact ((reads_collectionAndBytes h.1 h.2).map fun r => QueryPayload.byId r.1 r.2).last
  | indexRange collection indexName lo hi cursor limit includeBodies =>
    obtain ⟨hcollection, hindexName, hlo, hhi, hcursor⟩ := h
    have hlimit : UInt32.ofNat limit.toNat = limit := UInt32.ofNat_toNat
    refine (Wire.reads_u8 modeIndexRange).bindLast ?_
    refine (reads_lpString hcollection).bindLast ((reads_lpString hindexName).bindLast
      ((reads_limit limit).bindLast ((Wire.reads_lp hlo).bindLast ((Wire.reads_lp hhi).bindLast
        ((Wire.reads_lp hcursor).bindLast ?_)))))
    rw [hlimit]
    exact (readsLast_includeBodies includeBodies).map
      (QueryPayload.indexRange collection indexName lo hi cursor limit)

end QueryPayload

def WireProjection.Fits : WireProjection → Prop
  | .none => True
  | .include fields | .exclude fields =>
    fields.length ≤ maxFieldList ∧ ∀ f ∈ fields, Short f.bytes

theorem WireProjection.reads (p : WireProjection) (h : p.Fits) : Reads reader p.encode p := by
  cases p with
  | none => exact (Wire.reads_u8 projNone).checked (Reads.pure _)
  | «include» fields =>
    refine (Wire.reads_u8 projInclude).bind ?_
    exact (reads_takeFieldList h.1 h.2).map WireProjection.include
  | exclude fields =>
    refine (Wire.reads_u8 projExclude).bind ?_
    exact (reads_takeFieldList h.1 h.2).map WireProjection.exclude

namespace FindPayload

def Fits (p : FindPayload) : Prop :=
  Short p.collection.bytes ∧ Short p.filter ∧ p.sort.length ≤ maxSortFields ∧
    (∀ s ∈ p.sort, Short s.1.bytes) ∧ p.projection.Fits ∧ Short p.cursor

theorem reads_sort {sort : List (Utf8String × Bool)} (h : ∀ s ∈ sort, Short s.1.bytes) :
    Reads (times sortReader sort.length) (sort.flatMap encodeSort) sort :=
  reads_list encodeSort fun s hs =>
    (reads_lpString (h s hs)).bind ((reads_bool s.2).map (Prod.mk s.1))

theorem reads (p : FindPayload) (h : p.Fits) : Reads reader p.encode p := by
  obtain ⟨hcollection, hfilter, hcount, hsort, hprojection, hcursor⟩ := h
  have hskip : UInt32.ofNat p.skip.toNat = p.skip := UInt32.ofNat_toNat
  have hlimit : UInt32.ofNat p.limit.toNat = p.limit := UInt32.ofNat_toNat
  unfold reader encode
  refine (reads_lpString hcollection).bind ((Wire.reads_lp hfilter).bind
    ((reads_countUpTo _ hcount (by decide)).bind ((reads_sort hsort).bind
      ((p.projection.reads hprojection).bind ((reads_limit p.skip).bind
        ((reads_limit p.limit).bind ?_))))))
  rw [hskip, hlimit]
  exact (Wire.reads_lp hcursor).map (FindPayload.mk _ _ _ _ _ _)

end FindPayload

namespace UpdatePayload

def Fits (p : UpdatePayload) : Prop :=
  Short p.collection.bytes ∧ Short p.filter ∧ Short p.update

theorem reads_flags (p : UpdatePayload) :
    Reads (checkWriteFlags p.flags (flagRelaxed ||| flagUpsert)) [] () := by
  unfold flags
  cases p.relaxed <;> cases p.upsert <;> exact Reads.pure ()

theorem flags_bits (p : UpdatePayload) :
    decide (p.flags &&& flagRelaxed ≠ 0) = p.relaxed ∧
      decide (p.flags &&& flagUpsert ≠ 0) = p.upsert := by
  unfold flags
  cases p.relaxed <;> cases p.upsert <;> exact ⟨rfl, rfl⟩

theorem reads (p : UpdatePayload) (h : p.Fits) : Reads reader p.encode p := by
  obtain ⟨hcollection, hfilter, hupdate⟩ := h
  unfold reader encode
  refine (reads_lpString hcollection).bind ((Wire.reads_lp hfilter).bind
    ((Wire.reads_lp hupdate).bind ((reads_bool p.multi).bind ((reads_optU8 p.flags).checked
      (p.reads_flags.bindNil ?_)))))
  rw [p.flags_bits.1, p.flags_bits.2]
  exact Reads.pure p

end UpdatePayload

namespace DeletePayload

def Fits (p : DeletePayload) : Prop := Short p.collection.bytes ∧ Short p.filter

theorem reads (p : DeletePayload) (h : p.Fits) : Reads reader p.encode p := by
  unfold reader encode
  refine (reads_lpString h.1).bind ((Wire.reads_lp h.2).bind ((reads_bool p.multi).bind
    ((reads_optU8 _).checked ((reads_relaxedFlags p.relaxed).bindNil ?_))))
  rw [relaxedFlags_bit]
  exact Reads.pure p

end DeletePayload

namespace CountPayload

def Fits : CountPayload → Prop
  | .count collection filter => Short collection.bytes ∧ Short filter
  | .distinct collection filter field =>
    Short collection.bytes ∧ Short filter ∧ Short field.bytes

theorem reads (p : CountPayload) (h : p.Fits) : Reads reader p.encode p := by
  cases p with
  | count collection filter =>
    refine (Wire.reads_u8 countModeCount).bind ?_
    exact (reads_collectionAndBytes h.1 h.2).map fun r => CountPayload.count r.1 r.2
  | distinct collection filter field =>
    refine (Wire.reads_u8 countModeDistinct).bind ?_
    exact (reads_lpString h.1).bind ((Wire.reads_lp h.2.1).bind
      ((reads_lpString h.2.2).map (CountPayload.distinct collection filter)))

end CountPayload

namespace AggregatePayload

def Fits (p : AggregatePayload) : Prop := Short p.collection.bytes ∧ Short p.pipeline

theorem reads (p : AggregatePayload) (h : p.Fits) : Reads reader p.encode p :=
  (reads_collectionAndBytes h.1 h.2).map fun r => AggregatePayload.mk r.1 r.2

end AggregatePayload

namespace WatchPayload

def Fits (p : WatchPayload) : Prop := Short p.collection.bytes ∧ Short p.resumeToken

theorem reads (p : WatchPayload) (h : p.Fits) : Reads reader p.encode p :=
  (reads_collectionAndBytes h.1 h.2).map fun r => WatchPayload.mk r.1 r.2

end WatchPayload

end ZydecoDb
