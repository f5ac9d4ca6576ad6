import ZydecoDb.FlushedJobs
import ZydecoDb.WalCrash

namespace ZydecoDb

open Lib EngineState

namespace Db

def Covers (db : Db) (id maxSeq : Nat) : Prop :=
  id < db.wal.active.id ∧ ∀ f ∈ db.wal.files, f.id ≤ id → ∀ e ∈ f.logged, e ∈ db.accepted →
    e.seq ≤ maxSeq

/-- The WAL keeps every accepted write the tables do not hold yet: what is sealed, submitted for
unlinking or unlinked is covered by a table. -/
structure Logged (crc : Bytes → UInt32) (db : Db) : Prop where
  sound : db.wal.Sound crc
  id_pos : ∀ f ∈ db.wal.files, 0 < f.id
  id_lt : db.wal.active.id < 256 ^ 8
  issued_lt : ∀ e ∈ db.issued, e.seq < db.engine.nextSeq
  issued_asc : db.issued.Pairwise fun e e' => e.seq < e'.seq
  coherent : Coherent (acceptedVersions db.issued)
  accepted_sub : db.accepted.Sublist db.issued
  logged_sub : db.wal.entries.Sublist db.issued
  fsynced_sub : ∀ e ∈ db.wal.fsynced, e ∈ db.issued
  buffered : ∀ e ∈ db.accepted, e.seq ≤ db.engine.bufferedSeq
  kept : ∀ e ∈ db.accepted, sstableMaxSeq db.engine.sstables < e.seq → e ∈ db.wal.entries
  sealedMax : ∀ s ∈ db.wal.sealedSegmentMaxSeq, db.Covers s.1 s.2
  submitted : ∀ covered durable, db.flushApply = some (covered, durable) →
    ∀ t ∈ db.engine.flushed, db.Covers covered t.metadata.maxSeq
  unlinkable : db.Covers db.unlinkUpTo (sstableMaxSeq db.engine.sstables)
  fsynced : ∀ e ∈ db.wal.fsynced, e ∈ db.accepted →
    db.wal.Keeps crc e ∨ e.seq ≤ sstableMaxSeq db.engine.sstables

variable {crc : Bytes → UInt32} {db db' : Db} {cfg : CompactionConfig} {st : EngineState}
  {id maxSeq : Nat}

theorem Covers.mono (h : db.Covers id maxSeq) {n : Nat} (hn : maxSeq ≤ n) : db.Covers id n :=
  ⟨h.1, fun f hf hid e he ha => (h.2 f hf hid e he ha).trans hn⟩

theorem Covers.frame (h : db.Covers id maxSeq) (hid : db.wal.active.id ≤ db'.wal.active.id)
    (hf : ∀ f ∈ db'.wal.files, f.id ≤ id → f ∈ db.wal.files)
    (ha : ∀ e ∈ db.wal.entries, e ∈ db'.accepted → e ∈ db.accepted) : db'.Covers id maxSeq := by
  refine ⟨h.1.trans_le hid, fun f hf' hle e he hacc => ?_⟩
  have hmem := hf f hf' hle
  exact h.2 f hmem hle e he (ha e (List.mem_flatMap.mpr ⟨f, hmem, he⟩) hacc)

theorem logged_init : Db.init.Logged crc where
  sound := Wal.sound_init
  id_pos := by simp [init, Wal.init, Wal.files]
  id_lt := by simp [init, Wal.init]
  issued_lt := by simp [init]
  issued_asc := List.Pairwise.nil
  coherent := by simp [init, acceptedVersions, Lib.Coherent]
  accepted_sub := List.Sublist.refl _
  logged_sub := by simp [init, Wal.init, Wal.entries, Wal.files]
  fsynced_sub := by simp [init, Wal.init]
  buffered := by simp [init]
  kept := by simp [init]
  sealedMax := by simp [init, Wal.init]
  submitted := by simp [init]
  unlinkable := ⟨by simp [init, Wal.init], by simp [init]⟩
  fsynced := by simp [init, Wal.init]

theorem Logged.frame (h : db.Logged crc) (hw : db'.wal = db.wal) (hi : db'.issued = db.issued)
    (ha : db'.accepted = db.accepted) (hn : db.engine.nextSeq ≤ db'.engine.nextSeq)
    (hb : db.engine.bufferedSeq ≤ db'.engine.bufferedSeq)
    (hm : sstableMaxSeq db.engine.sstables ≤ sstableMaxSeq db'.engine.sstables)
    (hs : ∀ covered durable, db'.flushApply = some (covered, durable) →
      ∀ t ∈ db'.engine.flushed, db.Covers covered t.metadata.maxSeq)
    (hu : db.Covers db'.unlinkUpTo (sstableMaxSeq db'.engine.sstables)) : db'.Logged crc := by
  have hcov : ∀ {id n}, db.Covers id n → db'.Covers id n := fun hc =>
    hc.frame (by rw [hw]) (fun f hf _ => hw ▸ hf) fun e _ he => ha ▸ he
  refine ⟨hw ▸ h.sound, hw ▸ h.id_pos, hw ▸ h.id_lt, fun e he => ?_, hi ▸ h.issued_asc,
    hi ▸ h.coherent, ?_, ?_, ?_, fun e he => ?_, fun e he hlt => ?_, fun s hs' => ?_,
    fun c d hf t ht => hcov (hs c d hf t ht), hcov hu, fun e he hacc => ?_⟩
  · exact (h.issued_lt e (hi ▸ he)).trans_le hn
  · rw [ha, hi]
    exact h.accepted_sub
  · rw [hw, hi]
    exact h.logged_sub
  · rw [hw, hi]
    exact h.fsynced_sub
  · exact (h.buffered e (ha ▸ he)).trans hb
  · rw [hw]
    exact h.kept e (ha ▸ he) (hm.trans_lt hlt)
  · exact hcov (h.sealedMax s (hw ▸ hs'))
  · rw [hw] at he ⊢
    exact (h.fsynced e he (ha ▸ hacc)).imp_right fun hle => hle.trans hm

theorem walSegmentsCovered_cases (wal : Wal) (maxSeq : Nat) : wal.walSegmentsCovered maxSeq = 0 ∨
    ∃ s ∈ wal.sealedSegmentMaxSeq, wal.walSegmentsCovered maxSeq = s.1 ∧ s.2 ≤ maxSeq := by
  unfold Wal.walSegmentsCovered
  rcases foldl_max_mem ((wal.sealedSegmentMaxSeq.filter fun s =>
    s.1 < wal.active.id ∧ s.2 ≤ maxSeq).map Prod.fst) 0 with h | h
  · exact Or.inl h
  · obtain ⟨s, hs, he⟩ := List.mem_map.mp h
    obtain ⟨hmem, hp⟩ := List.mem_filter.mp hs
    simp only [decide_eq_true_eq] at hp
    exact Or.inr ⟨s, hmem, he.symm, hp.2⟩

theorem Logged.covers_covered (h : db.Logged crc) (maxSeq : Nat) :
    db.Covers (db.wal.walSegmentsCovered maxSeq) maxSeq := by
  rcases walSegmentsCovered_cases db.wal maxSeq with h0 | ⟨s, hs, he, hle⟩
  · rw [h0]
    refine ⟨h.id_pos _ (Wal.mem_files.mpr (Or.inr rfl)), fun f hf hid => ?_⟩
    have hpos := h.id_pos f hf
    omega
  · rw [he]
    exact (h.sealedMax s hs).mono hle

theorem Logged.flushSubmit (h : db.Logged crc) {t : LoadedSstable}
    (ht : db.engine.flushed = some t) :
    Logged crc { db with
      flushApply := some (db.wal.walSegmentsCovered t.metadata.maxSeq, false) } := by
  refine h.frame rfl rfl rfl le_rfl le_rfl le_rfl (fun c d hf u hu => ?_) h.unlinkable
  cases Option.some.inj hf
  cases Option.some.inj (ht.symm.trans hu)
  exact h.covers_covered _

theorem entries_append (wal : Wal) (crc : Bytes → UInt32) (e : WalEntry) :
    (wal.append crc e).entries = wal.entries ++ [e] := by
  simp [Wal.entries, Wal.files, Wal.append]

/-- A write is issued under the next number, whether or not its record gets into the log. -/
theorem Logged.issue (h : db.Logged crc) {e : WalEntry} {ops : List BatchOp} (ho : ValidOps ops)
    (hseq : e.seq = db.engine.nextSeq)
    (hpairs : e.intoMemtablePairs = ops.map (BatchOp.version db.engine.nextSeq))
    (hsound : db'.wal.Sound crc) (hsealed : db'.wal.sealedFiles = db.wal.sealedFiles)
    (hid : db'.wal.active.id = db.wal.active.id)
    (hentries : db'.wal.entries = db.wal.entries ∨ db'.wal.entries = db.wal.entries ++ [e])
    (hfs : db'.wal.fsynced = db.wal.fsynced)
    (hmax : db'.wal.sealedSegmentMaxSeq = db.wal.sealedSegmentMaxSeq)
    (hkeeps : ∀ x, db.wal.Keeps crc x → db'.wal.Keeps crc x)
    (hi : db'.issued = db.issued ++ [e])
    (hacc : db'.accepted = db.accepted ∨ db'.accepted = db.accepted ++ [e] ∧
      db'.wal.entries = db.wal.entries ++ [e] ∧ e.seq ≤ db'.engine.bufferedSeq)
    (hn : db'.engine.nextSeq = db.engine.nextSeq + 1)
    (hb : db.engine.bufferedSeq ≤ db'.engine.bufferedSeq)
    (hs : db'.engine.sstables = db.engine.sstables) (hfl : db'.engine.flushed = db.engine.flushed)
    (hfa : db'.flushApply = db.flushApply) (hu : db'.unlinkUpTo = db.unlinkUpTo) :
    db'.Logged crc := by
  have hold : ∀ x ∈ db.issued, x ≠ e := fun x hx he => by
    have hlt := h.issued_lt x hx
    rw [he] at hlt
    omega
  have haccepted : ∀ x ∈ db.issued, x ∈ db'.accepted → x ∈ db.accepted := by
    intro x hx hxa
    rcases hacc with hacc | ⟨hacc, -, -⟩
    · exact hacc ▸ hxa
    · rw [hacc] at hxa
      rcases List.mem_append.mp hxa with hxa | hxa
      · exact hxa
      · exact absurd (List.mem_singleton.mp hxa) (hold x hx)
  have hcov : ∀ {id n}, db.Covers id n → db'.Covers id n := by
    intro id n hc
    refine hc.frame hid.ge (fun f hf hle => ?_) fun x hx => haccepted x (h.logged_sub.subset hx)
    rcases Wal.mem_files.mp hf with hf | rfl
    · exact Wal.mem_files.mpr (Or.inl (hsealed ▸ hf))
    · have hlt := hc.1
      omega
  have hsub : ∀ x ∈ db.wal.entries, x ∈ db'.wal.entries := by
    intro x hx
    rcases hentries with he | he
    · exact he ▸ hx
    · rw [he]
      exact List.mem_append_left _ hx
  refine ⟨hsound, fun f hf => ?_, hid ▸ h.id_lt, fun x hx => ?_, ?_, ?_, ?_, ?_, fun x hx => ?_,
    fun x hx => ?_, fun x hx hlt => ?_, fun s hs' => hcov (h.sealedMax s (hmax ▸ hs')),
    fun c d hf t ht => hcov (h.submitted c d (hfa ▸ hf) t (hfl ▸ ht)), ?_, fun x hx hxa => ?_⟩
  · rcases Wal.mem_files.mp hf with hf | rfl
    · exact h.id_pos f (Wal.mem_files.mpr (Or.inl (hsealed ▸ hf)))
    · exact hid ▸ h.id_pos _ (Wal.mem_files.mpr (Or.inr rfl))
  · rw [hi] at hx
    rw [hn]
    rcases List.mem_append.mp hx with hx | hx
    · exact Nat.lt_succ_of_lt (h.issued_lt x hx)
    · rw [List.mem_singleton.mp hx, hseq]
      exact Nat.lt_succ_self _
  · rw [hi, List.pairwise_append]
    refine ⟨h.issued_asc, List.pairwise_singleton _ _, fun x hx y hy => ?_⟩
    rw [List.mem_singleton.mp hy, hseq]
    exact h.issued_lt x hx
  · have hvers : acceptedVersions db'.issued =
        acceptedVersions db.issued ++ ops.map (BatchOp.version db.engine.nextSeq) := by
      rw [hi, acceptedVersions_append, ← hpairs]
      simp [acceptedVersions]
    rw [hvers]
    refine coherent_snoc h.coherent (fun v hv => ?_) ho
    obtain ⟨x, hx, hvx⟩ := List.mem_flatMap.mp hv
    rw [WalEntry.seq_of_mem_pairs hvx]
    exact h.issued_lt x hx
  · rw [hi]
    rcases hacc with hacc | ⟨hacc, -, -⟩
    · rw [hacc]
      exact h.accepted_sub.trans (List.sublist_append_left _ _)
    · rw [hacc]
      exact h.accepted_sub.append (List.Sublist.refl _)
  · rw [hi]
    rcases hentries with he | he
    · rw [he]
      exact h.logged_sub.trans (List.sublist_append_left _ _)
    · rw [he]
      exact h.logged_sub.append (List.Sublist.refl _)
  · rw [hi]
    exact List.mem_append_left _ (h.fsynced_sub x (hfs ▸ hx))
  · rcases hacc with hacc | ⟨hacc, -, hle⟩
    · exact (h.buffered x (hacc ▸ hx)).trans hb
    · rw [hacc] at hx
      rcases List.mem_append.mp hx with hx | hx
      · exact (h.buffered x hx).trans hb
      · exact List.mem_singleton.mp hx ▸ hle
  · rw [hs] at hlt
    rcases hacc with hacc | ⟨hacc, he, -⟩
    · exact hsub x (h.kept x (hacc ▸ hx) hlt)
    · rw [hacc] at hx
      rcases List.mem_append.mp hx with hx | hx
      · exact hsub x (h.kept x hx hlt)
      · rw [he]
        exact List.mem_append_right _ hx
  · rw [hu, hs]
    exact hcov h.unlinkable
  · rw [hfs] at hx
    rw [hs]
    exact (h.fsynced x hx (haccepted x (h.fsynced_sub x hx) hxa)).imp_left (hkeeps x)

end Db

end ZydecoDb
