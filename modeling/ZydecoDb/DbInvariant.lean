import ZydecoDb.DbLog
import ZydecoDb.DbManifest

namespace ZydecoDb

open Lib EngineState

namespace Db

variable {crc : Bytes → UInt32} {db db' : Db} {cfg : CompactionConfig} {st : EngineState}

theorem entries_appendFailed (wal : Wal) (crc : Bytes → UInt32) (e : WalEntry) (n : Nat) :
    (wal.appendFailed crc e n).entries = wal.entries ∨
      (wal.appendFailed crc e n).entries = wal.entries ++ [e] := by
  by_cases hle : (e.encode crc).length ≤ n
  · right
    simp [Wal.entries, Wal.files, Wal.appendFailed, hle]
  · left
    simp [Wal.entries, Wal.files, Wal.appendFailed, hle]

section

variable (h : db.Logged crc)
include h

theorem Logged.write (hc : db.wal.Clean crc) {e : WalEntry} (hfit : e.Fits)
    {a : EngineAction} (he : a.walEntry db.engine.nextSeq = some e)
    (hs : db.engine.step cfg a = some st) :
    Logged crc { db with
      engine := st
      wal := db.wal.append crc e
      issued := db.issued ++ [e]
      accepted := db.accepted ++ [e] } := by
  obtain ⟨ho, hcommit⟩ := step_write_cases he hs
  obtain ⟨-, rfl⟩ := commit_cases hcommit
  have hseq := EngineAction.walEntry_seq he
  refine h.issue ho hseq (a.walEntry_pairs he) (h.sound.append hc hfit) rfl rfl
    (Or.inr (entries_append _ _ _)) rfl rfl (fun x hx => hx.append) rfl
    (Or.inr ⟨rfl, entries_append _ _ _, ?_⟩) rfl (le_max_left _ _) rfl rfl rfl rfl
  rw [hseq]
  exact le_max_right _ _

theorem Logged.writeFailed (hc : db.wal.Clean crc) {e : WalEntry}
    (hfit : e.Fits) {a : EngineAction} (he : a.walEntry db.engine.nextSeq = some e)
    (hs : db.engine.step cfg a = some st) (n : Nat) :
    Logged crc { db with
      engine := { db.engine with nextSeq := db.engine.nextSeq + 1 }
      wal := db.wal.appendFailed crc e n
      issued := db.issued ++ [e] } := by
  obtain ⟨ho, -⟩ := step_write_cases he hs
  exact h.issue ho (EngineAction.walEntry_seq he) (a.walEntry_pairs he)
    (h.sound.appendFailed hc hfit n) rfl rfl (entries_appendFailed _ _ _ _) rfl rfl
    (fun x hx => hx.appendFailed) rfl (Or.inl rfl) rfl le_rfl rfl rfl rfl rfl

theorem Logged.setWal {wal : Wal} (hsound : wal.Sound crc) (hids : wal.active.id = db.wal.active.id)
    (hsealed : wal.sealedFiles = db.wal.sealedFiles) (hentries : wal.entries = db.wal.entries)
    (hmax : wal.sealedSegmentMaxSeq = db.wal.sealedSegmentMaxSeq)
    (hfs : ∀ e ∈ wal.fsynced, e ∈ db.wal.fsynced ∨ e ∈ db.wal.entries ∧ wal.Keeps crc e)
    (hkeeps : ∀ x, db.wal.Keeps crc x → wal.Keeps crc x) :
    Logged crc { db with wal := wal } := by
  have hfiles : ∀ f ∈ wal.files, f ∈ db.wal.files ∨ f = wal.active := by
    simp only [Wal.mem_files, hsealed]
    tauto
  have hpos : ∀ f ∈ wal.files, 0 < f.id := by
    intro f hf
    rcases hfiles f hf with hf | rfl
    · exact h.id_pos f hf
    · exact hids ▸ h.id_pos db.wal.active (Wal.mem_files.mpr (Or.inr rfl))
  have hcov : ∀ {id n}, db.Covers id n → Covers { db with wal := wal } id n := by
    intro id n hc
    refine hc.frame hids.ge (fun f hf hle => ?_) fun x _ hx => hx
    rcases hfiles f hf with hf | rfl
    · exact hf
    · have hlt := hc.1
      omega
  refine ⟨hsound, hpos, hids ▸ h.id_lt, h.issued_lt, h.issued_asc, h.coherent, h.accepted_sub, ?_,
    fun e he => ?_, h.buffered, fun e he hlt => ?_, fun s hs => hcov (h.sealedMax s (hmax ▸ hs)),
    fun c d hf t ht => hcov (h.submitted c d hf t ht), hcov h.unlinkable, fun e he hacc => ?_⟩
  · rw [hentries]
    exact h.logged_sub
  · rcases hfs e he with he | ⟨he, -⟩
    · exact h.fsynced_sub e he
    · exact h.logged_sub.subset he
  · rw [hentries]
    exact h.kept e he hlt
  · rcases hfs e he with he | ⟨-, hk⟩
    · exact (h.fsynced e he hacc).imp_left (hkeeps e)
    · exact Or.inl hk

theorem Logged.sync : Logged crc { db with wal := db.wal.sync } := by
  refine h.setWal h.sound.sync rfl rfl ?_ rfl (fun e he => ?_) fun x hx => h.sound.keeps_of_sync hx
  · simp [Wal.entries, Wal.files, Wal.sync]
  · rcases List.mem_append.mp he with he | he
    · exact Or.inl he
    · refine Or.inr ⟨List.mem_flatMap.mpr ⟨db.wal.active, Wal.mem_files.mpr (Or.inr rfl), he⟩, ?_⟩
      exact h.sound.keeps_sync he

theorem Logged.rollEnd : Logged crc { db with wal := db.wal.rollEnd } := by
  refine h.setWal h.sound.rollEnd rfl rfl ?_ rfl (fun e he => Or.inl he) fun x hx => hx.rollEnd
  simp [Wal.entries, Wal.files, Wal.rollEnd]

/-- A roll seals a segment whose bytes are all fsynced. -/
theorem Logged.rollBegin (hc : db.wal.Clean crc)
    (hd : db.wal.active.bytes.length ≤ db.wal.active.synced)
    (hlt : db.wal.active.id + 1 < 256 ^ 8) (first : Nat) :
    Logged crc { db with wal := db.wal.rollBegin db.engine.bufferedSeq first } := by
  have hfiles : (db.wal.rollBegin db.engine.bufferedSeq first).files =
      db.wal.files ++ [⟨db.wal.active.id + 1, segmentHeader first, 0, []⟩] := rfl
  have hentries : (db.wal.rollBegin db.engine.bufferedSeq first).entries = db.wal.entries := by
    rw [Wal.entries, hfiles, List.flatMap_append, List.flatMap_singleton, List.append_nil]
    rfl
  have hcov : ∀ {id n}, db.Covers id n →
      Covers { db with wal := db.wal.rollBegin db.engine.bufferedSeq first } id n := by
    intro id n hcov
    refine hcov.frame (Nat.le_succ _) (fun f hf hle => ?_) fun x _ hx => hx
    have hf' : f ∈ db.wal.files ++ [⟨db.wal.active.id + 1, segmentHeader first, 0, []⟩] := hf
    rcases List.mem_append.mp hf' with hf' | hf'
    · exact hf'
    · rw [List.mem_singleton.mp hf'] at hle
      have hlt := hcov.1
      simp only at hle
      omega
  refine ⟨h.sound.rollBegin hc hd _ _, fun f hf => ?_, hlt, h.issued_lt, h.issued_asc, h.coherent,
    h.accepted_sub, hentries ▸ h.logged_sub, h.fsynced_sub, h.buffered, fun e he hlt' => ?_,
    fun s hs => ?_, fun c d hf t ht => hcov (h.submitted c d hf t ht), hcov h.unlinkable,
    fun e he hacc => (h.fsynced e he hacc).imp_left fun hk => hk.rollBegin _ _⟩
  · have hf' : f ∈ db.wal.files ++ [⟨db.wal.active.id + 1, segmentHeader first, 0, []⟩] := hf
    rcases List.mem_append.mp hf' with hf' | hf'
    · exact h.id_pos f hf'
    · rw [List.mem_singleton.mp hf']
      exact Nat.succ_pos _
  · rw [hentries]
    exact h.kept e he hlt'
  · rcases List.mem_append.mp hs with hs | hs
    · exact hcov (h.sealedMax s hs)
    · rw [List.mem_singleton.mp hs]
      exact ⟨Nat.lt_succ_self _, fun f _ _ e _ hacc => h.buffered e hacc⟩

/-- A segment is unlinked only once the tables cover its records. -/
theorem Logged.unlink {id : Nat} (hid : id ≤ db.unlinkUpTo) :
    Logged crc { db with wal := db.wal.unlink id } := by
  have hsub : (db.wal.unlink id).files.Sublist db.wal.files :=
    List.filter_sublist.append (List.Sublist.refl _)
  have hentries : (db.wal.unlink id).entries.Sublist db.wal.entries := hsub.flatMap _
  have hcov : ∀ {id' n}, db.Covers id' n → Covers { db with wal := db.wal.unlink id } id' n :=
    fun hc => hc.frame le_rfl (fun f hf _ => hsub.subset hf) fun x _ hx => hx
  have hcovered : ∀ f ∈ db.wal.files, f.id = id → ∀ e ∈ f.logged, e ∈ db.accepted →
      e.seq ≤ sstableMaxSeq db.engine.sstables := fun f hf he =>
    h.unlinkable.2 f hf (he.trans_le hid)
  have hfile : ∀ f ∈ db.wal.files, f.id ≠ id → f ∈ (db.wal.unlink id).files := by
    intro f hf hne
    rcases Wal.mem_files.mp hf with hf | rfl
    · exact Wal.mem_files.mpr (Or.inl (List.mem_filter.mpr ⟨hf, decide_eq_true hne⟩))
    · exact Wal.mem_files.mpr (Or.inr rfl)
  refine ⟨h.sound.unlink id, fun f hf => h.id_pos f (hsub.subset hf), h.id_lt, h.issued_lt,
    h.issued_asc, h.coherent, h.accepted_sub, hentries.trans h.logged_sub, h.fsynced_sub,
    h.buffered, fun e he hlt => ?_, fun s hs => hcov (h.sealedMax s (List.mem_filter.mp hs).1),
    fun c d hf t ht => hcov (h.submitted c d hf t ht), hcov h.unlinkable, fun e he hacc => ?_⟩
  · obtain ⟨f, hf, hef⟩ := List.mem_flatMap.mp (h.kept e he hlt)
    refine List.mem_flatMap.mpr ⟨f, hfile f hf fun heq => ?_, hef⟩
    exact absurd (hcovered f hf heq e hef he) (not_le.mpr hlt)
  · rcases h.fsynced e he hacc with (⟨f, hf, hef⟩ | hk) | hle
    · by_cases heq : f.id = id
      · exact Or.inr (hcovered f (Wal.mem_files.mpr (Or.inl hf)) heq e hef hacc)
      · exact Or.inl (Or.inl ⟨f, List.mem_filter.mpr ⟨hf, decide_eq_true heq⟩, hef⟩)
    · exact Or.inl (Or.inr hk)
    · exact Or.inr hle

end

end Db

end ZydecoDb
