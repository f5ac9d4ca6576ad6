import ZydecoDb.Lib.ByteOrder
import ZydecoDb.Lib.Versions

namespace ZydecoDb

export Lib (Bytes)

def ksSystem : UInt8 := 0x00
def ksUser : UInt8 := 0x01

def maxKeyBytes : Nat := 64 * 1024
def maxValueBytes : Nat := 16 * 1024 * 1024
def maxBatchKeys : Nat := 1024
def sstableBlockSize : Nat := 16 * 1024
def walSegmentSize : Nat := 64 * 1024 * 1024
def u64Max : Nat := 2 ^ 64 - 1

inductive EngineError
  | invalidKey (message : String)
  | invalidValue (message : String)
  | io (message : String)
  | unsupportedFormat (message : String)
deriving DecidableEq, Repr

def validateKey (keyspace : UInt8) (empty size reserved : String) (key : Bytes) :
    Except EngineError Unit :=
  match key with
  | [] => .error (.invalidKey empty)
  | first :: _ =>
    if key.length > maxKeyBytes then
      .error (.invalidKey
        (size ++ toString key.length ++ " exceeds MAX_KEY_BYTES " ++ toString maxKeyBytes))
    else if first ≠ keyspace then .error (.invalidKey reserved)
    else .ok ()

def validateUserKey : Bytes → Except EngineError Unit :=
  validateKey ksUser "empty key" "key length " "reserved keyspace"

def validateSystemKey : Bytes → Except EngineError Unit :=
  validateKey ksSystem "empty system key" "system key length " "not a system key"

def validateValue (value : Bytes) : Except EngineError Unit :=
  if value.length > maxValueBytes then
    .error (.invalidValue
      ("value length " ++ toString value.length ++ " exceeds MAX_VALUE_BYTES " ++
        toString maxValueBytes))
  else .ok ()

inductive EntryKind
  | value
  | tombstone
deriving DecidableEq, Repr

def EntryKind.asU8 : EntryKind → UInt8
  | .value => 0x01
  | .tombstone => 0x02

def EntryKind.fromU8 : UInt8 → Option EntryKind
  | 0x01 => some .value
  | 0x02 => some .tombstone
  | _ => none

/-- A stored entry is built by `Entry::value` or by `Entry::tombstone`; no other pair of a value and
an expiry occurs. -/
inductive Entry
  | value (bytes : Bytes) (expiresAt : Option Nat)
  | tombstone
deriving DecidableEq, Repr

namespace Entry

def kind : Entry → EntryKind
  | .value _ _ => .value
  | .tombstone => .tombstone

def isTombstone : Entry → Bool
  | .value _ _ => false
  | .tombstone => true

def valueBytes : Entry → Bytes
  | .value bytes _ => bytes
  | .tombstone => []

def valueLen (e : Entry) : Nat := e.valueBytes.length

def isExpired (e : Entry) (nowMs : Nat) : Bool :=
  match e with
  | .value _ (some ts) => ts ≠ 0 && nowMs > ts
  | _ => false

def isLive (e : Entry) (nowMs : Nat) : Bool := !e.isTombstone && !e.isExpired nowMs

theorem isExpired_mono {e : Entry} {now later : Nat} (h : now ≤ later)
    (he : e.isExpired now = true) : e.isExpired later = true := by
  unfold isExpired at he ⊢
  split at he
  next ts =>
    simp only [Bool.and_eq_true, decide_eq_true_eq] at he ⊢
    exact ⟨he.1, by omega⟩
  next => simp at he

theorem isLive_antitone {e : Entry} {now later : Nat} (h : now ≤ later)
    (he : e.isLive now = false) : e.isLive later = false := by
  simp only [isLive, Bool.and_eq_false_iff, Bool.not_eq_false'] at he ⊢
  exact he.imp_right (isExpired_mono h)

end Entry

structure InternalKey where
  userKey : Bytes
  seq : Nat
  kind : EntryKind
deriving DecidableEq, Repr

def InternalKey.le (a b : InternalKey) : Prop :=
  a.userKey < b.userKey ∨ a.userKey = b.userKey ∧
    (b.seq < a.seq ∨ b.seq = a.seq ∧ a.kind.asU8 ≤ b.kind.asU8)

structure Version where
  userKey : Bytes
  seq : Nat
  entry : Entry
deriving DecidableEq, Repr

namespace Version

def internalKey (v : Version) : InternalKey := ⟨v.userKey, v.seq, v.entry.kind⟩

def le (a b : Version) : Prop := a.internalKey.le b.internalKey

instance : DecidableRel le := fun a b =>
  inferInstanceAs (Decidable (a.userKey < b.userKey ∨ a.userKey = b.userKey ∧
    (b.seq < a.seq ∨ b.seq = a.seq ∧ a.entry.kind.asU8 ≤ b.entry.kind.asU8)))

theorem le_iff {a b : Version} : le a b ↔ a.userKey < b.userKey ∨ a.userKey = b.userKey ∧
    (b.seq < a.seq ∨ b.seq = a.seq ∧ a.entry.kind.asU8 ≤ b.entry.kind.asU8) := Iff.rfl

instance : Std.Total le where
  total a b := by
    rw [le_iff, le_iff]
    rcases lt_trichotomy a.userKey b.userKey with h | h | h
    · exact Or.inl (Or.inl h)
    · rcases lt_trichotomy a.seq b.seq with hs | hs | hs
      · exact Or.inr (Or.inr ⟨h.symm, Or.inl hs⟩)
      · rcases le_total a.entry.kind.asU8 b.entry.kind.asU8 with hk | hk
        · exact Or.inl (Or.inr ⟨h, Or.inr ⟨hs.symm, hk⟩⟩)
        · exact Or.inr (Or.inr ⟨h.symm, Or.inr ⟨hs, hk⟩⟩)
      · exact Or.inl (Or.inr ⟨h, Or.inl hs⟩)
    · exact Or.inr (Or.inl h)

instance : IsTrans Version le where
  trans a b c hab hbc := by
    rw [le_iff] at *
    rcases hab with hab | ⟨hab, hab'⟩
    · rcases hbc with hbc | ⟨hbc, -⟩
      · exact Or.inl (hab.trans hbc)
      · exact Or.inl (hbc ▸ hab)
    · rcases hbc with hbc | ⟨hbc, hbc'⟩
      · exact Or.inl (hab ▸ hbc)
      · refine Or.inr ⟨hab.trans hbc, ?_⟩
        rcases hab' with hs | ⟨hs, hk⟩
        · rcases hbc' with ht | ⟨ht, -⟩
          · exact Or.inl (ht.trans hs)
          · exact Or.inl (ht ▸ hs)
        · rcases hbc' with ht | ⟨ht, hl⟩
          · exact Or.inl (hs ▸ ht)
          · exact Or.inr ⟨ht.trans hs, hk.trans hl⟩

theorem le_userKey {a b : Version} (h : le a b) : a.userKey ≤ b.userKey := by
  rcases h with h | ⟨h, -⟩
  · exact h.le
  · exact h.le

theorem le_seq {a b : Version} (h : le a b) (hk : a.userKey = b.userKey) : b.seq ≤ a.seq := by
  rcases h with h | ⟨-, h | ⟨h, -⟩⟩
  · exact absurd (show a.userKey < b.userKey from h) (hk ▸ lt_irrefl _)
  · exact Nat.le_of_lt h
  · exact Nat.le_of_eq h

end Version

abbrev newest (l : List Version) (k : Bytes) : Option Version :=
  Lib.newest Version.userKey Version.seq l k

abbrev newestAt (l : List Version) (k : Bytes) (s : Nat) : Option Version :=
  Lib.newestAt Version.userKey Version.seq l k s

abbrev Coherent (l : List Version) : Prop := Lib.Coherent Version.userKey Version.seq l

abbrev NewerThan (l m : List Version) : Prop := Lib.NewerThan Version.userKey Version.seq l m

def Version.resolve (v : Version) (nowMs : Nat) : Option (Bytes × Nat) :=
  if v.entry.isTombstone || v.entry.isExpired nowMs then none else some (v.entry.valueBytes, v.seq)

def outcome (v : Option Version) (nowMs : Nat) : Option (Bytes × Nat) :=
  v.bind fun v => v.resolve nowMs

def valueAt (v : Option Version) (nowMs : Nat) : Option Bytes := (outcome v nowMs).map Prod.fst

theorem valueAt_eq_some {v : Option Version} {nowMs : Nat} {b : Bytes} :
    valueAt v nowMs = some b ↔ ∃ seq, outcome v nowMs = some (b, seq) := by
  simp [valueAt]

end ZydecoDb
