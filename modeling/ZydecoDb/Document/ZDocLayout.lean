import ZydecoDb.Document.ZDoc

namespace ZydecoDb

open Lib

namespace ZDocBuilder

def appender (b out : Bytes) : Bytes := out ++ b

def arrayLayout (bs : List Bytes) : Bytes :=
  typeArray :: (toLe 4 (9 + 4 * bs.length + bs.flatten.length) ++ (toLe 4 bs.length ++
    (offsetTable (runningOffsets (9 + 4 * bs.length) bs) ++ bs.flatten)))

theorem writeItems_appenders {start : Nat} (bs : List Bytes) {out : Bytes} (h : start ≤ out.length) :
    writeItems start (bs.map appender) out =
      (out ++ bs.flatten, runningOffsets (out.length - start) bs) := by
  induction bs generalizing out with
  | nil => simp [writeItems, runningOffsets]
  | cons b bs ih =>
    have hlen : (appender b out).length = out.length + b.length := List.length_append
    have hnext : out.length + b.length - start = out.length - start + b.length := by omega
    rw [List.map_cons, writeItems, ih (by omega), hlen, hnext]
    simp [runningOffsets, appender]

theorem writeArray_appenders (bs : List Bytes) (out : Bytes) :
    writeArray (bs.map appender) out = out ++ arrayLayout bs := by
  set head := typeArray :: (toLe 4 0 ++ toLe 4 bs.length)
  set body := offsetTable (runningOffsets (9 + 4 * bs.length) bs) ++ bs.flatten
  have hhead : (out ++ head).length = out.length + 9 := by simp [head]
  have hspace : (out ++ head ++ List.replicate (bs.length * 4) 0).length - out.length =
      9 + 4 * bs.length := by
    rw [List.length_append, hhead, List.length_replicate]
    omega
  have hzero : (List.replicate (bs.length * 4) (0 : UInt8)).length =
      4 * (runningOffsets (9 + 4 * bs.length) bs).length := by
    rw [List.length_replicate, length_runningOffsets]
    omega
  have hstart : out.length ≤ (out ++ head ++ List.replicate (bs.length * 4) 0).length := by
    rw [List.length_append, hhead]
    omega
  simp only [writeArray, List.length_map]
  rw [writeItems_appenders bs hstart, hspace, List.append_assoc, backfill_append rfl hzero]
  have htotal : (out ++ head ++ body).length - out.length = 9 + 4 * bs.length + bs.flatten.length := by
    rw [List.length_append, hhead, List.length_append, length_offsetTable, length_runningOffsets]
    omega
  rw [htotal]
  have hsplit : out ++ head ++ body =
      (out ++ [typeArray]) ++ (toLe 4 0 ++ (toLe 4 bs.length ++ body)) := by
    simp [head]
  rw [hsplit, patch_append (by simp) (by simp)]
  simp [arrayLayout, body]

def entryLayout (m : Bytes × Bytes) : Bytes := toLe 4 m.1.length ++ (m.1 ++ m.2)

def valOffsets : Nat → List (Bytes × Bytes) → List Nat
  | _, [] => []
  | base, m :: ms => (base + 4 + m.1.length) :: valOffsets (base + (entryLayout m).length) ms

@[simp] theorem length_valOffsets (base : Nat) (ms : List (Bytes × Bytes)) :
    (valOffsets base ms).length = ms.length := by
  induction ms generalizing base with
  | nil => rfl
  | cons m ms ih => simp [valOffsets, ih]

def keyOffsets (base : Nat) (ms : List (Bytes × Bytes)) : List Nat :=
  runningOffsets base (ms.map entryLayout)

@[simp] theorem length_keyOffsets (base : Nat) (ms : List (Bytes × Bytes)) :
    (keyOffsets base ms).length = ms.length := by
  simp [keyOffsets]

def objectLayout (ms : List (Bytes × Bytes)) : Bytes :=
  typeObject :: (toLe 4 (9 + 8 * ms.length + (ms.flatMap entryLayout).length) ++
    (toLe 4 ms.length ++ (offsetTable (keyOffsets (9 + 8 * ms.length) ms) ++
      (offsetTable (valOffsets (9 + 8 * ms.length) ms) ++ ms.flatMap entryLayout))))

def entryAppender (m : Bytes × Bytes) : Bytes × (Bytes → Bytes) := (m.1, appender m.2)

theorem writeEntries_appenders {start : Nat} (ms : List (Bytes × Bytes)) {out : Bytes}
    (h : start ≤ out.length) :
    writeEntries start (ms.map entryAppender) out =
      (out ++ ms.flatMap entryLayout, keyOffsets (out.length - start) ms,
        valOffsets (out.length - start) ms) := by
  induction ms generalizing out with
  | nil => simp [writeEntries, keyOffsets, runningOffsets, valOffsets]
  | cons m ms ih =>
    have hkey : (out ++ (toLe 4 m.1.length ++ m.1)).length = out.length + (4 + m.1.length) := by
      simp
    have hentry : (appender m.2 (out ++ (toLe 4 m.1.length ++ m.1))).length =
        out.length + (entryLayout m).length := by
      simp [appender, entryLayout]
    have hnext : out.length + (entryLayout m).length - start =
        out.length - start + (entryLayout m).length := by omega
    have hval : out.length + (4 + m.1.length) - start = out.length - start + 4 + m.1.length := by
      omega
    rw [List.map_cons, entryAppender, writeEntries, ih (by omega), hentry, hnext, hkey, hval]
    simp [keyOffsets, runningOffsets, valOffsets, appender, entryLayout]

theorem insertionSort_entryAppender (ms : List (Bytes × Bytes)) :
    (ms.map entryAppender).insertionSort (fun a b => a.1 ≤ b.1) =
      (ms.insertionSort fun a b => a.1 ≤ b.1).map entryAppender :=
  (List.map_insertionSort (fun a b : Bytes × Bytes => a.1 ≤ b.1)
    (fun a b : Bytes × (Bytes → Bytes) => a.1 ≤ b.1) entryAppender ms fun _ _ _ _ => Iff.rfl).symm

theorem writeObject_appenders (ms : List (Bytes × Bytes)) (out : Bytes) :
    writeObject (ms.map entryAppender) out =
      out ++ objectLayout (ms.insertionSort fun a b => a.1 ≤ b.1) := by
  have hsorted : (ms.insertionSort fun a b => a.1 ≤ b.1).length = ms.length :=
    List.length_insertionSort _ _
  simp only [writeObject, insertionSort_entryAppender, List.length_map]
  rw [← hsorted]
  generalize (ms.insertionSort fun a b => a.1 ≤ b.1) = ms
  set head := typeObject :: (toLe 4 0 ++ toLe 4 ms.length)
  set keys := offsetTable (keyOffsets (9 + 8 * ms.length) ms)
  set vals := offsetTable (valOffsets (9 + 8 * ms.length) ms)
  have hhead : (out ++ head).length = out.length + 9 := by simp [head]
  have hzero : (List.replicate (ms.length * 4) (0 : UInt8)).length = 4 * ms.length := by
    rw [List.length_replicate]
    omega
  have hspace : (out ++ head ++ List.replicate (ms.length * 4) 0 ++
      List.replicate (ms.length * 4) 0).length = out.length + (9 + 8 * ms.length) := by
    rw [List.length_append, List.length_append, hhead, hzero]
    omega
  have hbase : out.length + (9 + 8 * ms.length) - out.length = 9 + 8 * ms.length := by omega
  rw [writeEntries_appenders ms (by omega), hspace, hbase]
  have hkeys := backfill_append (a := out ++ head)
    (b := List.replicate (ms.length * 4) 0 ++ ms.flatMap entryLayout) rfl
    (hzero.trans (by rw [length_keyOffsets (9 + 8 * ms.length) ms]))
  have hvals := backfill_append (a := out ++ head ++ keys) (b := ms.flatMap entryLayout) rfl
    (hzero.trans (by rw [length_valOffsets (9 + 8 * ms.length) ms]))
  have hpos : (out ++ head ++ List.replicate (ms.length * 4) 0).length =
      (out ++ head ++ keys).length := by
    simp only [List.length_append, hzero, keys, length_offsetTable, length_keyOffsets]
  simp only [List.append_assoc] at hkeys hvals hpos ⊢
  rw [hkeys, hpos, hvals]
  have htotal : (out ++ (head ++ (keys ++ (vals ++ ms.flatMap entryLayout)))).length - out.length =
      9 + 8 * ms.length + (ms.flatMap entryLayout).length := by
    simp only [head, keys, vals, List.length_append, List.length_cons, length_toLe,
      length_offsetTable, length_keyOffsets, length_valOffsets]
    omega
  have hsplit : out ++ (head ++ (keys ++ (vals ++ ms.flatMap entryLayout))) = (out ++ [typeObject]) ++
      (toLe 4 0 ++ (toLe 4 ms.length ++ (keys ++ (vals ++ ms.flatMap entryLayout)))) := by
    simp [head]
  rw [htotal, hsplit, patch_append (by simp) (by simp)]
  simp [objectLayout, keys, vals]

mutual

def encodeZDoc : Value → Bytes
  | .null => [typeNull]
  | .bool b => [if b then typeBoolTrue else typeBoolFalse]
  | .number n => writeNumber n
  | .string s => typeString :: (toLe 4 s.length ++ s)
  | .array items => arrayLayout (encodeItems items)
  | .object members => objectLayout ((encodeMembers members).insertionSort fun a b => a.1 ≤ b.1)

def encodeItems : List Value → List Bytes
  | [] => []
  | v :: items => encodeZDoc v :: encodeItems items

def encodeMembers : List (Bytes × Value) → List (Bytes × Bytes)
  | [] => []
  | (key, v) :: members => (key, encodeZDoc v) :: encodeMembers members

end

theorem encodeItems_eq (items : List Value) : encodeItems items = items.map encodeZDoc := by
  induction items with
  | nil => rfl
  | cons v items ih => rw [encodeItems, ih, List.map_cons]

theorem encodeMembers_eq (members : List (Bytes × Value)) :
    encodeMembers members = members.map fun m => (m.1, encodeZDoc m.2) := by
  induction members with
  | nil => rfl
  | cons m members ih => rw [encodeMembers, ih, List.map_cons]

mutual

theorem writeValue_eq : ∀ v : Value, writeValue v = appender (encodeZDoc v)
  | .null => rfl
  | .bool _ => rfl
  | .number _ => rfl
  | .string _ => rfl
  | .array items => by
    funext out
    rw [writeValue, itemWriters_eq items, writeArray_appenders]
    rfl
  | .object members => by
    funext out
    rw [writeValue, memberWriters_eq members, writeObject_appenders]
    rfl

theorem itemWriters_eq : ∀ items : List Value, itemWriters items = (encodeItems items).map appender
  | [] => rfl
  | v :: items => by
    rw [itemWriters, encodeItems, List.map_cons, writeValue_eq v, itemWriters_eq items]

theorem memberWriters_eq : ∀ members : List (Bytes × Value),
    memberWriters members = (encodeMembers members).map entryAppender
  | [] => rfl
  | (key, v) :: members => by
    rw [memberWriters, encodeMembers, List.map_cons, writeValue_eq v, memberWriters_eq members]
    rfl

end

/-- The builder with its back-patched offsets writes the layout. -/
theorem fromValue_eq (v : Value) : fromValue v = encodeZDoc v := by
  rw [fromValue, writeValue_eq]
  rfl

end ZDocBuilder

end ZydecoDb
