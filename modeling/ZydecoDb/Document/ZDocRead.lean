import ZydecoDb.Document.ZDocLayout

namespace ZydecoDb

open Lib

/-- A number that is written without loss: a 64-bit signed integer in the form the parser keeps it in,
or a finite double. -/
def Number.Exact : Number → Prop
  | .posInt n => n.toNat < 2 ^ 63
  | .negInt n => n < 0
  | .float bits => f64IsFinite bits = true

/-- A JSON value whose numbers are as said: strings and keys are UTF-8, an object's keys are sorted
and distinct. -/
inductive Value.JsonWith (ok : Number → Prop) : Value → Prop
  | null : JsonWith ok .null
  | bool (b : Bool) : JsonWith ok (.bool b)
  | number {n : Number} (h : ok n) : JsonWith ok (.number n)
  | string {s : Bytes} (h : validUtf8 s = true) : JsonWith ok (.string s)
  | array {items : List Value} (h : ∀ v ∈ items, JsonWith ok v) : JsonWith ok (.array items)
  | object {members : List (Bytes × Value)} (keys : ∀ m ∈ members, validUtf8 m.1 = true)
      (sorted : members.Pairwise fun a b => a.1 < b.1) (h : ∀ m ∈ members, JsonWith ok m.2) :
      JsonWith ok (.object members)

abbrev Value.Storable (v : Value) : Prop := v.JsonWith Number.Exact

namespace ValueView

open ZDocBuilder

theorem utf8Slice_append {data a s b : Bytes} {lo hi : Nat} (hd : data = a ++ (s ++ b))
    (hlo : lo = a.length) (hhi : hi = a.length + s.length) (hs : validUtf8 s = true) :
    utf8Slice data lo hi = some s := by
  subst hd hlo hhi
  have hfit : a.length + s.length ≤ (a ++ (s ++ b)).length := by
    simp only [List.length_append]
    omega
  have hwidth : a.length + s.length - a.length = s.length := by omega
  rw [utf8Slice, slice, if_pos hfit, Option.bind_some, hwidth, List.drop_left, List.take_left,
    if_pos hs]

theorem childView_append {data a b : Bytes} {offset : Nat} (hd : data = a ++ b)
    (ho : offset = a.length) (hb : b ≠ []) : childView data offset = some b := by
  subst hd ho
  have hpos := List.length_pos_iff.mpr hb
  have hfit : ¬ (a ++ b).length ≤ a.length := by
    rw [List.length_append]
    omega
  rw [childView, if_neg hfit, List.drop_left]

theorem flatten_split {bs : List Bytes} {i : Nat} {b : Bytes} (h : bs[i]? = some b) :
    bs.flatten = (bs.take i).flatten ++ (b ++ (bs.drop (i + 1)).flatten) := by
  obtain ⟨hlt, hget⟩ := List.getElem?_eq_some_iff.mp h
  rw [← hget, ← List.flatten_cons, List.getElem_cons_drop, ← List.flatten_append,
    List.take_append_drop]

section Array

variable {bs : List Bytes} (rest : Bytes)

def arrayHead (bs : List Bytes) : Bytes :=
  typeArray :: (toLe 4 (9 + 4 * bs.length + bs.flatten.length) ++ (toLe 4 bs.length ++
    offsetTable (runningOffsets (9 + 4 * bs.length) bs)))

theorem arrayLayout_eq (bs : List Bytes) : arrayLayout bs = arrayHead bs ++ bs.flatten := by
  simp [arrayLayout, arrayHead]

theorem length_arrayHead (bs : List Bytes) : (arrayHead bs).length = 9 + 4 * bs.length := by
  simp [arrayHead]
  omega

theorem arrayLen_layout (h : (arrayLayout bs).length < 2 ^ 32) :
    arrayLen (arrayLayout bs ++ rest) = some bs.length := by
  have hlen := length_arrayHead bs
  rw [arrayLayout_eq, List.length_append] at h
  have hread : readU32 (arrayLayout bs ++ rest) 5 = some bs.length :=
    readLe_append (a := typeArray :: toLe 4 (9 + 4 * bs.length + bs.flatten.length))
      (b := offsetTable (runningOffsets (9 + 4 * bs.length) bs) ++ (bs.flatten ++ rest))
      (by simp [arrayLayout]) (by simp) (by omega)
  have hfit : 9 + bs.length * 4 ≤ (arrayLayout bs ++ rest).length := by
    rw [arrayLayout_eq, List.length_append, List.length_append]
    omega
  rw [arrayLen, checkedLen, hread, Option.bind_some, if_pos hfit]

theorem arrayGet_layout (h : (arrayLayout bs).length < 2 ^ 32) {i : Nat} {b : Bytes}
    (hi : bs[i]? = some b) (hb : b ≠ []) :
    ∃ tail, arrayGet (arrayLayout bs ++ rest) i = some (b ++ tail) := by
  obtain ⟨hlt, -⟩ := List.getElem?_eq_some_iff.mp hi
  have hlen := length_arrayHead bs
  have hsplit := flatten_split hi
  have hoff : (runningOffsets (9 + 4 * bs.length) bs)[i]? =
      some (9 + 4 * bs.length + (bs.take i).flatten.length) := runningOffsets_getElem hlt
  have hsize := h
  rw [arrayLayout_eq, List.length_append, hsplit, List.length_append] at hsize
  have hread : readU32 (arrayLayout bs ++ rest) (9 + i * 4) =
      some (9 + 4 * bs.length + (bs.take i).flatten.length) :=
    readLe_offsetTable
      (a := typeArray :: (toLe 4 (9 + 4 * bs.length + bs.flatten.length) ++ toLe 4 bs.length))
      (b := bs.flatten ++ rest) (by simp [arrayLayout]) (by simp; omega) hoff (by omega)
  refine ⟨(bs.drop (i + 1)).flatten ++ rest, ?_⟩
  rw [arrayGet, arrayLen_layout rest h, Option.bind_some, if_neg (by omega), hread,
    Option.bind_some]
  refine childView_append (a := arrayHead bs ++ (bs.take i).flatten) ?_ ?_ (by simp [hb])
  · rw [arrayLayout_eq, hsplit]
    simp only [List.append_assoc]
  · rw [List.length_append, hlen]

end Array

section Object

variable {ms : List (Bytes × Bytes)} (rest : Bytes)

def objectHead (ms : List (Bytes × Bytes)) : Bytes :=
  typeObject :: (toLe 4 (9 + 8 * ms.length + (ms.flatMap entryLayout).length) ++
    (toLe 4 ms.length ++ (offsetTable (keyOffsets (9 + 8 * ms.length) ms) ++
      offsetTable (valOffsets (9 + 8 * ms.length) ms))))

theorem objectLayout_eq (ms : List (Bytes × Bytes)) :
    objectLayout ms = objectHead ms ++ ms.flatMap entryLayout := by
  simp [objectLayout, objectHead]

theorem length_objectHead (ms : List (Bytes × Bytes)) :
    (objectHead ms).length = 9 + 8 * ms.length := by
  simp [objectHead]
  omega

theorem objectLen_layout (h : (objectLayout ms).length < 2 ^ 32) :
    objectLen (objectLayout ms ++ rest) = some ms.length := by
  have hlen := length_objectHead ms
  rw [objectLayout_eq, List.length_append] at h
  have hread : readU32 (objectLayout ms ++ rest) 5 = some ms.length :=
    readLe_append (a := typeObject :: toLe 4 (9 + 8 * ms.length + (ms.flatMap entryLayout).length))
      (b := offsetTable (keyOffsets (9 + 8 * ms.length) ms) ++
        (offsetTable (valOffsets (9 + 8 * ms.length) ms) ++ (ms.flatMap entryLayout ++ rest)))
      (by simp [objectLayout]) (by simp) (by omega)
  have hfit : 9 + ms.length * 8 ≤ (objectLayout ms ++ rest).length := by
    rw [objectLayout_eq, List.length_append, List.length_append]
    omega
  rw [objectLen, checkedLen, hread, Option.bind_some, if_pos hfit]

variable {m : Bytes × Bytes}

theorem valOffsets_getElem {base i : Nat} (h : ms[i]? = some m) :
    (valOffsets base ms)[i]? =
      some (base + ((ms.take i).flatMap entryLayout).length + 4 + m.1.length) := by
  induction ms generalizing base i with
  | nil => simp at h
  | cons n ms ih =>
    cases i with
    | zero =>
      cases Option.some.inj h
      simp [valOffsets]
    | succ i =>
      rw [valOffsets, List.getElem?_cons_succ, ih h, List.take_succ_cons, List.flatMap_cons,
        List.length_append]
      congr 1
      omega

theorem keyOffsets_getElem {base i : Nat} (h : ms[i]? = some m) :
    (keyOffsets base ms)[i]? = some (base + ((ms.take i).flatMap entryLayout).length) := by
  obtain ⟨hlt, -⟩ := List.getElem?_eq_some_iff.mp h
  rw [keyOffsets, runningOffsets_getElem (by simpa using hlt), ← List.map_take, List.flatMap_def]

/-- The layout around one entry, and where the entry begins. -/
theorem objectLayout_split {i : Nat} (h : ms[i]? = some m) :
    ∃ a c, objectLayout ms = a ++ (toLe 4 m.1.length ++ (m.1 ++ (m.2 ++ c))) ∧
      a.length = 9 + 8 * ms.length + ((ms.take i).flatMap entryLayout).length := by
  have hmap : (ms.map entryLayout)[i]? = some (entryLayout m) := by
    rw [List.getElem?_map, h]
    rfl
  refine ⟨objectHead ms ++ (ms.take i).flatMap entryLayout, (ms.drop (i + 1)).flatMap entryLayout,
    ?_, by rw [List.length_append, length_objectHead]⟩
  rw [objectLayout_eq, List.flatMap_def, flatten_split hmap, ← List.map_take, ← List.map_drop,
    ← List.flatMap_def, ← List.flatMap_def, entryLayout]
  simp only [List.append_assoc]

theorem keyAt_layout (h : (objectLayout ms).length < 2 ^ 32) {i : Nat} (hi : ms[i]? = some m)
    (hk : validUtf8 m.1 = true) :
    (keyOffset (objectLayout ms ++ rest) i).bind (keyStr (objectLayout ms ++ rest)) = some m.1 := by
  obtain ⟨a, c, hdata, ha⟩ := objectLayout_split hi
  have hsize := hdata ▸ h
  simp only [List.length_append] at hsize
  have hread : keyOffset (objectLayout ms ++ rest) i = some a.length :=
    readLe_offsetTable
      (a := typeObject :: (toLe 4 (9 + 8 * ms.length + (ms.flatMap entryLayout).length) ++
        toLe 4 ms.length))
      (b := offsetTable (valOffsets (9 + 8 * ms.length) ms) ++ (ms.flatMap entryLayout ++ rest))
      (by simp [objectLayout]) (by simp; omega) (ha ▸ keyOffsets_getElem hi) (by omega)
  have hwidth : readU32 (objectLayout ms ++ rest) a.length = some m.1.length :=
    readLe_append (by rw [hdata, List.append_assoc, List.append_assoc]) rfl (by omega)
  rw [hread, Option.bind_some, keyStr, hwidth, Option.bind_some]
  refine utf8Slice_append (a := a ++ toLe 4 m.1.length) (b := m.2 ++ (c ++ rest)) ?_ ?_ ?_ hk
  · simp only [hdata, List.append_assoc]
  · rw [List.length_append, length_toLe]
  · rw [List.length_append, length_toLe]

theorem valAt_layout (h : (objectLayout ms).length < 2 ^ 32) {i : Nat} (hi : ms[i]? = some m)
    (hb : m.2 ≠ []) :
    ∃ tail, (valOffset (objectLayout ms ++ rest) i ms.length).bind
      (childView (objectLayout ms ++ rest)) = some (m.2 ++ tail) := by
  obtain ⟨a, c, hdata, ha⟩ := objectLayout_split hi
  have hsize := hdata ▸ h
  simp only [List.length_append, length_toLe] at hsize
  have hread : valOffset (objectLayout ms ++ rest) i ms.length =
      some (a.length + 4 + m.1.length) :=
    readLe_offsetTable
      (a := typeObject :: (toLe 4 (9 + 8 * ms.length + (ms.flatMap entryLayout).length) ++
        (toLe 4 ms.length ++ offsetTable (keyOffsets (9 + 8 * ms.length) ms))))
      (b := ms.flatMap entryLayout ++ rest)
      (by simp [objectLayout]) (by simp; omega) (ha ▸ valOffsets_getElem hi) (by omega)
  refine ⟨c ++ rest, ?_⟩
  rw [hread, Option.bind_some]
  refine childView_append (a := a ++ (toLe 4 m.1.length ++ m.1)) ?_ ?_ (by simp [hb])
  · simp only [hdata, List.append_assoc]
  · simp only [List.length_append, length_toLe]
    omega

end Object

end ValueView

end ZydecoDb
