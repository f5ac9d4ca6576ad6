import ZydecoDb.Document.Catalog
import ZydecoDb.Lib.KeySearch
import ZydecoDb.Lib.OffsetTable
import ZydecoDb.Lib.SortedMap

namespace ZydecoDb

open Lib

def typeNull : UInt8 := 0
def typeBoolFalse : UInt8 := 1
def typeBoolTrue : UInt8 := 2
def typeI64 : UInt8 := 3
def typeF64 : UInt8 := 4
def typeString : UInt8 := 5
def typeArray : UInt8 := 6
def typeObject : UInt8 := 7

def maxZdocDepth : Nat := 256

def Number.asI64 : Number → Option Int64
  | .posInt n => if n.toNat < 2 ^ 63 then some n.toInt64 else none
  | .negInt n => some n
  | .float _ => none

def Number.ofI64 (i : Int64) : Number := if i < 0 then .negInt i else .posInt i.toUInt64

def f64IsFinite (bits : UInt64) : Bool := bits.toNat / 2 ^ 52 % 2 ^ 11 ≠ 2047

def Number.fromF64 (bits : UInt64) : Option Number :=
  if f64IsFinite bits then some (.float bits) else none

section Utf8

def utf8Continues (b : UInt8) : Bool := 0x80 ≤ b && b ≤ 0xBF

def utf8Lead3 (b0 b1 : UInt8) : Bool :=
  (b0 = 0xE0 && 0xA0 ≤ b1 && b1 ≤ 0xBF) || (0xE1 ≤ b0 && b0 ≤ 0xEC && utf8Continues b1) ||
    (b0 = 0xED && 0x80 ≤ b1 && b1 ≤ 0x9F) || (0xEE ≤ b0 && b0 ≤ 0xEF && utf8Continues b1)

def utf8Lead4 (b0 b1 : UInt8) : Bool :=
  (b0 = 0xF0 && 0x90 ≤ b1 && b1 ≤ 0xBF) || (0xF1 ≤ b0 && b0 ≤ 0xF3 && utf8Continues b1) ||
    (b0 = 0xF4 && 0x80 ≤ b1 && b1 ≤ 0x8F)

def validUtf8 : Bytes → Bool
  | [] => true
  | b0 :: rest =>
    if b0 < 0x80 then validUtf8 rest
    else match rest with
      | [] => false
      | b1 :: rest =>
        if 0xC2 ≤ b0 && b0 ≤ 0xDF then utf8Continues b1 && validUtf8 rest
        else match rest with
          | [] => false
          | b2 :: rest =>
            if utf8Lead3 b0 b1 then utf8Continues b2 && validUtf8 rest
            else match rest with
              | [] => false
              | b3 :: rest =>
                utf8Lead4 b0 b1 && utf8Continues b2 && utf8Continues b3 && validUtf8 rest

end Utf8

namespace ZDocBuilder

def writeNumber (n : Number) : Bytes :=
  match n.asI64 with
  | some i => typeI64 :: toLe 8 i.toUInt64.toNat
  | none => typeF64 :: toLe 8 n.asF64.toNat

def writeItems (start : Nat) : List (Bytes → Bytes) → Bytes → Bytes × List Nat
  | [], out => (out, [])
  | write :: writers, out =>
    let p := writeItems start writers (write out)
    (p.1, (out.length - start) :: p.2)

def writeArray (writers : List (Bytes → Bytes)) (out : Bytes) : Bytes :=
  let start := out.length
  let out := out ++ (typeArray :: (toLe 4 0 ++ toLe 4 writers.length))
  let offsetsStart := out.length
  let out := out ++ List.replicate (writers.length * 4) 0
  let p := writeItems start writers out
  let out := backfill offsetsStart p.2 p.1
  patch (start + 1) (toLe 4 (out.length - start)) out

def writeEntries (start : Nat) : List (Bytes × (Bytes → Bytes)) → Bytes →
    Bytes × List Nat × List Nat
  | [], out => (out, [], [])
  | (key, write) :: entries, out =>
    let keyOffset := out.length - start
    let out := out ++ (toLe 4 key.length ++ key)
    let p := writeEntries start entries (write out)
    (p.1, keyOffset :: p.2.1, (out.length - start) :: p.2.2)

def writeObject (members : List (Bytes × (Bytes → Bytes))) (out : Bytes) : Bytes :=
  let start := out.length
  let out := out ++ (typeObject :: (toLe 4 0 ++ toLe 4 members.length))
  let sortedKeys := members.insertionSort fun a b => a.1 ≤ b.1
  let keysOffsetsStart := out.length
  let out := out ++ List.replicate (members.length * 4) 0
  let valsOffsetsStart := out.length
  let out := out ++ List.replicate (members.length * 4) 0
  let p := writeEntries start sortedKeys out
  let out := backfill keysOffsetsStart p.2.1 p.1
  let out := backfill valsOffsetsStart p.2.2 out
  patch (start + 1) (toLe 4 (out.length - start)) out

mutual

def writeValue : Value → Bytes → Bytes
  | .null, out => out ++ [typeNull]
  | .bool b, out => out ++ [if b then typeBoolTrue else typeBoolFalse]
  | .number n, out => out ++ writeNumber n
  | .string s, out => out ++ (typeString :: (toLe 4 s.length ++ s))
  | .array items, out => writeArray (itemWriters items) out
  | .object members, out => writeObject (memberWriters members) out

def itemWriters : List Value → List (Bytes → Bytes)
  | [] => []
  | v :: items => writeValue v :: itemWriters items

def memberWriters : List (Bytes × Value) → List (Bytes × (Bytes → Bytes))
  | [] => []
  | (key, v) :: members => (key, writeValue v) :: memberWriters members

end

def fromValue (v : Value) : Bytes := writeValue v []

end ZDocBuilder

/-- A value read in place: the bytes from where it starts to the end of the buffer around it. -/
abbrev ValueView : Type := Bytes

namespace ValueView

def typeByte (data : ValueView) : UInt8 := data.headD typeNull

def readU32 (data : ValueView) (pos : Nat) : Option Nat := readLe 4 data pos

def slice (data : ValueView) (lo hi : Nat) : Option Bytes :=
  if hi ≤ data.length then some ((data.drop lo).take (hi - lo)) else none

def childView (data : ValueView) (offset : Nat) : Option ValueView :=
  if data.length ≤ offset then none else some (data.drop offset)

def corrupt (what : String) : DocError := .corrupt ("malformed ZDoc: " ++ what)

def asI64 (data : ValueView) : Option Int64 :=
  if typeByte data = typeI64 then (readLe 8 data 1).map fun n => (UInt64.ofNat n).toInt64 else none

def asF64 (data : ValueView) : Option UInt64 :=
  if typeByte data = typeF64 then (readLe 8 data 1).map UInt64.ofNat
  else (asI64 data).map fun i => (Number.ofI64 i).asF64

def utf8Slice (data : ValueView) (lo hi : Nat) : Option Bytes :=
  (slice data lo hi).bind fun bytes => if validUtf8 bytes then some bytes else none

def asStr (data : ValueView) : Option Bytes :=
  if typeByte data ≠ typeString then none
  else (readU32 data 1).bind fun len => utf8Slice data 5 (5 + len)

def checkedLen (width : Nat) (data : ValueView) : Option Nat :=
  (readU32 data 5).bind fun count => if 9 + count * width ≤ data.length then some count else none

section

variable (data : ValueView)

def arrayLen : Option Nat := checkedLen 4 data

def arrayGet (index : Nat) : Option ValueView :=
  (arrayLen data).bind fun count =>
    if count ≤ index then none else (readU32 data (9 + index * 4)).bind (childView data)

def objectLen : Option Nat := checkedLen 8 data

def keyOffset (index : Nat) : Option Nat := readU32 data (9 + index * 4)

def valOffset (index count : Nat) : Option Nat :=
  readU32 data (9 + count * 4 + index * 4)

def keyStr (off : Nat) : Option Bytes :=
  (readU32 data off).bind fun len => utf8Slice data (off + 4) (off + 4 + len)

def getAt (index : Nat) : Option (Bytes × ValueView) :=
  (objectLen data).bind fun count =>
    if count ≤ index then none
    else ((keyOffset data index).bind (keyStr data)).bind fun key =>
      ((valOffset data index count).bind (childView data)).map fun v => (key, v)

def objectGet (key : Bytes) : Option ValueView :=
  (objectLen data).bind fun count =>
    (searchKey (fun i => (keyOffset data i).bind (keyStr data)) key count).bind fun mid =>
      (valOffset data mid count).bind (childView data)

end

def getSegments : List Bytes → ValueView → Option ValueView
  | [], data => some data
  | seg :: segs, data =>
    if typeByte data = typeObject then (objectGet data seg).bind (getSegments segs) else none

def getPath (data : ValueView) (path : Bytes) : Option ValueView :=
  getSegments (path.splitOn 0x2E) data

def readEntries {α : Type} (read : Nat → DocResult α) : Nat → Nat → DocResult (List α)
  | 0, _ => .ok []
  | n + 1, i => (read i).bind fun a => (readEntries read n (i + 1)).map (a :: ·)

def hexDigit (n : Nat) : Char := if n < 10 then Char.ofNat (48 + n) else Char.ofNat (87 + n)

def toValueAtDepth : Nat → ValueView → DocResult Value
  | 0, _ => .error (.protocol "document nesting exceeds 256 levels")
  | levels + 1, data =>
    let tag := typeByte data
    if tag = typeNull then .ok .null
    else if tag = typeBoolFalse then .ok (.bool false)
    else if tag = typeBoolTrue then .ok (.bool true)
    else if tag = typeI64 then
      match asI64 data with
      | some i => .ok (.number (.ofI64 i))
      | none => .error (corrupt "truncated i64")
    else if tag = typeF64 then
      match asF64 data with
      | some bits =>
        match Number.fromF64 bits with
        | some n => .ok (.number n)
        | none => .ok .null
      | none => .error (corrupt "truncated f64")
    else if tag = typeString then
      match asStr data with
      | some s => .ok (.string s)
      | none => .error (corrupt "truncated or non-UTF-8 string")
    else if tag = typeArray then
      match arrayLen data with
      | none => .error (corrupt "array offset table exceeds buffer")
      | some n =>
        (readEntries (fun i => match arrayGet data i with
          | some item => toValueAtDepth levels item
          | none => .error (corrupt "array element offset out of range")) n 0).map .array
    else if tag = typeObject then
      match objectLen data with
      | none => .error (corrupt "object offset table exceeds buffer")
      | some n =>
        (readEntries (fun i => match getAt data i with
          | some (k, v) => (toValueAtDepth levels v).map fun v => (k, v)
          | none => .error (corrupt "object entry offset out of range")) n 0).map fun entries =>
            .object (entries.foldl (fun map p => insertPair p.1 p.2 map) [])
    else .error (corrupt ("unknown type tag 0x" ++
      String.ofList [hexDigit (tag.toNat / 16), hexDigit (tag.toNat % 16)]))

def toValue (data : ValueView) : DocResult Value := toValueAtDepth maxZdocDepth data

end ValueView

mutual

def valueDepth : Value → Nat
  | .array items => 1 + itemsDepth items
  | .object members => 1 + membersDepth members
  | .null => 1
  | .bool _ => 1
  | .number _ => 1
  | .string _ => 1

def itemsDepth : List Value → Nat
  | [] => 0
  | v :: items => max (valueDepth v) (itemsDepth items)

def membersDepth : List (Bytes × Value) → Nat
  | [] => 0
  | (_, v) :: members => max (valueDepth v) (membersDepth members)

end

end ZydecoDb
