import ZydecoDb.Lib.TextLines

namespace Lib.JsonText

/-!
The JSON grammar over bytes: every text a parser accepts, and for an object the keys it is given.
-/

def isBlank (b : UInt8) : Bool := b = 0x20 || b = 0x09 || b = 0x0A || b = 0x0D

def Blank (s : Bytes) : Prop := ∀ b ∈ s, isBlank b = true

def isHex (b : UInt8) : Bool := isDigit b || (0x41 ≤ b && b ≤ 0x46) || (0x61 ≤ b && b ≤ 0x66)

def hexDigitValue (b : UInt8) : Nat :=
  if isDigit b then b.toNat - 48 else if b ≤ 0x46 then b.toNat - 55 else b.toNat - 87

def hexValue (ds : Bytes) : Nat := ds.foldl (fun n d => n * 16 + hexDigitValue d) 0

def isSurrogate (n : Nat) : Prop := 0xD800 ≤ n ∧ n < 0xE000

instance instDecidableIsSurrogate (n : Nat) : Decidable (isSurrogate n) :=
  inferInstanceAs (Decidable (_ ∧ _))

structure CodeUnit where
  digits : Bytes
  length_digits : digits.length = 4
  hex : ∀ b ∈ digits, isHex b = true

def CodeUnit.value (u : CodeUnit) : Nat := hexValue u.digits

def shortEscapes : List (UInt8 × UInt8) :=
  [(0x22, 0x22), (0x5C, 0x5C), (0x2F, 0x2F), (0x62, 0x08), (0x66, 0x0C), (0x6E, 0x0A),
    (0x72, 0x0D), (0x74, 0x09)]

/-- A part of a string: a byte as it is, an escape, or the two escapes of a surrogate pair. -/
inductive Piece where
  | plain (b : UInt8) (h : 0x20 ≤ b ∧ b ≠ 0x22 ∧ b ≠ 0x5C)
  | short (e : UInt8 × UInt8) (h : e ∈ shortEscapes)
  | scalar (u : CodeUnit) (h : ¬ isSurrogate u.value)
  | pair (high low : CodeUnit) (hhigh : 0xD800 ≤ high.value ∧ high.value < 0xDC00)
      (hlow : 0xDC00 ≤ low.value ∧ low.value < 0xE000)

namespace Piece

def text : Piece → Bytes
  | plain b _ => [b]
  | short e _ => [0x5C, e.1]
  | scalar u _ => 0x5C :: 0x75 :: u.digits
  | pair high low _ _ => 0x5C :: 0x75 :: high.digits ++ 0x5C :: 0x75 :: low.digits

def decoded : Piece → Bytes
  | plain b _ => [b]
  | short e _ => [e.2]
  | scalar u _ => String.utf8EncodeChar (Char.ofNat u.value)
  | pair high low _ _ => String.utf8EncodeChar
      (Char.ofNat (0x10000 + (high.value - 0xD800) * 0x400 + (low.value - 0xDC00)))

end Piece

def quoted (ps : List Piece) : Bytes := 0x22 :: ps.flatMap Piece.text ++ [0x22]

def decodedString (ps : List Piece) : Bytes := ps.flatMap Piece.decoded

def Digits (s : Bytes) : Prop := s ≠ [] ∧ ∀ b ∈ s, isDigit b = true

structure NumberText (sign int frac exp : Bytes) : Prop where
  sign : sign = [] ∨ sign = [0x2D]
  int : Digits int ∧ (int.length = 1 ∨ int.head? ≠ some 0x30)
  frac : frac = [] ∨ ∃ ds, Digits ds ∧ frac = 0x2E :: ds
  exp : exp = [] ∨ ∃ e sgn ds, (e = 0x65 ∨ e = 0x45) ∧
    (sgn = [] ∨ sgn = [0x2B] ∨ sgn = [0x2D]) ∧ Digits ds ∧ exp = e :: sgn ++ ds

def literals : List Bytes :=
  [[0x74, 0x72, 0x75, 0x65], [0x66, 0x61, 0x6C, 0x73, 0x65], [0x6E, 0x75, 0x6C, 0x6C]]

structure Item where
  before : Bytes
  value : Bytes
  after : Bytes
  blank_before : Blank before
  blank_after : Blank after

def Item.text (i : Item) : Bytes := i.before ++ (i.value ++ i.after)

structure Member extends Item where
  beforeKey : Bytes
  key : List Piece
  afterKey : Bytes
  blank_beforeKey : Blank beforeKey
  blank_afterKey : Blank afterKey

def Member.text (m : Member) : Bytes :=
  m.beforeKey ++ (quoted m.key ++ (m.afterKey ++ 0x3A :: m.toItem.text))

def commaJoined : List Bytes → Bytes
  | [] => []
  | [e] => e
  | e :: e' :: es => e ++ 0x2C :: commaJoined (e' :: es)

def Inside (entries : List Bytes) (inner : Bytes) : Prop :=
  if entries = [] then Blank inner else inner = commaJoined entries

inductive JsonValue : Bytes → Prop where
  | literal {s : Bytes} (h : s ∈ literals) : JsonValue s
  | number {sign int frac exp : Bytes} (h : NumberText sign int frac exp) :
      JsonValue (sign ++ int ++ frac ++ exp)
  | string (ps : List Piece) : JsonValue (quoted ps)
  | array {items : List Item} {inner : Bytes} (hv : ∀ i ∈ items, JsonValue i.value)
      (h : Inside (items.map Item.text) inner) : JsonValue (0x5B :: inner ++ [0x5D])
  | object {members : List Member} {inner : Bytes} (hv : ∀ m ∈ members, JsonValue m.value)
      (h : Inside (members.map Member.text) inner) : JsonValue (0x7B :: inner ++ [0x7D])

def Parses (text : Bytes) : Prop :=
  ∃ i : Item, JsonValue i.value ∧ text = i.text

def ParsesWithKey (key text : Bytes) : Prop :=
  ∃ (i : Item) (members : List Member) (inner : Bytes), (∀ m ∈ members, JsonValue m.value) ∧
    Inside (members.map Member.text) inner ∧ i.value = 0x7B :: inner ++ [0x7D] ∧ text = i.text ∧
    ∃ m ∈ members, decodedString m.key = key

theorem length_le_commaJoined (es : List Bytes) : es.length ≤ (commaJoined es).length + 1 := by
  fun_induction commaJoined es with
  | case1 => simp
  | case2 e => simp
  | case3 e e' es ih =>
    simp only [List.length_append, List.length_cons] at ih ⊢
    omega

end Lib.JsonText
