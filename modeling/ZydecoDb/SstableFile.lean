import ZydecoDb.Sstable
import ZydecoDb.Bloom
import ZydecoDb.Lib.BinarySearch

namespace ZydecoDb

open Lib

def sstableMagic : Nat := 0x50524144
def sstableFormatVersion : Nat := 2
def sstableFormatVersionV1 : Nat := 1
def footerLen : Nat := 40
def blockCrcLen : Nat := 4

def sstableEntryFixed : Nat := 1 + 8 + 4 + 4 + 8

def Entry.expiryField : Entry → Nat
  | .value _ (some expiresAt) => expiresAt
  | _ => 0

def encodeEntry (v : Version) : Bytes :=
  v.entry.kind.asU8 :: (toBe 8 v.seq ++ (toBe 4 v.userKey.length ++ (toBe 4 v.entry.valueLen ++
    (toBe 8 v.entry.expiryField ++ (v.userKey ++ v.entry.valueBytes)))))

def Entry.ofFields (kind : EntryKind) (value : Bytes) (expiresAt : Nat) : Entry :=
  match kind with
  | .tombstone => .tombstone
  | .value => .value value (if expiresAt = 0 then none else some expiresAt)

def decodeEntry (buf : Bytes) : Except EngineError (Version × Nat) :=
  if buf.length < sstableEntryFixed then .error (.io "sstable: short entry header")
  else
    match EntryKind.fromU8 (buf.getD 0 0) with
    | none => .error (.io "sstable: bad entry kind")
    | some kind =>
      let keyLen := beAt 4 9 buf
      let valueLen := beAt 4 13 buf
      let expiresAt := beAt 8 17 buf
      let total := sstableEntryFixed + keyLen + valueLen
      if buf.length < total then .error (.io "sstable: truncated entry")
      else
        let userKey := (buf.drop sstableEntryFixed).take keyLen
        let value := (buf.drop (sstableEntryFixed + keyLen)).take valueLen
        .ok (⟨userKey, beAt 8 1 buf, .ofFields kind value expiresAt⟩, total)

/-- First key of a data block with its place in the file. The source stores the first key twice;
nothing reads the second copy. -/
structure IndexEntry where
  firstUserKey : Bytes
  firstSeq : Nat
  offset : Nat
  length : Nat
deriving DecidableEq, Repr

def IndexEntry.encode (e : IndexEntry) : Bytes :=
  toBe 4 e.firstUserKey.length ++ (e.firstUserKey ++ (toBe 8 e.firstSeq ++ (toBe 8 e.offset ++
    toBe 8 e.length)))

def encodeIndex (index : List IndexEntry) : Bytes :=
  toBe 4 index.length ++ index.flatMap IndexEntry.encode

def decodeIndexEntries (buf : Bytes) : Nat → Nat → Except EngineError (List IndexEntry)
  | 0, _ => .ok []
  | count + 1, off =>
    if buf.length < off + 4 then .error (.io "sstable: index trunc")
    else
      let klen := beAt 4 off buf
      if buf.length < off + 4 + klen then .error (.io "sstable: index key trunc")
      else if buf.length < off + 4 + klen + 24 then .error (.io "sstable: u64 trunc")
      else
        (decodeIndexEntries buf count (off + 4 + klen + 24)).map fun rest =>
          ⟨(buf.drop (off + 4)).take klen, beAt 8 (off + 4 + klen) buf,
            beAt 8 (off + 4 + klen + 8) buf, beAt 8 (off + 4 + klen + 16) buf⟩ :: rest

def decodeIndex (buf : Bytes) : Except EngineError (List IndexEntry) :=
  if buf.length < 4 then .error (.io "sstable: short index")
  else decodeIndexEntries buf (beAt 4 0 buf) 4

structure Footer where
  indexOffset : Nat
  indexLength : Nat
  bloomOffset : Nat
  bloomLength : Nat
  version : Nat
deriving DecidableEq, Repr

def Footer.encode (f : Footer) : Bytes :=
  toBe 8 f.indexOffset ++ (toBe 8 f.indexLength ++ (toBe 8 f.bloomOffset ++
    (toBe 8 f.bloomLength ++ (toBe 4 sstableMagic ++ toBe 4 f.version))))

def hex8 (n : Nat) : String :=
  String.ofList (List.leftpad 8 '0' (Nat.toDigits 16 n))

def parseFooter (tail : Bytes) : Except EngineError Footer :=
  if tail.length < footerLen then .error (.io "sstable: file too small for footer")
  else
    let f := tail.drop (tail.length - footerLen)
    let version := beAt 4 36 f
    if beAt 4 32 f ≠ sstableMagic then .error (.io "sstable: bad magic")
    else if version ≠ sstableFormatVersion ∧ version ≠ sstableFormatVersionV1 then
      .error (.io ("sstable: unsupported format version 0x" ++ hex8 version))
    else .ok ⟨beAt 8 0 f, beAt 8 8 f, beAt 8 16 f, beAt 8 24 f, version⟩

/-- The greedy packing of `build`: a block closes with the entry that brings it to the block size;
`len` bytes of the block being packed are already written. -/
def packBlocks : Nat → List Version → List (List Version)
  | _, [] => []
  | len, v :: vs =>
    if len + (encodeEntry v).length ≥ sstableBlockSize then [v] :: packBlocks 0 vs
    else
      match packBlocks (len + (encodeEntry v).length) vs with
      | [] => [[v]]
      | block :: blocks => (v :: block) :: blocks

section Crc

-- `crc32fast::hash` is code outside the repository; nothing is assumed of it.
variable (crc : Bytes → UInt32)

def appendBlockCrc (body : Bytes) : Bytes := body ++ toBe 4 (crc body).toNat

def verifyBlockCrc (version : Nat) (raw : Bytes) (what : String) : Except EngineError Bytes :=
  if version < sstableFormatVersion then .ok raw
  else if raw.length < blockCrcLen then
    .error (.io ("sstable: " ++ what ++ " block too short for checksum"))
  else
    let split := raw.length - blockCrcLen
    if beAt 4 split raw ≠ (crc (raw.take split)).toNat then
      .error (.io ("sstable: " ++ what ++ " block checksum mismatch (corruption)"))
    else .ok (raw.take split)

def writeBlocks : Nat → List (List Version) → List (Bytes × IndexEntry)
  | _, [] => []
  | off, block :: blocks =>
    let bytes := appendBlockCrc crc (block.flatMap encodeEntry)
    (bytes, ⟨(block.head?.map Version.userKey).getD [], (block.head?.map Version.seq).getD 0, off,
      bytes.length⟩) :: writeBlocks (off + bytes.length) blocks

variable (hash : Bytes → UInt64 → UInt64)

section

variable (sorted : List Version)

def dataBlocks : List (Bytes × IndexEntry) :=
  writeBlocks crc 0 (packBlocks 0 sorted)

def dataBytes : Bytes := (dataBlocks crc sorted).flatMap Prod.fst

def tableIndex : List IndexEntry := (dataBlocks crc sorted).map Prod.snd

def bloomBytes (withBloom : Bool) : Bytes :=
  if withBloom && !sorted.isEmpty then
    appendBlockCrc crc (BloomFilter.build hash (sorted.map Version.userKey)).encode
  else []

def indexBytes : Bytes :=
  appendBlockCrc crc (encodeIndex (tableIndex crc sorted))

def tableFooter (withBloom : Bool) : Footer where
  indexOffset := (dataBytes crc sorted).length + (bloomBytes crc hash sorted withBloom).length
  indexLength := (indexBytes crc sorted).length
  bloomOffset := if withBloom && !sorted.isEmpty then (dataBytes crc sorted).length else 0
  bloomLength := (bloomBytes crc hash sorted withBloom).length
  version := sstableFormatVersion

def sstableBytes (withBloom : Bool) : Bytes :=
  dataBytes crc sorted ++ (bloomBytes crc hash sorted withBloom ++
    (indexBytes crc sorted ++ (tableFooter crc hash sorted withBloom).encode))

end

structure TableFile where
  data : Bytes
  version : Nat
  index : List IndexEntry
  bloom : Option BloomFilter

def fileRange (data : Bytes) (offset length : Nat) (what : String) : Except EngineError Bytes :=
  if data.length < offset + length then
    .error (.io ("sstable: " ++ what ++ " out of bounds"))
  else .ok ((data.drop offset).take length)

def openTable (data : Bytes) : Except EngineError TableFile := do
  let footer ← parseFooter data
  let rawIndex ← fileRange data footer.indexOffset footer.indexLength "index"
  let indexBody ← verifyBlockCrc crc footer.version rawIndex "index"
  let index ← decodeIndex indexBody
  if footer.bloomLength = 0 then .ok ⟨data, footer.version, index, none⟩
  else
    let rawBloom ← fileRange data footer.bloomOffset footer.bloomLength "bloom"
    let bloomBody ← verifyBlockCrc crc footer.version rawBloom "bloom"
    .ok ⟨data, footer.version, index, BloomFilter.decode bloomBody⟩

def TableFile.mightContain (t : TableFile) (userKey : Bytes) : Bool :=
  match t.bloom with
  | some bf => bf.maybeContains hash userKey
  | none => true

def TableFile.readBlock (t : TableFile) (e : IndexEntry) : Except EngineError Bytes := do
  let raw ← fileRange t.data e.offset e.length "block"
  verifyBlockCrc crc t.version raw "data"

end Crc

end ZydecoDb
