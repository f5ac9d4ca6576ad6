import ZydecoDb.SstableFile
import ZydecoDb.ScanReverse

namespace ZydecoDb

open Lib

/-- The first entry of a key in a block; the walk stops at a greater key. Every entry takes bytes,
so the length of the block is fuel enough. -/
def scanBlockForLatest (userKey : Bytes) : Nat → Bytes → Except EngineError (Option Version)
  | 0, _ => .ok none
  | fuel + 1, block =>
    if block = [] then .ok none
    else do
      let (v, consumed) ← decodeEntry block
      if v.userKey = userKey then .ok (some v)
      else if userKey < v.userKey then .ok none
      else scanBlockForLatest userKey fuel (block.drop consumed)

def decodeInRange (lo hi : Bytes) : Nat → Bytes → Except EngineError (List Version × Bool)
  | 0, _ => .ok ([], false)
  | fuel + 1, block =>
    if block = [] then .ok ([], false)
    else do
      let (v, consumed) ← decodeEntry block
      if v.userKey < lo then decodeInRange lo hi fuel (block.drop consumed)
      else if hi ≠ [] ∧ hi ≤ v.userKey then .ok ([], true)
      else
        let (pairs, exhausted) ← decodeInRange lo hi fuel (block.drop consumed)
        .ok (v :: pairs, exhausted)

namespace TableFile

variable (t : TableFile)

def lastBlockAt (key : Bytes) : Option Nat :=
  searchLast (fun i => (t.index[i]?.map fun e => decide (e.firstUserKey ≤ key)).getD false)
    t.index.length

def candidateBlock (userKey : Bytes) : Option Nat :=
  if t.index = [] then none else (t.lastBlockAt userKey).or (some 0)

def rangeStartBlock (lo : Bytes) : Nat :=
  if t.index = [] then 0 else (t.lastBlockAt lo).getD 0

variable (crc : Bytes → UInt32)

def earliestBlockForKey (userKey : Bytes) : Nat → Except EngineError Nat
  | 0 => .ok 0
  | bi + 1 =>
    match t.index[bi + 1]?, t.index[bi]? with
    | some e, some prev =>
      if e.firstUserKey = userKey then do
        let block ← t.readBlock crc prev
        match ← scanBlockForLatest userKey block.length block with
        | some _ => earliestBlockForKey userKey bi
        | none => .ok (bi + 1)
      else .ok (bi + 1)
    | _, _ => .ok (bi + 1)

def latestFrom (userKey : Bytes) : List IndexEntry → Except EngineError (Option Version)
  | [] => .ok none
  | e :: rest =>
    if userKey < e.firstUserKey then .ok none
    else do
      let block ← t.readBlock crc e
      match ← scanBlockForLatest userKey block.length block with
      | some v => .ok (some v)
      | none => latestFrom userKey rest

def getLatest (userKey : Bytes) : Except EngineError (Option Version) :=
  match t.candidateBlock userKey with
  | none => .ok none
  | some bi => do
    let bi ← t.earliestBlockForKey crc userKey bi
    t.latestFrom crc userKey (t.index.drop bi)

end TableFile

/-- A range iterator: the blocks not yet read, the entries of the current one not yet yielded, and
whether the upper bound was met. -/
structure SstableRangeIter where
  table : TableFile
  lo : Bytes
  hi : Bytes
  blocks : List IndexEntry
  current : List Version
  exhausted : Bool

namespace SstableRangeIter

variable (crc : Bytes → UInt32)

/-- Read on to the next block that holds an entry of the range; the entries found, the blocks behind
them and whether the upper bound was met. No entries is the end of the range. -/
def loadNextBlock (t : TableFile) (lo hi : Bytes) :
    List IndexEntry → Except EngineError (List Version × List IndexEntry × Bool)
  | [] => .ok ([], [], false)
  | e :: rest =>
    if hi ≠ [] ∧ hi ≤ e.firstUserKey then .ok ([], rest, false)
    else do
      let block ← t.readBlock crc e
      let (pairs, exhausted) ← decodeInRange lo hi block.length block
      if pairs ≠ [] ∨ exhausted = true then .ok (pairs, rest, exhausted)
      else loadNextBlock t lo hi rest

def next (it : SstableRangeIter) : Except EngineError (Option (Version × SstableRangeIter)) :=
  match it.current with
  | v :: rest => .ok (some (v, { it with current := rest }))
  | [] =>
    if it.exhausted then .ok none
    else do
      let (pairs, blocks, exhausted) ← loadNextBlock crc it.table it.lo it.hi it.blocks
      match pairs with
      | [] => .ok none
      | v :: rest => .ok (some (v, { it with blocks, exhausted, current := rest }))

def collect : Nat → SstableRangeIter → Except EngineError (List Version)
  | 0, _ => .ok []
  | fuel + 1, it => do
    match ← it.next crc with
    | none => .ok []
    | some (v, it') => (collect fuel it').map (v :: ·)

end SstableRangeIter

namespace TableFile

variable (t : TableFile) (crc : Bytes → UInt32)

def rangeStart (lo : Bytes) : Except EngineError Nat :=
  if lo = [] then .ok (t.rangeStartBlock lo)
  else t.earliestBlockForKey crc lo (t.rangeStartBlock lo)

def rangeIter (lo hi : Bytes) : Except EngineError SstableRangeIter := do
  let start ← t.rangeStart crc lo
  .ok ⟨t, lo, hi, t.index.drop start, [], false⟩

def fullIter : SstableRangeIter := ⟨t, [], [], t.index, [], false⟩

def rangeIterRev (lo hi : Bytes) (fuel : Nat) : Except EngineError (List Version) := do
  let fwd ← t.rangeIter crc lo hi
  let pairs ← fwd.collect crc fuel
  .ok (sortRev pairs)

end TableFile

end ZydecoDb
