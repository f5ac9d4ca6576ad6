import ZydecoDb.Document.Error
import ZydecoDb.Lib.BigEndian

namespace ZydecoDb

open Lib

def splitCursorSeq (c : Bytes) : DocResult (Nat × Bytes) :=
  if c.length < 8 then .error (.protocol "malformed cursor")
  else .ok (ofBe (c.take 8), c.drop 8)

def withCursorSeq (seq : Nat) (body : Bytes) : Bytes := toBe 8 seq ++ body

def cursorSnapshotSeq (cursor : Option Bytes) : Option Nat :=
  cursor.bind fun c => (splitCursorSeq c).toOption.map Prod.fst

end ZydecoDb
