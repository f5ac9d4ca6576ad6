import ZydecoDb.Keys

namespace ZydecoDb

inductive Status
  | ok
  | notFound
  | error
  | conflict
  | ioError
  | invalidKey
  | invalidValue
  | engineBusy
  | protocolError
  | policyRejected
  | unsupportedFormat
  | unauthorized
  | forbidden
deriving DecidableEq, Repr

inductive DocError
  | collectionNotFound (name : Bytes)
  | indexNotFound (name : Bytes)
  | alreadyExists (name : Bytes)
  | duplicateKey (message : Bytes)
  | staleRevision
  | invalidJson (msg : String)
  | batchTooLarge (n : Nat)
  | corrupt (msg : String)
  | protocol (msg : String)
  | badFilter (msg : String)
  | badUpdate (msg : String)
  | engine (e : EngineError)
deriving DecidableEq, Repr

abbrev DocResult (α : Type) : Type := Except DocError α

def text (s : String) : Bytes := s.toUTF8.toList

def ofText (b : Bytes) : String := (String.fromUTF8? ⟨b.toArray⟩).getD ""

def EngineError.display : EngineError → String
  | .invalidKey msg => "invalid key: " ++ msg
  | .invalidValue msg => "invalid value: " ++ msg
  | .io msg => "io error: " ++ msg
  | .unsupportedFormat msg => "unsupported on-disk format: " ++ msg

def DocError.display : DocError → String
  | .collectionNotFound name => "collection not found: " ++ ofText name
  | .indexNotFound name => "index not found: " ++ ofText name
  | .alreadyExists name => "already exists: " ++ ofText name
  | .duplicateKey message => "duplicate key: " ++ ofText message
  | .staleRevision => "stale document revision"
  | .invalidJson msg => "invalid json: " ++ msg
  | .batchTooLarge n => "document touches " ++ toString n ++ " keys, exceeding the atomic batch limit"
  | .corrupt msg => "corrupt catalog: " ++ msg
  | .protocol msg => "protocol error: " ++ msg
  | .badFilter msg => "bad filter: " ++ msg
  | .badUpdate msg => "bad update: " ++ msg
  | .engine e => e.display

end ZydecoDb
