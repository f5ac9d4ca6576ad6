import ZydecoDb.Document.ZDoc

namespace ZydecoDb

namespace ValueView

def entryCount (data : ValueView) : Nat :=
  if typeByte data = typeArray then (arrayLen data).getD 0
  else if typeByte data = typeObject then (objectLen data).getD 0
  else 0

def entryAt (data : ValueView) (i : Nat) : Option ValueView :=
  if typeByte data = typeArray then arrayGet data i else (getAt data i).map Prod.snd

/-- Where the nodes start that a container's loop visits below it. The loop ends with the first entry
that cannot be reached or does not decode. -/
def visitEntries (visit : ValueView → List Nat) (decode : ValueView → DocResult Value)
    (data : ValueView) : Nat → Nat → List Nat
  | 0, _ => []
  | n + 1, i =>
    match entryAt data i with
    | none => []
    | some item =>
      match decode item with
      | .ok _ => visit item ++ visitEntries visit decode data n (i + 1)
      | .error _ => visit item

/-- The nodes the decoder visits, one for each call. A view is the rest of the buffer from the tag of
its node on, so that its length tells where the node starts. -/
def visited : Nat → ValueView → List Nat
  | 0, _ => []
  | levels + 1, data =>
    data.length :: visitEntries (visited levels) (toValueAtDepth levels) data (entryCount data) 0

def visits (levels : Nat) (data : ValueView) : Nat := (visited levels data).length

variable {data item : ValueView} {i : Nat}

end ValueView

open ValueView

end ZydecoDb
