import ZydecoDb.WalSteps

namespace ZydecoDb

open Lib

namespace CommitServer

variable {s s' : CommitServer}

theorem awaitDurable_ok {seq : Nat} : s.awaitDurable seq = some (.ok ()) ↔ seq ≤ s.durableSeq := by
  unfold awaitDurable
  constructor
  · intro h
    by_contra hgt
    rw [if_neg hgt] at h
    split at h
    next => simp at h
    next => split at h <;> simp at h
  · intro hle
    rw [if_pos hle]

end CommitServer

end ZydecoDb
