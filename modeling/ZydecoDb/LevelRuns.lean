import ZydecoDb.LevelOrder

namespace ZydecoDb

open Lib

namespace EngineState

variable {st st' : EngineState} {cfg : CompactionConfig}

theorem LevelInv.writeCompactionOutput (h : LevelInv cfg st) {bloom : Bytes → Bool}
    (he : st.writeCompactionOutput cfg bloom = some st') : LevelInv cfg st' := by
  obtain ⟨job, metas, run, pending, written, f, hc, -, rfl⟩ := writeCompactionOutput_cases he
  refine ⟨h.level_le, h.disjoint, h.newer, fun c hc' => ?_⟩
  cases Option.mem_some_iff.mp hc'
  obtain ⟨hm, hl⟩ := h.job _ hc
  exact ⟨hm, hl⟩

end EngineState

end ZydecoDb
