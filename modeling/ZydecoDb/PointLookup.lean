import ZydecoDb.TableOrder
import ZydecoDb.QueuedEngine

namespace ZydecoDb

open Lib

namespace EngineState

variable {st : EngineState} {cfg : CompactionConfig}

theorem view_ordered (hi : st.Inv) (h : st.IdsByAge) : st.view.Ordered where
  newer := by
    rw [ReadView.sources, List.pairwise_append]
    refine ⟨hi.mems.imp fun h => h.newerThan, ?_, ?_⟩
    · rw [List.pairwise_map, List.pairwise_reverse]
      refine hi.ids.imp_of_mem fun {a b} ha hb hlt => ?_
      exact h.current a (List.mem_append_left _ ha) b (List.mem_append_left _ hb) hlt
    · intro m hm l hl
      obtain ⟨t, ht, rfl⟩ := List.mem_map.mp hl
      exact (hi.mems_newer m hm t (List.mem_reverse.mp ht)).newerThan
  coherent := hi.coherent
  seq_le v hv := ((hi.seq_lt v hv).trans_le hi.next_le).le
  tables := hi.tables

end EngineState

end ZydecoDb
