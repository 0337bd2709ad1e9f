import EvmInspect.Proofs.Caching
import EvmInspect.Selector.Numbers

namespace EvmInspect.Builtin

theorem ofSignature_eq_key : ∀ entry ∈ table, ∀ x ∈ entry.2, Selector.ofSignature x = entry.1 := by
  rw [Selector.ofSignature_eq_onNumbers]
  decide +kernel

/-- The signatures of an entry are the candidates of its selector. -/
theorem candidates?_of_mem {entry : Selector × List String} (h : entry ∈ table) :
    candidates? entry.1 = some entry.2 :=
  lookup_of_mem nodup_selectors h

end EvmInspect.Builtin
