import Mathlib.Data.List.Sort

namespace EvmInspect

variable {α : Type} (key : α → String)

theorem pairwise_le_mergeSort (items : List α) :
    (items.mergeSort fun x y => decide (key x ≤ key y)).Pairwise fun x y => key x ≤ key y := by
  have hsorted : (items.mergeSort fun x y => decide (key x ≤ key y)).Pairwise
      fun x y => decide (key x ≤ key y) = true :=
    List.pairwise_mergeSort (by simpa using fun _ _ _ => String.le_trans)
      (by simpa using fun _ _ => String.le_total _ _) items
  exact hsorted.imp of_decide_eq_true

/-- The order is strict as long as no text is there twice. -/
theorem pairwise_lt_mergeSort {items : List α} :
    (items.mergeSort fun x y => decide (key x ≤ key y)).Pairwise (fun x y => key x < key y) ↔
      (items.map key).Nodup := by
  have hperm := (List.mergeSort_perm items fun x y => decide (key x ≤ key y)).map key
  rw [← hperm.nodup_iff, List.Nodup, List.pairwise_map]
  constructor
  · intro h
    refine h.imp ?_
    intro x y hlt he
    rw [he] at hlt
    exact String.lt_irrefl _ hlt
  · intro hdistinct
    refine ((pairwise_le_mergeSort key items).and hdistinct).imp ?_
    rintro x y ⟨hle, hne⟩
    by_contra hlt
    exact hne (String.le_antisymm hle (String.not_lt.mp hlt))

end EvmInspect
