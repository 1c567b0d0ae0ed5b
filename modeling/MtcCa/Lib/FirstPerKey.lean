import Mathlib

/-! The first element of each key of a list, in order. -/
namespace FirstPerKey

variable {α κ : Type*} [DecidableEq κ] {key : α → κ} {l : List α} {a : α}

/-- Keeps the elements whose key no earlier element has. -/
def firsts (key : α → κ) : List α → List α
  | [] => []
  | a :: l => a :: (firsts key l).filter (fun b => key b ≠ key a)

theorem firsts_sublist (key : α → κ) (l : List α) : (firsts key l).Sublist l := by
  induction l with
  | nil => exact List.Sublist.refl _
  | cons a l ih => exact (List.filter_sublist.trans ih).cons_cons a

theorem nodup_firsts (key : α → κ) (l : List α) : ((firsts key l).map key).Nodup := by
  induction l with
  | nil => exact List.nodup_nil
  | cons a l ih =>
    rw [firsts, List.map_cons, List.nodup_cons]
    refine ⟨?_, ih.sublist (List.filter_sublist.map key)⟩
    intro hmem
    obtain ⟨b, hb, hkey⟩ := List.mem_map.mp hmem
    exact of_decide_eq_true (List.mem_filter.mp hb).2 hkey

/-- No key is lost. -/
theorem mem_map_firsts {k : κ} : k ∈ (firsts key l).map key ↔ k ∈ l.map key := by
  refine ⟨fun h => ((firsts_sublist key l).map key).subset h, ?_⟩
  induction l with
  | nil => exact id
  | cons a l ih =>
    intro h
    rw [firsts, List.map_cons, List.mem_cons]
    rcases List.mem_cons.mp h with rfl | h
    · exact Or.inl rfl
    · by_cases hk : k = key a
      · exact Or.inl hk
      · obtain ⟨b, hb, rfl⟩ := List.mem_map.mp (ih h)
        exact Or.inr (List.mem_map_of_mem (List.mem_filter.mpr ⟨hb, decide_eq_true hk⟩))

/-- An element at the end counts exactly when its key is new. -/
theorem firsts_concat (key : α → κ) (l : List α) (a : α) :
    firsts key (l ++ [a]) = if key a ∈ l.map key then firsts key l else firsts key l ++ [a] := by
  induction l with
  | nil => simp [firsts]
  | cons b l ih =>
    rw [List.cons_append, firsts, ih, firsts, List.map_cons]
    by_cases hl : key a ∈ l.map key
    · rw [if_pos hl, if_pos (List.mem_cons_of_mem _ hl)]
    · rw [if_neg hl, List.filter_append, List.filter_singleton]
      by_cases hb : key a = key b
      · rw [if_pos (hb ▸ List.mem_cons_self)]
        simp [hb]
      · rw [if_neg (List.not_mem_cons_of_ne_of_not_mem hb hl)]
        simp [hb]

end FirstPerKey
