import MBT.Support.Split

/-!
# Support — TextLines

Texts that are put together from lines, each with its line end.

* `split_unlines`: splitting such a text gives its lines, without the empty ones at the end.
* `exists_unlines`, `intercalate_unlines`: each text with a line end behind it is one of them.
-/

namespace TextLines
open Exec Text Pattern

/-- The text of some lines. -/
def unlines (ls : List String) : String := String.join (ls.map (· ++ "\n"))

/-- No line has a line end in it. -/
def Single (ls : List String) : Prop := ∀ l ∈ ls, '\n' ∉ l.toList

theorem unlines_nil : unlines [] = "" := rfl

theorem unlines_cons (l : String) (ls : List String) : unlines (l :: ls) = l ++ "\n" ++ unlines ls := by
  rw [unlines, List.map_cons, String.join_cons, unlines]

theorem unlines_append (ls ks : List String) : unlines (ls ++ ks) = unlines ls ++ unlines ks := by
  induction ls with
  | nil => rw [List.nil_append, unlines_nil, String.empty_append]
  | cons l ls ih => rw [List.cons_append, unlines_cons, unlines_cons, ih, String.append_assoc,
    String.append_assoc, String.append_assoc]

/-- The lines joined by line ends, an empty one behind them. -/
theorem unlines_eq_intercalate (ls : List String) : unlines ls = "\n".intercalate (ls ++ [""]) := by
  induction ls with
  | nil => rfl
  | cons l ls ih =>
    rw [unlines_cons, ih, List.cons_append, String.intercalate_cons_of_ne_nil (by simp)]

/-- The lines of a text, without the empty ones at the end. -/
theorem split_unlines {ls : List String} (hls : Single ls) (hne : ls ≠ []) :
    split (unlines ls) "\n" = ls.rdropWhile (· = "") := by
  obtain ⟨l, ls, rfl⟩ := List.exists_cons_of_ne_nil hne
  have hrest : ∀ p ∈ ls ++ [""], '\n' ∉ p.toList := by
    intro p hp
    rcases List.mem_append.mp hp with hp | hp
    · exact hls p (List.mem_cons_of_mem l hp)
    · rw [List.mem_singleton.mp hp]
      exact List.not_mem_nil
  rw [unlines_eq_intercalate, List.cons_append, split_intercalate rfl
    (fun r => startsIn_eq_zero (hls l List.mem_cons_self) ('\n' :: r)) hrest (by simp),
    ← List.cons_append, List.rdropWhile_concat_pos _ _ _ (by rfl)]

theorem rdropWhile_concat {ls : List String} (h : ls.getLast? ≠ some "") :
    (ls ++ [""]).rdropWhile (· = "") = ls := by
  rw [List.rdropWhile_concat_pos _ _ _ (by rfl), rdropWhile_eq_self h]

/-- Each text is made of lines. -/
theorem exists_unlines (s : String) :
    ∃ l ls, s = "\n".intercalate (l :: ls) ∧ Single (l :: ls) := by
  obtain ⟨cs, rfl⟩ : ∃ cs, s = String.ofList cs := ⟨s.toList, String.ofList_toList.symm⟩
  induction cs with
  | nil => exact ⟨"", [], rfl, List.forall_mem_singleton.mpr List.not_mem_nil⟩
  | cons c cs ih =>
    obtain ⟨l, ls, hs, hsingle⟩ := ih
    have hcons : String.ofList (c :: cs) = String.ofList [c] ++ String.ofList cs := by
      rw [← String.ofList_append]
      rfl
    by_cases hc : c = '\n'
    · subst hc
      refine ⟨"", l :: ls, ?_, List.forall_mem_cons.mpr ⟨List.not_mem_nil, hsingle⟩⟩
      rw [String.intercalate_cons_of_ne_nil (List.cons_ne_nil l ls), ← hs, hcons, String.empty_append]
    · refine ⟨String.ofList [c] ++ l, ls, ?_, ?_⟩
      · rw [String.intercalate_cons_append, ← hs, hcons]
      · rw [Single, List.forall_mem_cons] at hsingle ⊢
        refine ⟨?_, hsingle.2⟩
        rw [String.toList_append, String.toList_ofList, List.mem_append, List.mem_singleton, not_or]
        exact ⟨Ne.symm hc, hsingle.1⟩

/-- Joined lines with a line end behind them. -/
theorem intercalate_unlines (l : String) (ls : List String) :
    "\n".intercalate (l :: ls) ++ "\n" = unlines (l :: ls) := by
  induction ls generalizing l with
  | nil => rw [String.intercalate_singleton, unlines_cons, unlines_nil, String.append_empty]
  | cons k ls ih =>
    rw [String.intercalate_cons_of_ne_nil (List.cons_ne_nil k ls), String.append_assoc, ih,
      unlines_cons l]

end TextLines
