import Mathlib.Data.List.Basic
import Mathlib.Data.List.Induction
import Mathlib.Data.List.Nodup
import Mathlib.Data.List.Perm.Basic

/-!
# Support — Intern

Names that are numbered in the order in which they first occur, and the rows of a list by the name
that each of its elements has.

* `idxOf_intern`: a name keeps its number.
* `rowsOf_intern`, `rowsOf_concat`: a new name adds an empty row, a new element stands at the end of
  the row of its name.
* `flatten_rowsOf`: the rows have the elements of the list.
-/

namespace Intern

variable {κ α β : Type} [DecidableEq κ]

/-! ### Numbered names -/

/-- The names with one more, unless it is one of them. -/
def intern (names : List κ) (a : κ) : List κ := if a ∈ names then names else names ++ [a]

/-- The names that occur in a list, by their first occurrence. -/
def interned (l : List κ) : List κ := l.foldl intern []

variable {names : List κ} {a b : κ}

/-- A known name changes nothing. -/
theorem intern_of_mem (h : a ∈ names) : intern names a = names := if_pos h

/-- A new name goes to the end. -/
theorem intern_of_notMem (h : a ∉ names) : intern names a = names ++ [a] := if_neg h

/-- The names are the old ones and the new one. -/
theorem mem_intern : b ∈ intern names a ↔ b ∈ names ∨ b = a := by
  by_cases h : a ∈ names
  · rw [intern_of_mem h]
    refine (or_iff_left_of_imp ?_).symm
    rintro rfl
    exact h
  · rw [intern_of_notMem h, List.mem_append, List.mem_singleton]

/-- No name comes twice. -/
theorem nodup_intern (h : names.Nodup) (a : κ) : (intern names a).Nodup := by
  by_cases ha : a ∈ names
  · rwa [intern_of_mem ha]
  · rw [intern_of_notMem ha]
    rw [← List.concat_eq_append]
    exact h.concat ha

/-- Names keep their numbers. -/
theorem idxOf_intern (h : b ∈ names) (a : κ) : (intern names a).idxOf b = names.idxOf b := by
  by_cases ha : a ∈ names
  · rw [intern_of_mem ha]
  · rw [intern_of_notMem ha, List.idxOf_append_of_mem h]

theorem interned_concat (l : List κ) (a : κ) : interned (l ++ [a]) = intern (interned l) a := by
  rw [interned, List.foldl_append]
  rfl

/-- The names are those of the list. -/
theorem mem_interned {l : List κ} : a ∈ interned l ↔ a ∈ l := by
  induction l using List.reverseRecOn with
  | nil => rfl
  | append_singleton l b ih => rw [interned_concat, mem_intern, ih, List.mem_append, List.mem_singleton]

/-! ### Rows -/

variable (key : β → κ) (X : β → α)

/-- The elements of a list in rows, one for each name. -/
def rowsOf (names : List κ) (l : List β) : List (List α) :=
  names.map fun a => (l.filter fun b => key b = a).map X

variable {key X} {l : List β}

theorem rowsOf_congr {Y : β → α} (h : ∀ b ∈ l, X b = Y b) : rowsOf key X names l = rowsOf key Y names l := by
  refine List.map_congr_left fun a _ => List.map_congr_left fun b hb => ?_
  exact h b (List.mem_filter.mp hb).1

/-- A new name adds an empty row. -/
theorem rowsOf_intern (hl : ∀ b ∈ l, key b ∈ names) (ha : a ∉ names) :
    rowsOf key X (intern names a) l = rowsOf key X names l ++ [[]] := by
  have hnone : (l.filter fun b => key b = a) = [] := by
    refine List.filter_eq_nil_iff.mpr fun b hb hkey => ha ?_
    rw [← of_decide_eq_true hkey]
    exact hl b hb
  rw [intern_of_notMem ha, rowsOf, List.map_append, List.map_singleton, hnone]
  rfl

/-- A new element stands at the end of its row. -/
theorem rowsOf_concat {b : β} (hnames : names.Nodup) (hb : key b ∈ names) :
    (rowsOf key X names l).modify (names.idxOf (key b)) (· ++ [X b]) = rowsOf key X names (l ++ [b]) := by
  refine List.ext_getElem? fun i => ?_
  rw [List.getElem?_modify, rowsOf, rowsOf, List.getElem?_map, List.getElem?_map]
  cases hi : names[i]? with
  | none => rfl
  | some a =>
    have hidx : names.idxOf (key b) = i ↔ key b = a := by
      constructor
      · rintro rfl
        rw [List.getElem?_idxOf hb] at hi
        exact Option.some.inj hi
      · rintro rfl
        obtain ⟨hlt, hget⟩ := List.getElem?_eq_some_iff.mp hi
        rw [← hget, hnames.idxOf_getElem]
    rw [Option.map_some, Option.map_some, Option.map_eq_map, Option.map_some, List.filter_append,
      List.map_append]
    by_cases hkey : key b = a
    · rw [if_pos (hidx.mpr hkey), List.filter_cons_of_pos (by simpa using hkey), List.filter_nil,
        List.map_singleton]
    · rw [if_neg (mt hidx.mp hkey), List.filter_cons_of_neg (by simpa using hkey), List.filter_nil,
        List.map_nil, List.append_nil]

/-- There is a row for each name. -/
theorem length_rowsOf : (rowsOf key X names l).length = names.length := List.length_map _

/-- The rows of two functions have the same lengths. -/
theorem map_length_rowsOf {γ : Type} (Y : β → γ) :
    (rowsOf key X names l).map List.length = (rowsOf key Y names l).map List.length := by
  rw [rowsOf, rowsOf, List.map_map, List.map_map]
  refine List.map_congr_left fun a _ => ?_
  simp only [Function.comp_apply, List.length_map]

/-- What holds of all elements holds of all entries. -/
theorem forall_mem_rowsOf {P : α → Prop} (h : ∀ b ∈ l, P (X b)) :
    ∀ r ∈ rowsOf key X names l, ∀ x ∈ r, P x := by
  intro r hr x hx
  obtain ⟨a, -, rfl⟩ := List.mem_map.mp hr
  obtain ⟨b, hb, rfl⟩ := List.mem_map.mp hx
  exact h b (List.mem_filter.mp hb).1

/-- The rows have the elements of the list. -/
theorem flatten_rowsOf (hnames : names.Nodup) (hl : ∀ b ∈ l, key b ∈ names) :
    (rowsOf key X names l).flatten.Perm (l.map X) := by
  have hperm : ∀ names : List κ, names.Nodup →
      (rowsOf key X names l).flatten.Perm ((l.filter fun b => key b ∈ names).map X) := by
    intro names hnames
    induction names with
    | nil =>
      rw [List.filter_eq_nil_iff.mpr fun b _ => by simp]
      exact .refl _
    | cons a names ih =>
      rw [List.nodup_cons] at hnames
      have hself : (l.filter fun b => key b ∈ a :: names).filter (fun b => key b = a) =
          l.filter fun b => key b = a := by
        rw [List.filter_filter]
        refine List.filter_congr fun b _ => ?_
        by_cases h : key b = a <;> simp [h]
      have hothers : (l.filter fun b => key b ∈ a :: names).filter (fun b => ¬ key b = a) =
          l.filter fun b => key b ∈ names := by
        rw [List.filter_filter]
        refine List.filter_congr fun b _ => ?_
        by_cases h : key b = a
        · simp [h, hnames.1]
        · simp [h]
      have hsplit := List.filter_append_perm (fun b => decide (key b = a))
        (l.filter fun b => key b ∈ a :: names)
      simp only [← decide_not] at hsplit
      rw [hself, hothers] at hsplit
      rw [rowsOf, List.map_cons, List.flatten_cons]
      refine ((ih hnames.2).append_left _).trans ?_
      rw [← List.map_append]
      exact hsplit.map X
  have hall : (l.filter fun b => key b ∈ names) = l :=
    List.filter_eq_self.mpr fun b hb => decide_eq_true (hl b hb)
  rw [← hall]
  have hrows := hperm names hnames
  rwa [hall] at hrows ⊢

end Intern
