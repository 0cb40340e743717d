import MBT.Data.MGenData
import MBT.Support.Split

/-!
# Data — ValueLists

`MBasicApi.getSubList`, on the texts that list values.

* `getSubList_returns`: it never throws.
* `getSubList_bracketed`: of a list it gives all but the empty values at the end.
* `getSubList_iff`: it gives every value exactly where there is one only or the last is not empty.
-/

namespace MBT
open Exec Text Pattern

namespace MBasicApi
open MDataAlgo (isList valueList)

/-- `none` is `null`. -/
def getSubList (s : String) : Except Exn (Option (List String)) := do
  if isList s then
    let valueList ← MDataAlgo.getSubList s
    return some valueList
  else return none

/-- The text that lists the values. -/
def bracketed (vs : List String) : String := "[" ++ ",".intercalate vs ++ "]"

/-- `getSubList` throws nothing. -/
theorem getSubList_returns (s : String) : ∃ r, getSubList s = .ok r := by
  rw [getSubList]
  by_cases hlist : isList s = true
  · obtain ⟨vs, hvs⟩ := MDataAlgo.getSubList_ok hlist
    rw [if_pos hlist, hvs]
    exact ⟨some vs, rfl⟩
  · rw [if_neg hlist]
    exact ⟨none, rfl⟩

/-! ### Texts of values -/

variable {v : String} {vs : List String}

/-- The characters of a list in brackets. -/
theorem toList_bracketed (vs : List String) :
    (bracketed vs).toList = ['['] ++ ((",".intercalate vs).toList ++ [']']) := by
  rw [bracketed, String.toList_append, String.toList_append, List.append_assoc]
  rfl

/-- The brackets are no blanks. -/
theorem trim_bracketed (vs : List String) : trim (bracketed vs) = bracketed vs := by
  have hopen : decide ('[' ≤ ' ') = false := rfl
  have hclose : decide (']' ≤ ' ') = false := rfl
  have hdrop : (bracketed vs).toList.dropWhile (· ≤ ' ') = (bracketed vs).toList := by
    rw [toList_bracketed, List.singleton_append, List.dropWhile_cons, hopen, if_neg Bool.false_ne_true]
  have hreverse :
      (bracketed vs).toList.reverse.dropWhile (· ≤ ' ') = (bracketed vs).toList.reverse := by
    rw [toList_bracketed, ← List.append_assoc, List.reverse_append, List.reverse_singleton,
      List.singleton_append, List.dropWhile_cons, hclose, if_neg Bool.false_ne_true]
  rw [trim, hdrop, hreverse, List.reverse_reverse, String.ofList_toList]

/-- A text in brackets is taken as a list. -/
theorem isList_bracketed (vs : List String) : isList (bracketed vs) = true := by
  rw [isList, trim_bracketed, startsWith, endsWith, toList_bracketed, Bool.and_eq_true,
    List.isPrefixOf_iff_prefix, List.isSuffixOf_iff_suffix]
  refine ⟨List.prefix_append ['['] _, ?_⟩
  rw [← List.append_assoc]
  exact List.suffix_append _ [']']

/-- The brackets are taken away and nothing else. -/
theorem split_of_bracketed (vs : List String) :
    MDataAlgo.getSubList (bracketed vs) = .ok (split (",".intercalate vs) ",") := by
  have hlength : ((bracketed vs).length : ℤ) - 1 = (['['] ++ (",".intercalate vs).toList).length := by
    rw [← String.length_toList, toList_bracketed]
    simp only [List.length_append, List.length_singleton]
    omega
  have hslice : slice (bracketed vs) 1 ((bracketed vs).length - 1) = some (",".intercalate vs) := by
    rw [hlength]
    exact (slice_middle (toList_bracketed vs)).trans (by rw [String.ofList_toList])
  rw [MDataAlgo.getSubList, trim_bracketed, hslice]
  rfl

/-- What is read from a list in brackets, whose values have no comma. -/
theorem getSubList_bracketed (hcomma : ∀ w ∈ v :: vs, ',' ∉ w.toList) :
    MDataAlgo.getSubList (bracketed (v :: vs)) =
      .ok (if vs = [] then [v] else (v :: vs).rdropWhile (· = "")) := by
  have hv := startsIn_eq_zero (t := []) (hcomma v List.mem_cons_self)
  rw [split_of_bracketed]
  by_cases hvs : vs = []
  · rw [if_pos hvs, hvs, String.intercalate_singleton, split_of_occurrences]
    have hnone := hv []
    rw [startsIn_nil] at hnone
    exact hnone
  · rw [if_neg hvs, split_intercalate rfl (fun r => hv (',' :: r))
      (fun w hw => hcomma w (List.mem_cons_of_mem v hw)) hvs]

/-- **Every text is read, and a list of values is read whole** exactly where it has one value only
or its last value is not empty; then the two algorithms, too, see every value. -/
theorem getSubList_iff (hcomma : ∀ w ∈ v :: vs, ',' ∉ w.toList) :
    (∀ s, ∃ r, getSubList s = .ok r) ∧
    (getSubList (bracketed (v :: vs)) = .ok (some (v :: vs)) ∧
        (∀ p : Param, p.value = some (bracketed (v :: vs)) → valueList p = .ok (v :: vs)) ↔
      vs = [] ∨ vs.getLast? ≠ some "") := by
  refine ⟨getSubList_returns, ?_⟩
  have hlist := isList_bracketed (v :: vs)
  have hget : getSubList (bracketed (v :: vs)) =
      .ok (some (if vs = [] then [v] else (v :: vs).rdropWhile (· = ""))) := by
    rw [getSubList, if_pos hlist, getSubList_bracketed hcomma]
    rfl
  have hvalues : ∀ p : Param, p.value = some (bracketed (v :: vs)) →
      valueList p = .ok (if vs = [] then [v] else (v :: vs).rdropWhile (· = "")) := by
    intro p hp
    rw [valueList, hp, Prog.nonNull, ok_bind, if_pos hlist, getSubList_bracketed hcomma]
  constructor
  · rintro ⟨hall, -⟩
    by_cases hvs : vs = []
    · exact .inl hvs
    · refine .inr fun hlast => ?_
      rw [hget, if_neg hvs] at hall
      have hshort :=
        length_rdropWhile_lt (l := v :: vs) ((List.getLast?_cons_of_ne_nil hvs).trans hlast)
      rw [Option.some.inj (Except.ok.inj hall)] at hshort
      exact absurd hshort (lt_irrefl _)
  · intro h
    have hall : (if vs = [] then [v] else (v :: vs).rdropWhile (· = "")) = v :: vs := by
      by_cases hvs : vs = []
      · rw [if_pos hvs, hvs]
      · rw [if_neg hvs, rdropWhile_eq_self]
        rw [List.getLast?_cons_of_ne_nil hvs]
        exact h.resolve_left hvs
    rw [hget, hall]
    exact ⟨rfl, fun p hp => (hvalues p hp).trans (by rw [hall])⟩

theorem getSubList_iff_inner :
    (∀ w ∈ ["", "", "1"], ',' ∉ w.toList) ∧ getSubList "[,,1]" = .ok (some ["", "", "1"]) :=
  ⟨by decide, ((@getSubList_iff "" ["", "1"] (by decide)).2.mpr (.inr (by decide))).1⟩

/-- An empty value at the end is lost. -/
theorem not_getSubList_last :
    ¬ ∀ v vs, (∀ w ∈ v :: vs, ',' ∉ w.toList) →
      getSubList (bracketed (v :: vs)) = .ok (some (v :: vs)) := by
  intro h
  have hcode : getSubList (bracketed ["1", ""]) = .ok (some ["1"]) := by decide +kernel
  have hclaim := h "1" [""] (by decide)
  rw [hcode] at hclaim
  cases hclaim

end MBasicApi

end MBT
