import MBT.Support.Text

/-!
# Generate — MGenAction

The action class that `MGenAction` generates: each of its methods writes the call to the step log,
its arguments between quotes and nothing in them escaped.
-/

namespace MBT
open Text

/-- A call of a method of the generated class. -/
structure Action where
  name : String
  params : List String

namespace Action

/-- `paramInfo` of the generated method: a call without arguments has none. -/
def paramInfo (params : List String) : String :=
  ", ".intercalate (params.map fun param => "\"" ++ param ++ "\"")

/-- The text of an action: its name and its parameters. -/
def mergeInfo (a : Action) : String := a.name ++ "(" ++ paramInfo a.params ++ ")"

/-- The line that the call writes, without the line break at its end. -/
def line (a : Action) : String := a.mergeInfo ++ ";"

example : line ⟨"query", ["select a", "db"]⟩ = "query(\"select a\", \"db\");" := by decide

/-- The text of the parameters has no line break when none of them has one. -/
theorem breakless_paramInfo {params : List String} :
    Breakless (paramInfo params) ↔ ∀ p ∈ params, Breakless p := by
  have hquote : Breakless "\"" := by decide
  have hsep : Breakless ", " := by decide
  induction params with
  | nil => exact iff_of_true (by decide) fun p hp => nomatch hp
  | cons p params ih =>
    refine Iff.trans ?_ (Iff.trans (and_congr_right fun _ => ih) List.forall_mem_cons.symm)
    cases params with
    | nil =>
      have hnil : Breakless (paramInfo []) := by decide
      rw [paramInfo, List.map_cons, List.map_nil, String.intercalate_singleton, breakless_append,
        breakless_append]
      simp only [hquote, hnil, true_and, and_true]
    | cons q params =>
      rw [paramInfo, List.map_cons, String.intercalate_cons_of_ne_nil (by simp), ← paramInfo]
      simp only [breakless_append, hquote, hsep, true_and, and_true]

/-- The line of an action has no line break when neither its name nor a parameter has one. -/
theorem breakless_line {a : Action} :
    Breakless a.line ↔ Breakless a.name ∧ ∀ p ∈ a.params, Breakless p := by
  have hopen : Breakless "(" := by decide
  have hclose : Breakless ")" := by decide
  have hend : Breakless ";" := by decide
  simp only [line, mergeInfo, breakless_append, hopen, hclose, hend, and_true, breakless_paramInfo]

end Action

end MBT
