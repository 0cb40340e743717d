import MBT.Generate.MGenReplacedStep

/-!
# Generate — MGenPathParamSet

`MGenPathParamSet.genPathParamSet`: the names of the scenario parameters that occur in the actions
of the steps on a path.

* `exists_genPathParamSet`: the set is generated where the MBT XML has every step of the path.
-/

namespace MBT
open Exec

namespace MGenPathParamSet

/-- The characters that `.` does not match. -/
def lineTerminators : List Char := ['\n', '\r', '\u0085', '\u2028', '\u2029']

/-- The names in the matches of `MBT_SCEN_PARAM\(.*?\)`, found from left to right; `skip` characters
of a match are still to be left out. -/
def paramNames : ℕ → List Char → List (List Char)
  | _, [] => []
  | skip + 1, _ :: s => paramNames skip s
  | 0, c :: s =>
    let rest := (c :: s).drop 15
    let varName := rest.takeWhile (· ≠ ')')
    if "MBT_SCEN_PARAM(".toList.isPrefixOf (c :: s) ∧ varName.length < rest.length ∧
        varName.all (fun d => d ∉ lineTerminators) then
      varName :: paramNames (15 + varName.length) s
    else paramNames 0 s

example : paramNames 0 "f(\x7bMBT_SCEN_PARAM(a)\x7d, \x7bMBT_SCEN_PARAM(b)\x7d)".toList =
    [['a'], ['b']] := by decide

/-- The actions of each step, one behind the other; the last element of a step counts. -/
def testStepElemMap (mbtXml : List StepActions) : HashMap ℤ String :=
  mbtXml.foldl (fun m e => m.insert e.stepNumber (String.join e.actions)) ∅

/-- The turn of the loop for a step; the actions of a step that was used are cleared. -/
def addParams (acc : HashMap ℤ String × HashSet String) (stepNumber : ℤ) :
    Except Exn (HashMap ℤ String × HashSet String) := do
  let actionsStr ← Prog.nonNull (acc.1.lookup stepNumber)
  if actionsStr = "" then return acc
  return (acc.1.insert stepNumber "",
    acc.2.addAll ((paramNames 0 actionsStr.toList).map String.ofList))

/-- The names of the parameters that the steps of a path use. -/
def genPathParamSet (mbtXml : List StepActions) (stepPath : List ℤ) : Except Exn (HashSet String) :=
  Prod.snd <$> stepPath.foldlM addParams (testStepElemMap mbtXml, .empty)

/-- The loop returns where each step is in the map. -/
theorem exists_foldlM_addParams (p : List ℤ) (acc : HashMap ℤ String × HashSet String)
    (h : ∀ t ∈ p, t ∈ acc.1) : ∃ acc', p.foldlM addParams acc = .ok acc' := by
  induction p generalizing acc with
  | nil => exact ⟨acc, rfl⟩
  | cons t p ih =>
    obtain ⟨s, hs⟩ := Option.isSome_iff_exists.mp (AList.lookup_isSome.mpr (h t List.mem_cons_self))
    rw [List.foldlM_cons, addParams, hs, Prog.nonNull, ok_bind]
    split
    · exact ih _ fun u hu => h u (List.mem_cons_of_mem _ hu)
    · exact ih _ fun u hu => (AList.mem_insert _).mpr (.inr (h u (List.mem_cons_of_mem _ hu)))

/-- The names are found where each step of the path is in the MBT XML. -/
theorem exists_genPathParamSet {mbtXml : List StepActions} {p : List ℤ}
    (h : ∀ t ∈ p, ∃ e, MGenReplacedStep.stepActions mbtXml t = some e) :
    ∃ s, genPathParamSet mbtXml p = .ok s := by
  obtain ⟨acc, hacc⟩ :=
    exists_foldlM_addParams p (testStepElemMap mbtXml, HashSet.empty) fun t ht => by
      obtain ⟨e, he⟩ := h t ht
      rw [← AList.lookup_isSome, testStepElemMap,
        HashMap.lookup_foldl_insert StepActions.stepNumber fun e => String.join e.actions]
      rw [MGenReplacedStep.stepActions] at he
      rw [he]
      rfl
  exact ⟨acc.2, by rw [genPathParamSet, hacc]; rfl⟩

end MGenPathParamSet

end MBT
