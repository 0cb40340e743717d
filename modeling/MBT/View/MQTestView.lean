import MBT.Data.MParseParam
import MBT.Generate.CaseName

/-!
# View — MQTestView

`MQTestView`: the name of a case is cut at its first underscore to find the scenario whose
parameters and data algorithm are applied to the case.

* `recovers_iff`: the scenario of a case is found exactly when its name has no underscore, its path
  has an edge and no scenario before it has the same name but for case.
-/

namespace MBT
open Exec Text MJsonHandler

namespace MQTestView

/-- `equalsIgnoreCase`; `fold` takes a character to the one that stands for its cases. -/
def equalsIgnoreCase (fold : Char → Char) (s t : String) : Bool :=
  s.toList.map fold == t.toList.map fold

/-- The name that `ConvertParam` takes from a case name: what stands before the first underscore;
`substring` throws where there is none. -/
def scenarioName (caseName : String) : Except Exn String :=
  inBounds (slice caseName 0 (ArrayList.indexOf caseName.toList '_'))

/-- What `GetScenarioParam` gives to the data algorithm: its name, and the arguments of the call. -/
structure ScenarioParam where
  algo : String
  valueList : List Param
  paramSet : HashSet String

/-- The scenario at which the loop of `GetScenarioParam` breaks. -/
def findScenario (fold : Char → Char) (scenarioList : List Scenario) (scenarioName : String) :
    Option ℕ :=
  scenarioList.findIdx? fun s => equalsIgnoreCase fold scenarioName s.name

variable (mapper : ObjectMapper)

/-- What is read of the scenario that is found. -/
def readScenario (contentParams : HashSet String) (s : Scenario) :
    Except Failure ScenarioParam := do
  let algo ← getJsonValueByKey mapper s.option "data"
  let valueList ← getJsonParamList mapper s.param
  return ⟨algo.getD "align", valueList, contentParams⟩

/-- `GetScenarioParam` up to the call of the data algorithm; `contentParams` are the parameters that
the content of the case uses. -/
def getScenarioParam (fold : Char → Char) (contentParams : HashSet String)
    (scenarioList : List Scenario) (scenarioName : String) : Except Failure ScenarioParam :=
  match findScenario fold scenarioList scenarioName with
  | none => .ok ⟨"", [], .empty⟩
  | some i =>
    match scenarioList[i]? with
    | none => .ok ⟨"", [], .empty⟩
    | some s => readScenario mapper contentParams s

/-! ### The scenario of a case -/

/-- The name of the `i`-th scenario is recovered from its case, and the parameters and the algorithm
read are those of that scenario. -/
def Recovers (fold : Char → Char) (scenarioList : List Scenario) (i : ℕ) (e : Scenario)
    (edgePath : List ℤ) : Prop :=
  scenarioName (getStepPathName e.name edgePath) = .ok e.name ∧
    findScenario fold scenarioList e.name = some i ∧
      ∀ contentParams, getScenarioParam mapper fold contentParams scenarioList e.name =
        readScenario mapper contentParams e

/-- What stands before the first underscore of a text. -/
theorem scenarioName_cut {caseName : String} {n u : List Char} (h : caseName.toList = n ++ '_' :: u)
    (hn : '_' ∉ n) : scenarioName caseName = .ok (String.ofList n) := by
  have hlen : caseName.length = n.length + (u.length + 1) := by
    rw [← String.length_toList, h, List.length_append, List.length_cons]
  rw [scenarioName, h, ArrayList.indexOf, if_pos (List.mem_append_right n List.mem_cons_self),
    List.idxOf_append_of_notMem hn, List.idxOf_cons_self, slice, if_pos (by omega), h]
  simp [inBounds]

/-- The name is recovered exactly when it has no underscore and an edge follows it. -/
theorem scenarioName_getStepPathName {name : String} {edgePath : List ℤ} :
    scenarioName (getStepPathName name edgePath) = .ok name ↔ edgePath ≠ [] ∧ '_' ∉ name.toList := by
  by_cases hmem : '_' ∈ (getStepPathName name edgePath).toList
  · obtain ⟨n, u, hcut, hn⟩ := List.eq_append_cons_of_mem hmem
    rw [scenarioName_cut hcut hn, Except.ok.injEq]
    rw [getStepPathName, String.toList_append] at hcut
    constructor
    · rintro rfl
      rw [String.toList_ofList] at hcut ⊢
      refine ⟨?_, hn⟩
      rintro rfl
      exact absurd (List.append_cancel_left hcut) (List.cons_ne_nil _ _).symm
    · rintro ⟨-, hname⟩
      have hinj := CaseName.append_inj hname hn (CaseName.follows_pathInfo edgePath) (.inr rfl) hcut
      rw [← hinj.1, String.ofList_toList]
  · have hthrows : scenarioName (getStepPathName name edgePath) = .error .indexOutOfBounds := by
      rw [scenarioName, ArrayList.indexOf, if_neg hmem]
      rfl
    rw [hthrows]
    refine iff_of_false (fun h => by cases h) ?_
    rintro ⟨hpath, -⟩
    obtain ⟨e, edgePath, rfl⟩ := List.exists_cons_of_ne_nil hpath
    rw [getStepPathName, String.toList_append, CaseName.toList_pathInfo_cons] at hmem
    exact hmem (List.mem_append_right _ List.mem_cons_self)

theorem equalsIgnoreCase_self (fold : Char → Char) (s : String) :
    equalsIgnoreCase fold s s = true := beq_self_eq_true _

/-- The loop breaks at a scenario when none before it has its name. -/
theorem findScenario_eq_some {fold : Char → Char} {scenarioList : List Scenario} {i : ℕ}
    {e : Scenario} (he : scenarioList[i]? = some e) :
    findScenario fold scenarioList e.name = some i ↔
      ∀ s ∈ scenarioList.take i, equalsIgnoreCase fold e.name s.name = false := by
  obtain ⟨hi, rfl⟩ := List.getElem?_eq_some_iff.mp he
  rw [findScenario, List.findIdx?_eq_some_iff_getElem]
  constructor
  · rintro ⟨_, -, hbefore⟩ s hs
    obtain ⟨j, hj, rfl⟩ := List.mem_take_iff_getElem.mp hs
    exact Bool.eq_false_iff.mpr (hbefore j (by omega))
  · intro h
    refine ⟨hi, equalsIgnoreCase_self fold _, fun j hj => ?_⟩
    exact Bool.eq_false_iff.mp (h _ (List.mem_take_iff_getElem.mpr ⟨j, by omega, rfl⟩))

/-- **When the scenario of a case is found.**  From the name of a case, the name of its scenario is
recovered and that scenario's parameters and algorithm are read exactly when the path has an edge,
the name has no underscore and no scenario before it has the name but for case. -/
theorem recovers_iff (fold : Char → Char) (scenarioList : List Scenario) (i : ℕ) (e : Scenario)
    (edgePath : List ℤ) (he : scenarioList[i]? = some e) :
    Recovers mapper fold scenarioList i e edgePath ↔
      edgePath ≠ [] ∧ '_' ∉ e.name.toList ∧
        ∀ s ∈ scenarioList.take i, equalsIgnoreCase fold e.name s.name = false := by
  rw [Recovers, scenarioName_getStepPathName, findScenario_eq_some he, and_assoc]
  refine and_congr_right fun _ => and_congr_right fun _ => and_iff_left_of_imp fun hbefore => ?_
  intro contentParams
  rw [getScenarioParam, (findScenario_eq_some he).mpr hbefore]
  dsimp only
  rw [he]

/-- A library for which no text is a list or has a key. -/
def noMapper : ObjectMapper := ⟨fun _ => .error .mException, fun _ _ => .error .mException⟩

theorem recovers_iff_pay :
    Recovers noMapper Char.toLower [⟨"login", "", ""⟩, ⟨"pay", "", ""⟩] 1 ⟨"pay", "", ""⟩ [1, 2] ↔
      [(1 : ℤ), 2] ≠ [] ∧ '_' ∉ "pay".toList ∧
        ∀ s ∈ List.take 1 [(⟨"login", "", ""⟩ : Scenario), ⟨"pay", "", ""⟩],
          equalsIgnoreCase Char.toLower "pay" s.name = false :=
  recovers_iff noMapper Char.toLower _ 1 _ [1, 2] rfl

/-- From a case of `pay_1` the name `pay` is recovered. -/
theorem not_recovers_underscore :
    ¬ Recovers noMapper Char.toLower [⟨"pay_1", "", ""⟩] 0 ⟨"pay_1", "", ""⟩ [2] := by
  rintro ⟨hname, -⟩
  exact absurd hname (by decide)

end MQTestView

end MBT
