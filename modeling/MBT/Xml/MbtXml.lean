import MBT.Cases.MGenCase
import MBT.Generate.MGenGraph
import MBT.Generate.MGenPathParamSet
import MBT.Generate.ScenarioInfo
import MBT.View.HandleVars

/-!
# Xml — the MBT XML

The MBT XML as the tree of elements that `MGenMbtXml` builds, and the stages that read it: each goes
through the elements for itself, and parses the numbers again.

A file is here the tree that its text is parsed to.  The text that is written for a tree is parsed to
it again where no text of an element holds `]]>` or a control character, and no attribute a tab or a
line break.

* `genMbtXmlFile_readFrom`: every stage finds the steps and the scenarios that were logged.
* `hasEdge_fromClass_iff`: when the graph that is read has the edges of the one that is built from the
  methods.
-/

namespace MBT
open Exec Text MXmlParse
open MJsonHandler (ObjectMapper)
open MQTestView (VarFailure)
open MQTestActionHandler (parseInt)

/-! ### Elements -/

namespace MXmlCreate

/-- `addElement`, with the elements that are added to it. -/
def addElement (name : String) (elements : List Element) : Element := ⟨name, [], "", elements⟩

/-- `addElement` and `addElementData`. -/
def addElementData (name value : String) : Element := ⟨name, [], value, []⟩

end MXmlCreate

namespace MXmlParse

/-- `getRoot` of a file that is absent, or not to be read as XML, or has a root. -/
def getRoot : Option (Option Element) → Except VarFailure Element
  | none => .error .mException
  | some none => .error .document
  | some (some root) => .ok root

/-- The elements `TESTSTEP` of the MBT XML. -/
def testStepElems (modelElem : Element) : Except Exn (List Element) := do
  let testStepsElem ← modelElem.getSubFirstElement "teststeps"
  return testStepsElem.getSubElement "teststep"

/-- The texts of the elements `ACTION` of a step. -/
def actionList (testStepElem : Element) : Except Exn (List String) := do
  let actionsElem ← testStepElem.getSubFirstElement "actions"
  return (actionsElem.getSubElement "action").map Element.data

end MXmlParse

/-- The annotation `SCENARIO` of a method, with the method's name. -/
structure ScenarioMethod where
  name : String
  option : String
  param : String
  path : String

namespace MGenMbtXml
open MXmlCreate

/-- The element for a step that is read from the log. -/
def testStepElem (t : TestStepElem) : Element :=
  addElement "teststep" [addElementData "name" t.name, addElementData "stepnumber" t.stepNumber,
    addElementData "beginstate" t.beginState, addElementData "endstate" t.endState,
    addElementData "repeattime" t.repeatTime, addElementData "param" t.param,
    addElementData "data" t.data,
    addElement "actions" (t.actions.map (addElementData "action"))]

/-- The element of a scenario. -/
def scenarioElem (s : ScenarioMethod) : Element :=
  addElement "scenario" [addElementData "name" s.name, addElementData "option" s.option,
    addElementData "param" s.param, addElementData "route" s.path]

/-- The tree that `genMbtXmlFile` writes. -/
def modelElem (className : String) (scenMethodList : List ScenarioMethod)
    (testSteps : List TestStepElem) : Element :=
  addElement "model" [addElementData "class" className,
    addElement "scenarios" (scenMethodList.map scenarioElem),
    addElement "teststeps" (testSteps.map testStepElem)]

end MGenMbtXml

/-! ### The readers -/

variable (mapper : ObjectMapper) (file : Option (Option Element))

namespace MGenGraph

/-- The turn of the loop of `genGraphFromXML`. -/
def addStepElem (graph : MGraph) (testStepElem : Element) : Except Exn MGraph := do
  let name ← testStepElem.getSubData "name"
  let stepNumber ← parseInt (← testStepElem.getSubData "stepnumber")
  let beginState ← testStepElem.getSubData "beginstate"
  let endState ← testStepElem.getSubData "endstate"
  let repeatTime ← parseInt (← testStepElem.getSubData "repeattime")
  return addEdge graph ⟨name, stepNumber, beginState, endState, repeatTime, "", ""⟩

/-- Whether the graph is generated, and the graph. -/
def genGraphFromFile : Except Exn (Bool × MGraph) :=
  match getRoot file with
  | .error _ => .ok (false, .new)
  | .ok modelElem => do
    let graph ← (← testStepElems modelElem).foldlM addStepElem .new
    return (true, graph)

/-- `genGraphFromClass`, of the methods with the annotation `TESTSTEP`. -/
def genGraphFromClass (stepMethods : List TestStep) : Bool × MGraph :=
  if stepMethods.length = 0 then (false, .new) else (true, stepMethods.foldl addEdge .new)

end MGenGraph

namespace MGenReplacedStep

/-- The turn of the loop of `parseMbtXml`. -/
def addStepElem (m : MGenReplacedStep) (testStepElem : Element) : Except Exn MGenReplacedStep := do
  let stepNumber ← parseInt (← testStepElem.getSubData "stepnumber")
  let actionList ← actionList testStepElem
  return addActions m ⟨stepNumber, actionList⟩

/-- Reads the actions of the steps; a file that cannot be read gives none. -/
def parseMbtXml (m : MGenReplacedStep) : Except Exn MGenReplacedStep :=
  match getRoot file with
  | .error _ => .ok m
  | .ok modelElem => do (← testStepElems modelElem).foldlM addStepElem m

end MGenReplacedStep

namespace MGenPathParamSet

/-- The number and the actions of a step. -/
def readTestStep (testStepElem : Element) : Except Exn StepActions := do
  let stepNumber ← testStepElem.getSubData "stepnumber"
  let actions ← actionList testStepElem
  return ⟨← parseInt stepNumber, actions⟩

/-- The names of the parameters that the steps of a path use in a file. -/
def genPathParamSetFromFile (stepPath : List ℤ) : Except Exn (HashSet String) :=
  match getRoot file with
  | .error _ => .ok .empty
  | .ok modelElem => do genPathParamSet (← (← testStepElems modelElem).mapM readTestStep) stepPath

end MGenPathParamSet

namespace MGenScenParser

/-- The texts of a scenario. -/
def readScenario (scenarioElem : Element) : Except Exn ScenarioElem := do
  let name ← scenarioElem.getSubData "name"
  let option ← scenarioElem.getSubData "option"
  let route ← scenarioElem.getSubData "route"
  return ⟨name, option, route⟩

/-- `null` where an `MException` or a `DocumentException` is caught. -/
def parseScenarioFile : Except VarFailure (Option (List ScenarioInfo)) :=
  match getRoot file with
  | .error _ => .ok none
  | .ok modelElem => do
    let scenariosElem ← (modelElem.getSubFirstElement "scenarios").mapError .runtime
    let elems ← ((scenariosElem.getSubElement "scenario").mapM readScenario).mapError .runtime
    (parseScenario mapper elems).mapError .json

end MGenScenParser

/-- The scenarios as `MParseParam` reads them. -/
def readScenarioParam (scenarioElem : Element) : Except Exn Scenario := do
  let nameStr ← scenarioElem.getSubData "name"
  let paramStr ← scenarioElem.getSubData "param"
  return ⟨nameStr, "", paramStr⟩

/-- Every exception is caught. -/
def parseParamFile : Option (HashMap String (List Param)) :=
  match getRoot file with
  | .error _ => none
  | .ok root =>
    match (do (← root.getSubFirstElement "scenarios").elements.mapM readScenarioParam) with
    | .error _ => none
    | .ok scenarioList => parseParam mapper scenarioList

/-! ### Numbers -/

namespace MQTestActionHandler

/-- A value of a Java `int`. -/
def IsInt (n : ℤ) : Prop := -2147483648 ≤ n ∧ n ≤ 2147483647

/-- A digit from `0` to `9` has its own value. -/
theorem digit_eq_some {c : Char} (h : c.isDigit) : digit c = some (c.toNat - '0'.toNat) := by
  have hzero : '0'.toNat = 0x30 := rfl
  have hc : 0x30 ≤ c.toNat ∧ c.toNat < 0x30 + 10 := by
    rw [Char.isDigit, Bool.and_eq_true, decide_eq_true_eq, decide_eq_true_eq, ge_iff_le,
      UInt32.le_iff_toNat_le, UInt32.le_iff_toNat_le] at h
    exact ⟨h.1, Nat.lt_succ_of_le h.2⟩
  rw [digit, zeros, List.find?_cons_of_pos (by simpa using hc), Option.map_some, hzero]

/-- A number is read from its digits. -/
theorem ofDigits_eq {ds : List Char} (h : ∀ d ∈ ds, d.isDigit) (n : ℕ) :
    ofDigits n ds = Nat.ofDigitChars 10 ds n := by
  induction ds generalizing n with
  | nil => rfl
  | cons d ds ih =>
    obtain ⟨hd, hds⟩ := List.forall_mem_cons.mp h
    have hturn : ofDigits n (d :: ds) = ofDigits (10 * n + (digit d).getD 0) ds := rfl
    rw [hturn, ih hds, digit_eq_some hd, Option.getD_some, Nat.ofDigitChars_cons]

/-- The digits of a number are digits, and give it back. -/
theorem toDigits_read (n : ℕ) : (Nat.toDigits 10 n).all (fun d => (digit d).isSome) = true ∧
    ofDigits 0 (Nat.toDigits 10 n) = n := by
  have hdigit : ∀ d ∈ Nat.toDigits 10 n, d.isDigit :=
    fun d hd => Nat.isDigit_of_mem_toDigits (by decide) (by decide) hd
  constructor
  · refine List.all_eq_true.mpr fun d hd => ?_
    rw [digit_eq_some (hdigit d hd)]
    rfl
  · rw [ofDigits_eq hdigit, Nat.ofDigitChars_ten_toDigits]

theorem toDigits_ne_nil (n : ℕ) : Nat.toDigits 10 n ≠ [] := by
  intro h
  have hlen := Nat.length_toDigits_pos (b := 10) (n := n)
  rw [h] at hlen
  exact Nat.lt_irrefl 0 hlen

/-- **A number is read back.** -/
theorem parseInt_repr {n : ℤ} (h : IsInt n) : parseInt n.repr = .ok n := by
  obtain ⟨hmin, hmax⟩ := h
  cases n with
  | ofNat n =>
    have hrepr : (Int.ofNat n).repr.toList = Nat.toDigits 10 n := Nat.toList_repr
    rw [parseInt, hrepr]
    dsimp only
    -- a digit is no sign
    have hsign : ∀ c ds, Nat.toDigits 10 n = c :: ds → c ≠ '-' ∧ c ≠ '+' := by
      intro c ds hds
      have hdigit : c.isDigit = true :=
        Nat.isDigit_of_mem_toDigits (by decide) (by decide) (hds ▸ List.mem_cons_self)
      constructor <;> rintro rfl <;> exact absurd hdigit (by decide)
    split
    · rename_i ds hds
      exact absurd rfl (hsign _ ds hds).1
    · rename_i ds hds
      exact absurd rfl (hsign _ ds hds).2
    · obtain ⟨hall, hvalue⟩ := toDigits_read n
      rw [hvalue, one_mul]
      exact if_pos ⟨toDigits_ne_nil n, hall, hmin, hmax⟩
  | negSucc n =>
    have hrepr : (Int.negSucc n).repr.toList = '-' :: Nat.toDigits 10 (n + 1) := by
      rw [Int.repr_eq_if, if_neg (Int.not_le.mpr (Int.negSucc_lt_zero n)), String.toList_append,
        Nat.toList_repr]
      rfl
    have hneg : -1 * ((n + 1 : ℕ) : ℤ) = Int.negSucc n := by
      rw [Int.negSucc_eq]
      push_cast
      ring
    obtain ⟨hall, hvalue⟩ := toDigits_read (n + 1)
    rw [parseInt, hrepr]
    simp only [hvalue]
    rw [hneg]
    exact if_pos ⟨toDigits_ne_nil _, hall, hmin, hmax⟩

end MQTestActionHandler

/-! ### What was written is read -/

namespace MGenMbtXml
open MXmlCreate

/-- The elements of one name are all found. -/
theorem getSubElement_map {α : Type} (parent name : String) (f : α → Element)
    (h : ∀ a, (f a).name = name) (l : List α) :
    (addElement parent (l.map f)).getSubElement name = l.map f := by
  simp [Element.getSubElement, addElement, h]

/-- The steps of the file are found. -/
theorem testStepElems_modelElem (className : String) (scens : List ScenarioMethod)
    (testSteps : List TestStepElem) :
    testStepElems (modelElem className scens testSteps) = .ok (testSteps.map testStepElem) := by
  have hsub : (modelElem className scens testSteps).getSubFirstElement "teststeps" =
      .ok (addElement "teststeps" (testSteps.map testStepElem)) := rfl
  have hsteps : (addElement "teststeps" (testSteps.map testStepElem)).getSubElement "teststep" =
      testSteps.map testStepElem := getSubElement_map _ _ testStepElem (fun _ => rfl) testSteps
  rw [testStepElems, hsub, ok_bind, hsteps]
  rfl

/-- The actions of a step are found. -/
theorem actionList_testStepElem (t : TestStepElem) : actionList (testStepElem t) = .ok t.actions := by
  have hsub : (testStepElem t).getSubFirstElement "actions" =
      .ok (addElement "actions" (t.actions.map (addElementData "action"))) := rfl
  have hdata : Element.data ∘ addElementData "action" = id := by
    funext action
    rfl
  have hactions : (addElement "actions" (t.actions.map (addElementData "action"))).getSubElement
      "action" = t.actions.map (addElementData "action") :=
    getSubElement_map _ _ (addElementData "action") (fun _ => rfl) t.actions
  rw [actionList, hsub, ok_bind, hactions, List.map_map, hdata, List.map_id]
  rfl

variable {mapper : ObjectMapper} {className : String} {scens : List ScenarioMethod} {m : Logged}
  {ms : List Logged}

/-- The numbers of the step are values of `int`. -/
def IntNumbers (s : TestStep) : Prop :=
  MQTestActionHandler.IsInt s.stepNumber ∧ MQTestActionHandler.IsInt s.repeatTime

/-- The step as the parameter sets and the replaced steps have it. -/
def stepActions (m : Logged) : StepActions := ⟨m.1.stepNumber, m.2.map Action.line⟩

/-- The texts of a scenario that `MGenScenParser` reads. -/
def scenTexts (s : ScenarioMethod) : ScenarioElem := ⟨s.name, s.option, s.path⟩

/-- The texts of a scenario that `MParseParam` reads. -/
def scenParams (s : ScenarioMethod) : Scenario := ⟨s.name, "", s.param⟩

/-- The graph gets the edges of the step. -/
theorem addStepElem_graph (h : IntNumbers m.1) (g : MGraph) :
    MGenGraph.addStepElem g (testStepElem (elem m)) = .ok (MGenGraph.addEdge g m.1) := by
  have hname : (testStepElem (elem m)).getSubData "name" = .ok m.1.name := rfl
  have hnumber : (testStepElem (elem m)).getSubData "stepnumber" = .ok m.1.stepNumber.repr := rfl
  have hbegin : (testStepElem (elem m)).getSubData "beginstate" = .ok m.1.beginState := rfl
  have hend : (testStepElem (elem m)).getSubData "endstate" = .ok m.1.endState := rfl
  have htime : (testStepElem (elem m)).getSubData "repeattime" = .ok m.1.repeatTime.repr := rfl
  rw [MGenGraph.addStepElem, hname, hnumber, hbegin, hend, htime]
  simp only [ok_bind, MQTestActionHandler.parseInt_repr h.1, MQTestActionHandler.parseInt_repr h.2]
  rfl

/-- The step object gets the actions of the step. -/
theorem addStepElem_actions (h : IntNumbers m.1) (r : MGenReplacedStep) :
    MGenReplacedStep.addStepElem r (testStepElem (elem m)) =
      .ok (MGenReplacedStep.addActions r (stepActions m)) := by
  have hnumber : (testStepElem (elem m)).getSubData "stepnumber" = .ok m.1.stepNumber.repr := rfl
  rw [MGenReplacedStep.addStepElem, hnumber, ok_bind, MQTestActionHandler.parseInt_repr h.1, ok_bind,
    actionList_testStepElem]
  rfl

/-- The number and the actions of a step are read back. -/
theorem readTestStep_elem (h : IntNumbers m.1) :
    MGenPathParamSet.readTestStep (testStepElem (elem m)) = .ok (stepActions m) := by
  have hnumber : (testStepElem (elem m)).getSubData "stepnumber" = .ok m.1.stepNumber.repr := rfl
  rw [MGenPathParamSet.readTestStep, hnumber, ok_bind, actionList_testStepElem, ok_bind,
    MQTestActionHandler.parseInt_repr h.1]
  rfl

/-- What the stages read from the file are the scenarios and the steps. -/
structure ReadFrom (file : Option (Option Element)) (scens : List ScenarioMethod)
    (steps : List Logged) : Prop where
  graph : MGenGraph.genGraphFromFile file =
    .ok (true, MGenGraph.genGraphFromXML (steps.map Prod.fst))
  actions : ∀ r, MGenReplacedStep.parseMbtXml file r =
    .ok ((steps.map stepActions).foldl MGenReplacedStep.addActions r)
  pathParams : ∀ stepPath, MGenPathParamSet.genPathParamSetFromFile file stepPath =
    MGenPathParamSet.genPathParamSet (steps.map stepActions) stepPath
  scenInfos : ∀ mapper, MGenScenParser.parseScenarioFile mapper file =
    (MGenScenParser.parseScenario mapper (scens.map scenTexts)).mapError .json
  scenParams : ∀ mapper, parseParamFile mapper file = parseParam mapper (scens.map scenParams)

/-- A loop whose turns all return, over elements that were made of a list. -/
theorem foldlM_map_eq_ok {α β σ : Type} {f : σ → β → Except Exn σ} {g : σ → α → σ} {h : α → β}
    {l : List α} (hturn : ∀ a ∈ l, ∀ s, f s (h a) = .ok (g s a)) (s : σ) :
    (l.map h).foldlM f s = .ok (l.foldl g s) := by
  induction l generalizing s with
  | nil => rfl
  | cons a l ih =>
    rw [List.map_cons, List.foldlM_cons, hturn a List.mem_cons_self, ok_bind,
      ih fun b hb => hturn b (List.mem_cons_of_mem a hb)]
    rfl

/-- A loop over images whose turns return. -/
theorem mapM_map_eq_ok {α β γ : Type} {f : β → Except Exn γ} {g : α → γ} {h : α → β} {l : List α}
    (hturn : ∀ a ∈ l, f (h a) = .ok (g a)) : (l.map h).mapM f = .ok (l.map g) := by
  rw [mapM_eq_ok, List.forall₂_map_left_iff, List.forall₂_map_right_iff, List.forall₂_same]
  exact hturn

/-- **The MBT XML is read back**: each of the five readers finds what was written. -/
theorem readFrom_modelElem (className : String) (scens : List ScenarioMethod)
    (h : ∀ m ∈ ms, IntNumbers m.1) :
    ReadFrom (some (some (modelElem className scens (ms.map elem)))) scens ms := by
  have hsteps : testStepElems (modelElem className scens (ms.map elem)) =
      .ok (ms.map fun m => testStepElem (elem m)) := by
    rw [testStepElems_modelElem, List.map_map]
    rfl
  have hscenarios : (modelElem className scens (ms.map elem)).getSubFirstElement "scenarios" =
      .ok (addElement "scenarios" (scens.map scenarioElem)) := rfl
  refine ⟨?_, fun r => ?_, fun stepPath => ?_, fun mapper => ?_, fun mapper => ?_⟩
  · rw [MGenGraph.genGraphFromFile, getRoot]
    dsimp only
    rw [hsteps, ok_bind, foldlM_map_eq_ok fun m hm g => addStepElem_graph (h m hm) g,
      MGenGraph.genGraphFromXML, List.foldl_map]
    rfl
  · rw [MGenReplacedStep.parseMbtXml, getRoot]
    dsimp only
    rw [hsteps, ok_bind, foldlM_map_eq_ok fun m hm r => addStepElem_actions (h m hm) r, List.foldl_map]
  · rw [MGenPathParamSet.genPathParamSetFromFile, getRoot]
    dsimp only
    rw [hsteps, ok_bind, mapM_map_eq_ok fun m hm => readTestStep_elem (h m hm), ok_bind]
  · have hsub : (addElement "scenarios" (scens.map scenarioElem)).getSubElement "scenario" =
        scens.map scenarioElem := getSubElement_map _ _ scenarioElem (fun _ => rfl) scens
    have hread : (scens.map scenarioElem).mapM MGenScenParser.readScenario = .ok (scens.map scenTexts) :=
      mapM_map_eq_ok fun s _ => rfl
    rw [MGenScenParser.parseScenarioFile, getRoot]
    dsimp only
    rw [hscenarios]
    simp only [Except.mapError, ok_bind, hsub, hread]
  · have hread : (scens.map scenarioElem).mapM readScenarioParam = .ok (scens.map MGenMbtXml.scenParams) :=
      mapM_map_eq_ok fun s _ => rfl
    rw [parseParamFile, getRoot]
    dsimp only
    rw [hscenarios, ok_bind, addElement, hread]

/-- **From the methods to the readers.**  Where the numbers of the steps count them and no text has a
line break, the step log is read into an MBT XML from which every stage reads the steps, in the order of
their numbers, and the scenarios. -/
theorem genMbtXmlFile_readFrom (className : String) (scens : List ScenarioMethod) (hne : ms ≠ [])
    (hcount : (ms.map fun m => m.1.stepNumber).Perm (numbers ms.length))
    (hsteps : ∀ m ∈ ms, m.1.Breakless ∧ IntNumbers m.1)
    (hactions : ∀ m ∈ ms, ∀ a ∈ m.2, Breakless a.name ∧ ∀ p ∈ a.params, Breakless p) :
    ∃ testSteps q, genMbtXmlFile (logRun ms) none = (.ok (some testSteps), none) ∧ q.Perm ms ∧
      q.Pairwise (fun a b => a.1.stepNumber ≤ b.1.stepNumber) ∧
        ReadFrom (some (some (modelElem className scens testSteps))) scens q := by
  have hperm : (sorted ms).Perm ms := sortMethods_perm hcount
  have hne' : sorted ms ≠ [] := fun hnil => hne (List.nil_perm.mp (hnil ▸ hperm))
  simp only [← Action.breakless_line] at hactions
  have hread : readLog (some (text ((sorted ms).flatMap recordLines))) = .ok ((sorted ms).map elem) :=
    readLog_records (fun m hm => (hsteps m (hperm.mem_iff.mp hm)).1)
      fun m hm => hactions m (hperm.mem_iff.mp hm)
  refine ⟨(sorted ms).map elem, sorted ms, ?_, hperm, pairwise_sortMethods ms,
    readFrom_modelElem className scens fun m hm => (hsteps m (hperm.mem_iff.mp hm)).2⟩
  have hopened : (logRun ms).opened = true := rfl
  have hdeleted : (logRun ms).deleted = true := rfl
  rw [genMbtXmlFile, genStepLogFile_logRun, if_neg hne']
  dsimp only
  rw [if_pos hopened, hread, hdeleted, if_pos rfl]

theorem genMbtXmlFile_readFrom_pay :
    ∃ testSteps q, genMbtXmlFile (logRun payLogged) none = (.ok (some testSteps), none) ∧
      q.Perm payLogged ∧ q.Pairwise (fun a b => a.1.stepNumber ≤ b.1.stepNumber) ∧
        ReadFrom (some (some (modelElem "Pay" [⟨"buy", "", "", ""⟩] testSteps)))
          [⟨"buy", "", "", ""⟩] q :=
  genMbtXmlFile_readFrom "Pay" [⟨"buy", "", "", ""⟩] (List.cons_ne_nil _ _) (by decide)
    (by unfold TestStep.Breakless IntNumbers MQTestActionHandler.IsInt; decide) (by decide)

end MGenMbtXml

/-! ### The graph of the class -/

namespace MGenGraph
open MGenMbtXml

/-- The two steps ask for the same edge. -/
structure SameEdge (d d' : StepEdge) : Prop where
  begName : d.begName = d'.begName
  endName : d.endName = d'.endName
  stepName : d.step.name = d'.step.name
  stepNumber : d.step.stepNumber = d'.step.stepNumber
  repeatTime : max 1 d.step.repeatTime = max 1 d'.step.repeatTime

/-- The graph has the edges that the steps ask for, and no others. -/
theorem exists_hasEdge_iff {steps : List StepStates} {d : StepEdge} :
    (∃ number, HasEdge (genGraphFromXML (steps.map StepStates.step)) number d) ↔
      ∃ d' ∈ edgesOf steps, SameEdge d' d := by
  constructor
  · rintro ⟨number, b, i, hb, hnumber, htarget, hname, hstep, hrepeat⟩
    obtain ⟨k, e, hk, hbeg, htarget', hname', hstep', hrepeat'⟩ :=
      (holds_steps steps).exists_inserted hb hnumber
    rw [List.getElem?_map, Option.map_eq_some_iff] at hk
    obtain ⟨d', hd', rfl⟩ := hk
    have hmem := List.mem_of_getElem? hd'
    rw [StepEdge.call] at hbeg htarget' hname' hstep' hrepeat'
    rw [(trim_of_mem_edgesOf hmem).1] at hbeg
    rw [(trim_of_mem_edgesOf hmem).2] at htarget'
    -- the number of the state that the edge enters stands for one name
    have hholds := holds_steps steps
    have hend : d'.endName ∈ statesOf steps := by
      have hknown := (hholds.known d'.call (List.mem_map_of_mem hmem)).2
      rwa [StepEdge.call, (trim_of_mem_edgesOf hmem).2] at hknown
    have hnum := hholds.nodeNum d'.endName
    rw [if_pos hend] at hnum
    have hnum' := (htarget.symm.trans htarget').trans hnum
    have hsame := (hholds.nodeNum_iff.mp hnum).symm.trans (hholds.nodeNum_iff.mp hnum')
    refine ⟨d', hmem, hbeg, Option.some.inj hsame, ?_, ?_, ?_⟩
    · exact Option.some.inj (hname'.symm.trans hname)
    · exact Option.some.inj (hstep'.symm.trans hstep)
    · have htime := Option.some.inj (hrepeat'.symm.trans hrepeat)
      rw [← htime]
      split
      · rename_i hone
        rw [hone]
        rfl
      · rfl
  · rintro ⟨d', hd', hsame⟩
    obtain ⟨k, hk⟩ := List.mem_iff_getElem?.mp hd'
    refine ⟨(k : ℕ) + 1, ?_⟩
    have hedge := hasEdge_of_getElem? hk
    rw [HasEdge, hsame.begName, hsame.endName, hsame.stepName, hsame.stepNumber, hsame.repeatTime]
      at hedge
    exact hedge

/-- A step, and the calls that its method logs. -/
def logged (p : StepStates × List Action) : Logged := (p.1.step, p.2)

/-- Each step has an edge. -/
theorem exists_edge (s : StepStates) : ∃ d ∈ s.edges, d.step = s.step := by
  obtain ⟨b, hb⟩ := List.exists_mem_of_ne_nil _ s.begins_ne
  obtain ⟨e, he⟩ := List.exists_mem_of_ne_nil _ s.ends_ne
  exact ⟨⟨trim b, trim e, s.step⟩, List.mem_flatMap.mpr ⟨b, hb, List.mem_map.mpr ⟨e, he, rfl⟩⟩, rfl⟩

/-- An edge of a step carries this step. -/
theorem step_of_mem_edges {s : StepStates} {d : StepEdge} (hd : d ∈ s.edges) : d.step = s.step := by
  obtain ⟨b, -, hd⟩ := List.mem_flatMap.mp hd
  obtain ⟨e, -, rfl⟩ := List.mem_map.mp hd
  rfl

/-- The steps of the two lists ask for the same edges exactly when they are the same steps, where one
list is a part of the other and the steps have different names. -/
theorem sameEdges_iff {steps part : List StepStates} (hpart : part ⊆ steps)
    (hnames : (steps.map fun s => s.step.name).Nodup) :
    (∀ d, (∃ d' ∈ edgesOf part, SameEdge d' d) ↔ ∃ d' ∈ edgesOf steps, SameEdge d' d) ↔
      steps ⊆ part := by
  constructor
  · intro h s hs
    obtain ⟨d, hd, hstep⟩ := exists_edge s
    obtain ⟨d', hd', hsame⟩ := (h d).mpr ⟨d, List.mem_flatMap.mpr ⟨s, hs, hd⟩, ⟨rfl, rfl, rfl, rfl, rfl⟩⟩
    obtain ⟨s', hs', hd'⟩ := List.mem_flatMap.mp hd'
    have hname : s'.step.name = s.step.name := by
      rw [← step_of_mem_edges hd', hsame.stepName, hstep]
    rwa [← List.inj_on_of_nodup_map hnames (hpart hs') hs hname]
  · intro h d
    have hmem : ∀ d', d' ∈ edgesOf part ↔ d' ∈ edgesOf steps := by
      intro d'
      simp only [edgesOf, List.mem_flatMap]
      constructor
      · rintro ⟨s, hs, hd'⟩
        exact ⟨s, hpart hs, hd'⟩
      · rintro ⟨s, hs, hd'⟩
        exact ⟨s, h hs, hd'⟩
    simp only [hmem]

/-- **The two ways to the graph.**  The graph that is read from the MBT XML has the same edges as the
one that is built from the methods of the class, but for the numbers of its states and edges, exactly
when the numbers of the steps count them from one. -/
theorem hasEdge_fromClass_iff (className : String) (scens : List ScenarioMethod)
    (steps : List (StepStates × List Action)) (hnames : (steps.map fun p => p.1.step.name).Nodup)
    (hints : ∀ p ∈ steps, IntNumbers p.1.step) :
    ∃ graph, genGraphFromFile (some (some (modelElem className scens
          ((sorted (steps.map logged)).map elem)))) = .ok (true, graph) ∧
        ((∀ d, (∃ k, HasEdge graph k d) ↔
            ∃ k, HasEdge (genGraphFromClass (steps.map fun p => p.1.step)).2 k d) ↔
          (steps.map fun p => p.1.step.stepNumber).Perm (numbers steps.length)) := by
  let part := sortMethods (fun p : StepStates × List Action => p.1.step.stepNumber) steps
  have hpart : ∀ p ∈ part, p ∈ steps := fun p hp => mem_of_mem_sortMethods hp
  have hsorted : sorted (steps.map logged) = part.map logged := sortMethods_map logged steps
  have hread : ReadFrom (some (some (modelElem className scens ((part.map logged).map elem)))) scens
      (part.map logged) := by
    refine readFrom_modelElem className scens fun m hm => ?_
    obtain ⟨p, hp, rfl⟩ := List.mem_map.mp hm
    exact hints p (hpart p hp)
  rw [hsorted]
  refine ⟨_, hread.graph, ?_⟩
  have hclass : (genGraphFromClass (steps.map fun p => p.1.step)).2 =
      genGraphFromXML ((steps.map Prod.fst).map StepStates.step) := by
    rw [genGraphFromClass, List.map_map]
    cases steps with
    | nil => rfl
    | cons p steps => rfl
  have hxml : (part.map logged).map Prod.fst = (part.map Prod.fst).map StepStates.step := by
    rw [List.map_map, List.map_map]
    rfl
  have hnodup : ((steps.map Prod.fst).map fun s => s.step.name).Nodup := by
    rw [List.map_map]
    exact hnames
  have hsub : part.map Prod.fst ⊆ steps.map Prod.fst := List.map_subset _ hpart
  simp only [hclass, hxml, exists_hasEdge_iff]
  rw [sameEdges_iff hsub hnodup]
  constructor
  · -- no step is dropped, so none of the numbers that are looked for is missing
    intro hall
    refine length_sortMethods_iff.mp (Nat.le_antisymm ?_ ?_)
    · have hnumbers : part.map (fun p => p.1.step.stepNumber) = (numbers steps.length).filter
          fun k => k ∈ steps.map fun p => p.1.step.stepNumber := map_sortMethods steps
      have hlength := congrArg List.length hnumbers
      rw [List.length_map] at hlength
      refine hlength.trans_le ((List.length_filter_le _ _).trans_eq ?_)
      rw [numbers, List.length_map, List.length_range]
    · have hle := (List.subperm_of_subset (hnodup.of_map _) hall).length_le
      rwa [List.length_map, List.length_map] at hle
  · intro hperm
    exact ((sortMethods_perm hperm).map Prod.fst).symm.subset

/-- The steps `pay` and `add`, with lists of states. -/
def paySteps : List (StepStates × List Action) :=
  [(⟨⟨"pay", 2, "Cart", "Paid", 1, "", ""⟩, ["Cart"], ["Paid"], by decide, by decide, by decide,
      by decide, by decide⟩, [⟨"click", ["pay"]⟩]),
    (⟨⟨"add", 1, "Shop, Cart", "Cart", 2, "", ""⟩, ["Shop", " Cart"], ["Cart"], by decide, by decide,
      by decide, by decide, by decide⟩, [])]

theorem hasEdge_fromClass_iff_pay :
    ∃ graph, genGraphFromFile (some (some (modelElem "Pay" []
          ((sorted (paySteps.map logged)).map elem)))) = .ok (true, graph) ∧
        ((∀ d, (∃ k, HasEdge graph k d) ↔
            ∃ k, HasEdge (genGraphFromClass (paySteps.map fun p => p.1.step)).2 k d) ↔
          (paySteps.map fun p => p.1.step.stepNumber).Perm (numbers paySteps.length)) :=
  hasEdge_fromClass_iff "Pay" [] paySteps (by decide)
    (by unfold IntNumbers MQTestActionHandler.IsInt; decide)

end MGenGraph

end MBT
