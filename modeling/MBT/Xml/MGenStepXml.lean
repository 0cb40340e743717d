import MBT.Generate.ParamNames
import MBT.View.StepRows
import MBT.Xml.MbtXml

/-!
# Xml — MGenStepXml

The two files of the step variables: the combinations, which `MGenReplacedStep` reads, and the
variables, which `handleVarsAlign` of the QTest view reads.  As for the MBT XML, a file is the tree
that its text is parsed to.

* `genStepXml_combinations`: the combinations of every step are read back, one for each choice of
  values of the parameters that its actions use.
* `genStepXml_variables`: when the view reads the parameters of a step back.
-/

namespace MBT
open Exec Text MXmlParse MDataAlgo
open MJsonHandler (ObjectMapper getJsonParamList)
open MQTestView (VarFailure VarHandler liftRuntime liftJson algoRows)
open MQTestActionHandler (parseInt)

namespace MXmlCreate

/-- `addElement` and `addAttr`; no attribute is added for `null`. -/
def addElementAttr (name : String) (attrs : List (String × Option String)) (elements : List Element) :
    Element :=
  ⟨name, attrs.filterMap fun a => a.2.map fun value => (a.1, value), "", elements⟩

end MXmlCreate

namespace MGenStepXml
open MXmlCreate

/-- The two trees that are written. -/
structure StepXml where
  varComb : Element
  stepVar : Element

/-- An element `VAR` for a parameter. -/
def varElem (p : Param) (value : Option String) : Element :=
  addElementAttr "var" [("name", p.name), ("value", value), ("type", p.type)] []

/-- The elements `VAR` of a combination, for the parameters that the row has a value of. -/
def combinationElem (paramList : List Param) (row : Row) : Element :=
  addElement "combination" (paramList.filterMap fun paramInfoMap =>
    (paramInfoMap.name.bind fun name => row.lookup name).map fun value =>
      varElem paramInfoMap (some value))

/-- The element of a step in the file of the combinations. -/
def varCombStepElem (name stepNumber : String) (combinations : List Element) : Element :=
  addElementAttr "teststep" [("name", some name), ("stepnumber", some stepNumber)]
    [addElement "combinations" combinations]

/-- The element of a step in the file of the parameters. -/
def stepVarStepElem (name data : String) (paramList : List Param) : Element :=
  addElementAttr "teststep" [("name", some name), ("data", some data)]
    (paramList.map fun p => varElem p p.value)

variable (o : VisitOrder ℕ) (mapper : ObjectMapper)

/-- The turn of the loop over the steps: what is added to the two trees. -/
def genStep (testStepElem : Element) : VarHandler (Element × Element) := do
  let name ← liftRuntime (testStepElem.getSubData "name")
  let stepNumber ← liftRuntime (testStepElem.getSubData "stepnumber")
  let actions ← liftRuntime (actionList testStepElem)
  let paramSet := genStepParamSet (String.join actions)
  let param ← liftRuntime (testStepElem.getSubData "param")
  let paramList ← liftJson (getJsonParamList mapper param)
  let data ← liftRuntime (testStepElem.getSubData "data")
  let paramComMap ← algoRows data paramList paramSet
  let paramComMap := paramComMap.getD ∅
  let combinations ← (o.visit paramComMap.keySet).mapM fun idx => do
    let row ← liftRuntime (Prog.nonNull (paramComMap.lookup idx))
    return combinationElem paramList row
  return (varCombStepElem name stepNumber combinations, stepVarStepElem name data paramList)

/-- The elements of both files, step by step. -/
def genElems (file : Option (Option Element)) : VarHandler StepXml :=
  match getRoot file with
  | .error e => throw e
  | .ok modelElem => do
    let elems ← liftRuntime (testStepElems modelElem)
    let pairs ← elems.mapM (genStep o mapper)
    return ⟨addElement "teststeps" (pairs.map Prod.fst), addElement "teststeps" (pairs.map Prod.snd)⟩

/-- The exceptions that `genStepXml` catches. -/
def caught : VarFailure → Bool
  | .mException | .document | .json .mException => true
  | .json _ | .runtime _ => false

/-- `none` where the method returns `false`. -/
def genStepXml (file : Option (Option Element)) : VarHandler (Option StepXml) := fun a =>
  match (genElems o mapper file).run a with
  | .ok xml a' => .ok (some xml) a'
  | .error e a' => if caught e then .ok none a' else .error e a'

end MGenStepXml

/-! ### The reader of the combinations -/

namespace MGenReplacedStep

/-- The variables of an element `COMBINATION`. -/
def readComb (combElem : Element) : Vars :=
  (combElem.getSubElement "var").map fun varElem =>
    (varElem.getAttrValue "name", varElem.getAttrValue "value")

/-- The turn of the loop of `parseCombXml`. -/
def addCombElem (m : MGenReplacedStep) (testStepElem : Element) : Except Exn MGenReplacedStep := do
  let stepName := testStepElem.getAttrValue "name"
  let stepNumber ← parseInt (testStepElem.getAttrValue "stepnumber")
  let combsElem ← testStepElem.getSubFirstElement "combinations"
  return addCombs m ⟨stepNumber, stepName, (combsElem.getSubElement "combination").map readComb⟩

/-- Reads the combinations of a file; a file that cannot be read gives none. -/
def parseCombXml (file : Option (Option Element)) (m : MGenReplacedStep) :
    Except Exn MGenReplacedStep :=
  match getRoot file with
  | .error _ => .ok m
  | .ok testStepsElem => (testStepsElem.getSubElement "teststep").foldlM addCombElem m

/-- The constructor. -/
def newFromFiles (mbtXml stepVarCombXml : Option (Option Element)) : Except Exn MGenReplacedStep := do
  let m ← parseCombXml stepVarCombXml ⟨∅, ∅, ∅, ∅, ∅, [], [], ""⟩
  parseMbtXml mbtXml m

end MGenReplacedStep

/-! ### The combinations of a step -/

namespace MGenStepXml
open MXmlCreate MGenMbtXml MDataAlgoMag

/-- The parameters of the list that the actions of the step use. -/
def used (l : List Param) (m : Logged) : List Param := l.filter (inSet (stepParamSet (stepActions m)))

/-- The algorithm that the step names. -/
def algo (m : Logged) : MDataAlgoName := MGenData.algorithm m.1.data

/-- The call for the step. -/
def call (l : List Param) (m : Logged) : MDataAlgoMag.Call := ⟨l, stepParamSet (stepActions m), false⟩

/-- The algorithms after the call for the step. -/
def nextAlgos (mapper : ObjectMapper) (a : AlgoMap) (m : Logged) : AlgoMap :=
  match getJsonParamList mapper m.1.param with
  | .error _ => a
  | .ok l => Function.update a (algo m) ((genData (algo m) (call l m)).exec (a (algo m)))

/-- The algorithms after the calls for some steps. -/
def algosAfter (mapper : ObjectMapper) (a : AlgoMap) (before : List Logged) : AlgoMap :=
  before.foldl (nextAlgos mapper) a

/-- The parameters of the step can be read, and so can the values of those that are used. -/
def StepReadable (mapper : ObjectMapper) (m : Logged) : Prop :=
  ∃ l, getJsonParamList mapper m.1.param = .ok l ∧ Readable (algo m) (call l m)

/-- The variables of a row, in the order of the list. -/
def varsOf (l : List Param) (row : Row) : Vars :=
  l.filterMap fun p => p.name.bind fun name => (row.lookup name).map fun value => (name, value)

variable {o : VisitOrder ℕ} {mapper : ObjectMapper} {a a' : AlgoMap} {m : Logged} {ms : List Logged}

/-- The elements for a step whose call has returned these rows. -/
def stepElems (o : VisitOrder ℕ) (l : List Param) (rows : HashMap ℕ Row) (m : Logged) :
    Element × Element :=
  (varCombStepElem m.1.name m.1.stepNumber.repr
      ((o.visit rows.keySet).map fun idx => combinationElem l ((rows.lookup idx).getD ∅)),
    stepVarStepElem m.1.name m.1.data l)

/-- The elements of the rows, by their numbers. -/
theorem run_combinations (l : List Param) (rows : HashMap ℕ Row) (a : AlgoMap) {is : List ℕ}
    (h : ∀ i ∈ is, i ∈ rows.keys) :
    (is.mapM (fun idx => do
      let row ← liftRuntime (Prog.nonNull (rows.lookup idx))
      return combinationElem l row) : VarHandler (List Element)).run a =
        .ok (is.map fun idx => combinationElem l ((rows.lookup idx).getD ∅)) a := by
  induction is with
  | nil => rfl
  | cons i is ih =>
    obtain ⟨row, hrow⟩ := Option.isSome_iff_exists.mp
      (AList.lookup_isSome.mpr (h i List.mem_cons_self))
    have hturn : (do
        let row ← liftRuntime (Prog.nonNull (rows.lookup i))
        return combinationElem l row : VarHandler Element).run a = .ok (combinationElem l row) a := by
      rw [hrow]
      rfl
    rw [List.mapM_cons, MQTestView.run_bind_ok hturn,
      MQTestView.run_bind_ok (ih fun j hj => h j (List.mem_cons_of_mem i hj)), List.map_cons, hrow]
    rfl

/-- What the turn for a step reads. -/
theorem genStep_eq (o : VisitOrder ℕ) (mapper : ObjectMapper) (m : Logged) :
    genStep o mapper (testStepElem (elem m)) = (do
      let paramList ← liftJson (getJsonParamList mapper m.1.param)
      let paramComMap ← algoRows m.1.data paramList (stepParamSet (stepActions m))
      let paramComMap := paramComMap.getD ∅
      let combinations ← (o.visit paramComMap.keySet).mapM fun idx => do
        let row ← liftRuntime (Prog.nonNull (paramComMap.lookup idx))
        return combinationElem paramList row
      return (varCombStepElem m.1.name m.1.stepNumber.repr combinations,
        stepVarStepElem m.1.name m.1.data paramList)) := by
  rw [genStep, actionList_testStepElem]
  rfl

/-- **The turn for a step.** -/
theorem run_genStep {l : List Param} {r : Option (HashMap ℕ Row)} {d : MDataAlgo}
    (hl : getJsonParamList mapper m.1.param = .ok l)
    (hcall : (genData (algo m) (call l m)).run (a (algo m)) = .ok r d) :
    (genStep o mapper (testStepElem (elem m))).run a =
      .ok (stepElems o l (r.getD ∅) m) (nextAlgos mapper a m) := by
  have hnext : nextAlgos mapper a m = Function.update a (algo m) d := by
    rw [nextAlgos, hl]
    dsimp only
    rw [Prog.exec_ok hcall]
  have hrows : (algoRows m.1.data l (stepParamSet (stepActions m))).run a =
      .ok r (Function.update a (algo m) d) := MQTestView.run_algoRows_ok hcall
  rw [genStep_eq, hl, hnext]
  have hjson : (liftJson (.ok l) : VarHandler (List Param)).run a = .ok l a := rfl
  rw [MQTestView.run_bind_ok hjson, MQTestView.run_bind_ok hrows]
  dsimp only
  rw [MQTestView.run_bind_ok (run_combinations l (r.getD ∅) _ fun i hi => (o.mem_visit).mp hi)]
  rfl

/-- A step that is written can be read, and its rows can be generated. -/
theorem of_run_genStep {p : Element × Element}
    (h : (genStep o mapper (testStepElem (elem m))).run a = .ok p a') :
    ∃ l r d, getJsonParamList mapper m.1.param = .ok l ∧
      (genData (algo m) (call l m)).run (a (algo m)) = .ok r d := by
  rw [genStep_eq] at h
  obtain ⟨l, a₁, hjson, hrest⟩ := MQTestView.of_run_bind h
  obtain ⟨hl, rfl⟩ := MQTestView.of_run_liftJson hjson
  obtain ⟨r, a₂, hrows, -⟩ := MQTestView.of_run_bind hrest
  obtain ⟨d, hd⟩ := MQTestView.of_run_algoRows hrows
  exact ⟨l, r, d, hl, hd⟩

/-- A call returns from any state where the values are read, and from none where they are not. -/
theorem exists_run_iff {l : List Param} (d : MDataAlgo) :
    (∃ r d', (genData (algo m) (call l m)).run d = .ok r d') ↔ Readable (algo m) (call l m) := by
  constructor
  · rintro ⟨r, d', hrun⟩
    by_contra hnot
    by_cases hnil : l = []
    · -- an empty list has no values
      subst hnil
      refine hnot ?_
      cases algo m with
      | discards => trivial
      | align => exact fun _ p hp => absurd hp List.not_mem_nil
    · exact (throws_of_not_readable hnil hnot).not_ok hrun
  · intro h
    exact returns_of_readable h d

/-- The elements for the step, when the algorithms are in the state `a`. -/
def Done (o : VisitOrder ℕ) (mapper : ObjectMapper) (a : AlgoMap) (m : Logged) (p : Element × Element) :
    Prop :=
  ∃ l r d, getJsonParamList mapper m.1.param = .ok l ∧
    (genData (algo m) (call l m)).run (a (algo m)) = .ok r d ∧ p = stepElems o l (r.getD ∅) m

/-- The elements for the steps, one step after another from the state `a` of the algorithms. -/
inductive Generates (o : VisitOrder ℕ) (mapper : ObjectMapper) :
    AlgoMap → List Logged → List (Element × Element) → Prop where
  | nil (a : AlgoMap) : Generates o mapper a [] []
  | cons {a : AlgoMap} {m : Logged} {ms : List Logged} {p : Element × Element}
      {ps : List (Element × Element)} : Done o mapper a m p →
      Generates o mapper (nextAlgos mapper a m) ms ps → Generates o mapper a (m :: ms) (p :: ps)

/-- **The loop over the steps** returns exactly when every step can be read. -/
theorem run_genSteps (o : VisitOrder ℕ) (mapper : ObjectMapper) (ms : List Logged) (a : AlgoMap) :
    ((∃ ps a', ((ms.map fun m => testStepElem (elem m)).mapM (genStep o mapper)).run a = .ok ps a') ↔
      ∀ m ∈ ms, StepReadable mapper m) ∧
    ∀ ps a', ((ms.map fun m => testStepElem (elem m)).mapM (genStep o mapper)).run a = .ok ps a' →
      Generates o mapper a ms ps := by
  induction ms generalizing a with
  | nil =>
    refine ⟨iff_of_true ⟨[], a, rfl⟩ (List.forall_mem_nil _), fun ps a' h => ?_⟩
    cases h
    exact .nil a
  | cons m ms ih =>
    obtain ⟨hiff, hspec⟩ := ih (nextAlgos mapper a m)
    rw [List.map_cons, List.mapM_cons]
    refine ⟨⟨?_, fun hall => ?_⟩, fun ps a' h => ?_⟩
    · rintro ⟨ps, a', h⟩
      obtain ⟨p, a₁, hp, h⟩ := MQTestView.of_run_bind h
      obtain ⟨l, r, d, hl, hcall⟩ := of_run_genStep hp
      rw [run_genStep hl hcall] at hp
      cases hp
      obtain ⟨ps', a₂, hps, -⟩ := MQTestView.of_run_bind h
      refine List.forall_mem_cons.mpr ⟨⟨l, hl, (exists_run_iff _).mp ⟨r, d, hcall⟩⟩, ?_⟩
      exact hiff.mp ⟨ps', a₂, hps⟩
    · obtain ⟨⟨l, hl, hread⟩, hrest⟩ := List.forall_mem_cons.mp hall
      obtain ⟨r, d, hcall⟩ := (exists_run_iff (a (algo m))).mpr hread
      obtain ⟨ps, a', hps⟩ := hiff.mpr hrest
      refine ⟨stepElems o l (r.getD ∅) m :: ps, a', ?_⟩
      rw [MQTestView.run_bind_ok (run_genStep hl hcall), MQTestView.run_bind_ok hps]
      rfl
    · obtain ⟨p, a₁, hp, h⟩ := MQTestView.of_run_bind h
      obtain ⟨l, r, d, hl, hcall⟩ := of_run_genStep hp
      rw [run_genStep hl hcall] at hp
      cases hp
      obtain ⟨ps', a₂, hps, h⟩ := MQTestView.of_run_bind h
      cases h
      exact .cons ⟨l, r, d, hl, hcall, rfl⟩ (hspec ps' _ hps)

/-! ### What the combinations say -/

/-- The name is left in the working row of `discards` from before. -/
def LeftBound (mapper : ObjectMapper) (a : AlgoMap) (before : List Logged) (n : String) : Prop :=
  n ∈ (a .discards).dataMap ∨ ∃ m ∈ before, algo m = .discards ∧
    ∃ l, getJsonParamList mapper m.1.param = .ok l ∧ n ∈ bound (call l m)

/-- The names that the steps before have left in the working row. -/
theorem mem_dataMap_algosAfter (mapper : ObjectMapper) (a : AlgoMap) (before : List Logged) (n : String) :
    n ∈ (algosAfter mapper a before .discards).dataMap ↔ LeftBound mapper a before n := by
  induction before generalizing a with
  | nil => simp [algosAfter, LeftBound]
  | cons m before ih =>
    have hstep : n ∈ (nextAlgos mapper a m .discards).dataMap ↔
        n ∈ (a .discards).dataMap ∨ algo m = .discards ∧
          ∃ l, getJsonParamList mapper m.1.param = .ok l ∧ n ∈ bound (call l m) := by
      rw [nextAlgos]
      cases hl : getJsonParamList mapper m.1.param with
      | error e => simp
      | ok l =>
        by_cases hm : algo m = .discards
        · simp [hm, mem_dataMap_genData]
        · simp [hm, Function.update_of_ne (Ne.symm hm)]
    have hafter : algosAfter mapper a (m :: before) = algosAfter mapper (nextAlgos mapper a m) before := rfl
    rw [hafter, ih, LeftBound, LeftBound, hstep, List.exists_mem_cons_iff, or_assoc]

/-- What is read of the element of a step: its number, its name, and its combinations.  There is one
for each choice of values of the parameters that are used, in some order; the other parameters of the
list are bound as they were left from before. -/
structure Combined (mapper : ObjectMapper) (a : AlgoMap) (before : List Logged) (m : Logged)
    (c : StepCombs) : Prop where
  stepNumber : c.stepNumber = m.1.stepNumber
  stepName : c.stepName = m.1.name
  combinations : ∃ l, getJsonParamList mapper m.1.param = .ok l ∧
    ((∃ p ∈ used l m, valueList p = .ok []) → c.combinations = []) ∧
    ∀ values, Lists (used l m) values → ∃ (rows : List Row) (left : Row),
      c.combinations.Perm (rows.map (varsOf l)) ∧
      List.Forall₂ (fun choice row => Binds (used l m) choice row ∧ Outside (used l m) left row)
        (rowChoices (algo m) values) rows ∧
      ∀ n, n ∈ left ↔ algo m = .discards ∧ LeftBound mapper a before n

/-- The combinations that are written for the rows. -/
def combOf (o : VisitOrder ℕ) (l : List Param) (rows : HashMap ℕ Row) (m : Logged) : StepCombs :=
  ⟨m.1.stepNumber, m.1.name, (o.visit rows.keySet).map fun idx => varsOf l ((rows.lookup idx).getD ∅)⟩

/-- The element of a row is read back. -/
theorem readComb_combinationElem (l : List Param) (row : Row) :
    MGenReplacedStep.readComb (combinationElem l row) = varsOf l row := by
  rw [MGenReplacedStep.readComb, varsOf, Element.getSubElement, combinationElem, addElement,
    List.filter_eq_self.mpr, List.map_filterMap]
  · refine List.filterMap_congr fun p _ => ?_
    cases hn : p.name with
    | none => rfl
    | some n =>
      rw [Option.bind_some, Option.bind_some, Option.map_map]
      refine congrArg (fun f => (row.lookup n).map f) ?_
      funext value
      rw [Function.comp_apply, varElem, addElementAttr, hn]
      rfl
  · intro e he
    obtain ⟨p, -, hp⟩ := List.mem_filterMap.mp he
    obtain ⟨value, -, rfl⟩ := Option.map_eq_some_iff.mp hp
    rfl

/-- The element of a step is read back. -/
theorem addCombElem_stepElems (h : MQTestActionHandler.IsInt m.1.stepNumber) (l : List Param)
    (rows : HashMap ℕ Row) (r : MGenReplacedStep) :
    MGenReplacedStep.addCombElem r (stepElems o l rows m).1 =
      .ok (MGenReplacedStep.addCombs r (combOf o l rows m)) := by
  have hname : (stepElems o l rows m).1.getAttrValue "name" = m.1.name := rfl
  have hnumber : (stepElems o l rows m).1.getAttrValue "stepnumber" = m.1.stepNumber.repr := rfl
  have hcombs : (stepElems o l rows m).1.getSubFirstElement "combinations" =
      .ok (addElement "combinations"
        ((o.visit rows.keySet).map fun idx => combinationElem l ((rows.lookup idx).getD ∅))) := rfl
  have hsub := getSubElement_map "combinations" "combination"
    (fun idx => combinationElem l ((rows.lookup idx).getD ∅)) (fun _ => rfl) (o.visit rows.keySet)
  rw [MGenReplacedStep.addCombElem, hname, hnumber, MQTestActionHandler.parseInt_repr h, ok_bind, hcombs,
    ok_bind, hsub, List.map_map]
  have hread : MGenReplacedStep.readComb ∘ (fun idx => combinationElem l ((rows.lookup idx).getD ∅)) =
      fun idx => varsOf l ((rows.lookup idx).getD ∅) := by
    funext idx
    exact readComb_combinationElem l _
  rw [hread]
  rfl

/-- The keys of a numbered map are the numbers below its size. -/
theorem keys_perm_range {rows : HashMap ℕ Row} (h : Dense rows) :
    rows.keys.Perm (List.range rows.keys.length) := by
  refine (List.perm_ext_iff_of_nodup rows.keys_nodup List.nodup_range).mpr fun i => ?_
  rw [List.mem_range, ← h i]
  rfl

/-- A numbered map is as long as its list. -/
theorem length_eq_of_lookup {rows : HashMap ℕ Row} (h : Dense rows) {added : List Row}
    (hadded : ∀ k, rows.lookup k = added[k]?) : rows.keys.length = added.length := by
  have hlt : ∀ k, k < rows.keys.length ↔ k < added.length := by
    intro k
    rw [← h k, ← AList.lookup_isSome, hadded]
    simp
  exact Nat.le_antisymm (not_lt.mp fun h => lt_irrefl _ ((hlt _).mp h))
    (not_lt.mp fun h => lt_irrefl _ ((hlt _).mpr h))

/-- The rows, visited in any order. -/
theorem map_visit_perm (o : VisitOrder ℕ) {rows : HashMap ℕ Row} (h : Dense rows) {added : List Row}
    (hadded : ∀ k, rows.lookup k = added[k]?) {β : Type} (f : Row → β) :
    ((o.visit rows.keySet).map fun idx => f ((rows.lookup idx).getD ∅)).Perm (added.map f) := by
  have hrange : (List.range rows.keys.length).map (fun idx => f ((rows.lookup idx).getD ∅)) =
      added.map f := by
    rw [length_eq_of_lookup h hadded]
    refine List.ext_getElem (by simp) fun i hi _ => ?_
    have hlt : i < added.length := by simpa using hi
    simp [hadded, hlt]
  rw [← hrange]
  exact ((o.perm _).trans (keys_perm_range h)).map _

/-- The combinations that are written are those asked for. -/
theorem combined_combOf (o : VisitOrder ℕ) {before : List Logged} {l : List Param}
    {r : Option (HashMap ℕ Row)} {d : MDataAlgo} (hnames : (l.map Param.name).Nodup)
    (hl : getJsonParamList mapper m.1.param = .ok l)
    (hcall : (genData (algo m) (call l m)).run (algosAfter mapper a before (algo m)) = .ok r d) :
    Combined mapper a before m (combOf o l (r.getD ∅) m) := by
  have hleft : ∀ n, n ∈ leftover (algo m) (algosAfter mapper a before (algo m)) ↔
      algo m = .discards ∧ LeftBound mapper a before n := by
    intro n
    cases halgo : algo m with
    | discards => exact (mem_dataMap_algosAfter mapper a before n).trans (and_iff_right rfl).symm
    | align => exact iff_of_false (AList.notMem_empty n) fun h => by cases h.1
  refine ⟨rfl, rfl, l, hl, ?_⟩
  rcases of_run_genData hcall with ⟨hnil, rfl⟩ | ⟨hne, rows, rfl, hdense⟩
  · -- an empty list has no rows
    have hnil' : l = [] := hnil
    subst hnil'
    have hempty : (combOf o [] ((none : Option (HashMap ℕ Row)).getD ∅) m).combinations = [] := by
      have hvisit : o.visit (∅ : HashMap ℕ Row).keySet = [] := (o.perm _).eq_nil
      rw [combOf, Option.getD_none, hvisit, List.map_nil]
    refine ⟨fun _ => hempty, fun values hvalues => ?_⟩
    have hvalues' : values = [] := (lists_eq_nil hvalues).mpr rfl
    subst hvalues'
    refine ⟨[], _, ?_, ?_, hleft⟩
    · rw [hempty, List.map_nil]
    · cases algo m <;> exact .nil
  · refine ⟨fun hnone => ?_, fun values hvalues => ?_⟩
    · have hkeys : rows.keys = [] := by
        refine List.length_eq_zero_iff.mp (Nat.eq_zero_of_not_pos fun hpos => ?_)
        obtain ⟨p, hp, hvs⟩ := hnone
        exact ((fruitful_iff_of_run hcall).mp hpos).2 p hp hvs
      have hperm : (o.visit rows.keySet).Perm rows.keys := o.perm rows.keySet
      rw [hkeys] at hperm
      have hvisit : o.visit rows.keySet = [] := hperm.eq_nil
      rw [combOf, Option.getD_some, hvisit, List.map_nil]
    · obtain ⟨added, hadded, hrows⟩ := rows_of_call hnames hvalues hcall
      exact ⟨added, _, map_visit_perm o hdense hadded (varsOf l), hrows, hleft⟩

/-- The elements of the steps are read one by one. -/
theorem of_generates {before : List Logged} {ps : List (Element × Element)} {b : AlgoMap}
    (h : Generates o mapper b ms ps) (hb : b = algosAfter mapper a before)
    (hints : ∀ m ∈ ms, IntNumbers m.1)
    (hnames : ∀ m ∈ ms, ∀ l, getJsonParamList mapper m.1.param = .ok l → (l.map Param.name).Nodup) :
    ∃ combs : List StepCombs,
      (∀ r, (ps.map Prod.fst).foldlM MGenReplacedStep.addCombElem r =
        .ok (combs.foldl MGenReplacedStep.addCombs r)) ∧
      combs.length = ms.length ∧ ∀ (i : ℕ) m c, ms[i]? = some m → combs[i]? = some c →
        Combined mapper a (before ++ ms.take i) m c := by
  induction h generalizing before with
  | nil b => exact ⟨[], fun r => rfl, rfl, fun i m c hm => by cases hm⟩
  | @cons b m ms p ps hdone _ ih =>
    obtain ⟨l, r, d, hl, hcall, rfl⟩ := hdone
    obtain ⟨hint, hints⟩ := List.forall_mem_cons.mp hints
    obtain ⟨hname, hnames⟩ := List.forall_mem_cons.mp hnames
    have hnext : nextAlgos mapper b m = algosAfter mapper a (before ++ [m]) := by
      rw [hb, algosAfter, algosAfter, List.foldl_append]
      rfl
    obtain ⟨combs, hread, hlen, hcombs⟩ := ih hnext hints hnames
    refine ⟨combOf o l (r.getD ∅) m :: combs, fun q => ?_, congrArg Nat.succ hlen, fun i k c hk hc => ?_⟩
    · rw [List.map_cons, List.foldlM_cons, addCombElem_stepElems hint.1, ok_bind, hread]
      rfl
    · cases i with
      | zero =>
        cases hk
        cases hc
        rw [hb] at hcall
        rw [List.take_zero, List.append_nil]
        exact combined_combOf o (hname l hl) hl hcall
      | succ i =>
        have hcomb := hcombs i k c hk hc
        rwa [List.append_assoc] at hcomb

/-- Each element is one of a step. -/
theorem name_of_generates {ps : List (Element × Element)} (h : Generates o mapper a ms ps) :
    ∀ p ∈ ps, p.1.name = "teststep" := by
  induction h with
  | nil a => exact List.forall_mem_nil _
  | cons hdone _ ih =>
    obtain ⟨l, r, d, -, -, rfl⟩ := hdone
    exact List.forall_mem_cons.mpr ⟨rfl, ih⟩

/-- The trees for the elements of the steps. -/
def xmlOf (ps : List (Element × Element)) : StepXml :=
  ⟨addElement "teststeps" (ps.map Prod.fst), addElement "teststeps" (ps.map Prod.snd)⟩

/-- **A run of `genStepXml`** on the MBT XML of the steps. -/
theorem run_genStepXml_iff {className : String} {scens : List ScenarioMethod} {xml : StepXml} :
    (∃ a', (genStepXml o mapper (some (some (modelElem className scens (ms.map elem))))).run a =
        .ok (some xml) a') ↔
      ∃ ps a', ((ms.map fun m => testStepElem (elem m)).mapM (genStep o mapper)).run a = .ok ps a' ∧
        xml = xmlOf ps := by
  have helems : genElems o mapper (some (some (modelElem className scens (ms.map elem)))) =
      ((ms.map fun m => testStepElem (elem m)).mapM (genStep o mapper) >>= fun ps =>
        pure (xmlOf ps)) := by
    rw [genElems, getRoot]
    dsimp only
    rw [testStepElems_modelElem, List.map_map]
    rfl
  constructor
  · rintro ⟨a', h⟩
    rw [EStateM.run, genStepXml, helems] at h
    split at h
    · rename_i xml' a₁ hrun
      cases h
      obtain ⟨ps, a₂, hps, hpure⟩ := MQTestView.of_run_bind hrun
      cases hpure
      exact ⟨ps, _, hps, rfl⟩
    · split at h <;> cases h
  · rintro ⟨ps, a', hps, rfl⟩
    refine ⟨a', ?_⟩
    rw [EStateM.run, genStepXml, helems, MQTestView.run_bind_ok hps]
    rfl

/-- What the object reads of the two files. -/
theorem newFromFiles_xmlOf (className : String) (scens : List ScenarioMethod)
    {ps : List (Element × Element)} (hgen : Generates o mapper a ms ps)
    (hints : ∀ m ∈ ms, IntNumbers m.1)
    (hnames : ∀ m ∈ ms, ∀ l, getJsonParamList mapper m.1.param = .ok l → (l.map Param.name).Nodup) :
    ∃ combs, MGenReplacedStep.newFromFiles
        (some (some (modelElem className scens (ms.map elem)))) (some (some (xmlOf ps).varComb)) =
          .ok (.new combs (ms.map stepActions)) ∧
      combs.length = ms.length ∧ ∀ (i : ℕ) m c, ms[i]? = some m → combs[i]? = some c →
        Combined mapper a (ms.take i) m c := by
  have hstart : a = algosAfter mapper a [] := rfl
  obtain ⟨combs, hread, hlen, hcombs⟩ := of_generates hgen hstart hints hnames
  refine ⟨combs, ?_, hlen, hcombs⟩
  have hsub : (xmlOf ps).varComb.getSubElement "teststep" = ps.map Prod.fst := by
    refine List.filter_eq_self.mpr fun e he => ?_
    obtain ⟨p, hp, rfl⟩ := List.mem_map.mp he
    exact decide_eq_true (name_of_generates hgen p hp)
  rw [MGenReplacedStep.newFromFiles, MGenReplacedStep.parseCombXml, getRoot]
  dsimp only
  rw [hsub, hread, ok_bind, (readFrom_modelElem className scens hints).actions]
  rfl

/-- **The combinations of the steps.**  Both files are written exactly when the parameters of every
step can be read.  Whenever they are, the object that reads them and the MBT XML back has, for each step
in order, its number, its name and one combination for each choice of values of the parameters that its
actions use.  With `discards`, a combination has a value of each other parameter too that an earlier call
has left bound. -/
theorem genStepXml_combinations (o : VisitOrder ℕ) (mapper : ObjectMapper) (className : String)
    (scens : List ScenarioMethod) (ms : List Logged) (a : AlgoMap) (hints : ∀ m ∈ ms, IntNumbers m.1)
    (hnames : ∀ m ∈ ms, ∀ l, getJsonParamList mapper m.1.param = .ok l → (l.map Param.name).Nodup) :
    ((∃ xml a', (genStepXml o mapper (some (some (modelElem className scens (ms.map elem))))).run a =
      .ok (some xml) a') ↔ ∀ m ∈ ms, StepReadable mapper m) ∧
    ∀ xml a', (genStepXml o mapper (some (some (modelElem className scens (ms.map elem))))).run a =
      .ok (some xml) a' → ∃ combs,
        MGenReplacedStep.newFromFiles (some (some (modelElem className scens (ms.map elem))))
          (some (some xml.varComb)) = .ok (.new combs (ms.map stepActions)) ∧
        combs.length = ms.length ∧ ∀ (i : ℕ) m c, ms[i]? = some m → combs[i]? = some c →
          Combined mapper a (ms.take i) m c := by
  obtain ⟨hiff, hspec⟩ := run_genSteps o mapper ms a
  refine ⟨?_, fun xml a' hrun => ?_⟩
  · rw [← hiff]
    constructor
    · rintro ⟨xml, a', hrun⟩
      obtain ⟨ps, a₁, hps, -⟩ := run_genStepXml_iff.mp ⟨a', hrun⟩
      exact ⟨ps, a₁, hps⟩
    · rintro ⟨ps, a₁, hps⟩
      obtain ⟨a', hrun⟩ := run_genStepXml_iff.mpr ⟨ps, a₁, hps, rfl⟩
      exact ⟨xmlOf ps, a', hrun⟩
  · obtain ⟨ps, a₁, hps, rfl⟩ := run_genStepXml_iff.mp ⟨a', hrun⟩
    exact newFromFiles_xmlOf className scens (hspec ps a₁ hps) hints hnames

/-- A reader of one parameter `sum` with two values. -/
def sumsMapper : ObjectMapper :=
  ⟨fun _ => .ok (some [.object fun key =>
    if key = "name" then .text "sum" else if key = "value" then .text "[1, 2]" else .null]),
    fun _ _ => .ok none⟩

/-- The step `pay`, whose action uses `sum`. -/
def sumsLogged : List Logged :=
  [(⟨"pay", 1, "Cart", "Paid", 1, "[sum]", "align"⟩, [⟨"type", ["\x7bMBT_STEP_PARAM(sum)\x7d"]⟩])]

theorem genStepXml_combinations_sums :
    ((∃ xml a', (genStepXml .insertion sumsMapper
      (some (some (modelElem "Pay" [] (sumsLogged.map elem))))).run (fun _ => .new) =
        .ok (some xml) a') ↔ ∀ m ∈ sumsLogged, StepReadable sumsMapper m) ∧
    ∀ xml a', (genStepXml .insertion sumsMapper
      (some (some (modelElem "Pay" [] (sumsLogged.map elem))))).run (fun _ => .new) =
        .ok (some xml) a' → ∃ combs,
          MGenReplacedStep.newFromFiles (some (some (modelElem "Pay" [] (sumsLogged.map elem))))
            (some (some xml.varComb)) = .ok (.new combs (sumsLogged.map stepActions)) ∧
          combs.length = sumsLogged.length ∧ ∀ (i : ℕ) m c, sumsLogged[i]? = some m →
            combs[i]? = some c → Combined sumsMapper (fun _ => .new) (sumsLogged.take i) m c := by
  refine genStepXml_combinations .insertion sumsMapper "Pay" [] sumsLogged _
    (by unfold IntNumbers MQTestActionHandler.IsInt; decide) fun m hm l hl => ?_
  rw [List.mem_singleton.mp hm] at hl
  cases hl
  exact List.nodup_singleton _

/-! ### The variables of a step -/

/-- A parameter as it is read back: what was `null` is an empty text. -/
def shown (p : Param) : Param := ⟨some (p.name.getD ""), some (p.type.getD ""), some (p.value.getD "")⟩

/-- The element for a step in the tree of the variables. -/
def VarStep (mapper : ObjectMapper) (m : Logged) (p : Element × Element) : Prop :=
  ∃ l, getJsonParamList mapper m.1.param = .ok l ∧ p.2 = stepVarStepElem m.1.name m.1.data l

/-- Each step has its element in the file of the parameters. -/
theorem varSteps_of_generates {ps : List (Element × Element)} (h : Generates o mapper a ms ps) :
    List.Forall₂ (VarStep mapper) ms ps := by
  induction h with
  | nil a => exact .nil
  | cons hdone _ ih =>
    obtain ⟨l, r, d, hl, -, rfl⟩ := hdone
    exact .cons ⟨l, hl, rfl⟩ ih

/-- The attributes of a parameter. -/
theorem getAttrValue_varElem (p : Param) :
    (varElem p p.value).getAttrValue "name" = p.name.getD "" ∧
      (varElem p p.value).getAttrValue "type" = p.type.getD "" ∧
      (varElem p p.value).getAttrValue "value" = p.value.getD "" := by
  obtain ⟨name, type, value⟩ := p
  cases name <;> cases type <;> cases value <;> exact ⟨rfl, rfl, rfl⟩

/-- The parameters of the element are read back. -/
theorem declared_stepVarStepElem (name data : String) (l : List Param) :
    MQTestView.declared (stepVarStepElem name data l) = l.map shown := by
  have hvars : (stepVarStepElem name data l).elements.filter (·.name = "var") =
      l.map fun p => varElem p p.value := by
    refine List.filter_eq_self.mpr fun e he => ?_
    obtain ⟨p, -, rfl⟩ := List.mem_map.mp he
    exact decide_eq_true rfl
  rw [MQTestView.declared, hvars, List.map_map]
  refine List.map_congr_left fun p _ => ?_
  obtain ⟨hname, htype, hvalue⟩ := getAttrValue_varElem p
  rw [Function.comp_apply, hname, htype, hvalue]
  rfl

/-- Where each element has the attribute, the search throws nothing. -/
theorem getSubElementByKey_eq_ok {fold : Char → Char} {e : Element} {key : String} (value : String)
    (h : ∀ node ∈ e.elements, ∃ data, node.attributes.lookup key = some data) :
    MQTestView.getSubElementByKey fold e key value = .ok (e.elements.filter fun node =>
      MQTestView.equalsIgnoreCase fold (node.getAttrValue key) value) := by
  have hnodes : e.elements.mapM (fun node => do
      let data ← Prog.nonNull (node.attributes.lookup key)
      return (MQTestView.equalsIgnoreCase fold data value, node)) =
        .ok (e.elements.map fun node =>
          (MQTestView.equalsIgnoreCase fold (node.getAttrValue key) value, node)) := by
    rw [mapM_eq_ok, List.forall₂_map_right_iff, List.forall₂_same]
    intro node hnode
    obtain ⟨data, hdata⟩ := h node hnode
    rw [Element.getAttrValue, hdata]
    rfl
  rw [MQTestView.getSubElementByKey, hnodes, ok_bind, List.filter_map, List.map_map]
  exact congrArg Except.ok (List.map_id _)

/-- The step that the view takes for a name: the first of that name, but for case. -/
def stepNamed (fold : Char → Char) (ms : List Logged) (name : String) : Option Logged :=
  ms.find? fun m => MQTestView.equalsIgnoreCase fold m.1.name name

/-- A step that is looked for by its name is found in the file as among the methods. -/
theorem find?_varSteps (fold : Char → Char) (name : String) {ps : List (Element × Element)}
    (h : List.Forall₂ (VarStep mapper) ms ps) (step : Element) :
    ((ps.map Prod.snd).find? fun node =>
        MQTestView.equalsIgnoreCase fold (node.getAttrValue "name") name) = some step ↔
      ∃ m l, stepNamed fold ms name = some m ∧ getJsonParamList mapper m.1.param = .ok l ∧
        step = stepVarStepElem m.1.name m.1.data l := by
  induction h with
  | nil => simp [stepNamed]
  | @cons m p ms ps hvar _ ih =>
    obtain ⟨l, hl, hp⟩ := hvar
    have hname : p.2.getAttrValue "name" = m.1.name := by
      rw [hp]
      rfl
    rw [stepNamed, List.map_cons, List.find?_cons, List.find?_cons, hname]
    split
    · constructor
      · rintro ⟨⟩
        exact ⟨m, l, rfl, hl, hp⟩
      · rintro ⟨m', l', hm, hl', rfl⟩
        cases hm
        cases hl.symm.trans hl'
        rw [hp]
    · exact ih

/-- The element that the view takes for a name. -/
theorem stepOf_xmlOf_iff (fold : Char → Char) (name : String) {ps : List (Element × Element)}
    (h : List.Forall₂ (VarStep mapper) ms ps) (step : Element) :
    MQTestView.StepOf fold (xmlOf ps).stepVar name step ↔
      ∃ m l, stepNamed fold ms name = some m ∧ getJsonParamList mapper m.1.param = .ok l ∧
        step = stepVarStepElem m.1.name m.1.data l := by
  have hread : MQTestView.getSubElementByKey fold (xmlOf ps).stepVar "name" name =
      .ok ((ps.map Prod.snd).filter fun node =>
        MQTestView.equalsIgnoreCase fold (node.getAttrValue "name") name) := by
    refine getSubElementByKey_eq_ok name fun node hnode => ?_
    obtain ⟨p, hp, rfl⟩ := List.mem_map.mp hnode
    obtain ⟨i, hi, rfl⟩ := List.mem_iff_get.mp hp
    obtain ⟨l, -, hvar⟩ := h.get (h.length_eq.symm ▸ i.isLt : i.val < ms.length) i.isLt
    exact ⟨_, congrArg (fun e : Element => e.attributes.lookup "name") hvar⟩
  rw [MQTestView.StepOf, hread, ← find?_varSteps fold name h, ← List.head?_filter,
    List.head?_eq_some_iff]
  exact exists_congr fun steps => ⟨Except.ok.inj, congrArg Except.ok⟩

/-- The variables of the steps of a text are read only where the file has every step. -/
theorem stepOf_of_run_stepsRows {fold : Char → Char} {root : Element} {content : String}
    {stepVarMap : HashMap String (HashSet String)}
    (hcontent : MQTestView.getParamInStep content = .ok stepVarMap) {o : VisitOrder String}
    {stepsVarMap : MQTestView.StepsVarMap}
    (hrun : (MQTestView.stepsRows fold o (some (some root)) content).run a = .ok stepsVarMap a') :
    ∀ name ∈ stepVarMap, ∃ step, MQTestView.StepOf fold root name step := by
  -- over the names that are left, from any rows and any state of the algorithms
  suffices H : ∀ (names : List String) (found : MQTestView.StepsVarMap) (b : AlgoMap),
      (names.foldlM (MQTestView.stepRows fold (some (some root)) stepVarMap) found).run b =
        .ok stepsVarMap a' → ∀ name ∈ names, ∃ step, MQTestView.StepOf fold root name step by
    rw [MQTestView.stepsRows, hcontent] at hrun
    exact fun name hname => H _ ∅ a hrun name ((VisitOrder.mem_visit o).mpr hname)
  intro names
  induction names with
  | nil => exact fun _ _ _ => List.forall_mem_nil _
  | cons name names ih =>
    intro found b hfold
    rw [List.foldlM_cons] at hfold
    obtain ⟨found₁, b₁, hturn, hrest⟩ := MQTestView.of_run_bind hfold
    refine List.forall_mem_cons.mpr ⟨?_, ih found₁ b₁ hrest⟩
    rw [MQTestView.stepRows] at hturn
    obtain ⟨vars, b₂, -, hturn⟩ := MQTestView.of_run_bind hturn
    obtain ⟨root', b₃, hroot, hturn⟩ := MQTestView.of_run_bind hturn
    cases hroot
    obtain ⟨stepList, b₄, hlist, hturn⟩ := MQTestView.of_run_bind hturn
    obtain ⟨step, b₅, hfirst, -⟩ := MQTestView.of_run_bind hturn
    obtain ⟨hlist, -⟩ := MQTestView.of_run_liftRuntime hlist
    obtain ⟨hfirst, -⟩ := MQTestView.of_run_liftRuntime hfirst
    cases stepList with
    | nil => cases hfirst
    | cons first steps => exact ⟨first, steps, hlist⟩

/-- **The variables of the steps are read back.**  From the file that was written, the view gets rows
for a text that uses parameters exactly when each step that the text starts has the name of a step of
the class, but for case.  The rows are for the parameters of the first such step.  A text that uses no
parameters has no rows. -/
theorem genStepXml_variables (o : VisitOrder ℕ) (mapper : ObjectMapper) (className : String)
    (scens : List ScenarioMethod) (ms : List Logged) (a a' : AlgoMap) (xml : StepXml)
    (hxml : (genStepXml o mapper (some (some (modelElem className scens (ms.map elem))))).run a =
      .ok (some xml) a') (fold : Char → Char) (content : String)
    (stepVarMap : HashMap String (HashSet String))
    (hcontent : MQTestView.getParamInStep content = .ok stepVarMap) (visit : VisitOrder String)
    (b : AlgoMap) :
    ((∃ stepsVarMap b', (MQTestView.stepsRows fold visit (some (some xml.stepVar)) content).run b =
        .ok stepsVarMap b') ↔ (MQTestView.isParamSet content → ∀ name, MQTestView.Starts content name →
          ∃ m, stepNamed fold ms name = some m)) ∧
      ∀ stepsVarMap b', (MQTestView.stepsRows fold visit (some (some xml.stepVar)) content).run b =
        .ok stepsVarMap b' → (∀ name, name ∈ stepsVarMap ↔
            MQTestView.isParamSet content ∧ MQTestView.Starts content name) ∧
          ∀ name rows, stepsVarMap.lookup name = some rows → ∃ vars m l,
            stepVarMap.lookup name = some vars ∧ stepNamed fold ms name = some m ∧
            getJsonParamList mapper m.1.param = .ok l ∧ (rows = none ↔ l = []) ∧
            ∀ r ∈ rows, Dense r ∧
              (0 < r.keys.length ↔ MDataAlgoDiscards.Fruitful (l.map shown) vars) := by
  obtain ⟨ps, a₁, hps, rfl⟩ := run_genStepXml_iff.mp ⟨a', hxml⟩
  have hvars : List.Forall₂ (VarStep mapper) ms ps :=
    varSteps_of_generates ((run_genSteps o mapper ms a).2 ps a₁ hps)
  -- an element is found under a name exactly when a step has it
  have hstep (name : String) : (∃ step, MQTestView.StepOf fold (xmlOf ps).stepVar name step) ↔
      ∃ m, stepNamed fold ms name = some m := by
    constructor
    · rintro ⟨step, hstep⟩
      obtain ⟨m, -, hm, -⟩ := (stepOf_xmlOf_iff fold name hvars step).mp hstep
      exact ⟨m, hm⟩
    · rintro ⟨m, hm⟩
      obtain ⟨i, hi⟩ := List.mem_iff_get.mp (List.mem_of_find?_eq_some hm)
      obtain ⟨l, hl, -⟩ := hvars.get i.isLt (hvars.length_eq ▸ i.isLt : i.val < ps.length)
      rw [Fin.eta, hi] at hl
      exact ⟨_, (stepOf_xmlOf_iff fold name hvars _).mpr ⟨m, l, hm, hl, rfl⟩⟩
  have hkeys (name : String) := MQTestView.mem_getParamInStep hcontent name
  refine ⟨⟨?_, fun h => ?_⟩, fun stepsVarMap b' hrun => ?_⟩
  · rintro ⟨stepsVarMap, b', hrun⟩ hset name hname
    exact (hstep name).mp
      (stepOf_of_run_stepsRows hcontent hrun name ((hkeys name).mpr ⟨hset, hname⟩))
  · have hnamed : ∀ name ∈ stepVarMap, ∃ step, MQTestView.StepOf fold (xmlOf ps).stepVar name step :=
      fun name hname => (hstep name).mpr (h ((hkeys name).mp hname).1 name ((hkeys name).mp hname).2)
    obtain ⟨stepsVarMap, b', hrun, -⟩ := MQTestView.run_stepsRows hcontent hnamed visit b
    exact ⟨stepsVarMap, b', hrun⟩
  · obtain ⟨found, b₁, hrun', hrowed⟩ := MQTestView.run_stepsRows hcontent
      (stepOf_of_run_stepsRows hcontent hrun) visit b
    cases hrun.symm.trans hrun'
    refine ⟨fun name => ((hrowed.1 name).trans (VisitOrder.mem_visit visit)).trans (hkeys name),
      fun name rows hrows => ?_⟩
    obtain ⟨vars, step, hlookup, hof, hrowsOf⟩ := hrowed.2 name rows hrows
    obtain ⟨m, l, hm, hl, rfl⟩ := (stepOf_xmlOf_iff fold name hvars step).mp hof
    have hdeclared := declared_stepVarStepElem m.1.name m.1.data l
    refine ⟨vars, m, l, hlookup, hm, hl, ?_, fun r hr => ⟨hrowsOf.dense r hr, ?_⟩⟩
    · rw [hrowsOf.eq_none, hdeclared, List.map_eq_nil_iff]
    · rw [hrowsOf.pos r hr, hdeclared]

/-- A text that starts the step `pay` and sets a field to its parameter. -/
def sumsText : String := "stepStart(\"Step: PAY\");\nsetValue(getParams(sum));\nstepEnd();\n"

theorem genStepXml_variables_sums : ∃ xml a' stepVarMap,
    (genStepXml .insertion sumsMapper (some (some (modelElem "Pay" [] (sumsLogged.map elem))))).run
      (fun _ => .new) = .ok (some xml) a' ∧
    MQTestView.getParamInStep sumsText = .ok stepVarMap ∧
    ((∃ stepsVarMap b', (MQTestView.stepsRows Char.toLower .insertion (some (some xml.stepVar))
        sumsText).run (fun _ => .new) = .ok stepsVarMap b') ↔
      (MQTestView.isParamSet sumsText → ∀ name, MQTestView.Starts sumsText name →
        ∃ m, stepNamed Char.toLower sumsLogged name = some m)) := by
  have hread : ∀ m ∈ sumsLogged, StepReadable sumsMapper m := by
    intro m hm
    rw [List.mem_singleton.mp hm]
    refine ⟨_, rfl, ?_⟩
    rintro - p hp -
    rw [List.mem_singleton.mp hp]
    exact Option.some_ne_none _
  obtain ⟨ps, a₁, hps⟩ := (run_genSteps .insertion sumsMapper sumsLogged _).1.mpr hread
  obtain ⟨a', hxml⟩ := run_genStepXml_iff.mpr ⟨ps, a₁, hps, rfl⟩
  cases hcontent : MQTestView.getParamInStep sumsText with
  | error e =>
    have hok : (MQTestView.getParamInStep sumsText).toOption.isSome = true := by decide +kernel
    rw [hcontent] at hok
    cases hok
  | ok stepVarMap =>
    exact ⟨_, a', stepVarMap, hxml, rfl, (genStepXml_variables .insertion sumsMapper "Pay" [] sumsLogged
      _ a' _ hxml Char.toLower sumsText stepVarMap hcontent .insertion _).1⟩

end MGenStepXml

end MBT
