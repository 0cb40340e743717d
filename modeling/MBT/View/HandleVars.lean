import MBT.Data.MGenData
import MBT.View.MQTestActionHandler

/-!
# View — MQTestView, the variables of a case

`handleVarsAlign` fills the rows of the steps and of the scenario into the text of a case: it writes
a script for each row of the steps together with each row of the scenario, under a name that is put
together from the parameters it filled in.
-/

namespace MBT
open Exec Text MXmlParse MDataAlgo

namespace MQTestView

/-! ### Lines -/

/-- `StringTokenizer(content, "\n")`: no line is empty. -/
def getLines (content : String) : List String :=
  ((content.toList.splitOn '\n').filter (· ≠ [])).map String.ofList

/-- The text uses parameters. -/
def isParamSet (content : String) : Bool := contains content "getParams("

/-- The line sets a field to a parameter. -/
def isSetValue (line : String) : Bool :=
  contains (trim line) "setValue(getParams(" || contains (trim line) "setValue(\"getParams("

/-- The parameter of a line that sets a field. -/
def setValueParam (line : String) : Except Exn String :=
  let t := trim line
  let begins :=
    if indexOf t "setValue(getParams(" 0 = -1 then indexOf t "setValue(\"getParams(" 0 + 20
    else indexOf t "setValue(getParams(" 0 + 19
  let ends := if indexOf t "))" 0 = -1 then indexOf t ")\")" 0 else indexOf t "))" 0
  inBounds (slice t begins ends)

/-- The line compares with a parameter. -/
def isAssert (line : String) : Bool :=
  startsWith (trim line) "assertEquals" && contains line "getParams("

/-- The parameter of a line that compares: up to `first`, or to `second` where there is none. -/
def assertParam (first second line : String) : Except Exn String :=
  let t := trim line
  let begins :=
    if indexOf t "getParams(" 0 = -1 then indexOf t "\"getParams(" 0 + 11
    else indexOf t "getParams(" 0 + 10
  let ends := if indexOf t first 0 = -1 then indexOf t second 0 else indexOf t first 0
  inBounds (slice t begins ends)

example : setValueParam "  m.getUin().setValue(\"getParams(uin)\");" = .ok "uin" := by
  decide +kernel

/-- The name of the step that a line starts. -/
def stepName (line : String) : Except Exn String := do
  let name ← inBounds (slice line (indexOf line ": " 0 + 2) (indexOf line "\")" 0))
  return trim name

/-- The line starts a step. -/
def isStepStart (line : String) : Bool := startsWith (trim line) "stepStart"

/-- The line ends a step. -/
def isStepEnd (line : String) : Bool := startsWith (trim line) "stepEnd"

/-- `line.replace` of the call by the value. -/
def fill (line var value : String) : String := replace line ("getParams(" ++ var ++ ")") value

/-! ### The parameters that a text uses -/

/-- The loop of `GetParamInStep`: the sets so far and the last step. -/
def stepParamLine (s : HashMap String (HashSet String) × String) (line : String) :
    Except Exn (HashMap String (HashSet String) × String) := do
  let (stepVarMap, name) := s
  let add (var : String) := match stepVarMap.lookup name with
    | some vars => stepVarMap.insert name (vars.add var)
    | none => stepVarMap
  if isStepStart line then
    let name ← stepName line
    return (stepVarMap.insert name .empty, name)
  else if isSetValue line then return (add (← setValueParam line), name)
  else if startsWith (trim line) "assertEquals" && contains (trim line) "getParams" then
    return (add (← assertParam ")," ")\"," line), name)
  else return s

/-- The parameters that the text uses, by the names of its steps. -/
def getParamInStep (content : String) : Except Exn (HashMap String (HashSet String)) := do
  if isParamSet content then
    let s ← (getLines content).foldlM stepParamLine (∅, "")
    return s.1
  else return ∅

/-- The loop of `GetParamInContent`. -/
def contentParamLine (paramSet : HashSet String) (line : String) : Except Exn (HashSet String) := do
  if isSetValue line then return paramSet.add (← setValueParam line)
  else if isAssert line then return paramSet.add (← assertParam ")," ")\"," line)
  else return paramSet

/-- The parameters that the text uses. -/
def getParamInContent (content : String) : Except Exn (HashSet String) :=
  if isParamSet content then (getLines content).foldlM contentParamLine .empty else .ok .empty

/-! ### The rows of the parameters -/

/-- What the handling of the variables can throw. -/
inductive VarFailure where
  | runtime (e : Exn)
  | json (e : MJsonHandler.Failure)
  | mException
  | document

/-- A part of the handling; its state are the data algorithms. -/
abbrev VarHandler (α : Type) := EStateM VarFailure AlgoMap α

/-- A computation that does not touch the data algorithms. -/
def liftRuntime {α : Type} : Except Exn α → VarHandler α
  | .ok a => pure a
  | .error e => throw (.runtime e)

/-- Reading JSON, which does not touch them either. -/
def liftJson {α : Type} : Except MJsonHandler.Failure α → VarHandler α
  | .ok a => pure a
  | .error e => throw (.json e)

/-- `genData` of the algorithm of a name. -/
def algoRows (algo : String) (paramList : List Param) (paramSet : HashSet String) :
    VarHandler (Option (HashMap ℕ Row)) :=
  EStateM.adaptExcept .runtime
    (MGenData.callAlgorithm (MGenData.algorithm algo) ⟨paramList, paramSet, false⟩)

/-- An attribute that is missing throws, also of an element before the one that is looked for. -/
def getSubElementByKey (fold : Char → Char) (e : Element) (key value : String) :
    Except Exn (List Element) := do
  let nodes ← e.elements.mapM fun node => do
    let data ← Prog.nonNull (node.attributes.lookup key)
    return (equalsIgnoreCase fold data value, node)
  return (nodes.filter (·.1)).map (·.2)

/-- `MXmlParse(varPath)`, of a file that is absent, or not to be read as XML, or has a root. -/
def readXml : Option (Option Element) → VarHandler Element
  | none => throw .mException
  | some none => throw .document
  | some (some root) => pure root

/-- The rows of every step that uses parameters; `null` is `none`. -/
abbrev StepsVarMap := HashMap String (Option (HashMap ℕ Row))

variable (fold : Char → Char)

/-- The turn of the first loop of `handleVarsAlign`. -/
def stepRows (varFile : Option (Option Element)) (stepVarMap : HashMap String (HashSet String))
    (stepsVarMap : StepsVarMap) (name : String) : VarHandler StepsVarMap := do
  let vars ← liftRuntime (Prog.nonNull (stepVarMap.lookup name))
  let root ← readXml varFile
  let stepList ← liftRuntime (getSubElementByKey fold root "name" name)
  let step ← liftRuntime (ArrayList.get stepList 0)
  let paramList := (step.elements.filter (·.name = "var")).map fun var =>
    (⟨some (var.getAttrValue "name"), some (var.getAttrValue "type"),
      some (var.getAttrValue "value")⟩ : Param)
  let rows ← algoRows (step.getAttrValue "data") paramList vars
  return stepsVarMap.insert name rows

/-- The least number of rows, as the second loop finds it. -/
def rowCount (rows : List (Option (HashMap ℕ Row))) : ℕ :=
  rows.foldl (fun size rows => match rows with
    | some rows =>
      if size = 0 then rows.keys.length
      else if size > rows.keys.length then rows.keys.length else size
    | none => size) 0

/-! ### The rows of the steps in a text -/

/-- The variables of the loop over the lines. -/
structure AlignState where
  stepVar : Row
  dataPath : String
  dataPathTmp : String
  newContent : String
  flag : Bool

/-- The data path of a step with one more parameter: the item is left out where the path ends with
it or has it before a comma. -/
def addDataPath (dataPathTmp var value : String) : String :=
  let varValue := var ++ "=" ++ value
  if endsWith dataPathTmp ")" then dataPathTmp ++ varValue
  else if ¬ contains dataPathTmp (varValue ++ ",") ∧ ¬ endsWith dataPathTmp varValue then
    dataPathTmp ++ (", " ++ var ++ "=" ++ value)
  else dataPathTmp

/-- Adds a line to the new content. -/
def AlignState.addLine (s : AlignState) (line : String) : AlignState :=
  { s with newContent := s.newContent ++ (line ++ "\n") }

/-- A line of a step with the parameter `var`. -/
def AlignState.fillLine (s : AlignState) (line var : String) : AlignState :=
  match s.stepVar.lookup var with
  | some value =>
    { s with dataPathTmp := addDataPath s.dataPathTmp var value }.addLine (fill line var value)
  | none => s.addLine line

/-- The turn of the loop over the lines, for the rows of index `i`. -/
def alignLine (stepsVarMap : StepsVarMap) (i : ℕ) (s : AlignState) (line : String) :
    Except Exn AlignState := do
  if isStepStart line then
    let name ← stepName line
    match stepsVarMap.lookup name with
    | some (some rows) =>
      let row ← Prog.nonNull (rows.lookup i)
      return { s with stepVar := row, flag := true, dataPathTmp := "[(" ++ name ++ ")" }.addLine line
    | _ => return s.addLine line
  else if isStepEnd line then
    let s := if s.flag then
        { s with dataPathTmp := s.dataPathTmp ++ "]", dataPath := s.dataPath ++ (s.dataPathTmp ++ "]") }
      else s
    return { s with stepVar := ∅, flag := false }.addLine line
  else if isSetValue line && s.flag then return s.fillLine line (← setValueParam line)
  else if isAssert line && s.flag then return s.fillLine line (← assertParam ")\"," ")," line)
  else return s.addLine line

/-- The data path and the text for the rows of index `i`. -/
def alignRow (stepsVarMap : StepsVarMap) (content : String) (i : ℕ) :
    Except Exn (String × String) := do
  let s ← (getLines content).foldlM (alignLine stepsVarMap i) ⟨∅, "", "", "", false⟩
  return (s.dataPath, s.newContent)

/-! ### The rows of the scenario in a text -/

/-- The turn of the loop of `ConvertParam` over the lines: the data path and the text. -/
def convertLine (varMap : Option Row) (s : String × String) (line : String) :
    Except Exn (String × String) := do
  let (dataPath, newContent) := s
  if isSetValue line then
    let var ← setValueParam line
    let value ← Prog.nonNull ((← Prog.nonNull varMap).lookup var)
    let dataPath := if dataPath = "" then var ++ "=" ++ value
      else dataPath ++ (", " ++ var ++ "=" ++ value)
    return (dataPath, newContent ++ (fill line var value ++ "\n"))
  else if isAssert line then
    let var ← assertParam ")," ")\"," line
    let value ← Prog.nonNull ((← Prog.nonNull varMap).lookup var)
    let varValue := var ++ "=" ++ value
    let dataPath :=
      if ¬ contains dataPath (varValue ++ ",") ∧ ¬ endsWith dataPath varValue then
        if dataPath = "" then dataPath ++ varValue else dataPath ++ (", " ++ varValue)
      else dataPath
    return (dataPath, newContent ++ (fill line var value ++ "\n"))
  else return (dataPath, newContent ++ (line ++ "\n"))

/-- The data path and the script for a row of the scenario. -/
def convertRow (content : String) (varMap : Option Row) : Except Exn (String × String) := do
  let (dataPath, newContent) ← (getLines content).foldlM (convertLine varMap) ("", "")
  return (if dataPath = "" then "" else "[" ++ dataPath ++ "]", newContent)

/-- `ConvertParam` behind `GetScenarioParam`; whether the text uses parameters does not depend on
the row. -/
def convertRows (content : String) :
    Option (HashMap ℕ Row) → Except Exn (List (String × String))
  | none => .ok []
  | some paramMap =>
    if isParamSet content then
      (List.range paramMap.keys.length).mapM fun i => convertRow content (paramMap.lookup i)
    else .ok []

variable (mapper : MJsonHandler.ObjectMapper) (scenarioList : List Scenario)

/-- The rows that `GetScenarioParam` returns. -/
def scenarioRows (content caseName : String) : VarHandler (Option (HashMap ℕ Row)) := do
  let name ← liftRuntime (scenarioName caseName)
  let p ← liftJson (getScenarioParam mapper fold .empty scenarioList name)
  let paramSet ← match findScenario fold scenarioList name with
    | none => pure .empty
    | some _ => liftRuntime (getParamInContent content)
  algoRows p.algo p.valueList paramSet

/-! ### The files -/

/-- A text in which the rows of the steps are filled in, with its data path and the rows of the
scenario that are filled into it. -/
structure Filled where
  dataPath : String
  content : String
  paramMap : Option (HashMap ℕ Row)
  scripts : List (String × String)

/-- What `handleVarsAlign` has at its end. -/
structure Aligned where
  stepsVarMap : StepsVarMap
  filled : List Filled

variable (dir caseName num : String)

/-- The path that is passed to `genCase`; `num` is what the name map has. -/
def filePath (mbtDataPath dataPath : String) : String :=
  dir ++ "/" ++ (caseName ++ num ++ mbtDataPath ++ dataPath ++ ".mtc")

/-- The paths and texts that are written for a text. -/
def Filled.files (f : Filled) : List (String × String) :=
  if f.scripts = [] then [(filePath dir caseName num "" f.dataPath, f.content)]
  else f.scripts.map fun s => (filePath dir caseName num s.1 f.dataPath, s.2)

/-- The files that are written for a text. -/
def Aligned.files (r : Aligned) : List (String × String) :=
  r.filled.flatMap (Filled.files dir caseName num)

/-- The turn of the last loop. -/
def fillScenario (r : String × String) : VarHandler Filled := do
  let paramMap ← scenarioRows fold mapper scenarioList r.2 caseName
  let scripts ← liftRuntime (convertRows r.2 paramMap)
  return ⟨r.1, r.2, paramMap, scripts⟩

/-- The first loop of `handleVarsAlign`. -/
def stepsRows (o : VisitOrder String) (varFile : Option (Option Element)) (content : String) :
    VarHandler StepsVarMap := do
  let stepVarMap ← liftRuntime (getParamInStep content)
  (o.visit stepVarMap.keySet).foldlM (stepRows fold varFile stepVarMap) ∅

/-- The data paths and texts for the rows of the steps; without rows, the text stands for itself. -/
def alignRows (o : VisitOrder String) (stepsVarMap : StepsVarMap) (content : String) :
    Except Exn (List (String × String)) := do
  let size := rowCount ((o.visit stepsVarMap.keySet).map fun name =>
    (stepsVarMap.lookup name).join)
  let rows ← (List.range size).mapM (alignRow stepsVarMap content)
  return if rows = [] then [("", content)] else rows

/-- Fills the rows of the steps into a text, then those of the scenario. -/
def handleVarsAlign (o : VisitOrder String) (varFile : Option (Option Element)) (content : String) :
    VarHandler Aligned := do
  let stepsVarMap ← stepsRows fold o varFile content
  let rows ← liftRuntime (alignRows o stepsVarMap content)
  let filled ← rows.mapM (fillScenario fold mapper scenarioList caseName)
  return ⟨stepsVarMap, filled⟩

/-! ### Runs of the handling -/

section Run

variable {α β : Type} {a a' : AlgoMap}

/-- Where two programs have returned, the first one has. -/
theorem of_run_bind {x : VarHandler α} {f : α → VarHandler β} {b : β}
    (h : (x >>= f).run a = .ok b a') : ∃ c a₁, x.run a = .ok c a₁ ∧ (f c).run a₁ = .ok b a' := by
  rw [EStateM.run_bind] at h
  cases hx : x.run a with
  | ok c a₁ => rw [hx] at h; exact ⟨c, a₁, rfl, h⟩
  | error e a₁ => rw [hx] at h; cases h

/-- Behind a program that returns, the rest is run from its state. -/
theorem run_bind_ok {x : VarHandler α} {f : α → VarHandler β} {c : α} {a₁ : AlgoMap}
    (h : x.run a = .ok c a₁) : (x >>= f).run a = (f c).run a₁ := by
  rw [EStateM.run_bind, h]

/-- What a computation without state returns leaves the algorithms. -/
theorem of_run_liftRuntime {x : Except Exn α} {b : α} (h : (liftRuntime x).run a = .ok b a') :
    x = .ok b ∧ a' = a := by
  cases x with
  | ok c => cases h; exact ⟨rfl, rfl⟩
  | error e => cases h

/-- So does what is read from JSON. -/
theorem of_run_liftJson {x : Except MJsonHandler.Failure α} {b : α}
    (h : (liftJson x).run a = .ok b a') : x = .ok b ∧ a' = a := by
  cases x with
  | ok c => cases h; exact ⟨rfl, rfl⟩
  | error e => cases h

/-- The rows are those that the algorithm gives. -/
theorem of_run_algoRows {algo : String} {paramList : List Param} {paramSet : HashSet String}
    {rows : Option (HashMap ℕ Row)} (h : (algoRows algo paramList paramSet).run a = .ok rows a') :
    ∃ d', (MDataAlgoMag.genData (MGenData.algorithm algo) ⟨paramList, paramSet, false⟩).run
      (a (MGenData.algorithm algo)) = .ok rows d' := by
  have hcall : (MGenData.callAlgorithm (MGenData.algorithm algo) ⟨paramList, paramSet, false⟩).run a =
      .ok rows a' := by
    rw [algoRows, EStateM.run, EStateM.adaptExcept] at h
    split at h
    · cases h
    · cases h
      assumption
  obtain ⟨d', hd, -⟩ := Prog.of_run_zoom_ok hcall
  exact ⟨d', hd⟩

/-- The rows that the algorithm gives are the rows. -/
theorem run_algoRows_ok {algo : String} {paramList : List Param} {paramSet : HashSet String}
    {rows : Option (HashMap ℕ Row)} {d : MDataAlgo}
    (h : (MDataAlgoMag.genData (MGenData.algorithm algo) ⟨paramList, paramSet, false⟩).run
      (a (MGenData.algorithm algo)) = .ok rows d) :
    (algoRows algo paramList paramSet).run a =
      .ok rows (Function.update a (MGenData.algorithm algo) d) := by
  have hcall : MGenData.callAlgorithm (MGenData.algorithm algo) ⟨paramList, paramSet, false⟩ a =
      .ok rows (Function.update a (MGenData.algorithm algo) d) := Prog.run_zoom_ok h
  rw [algoRows, EStateM.run, EStateM.adaptExcept, hcall]

end Run

end MQTestView

end MBT
