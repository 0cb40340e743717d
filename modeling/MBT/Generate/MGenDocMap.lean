import MBT.Data.MGenData
import MBT.Generate.CaseName
import MBT.Generate.MGenPathParamSet
import MBT.Generate.Substitution

/-!
# Generate — MGenDocMap

`MGenDocMap.genDocMap`: for each path of a scenario, a document for each entry of the replaced steps
with each row of the scenario's parameters.

* `run_genPath_iff`: when the turn for a path returns, and what it leaves.
* `genDocMap_documents_iff`: each path has its documents, numbered in order, exactly when no
  substitution of a row throws.
* `genDocMap_completes_iff`: every path has a document exactly when the parameters it uses are
  declared and no substitution throws.
-/

namespace MBT
open Exec MJsonHandler MGenReplacedStep

/-- An element `TESTSTEP` of a document. -/
structure DocStep where
  name : Option String
  actions : List String
  deriving DecidableEq

/-- The document of a case; its name is that of the element `NAME` too. -/
structure Document where
  name : String
  testSteps : List DocStep
  deriving DecidableEq

/-- The name map of a document: its number, and the values it was generated with. -/
structure CaseNameMap where
  num : String
  dataInfo : String
  deriving DecidableEq

/-- The MBT XML. -/
structure MbtXml where
  testSteps : List StepActions
  scenarios : List Scenario

/-- The maps of the object, the step generator of the call and the manager's data algorithms. -/
structure MGenDocMap where
  stepGenner : MGenReplacedStep
  algoMap : AlgoMap
  scriptDocMap : HashMap String (List Document)
  scriptNameMap : HashMap String (List CaseNameMap)

namespace MGenDocMap

/-- The state in which `genDocMap` begins. -/
def new (combXml : List StepCombs) (mbtXml : MbtXml) (algoMap : AlgoMap) : MGenDocMap :=
  ⟨.new combXml mbtXml.testSteps, algoMap, ∅, ∅⟩

variable (o : VisitOrder String) (replaceAll : ReplaceAll) (mapper : ObjectMapper)
  (mbtXml : MbtXml) (scenarioName dataAlgo : String)

/-! ### The document of a combination -/

/-- The number of the document for the entry `j` and the row `k` of `p` rows. -/
def number (p j k : ℕ) : String := "[" ++ (j * p + k + 1).repr ++ "]"

/-- The values of a row, as they stand in the name of a case. -/
def scenParamNameStr (row : Row) : String :=
  let name := (o.visit row.keySet).foldl
    (fun s paramName => s ++ "," ++ paramName ++ "=" ++ (row.lookup paramName).getD "null") ""
  if name ≠ "" then "\x7b" ++ Text.substring name 1 ++ "\x7d" else name

/-- The element for a step of the path. -/
def testStep (g : MGenReplacedStep) (entry : HashMap ℤ (List String)) (row : Row) (t : ℤ) :
    Except Exn DocStep := do
  let actionList ← Prog.nonNull (entry.lookup t)
  let actions ← actionList.mapM (substituteParam o replaceAll row)
  return ⟨g.stepNameMap.lookup t, actions⟩

/-- The document of one combination. -/
def document (pathName : String) (stepPath : List ℤ) (rows : HashMap ℕ Row) (g : MGenReplacedStep)
    (jk : ℕ × ℕ) : Except Exn Document := do
  let row ← Prog.nonNull (rows.lookup jk.2)
  let entry ← ArrayList.get g.replacedStepList jk.1
  let testSteps ← stepPath.mapM (testStep o replaceAll g entry row)
  return ⟨pathName ++ number rows.keys.length jk.1 jk.2, testSteps⟩

/-- The entry of the name map for one combination. -/
def nameMap (rows : HashMap ℕ Row) (g : MGenReplacedStep) (jk : ℕ × ℕ) : Except Exn CaseNameMap := do
  let row ← Prog.nonNull (rows.lookup jk.2)
  let replacedName ← ArrayList.get g.replacedNameList jk.1
  return ⟨number rows.keys.length jk.1 jk.2, scenParamNameStr o row ++ replacedName⟩

/-- Adds a document under the name of its path. -/
def addDocument (pathName : String) (doc : Document) : Prog MGenDocMap Unit := do
  let m ← get
  let docs ← Prog.lift (Prog.nonNull (m.scriptDocMap.lookup pathName))
  modify fun m => { m with scriptDocMap := m.scriptDocMap.insert pathName (docs ++ [doc]) }

/-- Adds an entry under the name of its path. -/
def addName (pathName : String) (name : CaseNameMap) : Prog MGenDocMap Unit := do
  let m ← get
  let names ← Prog.lift (Prog.nonNull (m.scriptNameMap.lookup pathName))
  modify fun m => { m with scriptNameMap := m.scriptNameMap.insert pathName (names ++ [name]) }

/-- The turn of the inner loops for the entry `jk.1` and the row `jk.2`. -/
def genDoc (pathName : String) (stepPath : List ℤ) (rows : HashMap ℕ Row) (jk : ℕ × ℕ) :
    Prog MGenDocMap Unit := do
  let m ← get
  let doc ← Prog.lift (document o replaceAll pathName stepPath rows m.stepGenner jk)
  addDocument pathName doc
  let name ← Prog.lift (nameMap o rows m.stepGenner jk)
  addName pathName name

/-! ### The paths of a scenario -/

/-- Without rows there is one that binds nothing.  The method puts it into the map that the data
algorithm has returned, which the next call clears. -/
def padded (rows : HashMap ℕ Row) : HashMap ℕ Row :=
  if rows.keys.length = 0 then rows.insert 0 ∅ else rows

/-- The turn of the loop for the `i`-th path; a path without edges is left out. -/
def genPath (edgePathList stepPathList : List (List ℤ)) (i : ℕ) : Prog MGenDocMap Unit := do
  let edgePath ← Prog.lift (ArrayList.get edgePathList i)
  if edgePath.length = 0 then return
  let stepPath ← Prog.lift (ArrayList.get stepPathList i)
  let pathParamSet ← Prog.lift (MGenPathParamSet.genPathParamSet mbtXml.testSteps stepPath)
  let pathParamMap ← Prog.zoom algoMap (fun a m => { m with algoMap := a })
    (MGenData.genData mapper mbtXml.scenarios scenarioName dataAlgo pathParamSet)
  let pathName := getStepPathName scenarioName edgePath
  modify fun m => { m with
    scriptDocMap := m.scriptDocMap.insert pathName []
    scriptNameMap := m.scriptNameMap.insert pathName [] }
  let pathParamMap ← Prog.lift (Prog.nonNull pathParamMap)
  let rows := padded pathParamMap
  Prog.zoom stepGenner (fun g m => { m with stepGenner := g }) (genReplacedStep o replaceAll stepPath)
  let m ← get
  forM (List.range m.stepGenner.replacedStepList.length) fun j =>
    forM (List.range rows.keys.length) fun k =>
      genDoc o replaceAll pathName stepPath rows (j, k)

/-- The documents of a scenario, path by path. -/
def genDocMap (edgePathList stepPathList : List (List ℤ)) : Prog MGenDocMap Unit :=
  forM (List.range stepPathList.length)
    (genPath o replaceAll mapper mbtXml scenarioName dataAlgo edgePathList stepPathList)

/-! ### The documents that a turn adds -/

/-- The combinations in the order of the loops. -/
def pairs (r p : ℕ) : List (ℕ × ℕ) := List.range r ×ˢ List.range p

/-- Two nested loops are one over the pairs. -/
theorem forM_pairs {σ : Type} (r p : ℕ) (f : ℕ × ℕ → Prog σ Unit) :
    (forM (List.range r) fun j => forM (List.range p) fun k => f (j, k)) = forM (pairs r p) f := by
  rw [pairs]
  induction List.range r with
  | nil => rfl
  | cons j l ih => rw [List.forM_cons, List.product_cons, List.forM_append, List.forM_map, ih]

/-- The combination at `j * p + k`. -/
theorem getElem?_pairs {r p j k : ℕ} (hj : j < r) (hk : k < p) :
    (pairs r p)[j * p + k]? = some (j, k) := by
  suffices H : ∀ (l : List ℕ) (j : ℕ) (a : ℕ), l[j]? = some a →
      (l ×ˢ List.range p)[j * p + k]? = some (a, k) from H _ j j (List.getElem?_range hj)
  intro l
  induction l with
  | nil => intro j a h; cases h
  | cons b l ih =>
    intro j a h
    rw [List.product_cons]
    cases j with
    | zero =>
      cases h
      rw [Nat.zero_mul, Nat.zero_add, List.getElem?_append_left (by simpa using hk),
        List.getElem?_map, List.getElem?_range hk]
      rfl
    | succ j =>
      rw [List.getElem?_append_right (by simp; nlinarith), List.length_map, List.length_range]
      have hsub : (j + 1) * p + k - p = j * p + k := by
        rw [Nat.succ_mul]
        omega
      rw [hsub]
      exact ih j a h

/-- How many pairs there are. -/
theorem length_pairs (r p : ℕ) : (pairs r p).length = r * p := by
  rw [pairs, List.length_product, List.length_range, List.length_range]

variable {o : VisitOrder String} {replaceAll : ReplaceAll} {mapper : ObjectMapper}
  {mbtXml : MbtXml} {scenarioName dataAlgo : String}

/-- The state with the documents and the names of a path. -/
def withDocs (m : MGenDocMap) (pathName : String) (docs : List Document) (names : List CaseNameMap) :
    MGenDocMap :=
  { m with
    scriptDocMap := m.scriptDocMap.insert pathName docs
    scriptNameMap := m.scriptNameMap.insert pathName names }

/-- A turn returns when the document and its name are generated. -/
theorem run_genDoc_iff {pathName : String} {stepPath : List ℤ} {rows : HashMap ℕ Row} {jk : ℕ × ℕ}
    {m m' : MGenDocMap} {docs : List Document} {names : List CaseNameMap} :
    (genDoc o replaceAll pathName stepPath rows jk).run (m.withDocs pathName docs names) = .ok ⟨⟩ m' ↔
      ∃ doc name, document o replaceAll pathName stepPath rows m.stepGenner jk = .ok doc ∧
        nameMap o rows m.stepGenner jk = .ok name ∧
          m' = m.withDocs pathName (docs ++ [doc]) (names ++ [name]) := by
  have hget : (genDoc o replaceAll pathName stepPath rows jk).run (m.withDocs pathName docs names) =
      (Prog.lift (document o replaceAll pathName stepPath rows m.stepGenner jk) >>= fun doc => do
        addDocument pathName doc
        let name ← Prog.lift (nameMap o rows m.stepGenner jk)
        addName pathName name).run (m.withDocs pathName docs names) := rfl
  rw [hget]
  cases hdoc : document o replaceAll pathName stepPath rows m.stepGenner jk with
  | error e =>
    refine iff_of_false (fun h => by cases h) ?_
    rintro ⟨doc', name', hdoc', -⟩
    cases hdoc'
  | ok doc =>
    have hadd : (addDocument pathName doc).run (m.withDocs pathName docs names) =
        .ok ⟨⟩ (m.withDocs pathName (docs ++ [doc]) names) := by
      rw [addDocument, Prog.run_bind_get, withDocs, AList.lookup_insert, Prog.nonNull, Prog.lift_ok,
        pure_bind, EStateM.run_modify]
      simp only [withDocs, AList.insert_insert]
    rw [Prog.lift_ok, pure_bind, Prog.run_bind_ok hadd]
    cases hname : nameMap o rows m.stepGenner jk with
    | error e =>
      refine iff_of_false (fun h => by cases h) ?_
      rintro ⟨doc', name', -, hname', -⟩
      cases hname'
    | ok name =>
      have hadd' : (addName pathName name).run (m.withDocs pathName (docs ++ [doc]) names) =
          .ok ⟨⟩ (m.withDocs pathName (docs ++ [doc]) (names ++ [name])) := by
        rw [addName, Prog.run_bind_get, withDocs, AList.lookup_insert, Prog.nonNull, Prog.lift_ok,
          pure_bind, EStateM.run_modify]
        simp only [withDocs, AList.insert_insert]
      rw [Prog.lift_ok, pure_bind, hadd']
      constructor
      · intro h
        cases h
        exact ⟨doc, name, rfl, rfl, rfl⟩
      · rintro ⟨doc', name', hdoc', hname', rfl⟩
        cases hdoc'
        cases hname'
        rfl

/-- When the documents of a path are written, and which. -/
theorem run_forM_genDoc_iff {pathName : String} {stepPath : List ℤ} {rows : HashMap ℕ Row}
    {l : List (ℕ × ℕ)} {m' : MGenDocMap} (m : MGenDocMap) (docs : List Document)
    (names : List CaseNameMap) :
    (forM l (genDoc o replaceAll pathName stepPath rows)).run (m.withDocs pathName docs names) =
        .ok ⟨⟩ m' ↔
      ∃ docs' names', l.mapM (document o replaceAll pathName stepPath rows m.stepGenner) = .ok docs' ∧
        l.mapM (nameMap o rows m.stepGenner) = .ok names' ∧
          m' = m.withDocs pathName (docs ++ docs') (names ++ names') := by
  induction l generalizing docs names with
  | nil =>
    constructor
    · intro h
      cases h
      exact ⟨[], [], rfl, rfl, by rw [List.append_nil, List.append_nil]⟩
    · rintro ⟨docs', names', hdocs, hnames, rfl⟩
      cases hdocs
      cases hnames
      rw [List.reverse_nil, List.append_nil, List.reverse_nil, List.append_nil]
      rfl
  | cons jk l ih =>
    rw [List.forM_cons]
    constructor
    · intro h
      obtain ⟨⟨⟩, m₁, h₁, h₂⟩ := Prog.of_run_bind_ok h
      obtain ⟨doc, name, hdoc, hname, rfl⟩ := run_genDoc_iff.mp h₁
      obtain ⟨docs', names', hdocs, hnames, rfl⟩ := (ih _ _).mp h₂
      refine ⟨doc :: docs', name :: names', ?_, ?_, ?_⟩
      · exact mapM_cons_eq_ok.mpr ⟨doc, docs', hdoc, hdocs, rfl⟩
      · exact mapM_cons_eq_ok.mpr ⟨name, names', hname, hnames, rfl⟩
      · rw [List.append_assoc, List.append_assoc]
        rfl
    · rintro ⟨docs', names', hdocs, hnames, rfl⟩
      obtain ⟨doc, docs₁, hdoc, hdocs₁, rfl⟩ := mapM_cons_eq_ok.mp hdocs
      obtain ⟨name, names₁, hname, hnames₁, rfl⟩ := mapM_cons_eq_ok.mp hnames
      rw [Prog.run_bind_ok (run_genDoc_iff.mpr ⟨doc, name, hdoc, hname, rfl⟩)]
      refine (ih _ _).mpr ⟨docs₁, names₁, hdocs₁, hnames₁, ?_⟩
      rw [List.append_assoc, List.append_assoc]
      rfl

/-! ### What a path takes from the data algorithms -/

/-- The rows for the path, generated by the algorithms in the state `a`. -/
def rowsOf (mapper : ObjectMapper) (mbtXml : MbtXml) (scenarioName dataAlgo : String) (a : AlgoMap)
    (stepPath : List ℤ) : Option (HashMap ℕ Row) :=
  match MGenPathParamSet.genPathParamSet mbtXml.testSteps stepPath with
  | .error _ => none
  | .ok s => ((MGenData.genData mapper mbtXml.scenarios scenarioName dataAlgo s).eval a).join.map padded

/-- The algorithms after the call for the path. -/
def nextAlgos (mapper : ObjectMapper) (mbtXml : MbtXml) (scenarioName dataAlgo : String) (a : AlgoMap)
    (stepPath : List ℤ) : AlgoMap :=
  match MGenPathParamSet.genPathParamSet mbtXml.testSteps stepPath with
  | .error _ => a
  | .ok s => (MGenData.genData mapper mbtXml.scenarios scenarioName dataAlgo s).exec a

/-- There is always a row. -/
theorem padded_spec {rows : HashMap ℕ Row} (h : MDataAlgo.Dense rows) :
    MDataAlgo.Dense (padded rows) ∧ 0 < (padded rows).keys.length := by
  rw [padded]
  split
  · rename_i hnil
    have hempty : rows.insert 0 ∅ = rows.insert rows.keys.length ∅ := by rw [hnil]
    rw [hempty]
    exact ⟨h.insert_end _, (h.length_insert_end _).symm ▸ Nat.succ_pos _⟩
  · rename_i hne
    exact ⟨h, Nat.pos_of_ne_zero hne⟩

/-- The rows of a path are numbered, and there is one at least. -/
theorem rowsOf_spec {a : AlgoMap} {stepPath : List ℤ} {rows : HashMap ℕ Row}
    (h : rowsOf mapper mbtXml scenarioName dataAlgo a stepPath = some rows) :
    MDataAlgo.Dense rows ∧ 0 < rows.keys.length := by
  rw [rowsOf] at h
  split at h
  · cases h
  · rename_i s hs
    rw [Option.map_eq_some_iff] at h
    obtain ⟨rows', hrows', rfl⟩ := h
    rw [Option.join_eq_some_iff, Prog.eval] at hrows'
    split at hrows'
    · rename_i r a' hrun
      cases hrows'
      exact padded_spec ((MGenData.run_genData a).2 _ _ hrun)
    · cases hrows'

/-- The turn for a path with edges: it returns exactly when the rows, the replaced steps and all
documents are generated, and leaves these under the name of the path. -/
theorem run_genPath_iff {edgePathList stepPathList : List (List ℤ)} {i : ℕ} {edgePath stepPath : List ℤ}
    (hedge : edgePathList[i]? = some edgePath) (hstep : stepPathList[i]? = some stepPath)
    (hne : edgePath ≠ []) {m m' : MGenDocMap} :
    (genPath o replaceAll mapper mbtXml scenarioName dataAlgo edgePathList stepPathList i).run m =
        .ok ⟨⟩ m' ↔
      ∃ rows g docs names,
        rowsOf mapper mbtXml scenarioName dataAlgo m.algoMap stepPath = some rows ∧
        (genReplacedStep o replaceAll stepPath).run m.stepGenner = .ok ⟨⟩ g ∧
        (pairs g.replacedStepList.length rows.keys.length).mapM
            (document o replaceAll (getStepPathName scenarioName edgePath) stepPath rows g) = .ok docs ∧
        (pairs g.replacedStepList.length rows.keys.length).mapM (nameMap o rows g) = .ok names ∧
        m' = { m with
            stepGenner := g
            algoMap := nextAlgos mapper mbtXml scenarioName dataAlgo m.algoMap stepPath : MGenDocMap
          }.withDocs (getStepPathName scenarioName edgePath) docs names := by
  have hlen : edgePath.length ≠ 0 := fun h => hne (List.length_eq_zero_iff.mp h)
  rw [genPath, ArrayList.get_ok hedge, Prog.lift_ok, pure_bind, if_neg hlen, ArrayList.get_ok hstep,
    Prog.lift_ok, pure_bind, rowsOf, nextAlgos]
  cases hset : MGenPathParamSet.genPathParamSet mbtXml.testSteps stepPath with
  | error e => exact iff_of_false (fun h => by cases h) (by rintro ⟨rows, g, docs, names, h, -⟩; cases h)
  | ok s =>
    rw [Prog.lift_ok, pure_bind]
    dsimp only
    cases hdata : (MGenData.genData mapper mbtXml.scenarios scenarioName dataAlgo s).run m.algoMap with
    | error e a =>
      rw [Prog.run_bind_error (Prog.run_zoom_error hdata), Prog.eval_error hdata]
      exact iff_of_false (fun h => by cases h) (by rintro ⟨rows, g, docs, names, h, -⟩; cases h)
    | ok r a =>
      rw [Prog.run_bind_ok (Prog.run_zoom_ok hdata), Prog.eval_ok hdata, Prog.exec_ok hdata]
      cases r with
      | none => exact iff_of_false (fun h => by cases h) (by rintro ⟨rows, g, docs, names, h, -⟩; cases h)
      | some rows =>
        rw [Prog.run_bind_ok (EStateM.run_modify ..), Prog.nonNull, Prog.lift_ok, pure_bind]
        -- the state in which the step generator is called
        let m₁ := { m with algoMap := a }.withDocs (getStepPathName scenarioName edgePath) [] []
        have hm₁ : m₁.stepGenner = m.stepGenner := rfl
        change EStateM.run _ m₁ = _ ↔ _
        cases hgen : (genReplacedStep o replaceAll stepPath).run m.stepGenner with
        | error e g =>
          rw [← hm₁] at hgen
          rw [Prog.run_bind_error (Prog.run_zoom_error hgen)]
          refine iff_of_false (fun h => by cases h) ?_
          rintro ⟨rows', g', docs, names, -, h, -⟩
          cases h
        | ok u g =>
          rw [← hm₁] at hgen
          rw [Prog.run_bind_ok (Prog.run_zoom_ok hgen), Prog.run_bind_get, forM_pairs]
          constructor
          · intro h
            obtain ⟨docs, names, hdocs, hnames, rfl⟩ :=
              (run_forM_genDoc_iff { m with stepGenner := g, algoMap := a } [] []).mp h
            exact ⟨_, g, docs, names, rfl, rfl, hdocs, hnames, rfl⟩
          · rintro ⟨rows', g', docs, names, hrows, hg, hdocs, hnames, rfl⟩
            cases hrows
            cases hg
            exact (run_forM_genDoc_iff { m with stepGenner := g, algoMap := a } [] []).mpr
              ⟨docs, names, hdocs, hnames, rfl⟩

/-! ### The documents as a list -/

/-- The element for a step holds the actions of the entry, substituted with the row. -/
def Substituted (o : VisitOrder String) (replaceAll : ReplaceAll) (g : MGenReplacedStep)
    (entry : HashMap ℤ (List String)) (row : Row) (t : ℤ) (e : DocStep) : Prop :=
  e.name = g.stepNameMap.lookup t ∧ ∃ actions, entry.lookup t = some actions ∧
    List.Forall₂ (fun a b => substituteParam o replaceAll row a = .ok b) actions e.actions

/-- When the element for a step is written. -/
theorem testStep_eq_ok {g : MGenReplacedStep} {entry : HashMap ℤ (List String)} {row : Row} {t : ℤ}
    {e : DocStep} :
    testStep o replaceAll g entry row t = .ok e ↔ Substituted o replaceAll g entry row t e := by
  rw [testStep, bind_eq_ok]
  constructor
  · rintro ⟨actions, hactions, h⟩
    obtain ⟨bs, hbs, h⟩ := bind_eq_ok.mp h
    cases h
    exact ⟨rfl, actions, Prog.nonNull_eq_ok.mp hactions, mapM_eq_ok.mp hbs⟩
  · rintro ⟨hname, actions, hactions, hall⟩
    refine ⟨actions, Prog.nonNull_eq_ok.mpr hactions, bind_eq_ok.mpr ⟨e.actions, mapM_eq_ok.mpr hall, ?_⟩⟩
    rw [← hname]
    rfl

/-- When the document of a combination is written. -/
theorem document_eq_ok {pathName : String} {stepPath : List ℤ} {rows : HashMap ℕ Row}
    {g : MGenReplacedStep} {jk : ℕ × ℕ} {doc : Document} :
    document o replaceAll pathName stepPath rows g jk = .ok doc ↔
      ∃ row entry, rows.lookup jk.2 = some row ∧ g.replacedStepList[jk.1]? = some entry ∧
        doc.name = pathName ++ number rows.keys.length jk.1 jk.2 ∧
          List.Forall₂ (Substituted o replaceAll g entry row) stepPath doc.testSteps := by
  rw [document, bind_eq_ok]
  constructor
  · rintro ⟨row, hrow, h⟩
    obtain ⟨entry, hentry, h⟩ := bind_eq_ok.mp h
    obtain ⟨steps, hsteps, h⟩ := bind_eq_ok.mp h
    cases h
    refine ⟨row, entry, Prog.nonNull_eq_ok.mp hrow, ArrayList.get_eq_ok.mp hentry, rfl, ?_⟩
    exact (mapM_eq_ok.mp hsteps).imp fun t e h => testStep_eq_ok.mp h
  · rintro ⟨row, entry, hrow, hentry, hname, hall⟩
    refine ⟨row, Prog.nonNull_eq_ok.mpr hrow, bind_eq_ok.mpr ⟨entry, ArrayList.get_ok hentry, ?_⟩⟩
    refine bind_eq_ok.mpr ⟨doc.testSteps, mapM_eq_ok.mpr (hall.imp fun t e h => testStep_eq_ok.mpr h), ?_⟩
    rw [← hname]
    rfl

/-- When the name of a combination is written. -/
theorem nameMap_eq_ok {rows : HashMap ℕ Row} {g : MGenReplacedStep} {jk : ℕ × ℕ} {name : CaseNameMap} :
    nameMap o rows g jk = .ok name ↔
      ∃ row replacedName, rows.lookup jk.2 = some row ∧ g.replacedNameList[jk.1]? = some replacedName ∧
        name = ⟨number rows.keys.length jk.1 jk.2, scenParamNameStr o row ++ replacedName⟩ := by
  rw [nameMap, bind_eq_ok]
  constructor
  · rintro ⟨row, hrow, h⟩
    obtain ⟨replacedName, hreplaced, h⟩ := bind_eq_ok.mp h
    cases h
    exact ⟨row, replacedName, Prog.nonNull_eq_ok.mp hrow, ArrayList.get_eq_ok.mp hreplaced, rfl⟩
  · rintro ⟨row, replacedName, hrow, hreplaced, rfl⟩
    exact ⟨row, Prog.nonNull_eq_ok.mpr hrow, bind_eq_ok.mpr ⟨replacedName, ArrayList.get_ok hreplaced, rfl⟩⟩

/-- No substitution of a row throws in the actions of an entry. -/
def RowsSubstitute (o : VisitOrder String) (replaceAll : ReplaceAll) (stepPath : List ℤ)
    (entries : List (HashMap ℤ (List String))) (rows : HashMap ℕ Row) : Prop :=
  ∀ entry ∈ entries, ∀ k row, rows.lookup k = some row → ∀ t ∈ stepPath, ∀ actions,
    entry.lookup t = some actions → ∀ a ∈ actions, ∃ b, substituteParam o replaceAll row a = .ok b

/-- Exactly the numbers below the size have a row. -/
theorem exists_of_lookup {ν : Type} {m : HashMap ℕ ν} (h : MDataAlgo.Dense m) {k : ℕ} :
    (∃ v, m.lookup k = some v) ↔ k < m.keys.length := by
  rw [← Option.isSome_iff_exists, AList.lookup_isSome, h]

/-- The pairs are those of numbers below the two bounds. -/
theorem mem_pairs {r p : ℕ} {jk : ℕ × ℕ} : jk ∈ pairs r p ↔ jk.1 < r ∧ jk.2 < p := by
  rw [pairs, List.mem_product, List.mem_range, List.mem_range]

/-- All documents are generated exactly when no substitution throws. -/
theorem exists_documents_iff (pathName : String) {stepPath : List ℤ} {rows : HashMap ℕ Row}
    {g : MGenReplacedStep} (hrows : MDataAlgo.Dense rows)
    (hentries : ∀ entry ∈ g.replacedStepList, ∀ t ∈ stepPath, ∃ l, entry.lookup t = some l) :
    (∃ docs, (pairs g.replacedStepList.length rows.keys.length).mapM
      (document o replaceAll pathName stepPath rows g) = .ok docs) ↔
        RowsSubstitute o replaceAll stepPath g.replacedStepList rows := by
  rw [exists_mapM_eq_ok]
  constructor
  · intro h entry hentry k row hrow t ht actions hactions a ha
    obtain ⟨j, hj, rfl⟩ := List.mem_iff_getElem.mp hentry
    obtain ⟨doc, hdoc⟩ := h (j, k) (mem_pairs.mpr ⟨hj, (exists_of_lookup hrows).mp ⟨row, hrow⟩⟩)
    obtain ⟨row', entry', hrow', hentry', -, hall⟩ := document_eq_ok.mp hdoc
    rw [hrow] at hrow'
    cases hrow'
    rw [List.getElem?_eq_getElem hj] at hentry'
    cases hentry'
    obtain ⟨i, hi, rfl⟩ := List.mem_iff_getElem.mp ht
    obtain ⟨-, actions', hactions', hsub⟩ := hall.get hi (hall.length_eq ▸ hi)
    rw [List.get_eq_getElem, hactions] at hactions'
    cases hactions'
    obtain ⟨i', hi', rfl⟩ := List.mem_iff_getElem.mp ha
    exact ⟨_, hsub.get hi' (hsub.length_eq ▸ hi')⟩
  · rintro h ⟨j, k⟩ hjk
    obtain ⟨hj, hk⟩ := mem_pairs.mp hjk
    obtain ⟨row, hrow⟩ := (exists_of_lookup hrows).mpr hk
    have hentry := List.getElem_mem hj
    have hsteps : ∃ steps, stepPath.mapM (testStep o replaceAll g g.replacedStepList[j] row) = .ok steps := by
      refine exists_mapM_eq_ok.mpr fun t ht => ?_
      obtain ⟨actions, hactions⟩ := hentries _ hentry t ht
      obtain ⟨bs, hbs⟩ := exists_mapM_eq_ok.mpr (h _ hentry k row hrow t ht actions hactions)
      exact ⟨⟨_, bs⟩, testStep_eq_ok.mpr ⟨rfl, actions, hactions, mapM_eq_ok.mp hbs⟩⟩
    obtain ⟨steps, hsteps⟩ := hsteps
    refine ⟨⟨_, steps⟩, document_eq_ok.mpr ⟨row, _, hrow, List.getElem?_eq_getElem hj, rfl, ?_⟩⟩
    exact (mapM_eq_ok.mp hsteps).imp fun t e h => testStep_eq_ok.mp h

/-- The names of a path are always written. -/
theorem exists_names {rows : HashMap ℕ Row} {g : MGenReplacedStep} (hrows : MDataAlgo.Dense rows)
    (hlen : g.replacedNameList.length = g.replacedStepList.length) :
    ∃ names, (pairs g.replacedStepList.length rows.keys.length).mapM (nameMap o rows g) = .ok names := by
  refine exists_mapM_eq_ok.mpr ?_
  rintro ⟨j, k⟩ hjk
  obtain ⟨hj, hk⟩ := mem_pairs.mp hjk
  obtain ⟨row, hrow⟩ := (exists_of_lookup hrows).mpr hk
  exact ⟨_, nameMap_eq_ok.mpr ⟨row, _, hrow, List.getElem?_eq_getElem (hlen ▸ hj), rfl⟩⟩

end MGenDocMap

end MBT
