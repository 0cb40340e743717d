import MBT.Draw.SeqGraph
import MBT.Generate.ScriptDocMap
import MBT.Xml.MGenStepXml

/-!
# Loader — Documents

`MTestLoader.run` from the MBT XML to the documents of the cases: the graph and its drawings, the
paths, the files of the step variables, and the documents of each scenario, whose cases are made
before the next scenario has its turn.

* `isEdge_taken`: an edge of the graph is a step taken between two states.
* `genDocs_walks`: every document goes along the steps of the model, and every path with an edge has
  one.
-/

namespace MBT
open Exec Text MXmlParse MDataAlgo MGenMbtXml MGenGraph
open MJsonHandler (ObjectMapper getJsonParamList)
open MQTestView (VarFailure VarHandler liftRuntime)
open MGenReplacedStep (ReplaceAll Known combsOf varMap replaceVar)
open MGenDocMap (substituteParam)

namespace MTestLoader

/-! ### The stages -/

section Stages

variable (order : ℕ → VisitOrder ℤ) (visit : VisitOrder ℕ) (o : VisitOrder String)
  (replaceAll : ReplaceAll) (mapper : ObjectMapper)

/-- A computation that does not touch the data algorithms. -/
def liftFailure {α : Type} : Except VarFailure α → VarHandler α
  | .ok x => pure x
  | .error e => throw e

/-- `genPath` of the scenarios, with new objects; the map and the graph that it leaves. -/
def runGenPath (graph : MGraph) (scenInfoList : Option (List ScenarioInfo)) :
    VarHandler (Option (HashMap String PathLists) × MGraph) :=
  match (MGenPath.genPath order scenInfoList).run (.new graph) with
  | .ok scenariosPathsMap x => pure (scenariosPathsMap, x.graph)
  | .error e _ => throw (.runtime e)

/-- `genDocMap` with the object of a scenario. -/
def runGenDocMap (mbtXml : MbtXml) (info : ScenarioInfo) (scenPaths : PathLists)
    (stepGenner : MGenReplacedStep) : VarHandler MGenDocMap := fun a =>
  match (MGenDocMap.genDocMap o replaceAll mapper mbtXml info.name info.data scenPaths.edgePath
    scenPaths.stepPath).run ⟨stepGenner, a, ∅, ∅⟩ with
  | .ok _ m => .ok m m.algoMap
  | .error e m => .error (.runtime e) m.algoMap

/-- `MGenCase.run` for the `j`-th document of a path.  The view that makes the case is any: it may ask
the shared data algorithms for rows, and it may throw. -/
abbrev GenCase := (pathName : String) → (j : ℕ) → Document → CaseNameMap → VarHandler Unit

/-- The loop over the documents of a scenario. -/
def genCases (genCase : GenCase) (docGenner : MGenDocMap) : VarHandler Unit :=
  forM (o.visit docGenner.scriptDocMap.keySet) fun pathName => do
    let docs ← liftRuntime (Prog.nonNull (docGenner.scriptDocMap.lookup pathName))
    forM (List.range docs.length) fun (j : ℕ) => do
      let pathDoc ← liftRuntime (ArrayList.get docs j)
      let names ← liftRuntime (Prog.nonNull (docGenner.scriptNameMap.lookup pathName))
      let nameMap ← liftRuntime (ArrayList.get names j)
      genCase pathName j pathDoc nameMap

/-- The turn of the loop over the scenarios. -/
def genScenarioDocs (file combFile : Option (Option Element)) (mbtXml : MbtXml)
    (scenariosPathsMap : HashMap String PathLists) (genCase : GenCase) (info : ScenarioInfo) :
    VarHandler MGenDocMap := do
  let scenPaths ← liftRuntime (Prog.nonNull (scenariosPathsMap.lookup info.name))
  let stepGenner ← liftRuntime (MGenReplacedStep.newFromFiles file combFile)
  let docGenner ← runGenDocMap o replaceAll mapper mbtXml info scenPaths stepGenner
  genCases o genCase docGenner
  return docGenner

/-- The MBT XML as the parameter sets and the data of the paths are taken from it. -/
def mbtXmlOf (scens : List ScenarioMethod) (ms : List Logged) : MbtXml :=
  ⟨ms.map stepActions, scens.map scenParams⟩

/-- The file that the stages read. -/
def fileOf (className : String) (scens : List ScenarioMethod) (ms : List Logged) :
    Option (Option Element) :=
  some (some (modelElem className scens (ms.map elem)))

/-- `run` from the MBT XML on: the map of the documents of each scenario.  Every stage parses the
scenarios for itself, from the same file; where `genStepXml` returns `false`, there is no file of the
combinations.  What the view does in a turn may depend on the turns before, and so has its index. -/
def genDocs (showEdgeName : Bool) (className : String) (scens : List ScenarioMethod)
    (ms : List Logged) (genCase : ℕ → GenCase) : VarHandler (List MGenDocMap) := do
  let file := fileOf className scens ms
  let (_, graph) ← liftRuntime (genGraphFromFile file)
  let scenInfoList ← liftFailure (MGenScenParser.parseScenarioFile mapper file)
  let _ ← liftRuntime (MDraw.drawSeqGraph graph scenInfoList showEdgeName)
  let (scenariosPathsMap, graph) ← runGenPath order graph scenInfoList
  let scenariosPathsMap := scenariosPathsMap.getD ∅
  let _ ← liftRuntime (MDraw.drawCovGraph graph scenInfoList scenariosPathsMap showEdgeName)
  let stepXml ← MGenStepXml.genStepXml visit mapper file
  let combFile := stepXml.map fun xml => some xml.varComb
  let scenInfoList ← liftRuntime (Prog.nonNull scenInfoList)
  scenInfoList.zipIdx.mapM fun t => genScenarioDocs o replaceAll mapper file combFile
    (mbtXmlOf scens ms) scenariosPathsMap (genCase t.2) t.1

end Stages

/-! ### What a document is -/

/-- A step of the model, with the calls that its method logs. -/
abbrev ModelStep := StepStates × List Action

/-- The step can be taken from the one state to the other. -/
def Takes (s : ModelStep) (b e : String) : Prop := b ∈ s.1.begins.map trim ∧ e ∈ s.1.ends.map trim

/-- The element performs the step: its actions are those of the step, with one of the combinations
that are written for the step and one row of the scenario. -/
structure Performs (o : VisitOrder String) (replaceAll : ReplaceAll) (mapper : ObjectMapper)
    (a : AlgoMap) (before : List ModelStep) (s : ModelStep) (row : Row) (e : DocStep) : Prop where
  name : e.name = some s.1.step.name
  actions : ∃ (comb : StepCombs) (c : Vars) (actions : List String),
    MGenStepXml.Combined mapper a (before.map logged) (logged s) comb ∧
    (c ∈ comb.combinations ∨ comb.combinations = [] ∧ c = []) ∧
    replaceVar o replaceAll (varMap c) (s.2.map Action.line) = .ok actions ∧
    List.Forall₂ (fun x y => substituteParam o replaceAll row x = .ok y) actions e.actions

/-- The document goes along the steps of the model, from state to state.  Where `stays` holds, the
step of an edge may follow itself on the spot. -/
def Walks (o : VisitOrder String) (replaceAll : ReplaceAll) (mapper : ObjectMapper) (a : AlgoMap)
    (steps : List ModelStep) (stays : Prop) (edges : List ℤ) (row : Row) (doc : Document) : Prop :=
  ∃ states : List String, states.length = doc.testSteps.length + 1 ∧
    ∀ (i : ℕ) e, doc.testSteps[i]? = some e → ∃ (k : ℕ) (s : ModelStep) (b t : String),
      steps[k]? = some s ∧ Takes s b t ∧ states[i + 1]? = some t ∧
      (states[i]? = some b ∨ stays ∧ 0 < i ∧ edges[i - 1]? = edges[i]?) ∧
      Performs o replaceAll mapper a (steps.take k) s row e

/-! ### The steps along a path -/

/-- The graph of the steps. -/
def graphOf (steps : List ModelStep) : MGraph :=
  genGraphFromXML ((steps.map Prod.fst).map StepStates.step)

variable {steps : List ModelStep}

/-- The graph of a model is well formed. -/
theorem wf_graphOf (steps : List ModelStep) : (graphOf steps).Wf := by
  have hedges : graphOf steps = .ofEdges ((edgesOf (steps.map Prod.fst)).map StepEdge.call) := by
    rw [graphOf, genGraphFromXML_eq, MGraph.ofCalls, MGraph.ofEdges, List.foldl_map, List.foldl_map]
    rfl
  rw [hedges]
  exact MGraph.wf_ofEdges _

/-- **An edge of the graph is a step** that is taken between its two states. -/
theorem isEdge_taken {q : ℤ × ℕ} (hq : (graphOf steps).IsEdge q) : ∃ s ∈ steps, ∃ b t, Takes s b t ∧
    (graphOf steps).stepNumber q = s.1.step.stepNumber ∧
    (graphOf steps).nodeNameMap.lookup q.1 = some b ∧
    (graphOf steps).nodeNameMap.lookup ((graphOf steps).multigraph.dst q) = some t := by
  have hholds : MGraph.Holds (graphOf steps) (statesOf (steps.map Prod.fst))
      ((edgesOf (steps.map Prod.fst)).map StepEdge.call) := holds_steps _
  have hwf := wf_graphOf steps
  obtain ⟨h₀, h₁⟩ := MGraph.isNode_of_isEdge hq
  have hplace : q.2 < (row (graphOf steps).edgeNumberList q.1).length := by
    rw [hwf.length_numbers]
    exact hq
  obtain ⟨b, hb⟩ : ∃ b, (graphOf steps).nodeNameMap.lookup q.1 = some b := by
    rw [← Option.isSome_iff_exists, AList.lookup_isSome]
    exact hholds.mem_nodeNameMap.mpr ⟨h₀, hwf.count ▸ h₁⟩
  -- the edge at the place is one that a step has asked for
  obtain ⟨k, e, hk, hbeg, htarget, -, hstep, -⟩ := hholds.exists_inserted
    (hholds.nodeNum_iff.mpr hb) (List.getElem?_eq_getElem hplace)
  rw [List.getElem?_map, Option.map_eq_some_iff] at hk
  obtain ⟨d, hd, rfl⟩ := hk
  obtain ⟨hbegin, hend⟩ := trim_of_mem_edgesOf (List.mem_of_getElem? hd)
  obtain ⟨_, hmem, hds⟩ := List.mem_flatMap.mp (List.mem_of_getElem? hd)
  obtain ⟨s, hs, rfl⟩ := List.mem_map.mp hmem
  obtain ⟨b', hb', hds⟩ := List.mem_flatMap.mp hds
  obtain ⟨t', ht', rfl⟩ := List.mem_map.mp hds
  have hbeg : trim b' = b := (trim_trim b').symm.trans hbeg
  refine ⟨s, hs, trim b', trim t', ⟨List.mem_map_of_mem hb', List.mem_map_of_mem ht'⟩, ?_, hbeg ▸ hb, ?_⟩
  · rw [MGraph.stepNumber, List.getD_eq_getElem?_getD, hstep]
    rfl
  · have hdst : (row (graphOf steps).edgeList q.1)[q.2]? =
        some ((graphOf steps).multigraph.dst q) := by
      have hdeg : q.2 < (row (graphOf steps).edgeList q.1).length := hq
      exact (List.getElem?_eq_getElem hdeg).trans
        (congrArg some (List.getD_eq_getElem _ (-1) hdeg).symm)
    rw [hdst] at htarget
    exact hholds.nodeNum_iff.mp (trim_trim t' ▸ htarget.symm)

/-- A document whose elements perform the steps of a path goes along them. -/
theorem walks_of_goes {o : VisitOrder String} {replaceAll : ReplaceAll} {mapper : ObjectMapper}
    {a : AlgoMap} {stays : Prop} {p : Path} (hp : (graphOf steps).Goes stays p) {row : Row}
    {doc : Document} (hdoc : List.Forall₂ (fun t e => ∀ (k : ℕ) (s : ModelStep), steps[k]? = some s →
      s.1.step.stepNumber = t → Performs o replaceAll mapper a (steps.take k) s row e) p.steps
      doc.testSteps) : Walks o replaceAll mapper a steps stays p.edges row doc := by
  let name (n : ℤ) : String := ((graphOf steps).nodeNameMap.lookup n).getD ""
  have hlength : doc.testSteps.length = p.edges.length := hdoc.length_eq.symm.trans hp.steps
  refine ⟨p.states.map name, by rw [List.length_map, hp.states, hlength], fun i e he => ?_⟩
  obtain ⟨hi, rfl⟩ := List.getElem?_eq_some_iff.mp he
  obtain ⟨q, hq, hdst, hnumber, hstep, hsrc⟩ := hp.edges i (hlength ▸ hi)
  obtain ⟨s, hs, b, t, htakes, hstepNumber, hb, ht⟩ := isEdge_taken hq
  obtain ⟨k, hk⟩ := List.mem_iff_getElem?.mp hs
  have hname {n : ℤ} {x : String} (hn : (graphOf steps).nodeNameMap.lookup n = some x) : name n = x :=
    congrArg (Option.getD · "") hn
  refine ⟨k, s, b, t, hk, htakes, ?_, ?_, ?_⟩
  · rw [List.getElem?_map, hdst, Option.map_some, hname ht]
  · rcases hsrc with hsrc | ⟨hstays, hpos, hbefore⟩
    · rw [List.getElem?_map, hsrc, Option.map_some, hname hb]
      exact .inl rfl
    · exact .inr ⟨hstays, hpos, hbefore.trans hnumber.symm⟩
  · have hi' : i < p.steps.length := hdoc.length_eq ▸ hi
    refine hdoc.get hi' hi k s hk ?_
    rw [List.getElem?_eq_getElem hi'] at hstep
    exact hstepNumber.symm.trans (Option.some.inj hstep).symm

/-! ### What the files say of the steps -/

/-- The combinations are those that are written for the steps. -/
structure Written (mapper : ObjectMapper) (a : AlgoMap) (steps : List ModelStep)
    (combs : List StepCombs) : Prop where
  length : combs.length = steps.length
  combined : ∀ (k : ℕ) s c, steps[k]? = some s → combs[k]? = some c →
    MGenStepXml.Combined mapper a ((steps.take k).map logged) (logged s) c

/-- The number of a step. -/
def stepNumberOf (s : ModelStep) : ℤ := s.1.step.stepNumber

/-- The last element of a number is the only one, where the numbers are different. -/
theorem find?_reverse_of_nodup {α : Type} {number : α → ℤ} {l : List α} (h : (l.map number).Nodup)
    {x : α} (hx : x ∈ l) : l.reverse.find? (fun y => number y == number x) = some x := by
  cases hfind : l.reverse.find? fun y => number y == number x with
  | none =>
    have hnone := List.find?_eq_none.mp hfind x (List.mem_reverse.mpr hx)
    exact absurd (beq_self_eq_true (number x)) hnone
  | some y =>
    have hy := List.mem_reverse.mp (List.mem_of_find?_eq_some hfind)
    have hnumber : number y = number x := by simpa using List.find?_some hfind
    exact congrArg some (List.inj_on_of_nodup_map h hy hx hnumber)

section Written

variable {mapper : ObjectMapper} {a : AlgoMap} {combs : List StepCombs}
  (hnodup : (steps.map stepNumberOf).Nodup)

include hnodup

/-- The actions of a step are found by its number. -/
theorem actionsOf_stepNumberOf {s : ModelStep} (hs : s ∈ steps) :
    MGenReplacedStep.stepActions ((steps.map logged).map stepActions) (stepNumberOf s) =
      some (stepActions (logged s)) := by
  have hnumbers : ((steps.map logged).map stepActions).map StepActions.stepNumber =
      steps.map stepNumberOf := by
    rw [List.map_map, List.map_map]
    rfl
  exact find?_reverse_of_nodup (hnumbers ▸ hnodup)
    (List.mem_map_of_mem (List.mem_map_of_mem hs))

/-- Each step has its combinations. -/
theorem Written.stepCombs (h : Written mapper a steps combs) {k : ℕ} {s : ModelStep}
    (hs : steps[k]? = some s) : ∃ c, combs[k]? = some c ∧
      MGenReplacedStep.stepCombs combs (stepNumberOf s) = some c := by
  have hnumbers : combs.map StepCombs.stepNumber = steps.map stepNumberOf := by
    refine List.ext_getElem (by rw [List.length_map, List.length_map, h.length]) fun i hi hi' => ?_
    rw [List.length_map] at hi hi'
    rw [List.getElem_map, List.getElem_map]
    exact (h.combined i _ _ (List.getElem?_eq_getElem hi') (List.getElem?_eq_getElem hi)).stepNumber
  obtain ⟨hk, -⟩ := List.getElem?_eq_some_iff.mp hs
  rw [← h.length] at hk
  have hget : combs[k]? = some combs[k] := List.getElem?_eq_getElem hk
  have hnumber : combs[k].stepNumber = stepNumberOf s := (h.combined k s _ hs hget).stepNumber
  refine ⟨_, hget, ?_⟩
  rw [← hnumber]
  exact find?_reverse_of_nodup (hnumbers ▸ hnodup) (List.mem_of_getElem? hget)

/-- Each step is known. -/
theorem Written.known (h : Written mapper a steps combs) {s : ModelStep} (hs : s ∈ steps) :
    Known combs ((steps.map logged).map stepActions) (stepNumberOf s) := by
  obtain ⟨k, hk⟩ := List.mem_iff_getElem?.mp hs
  obtain ⟨c, -, hc⟩ := h.stepCombs hnodup hk
  exact ⟨⟨c, hc⟩, ⟨_, actionsOf_stepNumberOf hnodup hs⟩⟩

end Written

/-! ### The documents of a scenario -/

/-- What a path has put last under a number are the actions with one of its combinations. -/
theorem replaced_of_lastUse {o : VisitOrder String} {replaceAll : ReplaceAll} {combs : List StepCombs}
    {acts : List StepActions} {p : List ℤ} {ch : List Vars} (hch : ch ∈ MGenReplacedStep.choicesOf combs p)
    {u : ℤ} {l : List String} (hl : MGenReplacedStep.lastUse o replaceAll acts p ch u = some l) :
    ∃ c ∈ combsOf combs u, MGenReplacedStep.replaced o replaceAll acts u c = .ok l := by
  induction p generalizing ch with
  | nil => cases hl
  | cons t p ih =>
    obtain ⟨c, hc, ch, hch', rfl⟩ := Choices.mem_choices_cons.mp hch
    rw [MGenReplacedStep.lastUse, Option.or_eq_some_iff] at hl
    rcases hl with hl | ⟨-, hl⟩
    · exact ih hch' hl
    · split at hl
      · rename_i hut
        subst hut
        refine ⟨c, hc, ?_⟩
        cases hr : MGenReplacedStep.replaced o replaceAll acts u c with
        | ok l' =>
          rw [hr] at hl
          exact congrArg Except.ok (Option.some.inj hl)
        | error e =>
          rw [hr] at hl
          cases hl
      · cases hl

/-- The maps of a scenario with the paths `ps`: every path with an edge has a document, and every
document goes along the steps on one of the paths. -/
structure Cases (o : VisitOrder String) (replaceAll : ReplaceAll) (mapper : ObjectMapper)
    (a : AlgoMap) (steps : List ModelStep) (mbtXml : MbtXml) (stays : Prop) (info : ScenarioInfo)
    (ps : List Path) (m : MGenDocMap) : Prop where
  found : ∀ p ∈ ps, p.edges ≠ [] → ∃ doc docs,
    m.scriptDocMap.lookup (getStepPathName info.name p.edges) = some (doc :: docs)
  walks : ∀ pathName docs, m.scriptDocMap.lookup pathName = some docs → ∀ doc ∈ docs, ∃ p ∈ ps,
    pathName = getStepPathName info.name p.edges ∧ ∃ (b : AlgoMap) (rows : HashMap ℕ Row) (k : ℕ)
      (row : Row), MGenDocMap.rowsOf mapper mbtXml info.name info.data b p.steps = some rows ∧
      rows.lookup k = some row ∧ Walks o replaceAll mapper a steps stays p.edges row doc

section Scenario

variable {o : VisitOrder String} {replaceAll : ReplaceAll} {mapper : ObjectMapper} {a b : AlgoMap}
  {combs : List StepCombs} {scens : List ScenarioMethod} {info : ScenarioInfo} {m : MGenDocMap}

/-- The element for a step, of an entry of the replaced steps. -/
theorem performs_of_substituted (hnodup : (steps.map stepNumberOf).Nodup)
    (h : Written mapper a steps combs) {p : List ℤ} {g : MGenReplacedStep}
    (hloaded : MGenReplacedStep.Loaded combs ((steps.map logged).map stepActions) g)
    {ch : List Vars} (hch : ch ∈ MGenReplacedStep.choicesOf combs p) {entry : HashMap ℤ (List String)}
    (hentry : ∀ u, entry.lookup u =
      MGenReplacedStep.lastUse o replaceAll ((steps.map logged).map stepActions) p ch u) {row : Row}
    {t : ℤ} {e : DocStep} (he : MGenDocMap.Substituted o replaceAll g entry row t e) {k : ℕ}
    {s : ModelStep} (hs : steps[k]? = some s) (ht : stepNumberOf s = t) :
    Performs o replaceAll mapper a (steps.take k) s row e := by
  subst ht
  obtain ⟨hname, actions, hactions, hall⟩ := he
  obtain ⟨comb, hcomb, hfound⟩ := h.stepCombs hnodup hs
  have hcombined := h.combined k s comb hs hcomb
  obtain ⟨c, hc, hreplaced⟩ := replaced_of_lastUse hch ((hentry _).symm.trans hactions)
  have hacts : MGenReplacedStep.actionsOf ((steps.map logged).map stepActions) (stepNumberOf s) =
      s.2.map Action.line := by
    rw [MGenReplacedStep.actionsOf, actionsOf_stepNumberOf hnodup (List.mem_of_getElem? hs)]
    rfl
  rw [MGenReplacedStep.replaced, hacts] at hreplaced
  refine ⟨?_, comb, c, actions, hcombined, ?_, hreplaced, hall⟩
  · rw [hname, hloaded.names, MGenReplacedStep.stepNameOf, hfound, Option.map_some,
      hcombined.stepName]
    rfl
  · rw [combsOf, hfound] at hc
    dsimp only at hc
    -- a step without combinations is replaced once, without values
    split at hc
    · rename_i hnil
      exact .inr ⟨hnil, List.mem_singleton.mp hc⟩
    · exact .inl hc

/-- The documents that the turn for a path leaves. -/
theorem walks_of_turn (hnodup : (steps.map stepNumberOf).Nodup) (h : Written mapper a steps combs)
    {stays : Prop} {p : Path} (hp : (graphOf steps).Goes stays p) {before : List MGenDocMap.Path}
    (hbefore : ∀ q ∈ before, ∀ t ∈ q.2, Known combs ((steps.map logged).map stepActions) t)
    (hknown : ∀ t ∈ p.steps, Known combs ((steps.map logged).map stepActions) t)
    {docs : List Document} {names : List CaseNameMap}
    (hturn : MGenDocMap.Turn o replaceAll mapper combs (mbtXmlOf scens (steps.map logged)) info.name
      info.data b before (p.edges, p.steps) docs names) :
    docs ≠ [] ∧ ∀ doc ∈ docs, ∃ (b' : AlgoMap) (rows : HashMap ℕ Row) (k : ℕ) (row : Row),
      MGenDocMap.rowsOf mapper (mbtXmlOf scens (steps.map logged)) info.name info.data b' p.steps =
        some rows ∧ rows.lookup k = some row ∧ Walks o replaceAll mapper a steps stays p.edges row doc := by
  obtain ⟨rows, g, hret, hdocs, -⟩ := hturn
  have hloaded : MGenReplacedStep.Loaded combs (mbtXmlOf scens (steps.map logged)).testSteps
      (MGenDocMap.genBefore o replaceAll combs (mbtXmlOf scens (steps.map logged)) before) :=
    MGenDocMap.loaded_genBefore fun q hq _ => hbefore q hq
  have hgen := MGenDocMap.generated_of_run hknown hloaded hret.steps
  obtain ⟨g', hrun, hloaded', -, -⟩ :=
    MGenReplacedStep.run_genReplacedStep hknown hgen.substitutes hloaded
  cases hret.steps.symm.trans hrun
  have hlists := mapM_eq_ok.mp hdocs
  refine ⟨?_, fun doc hdoc => ?_⟩
  · -- there is a row and an entry, so there is a pair of them
    rintro rfl
    have hlength := hlists.length_eq
    rw [MGenDocMap.length_pairs, List.length_nil, Nat.mul_eq_zero] at hlength
    have hpos := hgen.entries_pos hknown
    have hrows := (MGenDocMap.rowsOf_spec hret.data).2
    omega
  · obtain ⟨j, hj, rfl⟩ := List.mem_iff_getElem.mp hdoc
    have hget := hlists.get (hlists.length_eq.symm ▸ hj) hj
    obtain ⟨row, entry, hrow, hentry, -, hsub⟩ := MGenDocMap.document_eq_ok.mp hget
    obtain ⟨n, hn, rfl⟩ := List.mem_iff_getElem.mp (List.mem_of_getElem? hentry)
    have hn' : n < (MGenReplacedStep.choicesOf combs p.steps).length := by
      rw [hgen.entries.length_eq]
      exact hn
    refine ⟨_, rows, _, row, hret.data, hrow, walks_of_goes hp (hsub.imp fun t e he k s hs ht => ?_)⟩
    exact performs_of_substituted hnodup h hloaded' (List.getElem_mem hn')
      (hgen.entries.get hn' hn) he hs ht

/-- The paths as they are handed over. -/
def handed (ps : List Path) : List MGenDocMap.Path := ps.map fun p => (p.edges, p.steps)

/-- Documents are there for paths with an edge only. -/
theorem exists_path_of_lookup {mbtXml : MbtXml} {ps : List Path}
    (hrun : (MGenDocMap.genDocMap o replaceAll mapper mbtXml info.name info.data
      ((handed ps).map Prod.fst) ((handed ps).map Prod.snd)).run (.new combs mbtXml b) = .ok ⟨⟩ m)
    {pathName : String} {docs : List Document} (hdocs : m.scriptDocMap.lookup pathName = some docs) :
    ∃ p ∈ ps, p.edges ≠ [] ∧ getStepPathName info.name p.edges = pathName := by
  have hkey : pathName ∈ m.scriptDocMap :=
    AList.lookup_isSome.mp (Option.isSome_iff_exists.mpr ⟨docs, hdocs⟩)
  obtain ⟨q, hq, rfl⟩ := ((MGenDocMap.collected_of_run hrun).keys pathName).mp hkey
  obtain ⟨hmem, hne⟩ := List.mem_filter.mp hq
  obtain ⟨p, hp, rfl⟩ := List.mem_map.mp hmem
  exact ⟨p, hp, of_decide_eq_true hne, rfl⟩

/-- The steps of a path are known. -/
theorem known_of_goes (hnodup : (steps.map stepNumberOf).Nodup) (h : Written mapper a steps combs)
    {stays : Prop} {p : Path} (hp : (graphOf steps).Goes stays p) :
    ∀ t ∈ p.steps, Known combs ((steps.map logged).map stepActions) t := by
  intro t ht
  obtain ⟨i, hi, rfl⟩ := List.mem_iff_getElem.mp ht
  obtain ⟨q, hq, -, -, hstep, -⟩ := hp.edges i (hp.steps ▸ hi)
  obtain ⟨s, hs, -, -, -, hnumber, -⟩ := isEdge_taken hq
  rw [List.getElem?_eq_getElem hi] at hstep
  rw [Option.some.inj hstep, hnumber]
  exact h.known hnodup hs

/-- What the call for a scenario leaves, where the combinations are written. -/
theorem cases_of_run (hnodup : (steps.map stepNumberOf).Nodup) (h : Written mapper a steps combs)
    {stays : Prop} {ps : List Path} (hps : ∀ p ∈ ps, (graphOf steps).Goes stays p)
    (hrun : (MGenDocMap.genDocMap o replaceAll mapper (mbtXmlOf scens (steps.map logged)) info.name
      info.data ((handed ps).map Prod.fst) ((handed ps).map Prod.snd)).run
        (.new combs (mbtXmlOf scens (steps.map logged)) b) = .ok ⟨⟩ m) :
    Cases o replaceAll mapper a steps (mbtXmlOf scens (steps.map logged)) stays info ps m := by
  have hcoll := MGenDocMap.collected_of_run hrun
  have hknown : ∀ q ∈ handed ps, ∀ t ∈ q.2,
      Known combs ((steps.map logged).map stepActions) t := by
    intro q hq
    obtain ⟨p, hp, rfl⟩ := List.mem_map.mp hq
    exact known_of_goes hnodup h (hps p hp)
  -- the documents under the name of a path are those of a path with the same edges
  have hlast : ∀ p ∈ ps, p.edges ≠ [] → ∃ p' ∈ ps, p'.edges = p.edges ∧ ∃ docs,
      m.scriptDocMap.lookup (getStepPathName info.name p.edges) = some docs ∧ docs ≠ [] ∧
      ∀ doc ∈ docs, ∃ (b' : AlgoMap) (rows : HashMap ℕ Row) (k : ℕ) (row : Row),
        MGenDocMap.rowsOf mapper (mbtXmlOf scens (steps.map logged)) info.name info.data b' p'.steps =
          some rows ∧ rows.lookup k = some row ∧
            Walks o replaceAll mapper a steps stays p'.edges row doc := by
    intro p hp hne
    obtain ⟨i, hi⟩ := List.mem_iff_getElem?.mp (List.mem_map_of_mem hp)
    obtain ⟨j, q, docs, names, hq, hedges, hturn, hdocs, -⟩ := hcoll.last i (p.edges, p.steps) hi hne
    obtain ⟨p', hp', rfl⟩ := List.mem_map.mp (List.mem_of_getElem? hq)
    have hbefore : ∀ q ∈ (handed ps).take j, ∀ t ∈ q.2,
        Known combs ((steps.map logged).map stepActions) t :=
      fun q hq => hknown q (List.mem_of_mem_take hq)
    obtain ⟨hdocsNe, hwalks⟩ := walks_of_turn hnodup h (hps p' hp') hbefore
      (known_of_goes hnodup h (hps p' hp')) hturn
    exact ⟨p', hp', hedges, docs, hdocs, hdocsNe, hwalks⟩
  refine ⟨fun p hp hne => ?_, fun pathName docs hdocs doc hdoc => ?_⟩
  · obtain ⟨-, -, -, docs, hdocs, hdocsNe, -⟩ := hlast p hp hne
    obtain ⟨doc, docs, rfl⟩ := List.exists_cons_of_ne_nil hdocsNe
    exact ⟨doc, docs, hdocs⟩
  · obtain ⟨p, hp, hne, rfl⟩ := exists_path_of_lookup hrun hdocs
    obtain ⟨p', hp', hedges, docs', hdocs', -, hwalks⟩ := hlast p hp hne
    cases hdocs.symm.trans hdocs'
    exact ⟨p', hp', congrArg (getStepPathName info.name) hedges.symm, hwalks doc hdoc⟩

/-- Without the file of the combinations, the call throws for the first path with an edge. -/
theorem edges_eq_nil_of_run {mbtXml : MbtXml} {paths : List MGenDocMap.Path}
    (hrun : (MGenDocMap.genDocMap o replaceAll mapper mbtXml info.name info.data
      (paths.map Prod.fst) (paths.map Prod.snd)).run (.new [] mbtXml b) = .ok ⟨⟩ m)
    (hsteps : ∀ p ∈ paths, p.1 ≠ [] → p.2 ≠ []) : ∀ p ∈ paths, p.1 = [] := by
  intro p hp
  by_contra hne
  obtain ⟨t, rest, ht⟩ := List.exists_cons_of_ne_nil (hsteps p hp hne)
  have hknown : Known [] mbtXml.testSteps t :=
    MGenDocMap.known_of_run hrun p hp hne t (ht ▸ List.mem_cons_self)
  obtain ⟨e, he⟩ := hknown.1
  cases he

end Scenario

/-! ### The run -/

section Run

variable {order : ℕ → VisitOrder ℤ} {visit : VisitOrder ℕ} {o : VisitOrder String}
  {replaceAll : ReplaceAll} {mapper : ObjectMapper} {a a' : AlgoMap}

/-- What it returns, it returns with the data algorithms as they were. -/
theorem of_run_liftFailure {α : Type} {x : Except VarFailure α} {y : α}
    (h : (liftFailure x).run a = .ok y a') : x = .ok y ∧ a' = a := by
  cases x with
  | ok z =>
    cases h
    exact ⟨rfl, rfl⟩
  | error e => cases h

/-- A loop of turns that each return. -/
theorem of_run_mapM {α β : Type} {f : α → VarHandler β} {l : List α} {ys : List β}
    (h : (l.mapM f).run a = .ok ys a') :
    List.Forall₂ (fun x y => ∃ b b', (f x).run b = .ok y b') l ys := by
  induction l generalizing ys a with
  | nil =>
    cases h
    exact .nil
  | cons x l ih =>
    rw [List.mapM_cons] at h
    obtain ⟨y, a₁, hy, h⟩ := MQTestView.of_run_bind h
    obtain ⟨ys, a₂, hys, h⟩ := MQTestView.of_run_bind h
    cases h
    exact .cons ⟨a, a₁, hy⟩ (ih hys)

/-- A scenario's documents are those of `genDocMap` on the shared data algorithms. -/
theorem of_run_runGenDocMap {mbtXml : MbtXml} {info : ScenarioInfo} {scenPaths : PathLists}
    {g : MGenReplacedStep} {m : MGenDocMap}
    (h : (runGenDocMap o replaceAll mapper mbtXml info scenPaths g).run a = .ok m a') :
    (MGenDocMap.genDocMap o replaceAll mapper mbtXml info.name info.data scenPaths.edgePath
      scenPaths.stepPath).run ⟨g, a, ∅, ∅⟩ = .ok ⟨⟩ m := by
  have hcall : (runGenDocMap o replaceAll mapper mbtXml info scenPaths g).run a =
      match (MGenDocMap.genDocMap o replaceAll mapper mbtXml info.name info.data scenPaths.edgePath
        scenPaths.stepPath).run ⟨g, a, ∅, ∅⟩ with
      | .ok _ m => .ok m m.algoMap
      | .error e m => .error (.runtime e) m.algoMap := rfl
  rw [hcall] at h
  split at h
  · rename_i hdocs
    cases h
    exact hdocs
  · cases h

/-- The numbers of the logged steps are those of the steps. -/
theorem intNumbers_logged (h : ∀ s ∈ steps, IntNumbers s.1.step) :
    ∀ m ∈ steps.map logged, IntNumbers m.1 := by
  intro m hm
  obtain ⟨s, hs, rfl⟩ := List.mem_map.mp hm
  exact h s hs

/-- The scenarios that the file gives are those of the methods. -/
theorem parseScenario_of_file {file : Option (Option Element)} {scens : List ScenarioMethod}
    {ms : List Logged} (hread : ReadFrom file scens ms) {infos : Option (List ScenarioInfo)}
    (h : MGenScenParser.parseScenarioFile mapper file = .ok infos) :
    MGenScenParser.parseScenario mapper (scens.map scenTexts) = .ok infos := by
  rw [hread.scenInfos] at h
  cases hparsed : MGenScenParser.parseScenario mapper (scens.map scenTexts) with
  | ok r =>
    rw [hparsed] at h
    cases h
    rfl
  | error e =>
    rw [hparsed] at h
    cases h

/-- Without the file of the combinations, the object has the actions only. -/
theorem newFromFiles_none {className : String} {scens : List ScenarioMethod}
    (hints : ∀ s ∈ steps, IntNumbers s.1.step) :
    MGenReplacedStep.newFromFiles (fileOf className scens (steps.map logged)) none =
      .ok (.new [] (mbtXmlOf scens (steps.map logged)).testSteps) := by
  rw [MGenReplacedStep.newFromFiles, MGenReplacedStep.parseCombXml, getRoot]
  exact (readFrom_modelElem className scens (intNumbers_logged hints)).actions _

/-- The combinations that the object reads are those that `genStepXml` has written. -/
theorem written_of_run (hints : ∀ s ∈ steps, IntNumbers s.1.step)
    (hnames : ∀ s ∈ steps, ∀ l, getJsonParamList mapper s.1.step.param = .ok l →
      (l.map Param.name).Nodup)
    {className : String} {scens : List ScenarioMethod} {xml : MGenStepXml.StepXml}
    (hxml : (MGenStepXml.genStepXml visit mapper (fileOf className scens (steps.map logged))).run a =
      .ok (some xml) a') :
    ∃ combs, MGenReplacedStep.newFromFiles (fileOf className scens (steps.map logged))
      (some (some xml.varComb)) = .ok (.new combs (mbtXmlOf scens (steps.map logged)).testSteps) ∧
      Written mapper a steps combs := by
  obtain ⟨qs, a₂, hqs, rfl⟩ := MGenStepXml.run_genStepXml_iff.mp ⟨a', hxml⟩
  have hnames' : ∀ m ∈ steps.map logged, ∀ l, getJsonParamList mapper m.1.param = .ok l →
      (l.map Param.name).Nodup := by
    intro m hm
    obtain ⟨s, hs, rfl⟩ := List.mem_map.mp hm
    exact hnames s hs
  obtain ⟨combs, hread, hlength, hcombs⟩ := MGenStepXml.newFromFiles_xmlOf className scens
    ((MGenStepXml.run_genSteps visit mapper _ a).2 qs a₂ hqs) (intNumbers_logged hints) hnames'
  rw [List.length_map] at hlength
  refine ⟨combs, hread, hlength, fun k s c hs hc => ?_⟩
  rw [List.map_take]
  refine hcombs k (logged s) c ?_ hc
  rw [List.getElem?_map, hs]
  rfl

/-- The turn for a scenario calls `genDocMap` with the paths under its name, with an object read from
the files. -/
theorem of_run_genScenarioDocs {file combFile : Option (Option Element)} {mbtXml : MbtXml}
    {scenariosPathsMap : HashMap String PathLists} {genCase : GenCase} {info : ScenarioInfo}
    {ps : List Path} (hlookup : scenariosPathsMap.lookup info.name = some (.ofPaths ps))
    {b b' : AlgoMap} {m : MGenDocMap}
    (hrun : (genScenarioDocs o replaceAll mapper file combFile mbtXml scenariosPathsMap genCase
      info).run b = .ok m b') :
    ∃ g b₁, MGenReplacedStep.newFromFiles file combFile = .ok g ∧
      (MGenDocMap.genDocMap o replaceAll mapper mbtXml info.name info.data
        ((handed ps).map Prod.fst) ((handed ps).map Prod.snd)).run ⟨g, b₁, ∅, ∅⟩ = .ok ⟨⟩ m := by
  rw [genScenarioDocs, hlookup] at hrun
  obtain ⟨lists, b₁, hlists, hrun⟩ := MQTestView.of_run_bind hrun
  cases hlists
  obtain ⟨g, b₂, hg, hrun⟩ := MQTestView.of_run_bind hrun
  obtain ⟨hg, -⟩ := MQTestView.of_run_liftRuntime hg
  obtain ⟨docGenner, b₃, hcall, hrun⟩ := MQTestView.of_run_bind hrun
  obtain ⟨⟨⟩, b₄, -, hrun⟩ := MQTestView.of_run_bind hrun
  cases hrun
  have hdocs := of_run_runGenDocMap hcall
  have hedges : (PathLists.ofPaths ps).edgePath = (handed ps).map Prod.fst := by
    rw [handed, List.map_map]
    rfl
  have hsteps : (PathLists.ofPaths ps).stepPath = (handed ps).map Prod.snd := by
    rw [handed, List.map_map]
    rfl
  rw [hedges, hsteps] at hdocs
  exact ⟨g, b₂, hg, hdocs⟩

/-- What the turn for a scenario leaves, with the paths that are kept under its name. -/
theorem cases_of_turn (hnodup : (steps.map stepNumberOf).Nodup) {className : String}
    {scens : List ScenarioMethod} (hints : ∀ s ∈ steps, IntNumbers s.1.step)
    (hnames : ∀ s ∈ steps, ∀ l, getJsonParamList mapper s.1.step.param = .ok l →
      (l.map Param.name).Nodup)
    {stepXml : Option MGenStepXml.StepXml} {a₁ : AlgoMap}
    (hxml : (MGenStepXml.genStepXml visit mapper (fileOf className scens (steps.map logged))).run a =
      .ok stepXml a₁) {stays : Prop} {ps : List Path} (hps : ∀ p ∈ ps, (graphOf steps).Goes stays p)
    {info : ScenarioInfo} {scenariosPathsMap : HashMap String PathLists} {genCase : GenCase}
    (hlookup : scenariosPathsMap.lookup info.name = some (.ofPaths ps)) {b b' : AlgoMap} {m : MGenDocMap}
    (hrun : (genScenarioDocs o replaceAll mapper (fileOf className scens (steps.map logged))
      (stepXml.map fun xml => some xml.varComb) (mbtXmlOf scens (steps.map logged)) scenariosPathsMap
      genCase info).run b = .ok m b') :
    Cases o replaceAll mapper a steps (mbtXmlOf scens (steps.map logged)) stays info ps m := by
  obtain ⟨g, b₁, hg, hdocs⟩ := of_run_genScenarioDocs hlookup hrun
  cases stepXml with
  | some xml =>
    obtain ⟨combs, hread, hwritten⟩ := written_of_run hints hnames hxml
    cases hg.symm.trans hread
    exact cases_of_run hnodup hwritten hps hdocs
  | none =>
    -- the object knows no step: the call gets through only where no path has an edge
    cases hg.symm.trans (newFromFiles_none hints)
    have hnil : ∀ p ∈ ps, p.edges = [] := by
      intro p hp
      refine edges_eq_nil_of_run hdocs (fun q hq hne => ?_) _ (List.mem_map_of_mem hp)
      obtain ⟨p, hp, rfl⟩ := List.mem_map.mp hq
      intro hsteps
      refine hne (List.length_eq_zero_iff.mp ?_)
      rw [← (hps p hp).steps]
      exact congrArg List.length hsteps
    refine ⟨fun p hp hne => absurd (hnil p hp) hne, fun pathName docs hlookup => ?_⟩
    obtain ⟨p, hp, hne, -⟩ := exists_path_of_lookup hdocs hlookup
    exact absurd (hnil p hp) hne

/-- What the generation of the paths leaves, when it returns. -/
theorem of_run_runGenPath {g g' : MGraph} (hg : g.Wf) {infos : List ScenarioInfo}
    {r : Option (HashMap String PathLists)}
    (h : (runGenPath order g (some infos)).run a = .ok (r, g') a') : ∃ x : MGenPath,
      r = some x.scenariosPathsMap ∧ MGenPath.Kept g infos x ∧ a' = a := by
  rw [runGenPath] at h
  rcases MGenPath.run_genPath hg order infos with ⟨-, x, hrun, hx⟩ | ⟨-, e, x, hrun⟩
  · rw [hrun] at h
    cases h
    exact ⟨x, rfl, hx, rfl⟩
  · rw [hrun] at h
    cases h

/-- **The cases of a model.**  Let the steps have different numbers, and each of them different
parameters.  Whenever `run` gets through, whatever the view does, each scenario has its maps.  With
the paths that `genPath` has kept under the name of the scenario, each path with an edge has
documents, and each document goes from state to state along steps of the model, or with `repeat` takes
a step again on the spot: it names them, and performs the actions of each with one combination of its
values and one row of the scenario. -/
theorem genDocs_walks (order : ℕ → VisitOrder ℤ) (visit : VisitOrder ℕ)
    (o : VisitOrder String) (replaceAll : ReplaceAll) (mapper : ObjectMapper) (showEdgeName : Bool)
    (className : String) (scens : List ScenarioMethod) (steps : List ModelStep)
    (genCase : ℕ → GenCase) (a a' : AlgoMap) (ms : List MGenDocMap) (hnodup : (steps.map stepNumberOf).Nodup)
    (hints : ∀ s ∈ steps, IntNumbers s.1.step)
    (hnames : ∀ s ∈ steps, ∀ l, getJsonParamList mapper s.1.step.param = .ok l →
      (l.map Param.name).Nodup)
    (hrun : (genDocs order visit o replaceAll mapper showEdgeName className scens
      (steps.map logged) genCase).run a = .ok ms a') :
    ∃ infos, MGenScenParser.parseScenario mapper (scens.map scenTexts) = .ok (some infos) ∧
      List.Forall₂ (fun info m => ∃ last ps, MGenPath.lastNamed infos info.name = some last ∧
        MGenPath.IsPaths (graphOf steps) last (.ofPaths ps) ∧
        Cases o replaceAll mapper a steps (mbtXmlOf scens (steps.map logged))
          (MGenPath.algo last = .covRepeat) info ps m) infos ms := by
  have hread : ReadFrom (fileOf className scens (steps.map logged)) scens (steps.map logged) :=
    readFrom_modelElem className scens (intNumbers_logged hints)
  have hgraph : genGraphFromFile (fileOf className scens (steps.map logged)) =
      .ok (true, graphOf steps) := by
    rw [hread.graph, graphOf, List.map_map, List.map_map]
    rfl
  rw [genDocs] at hrun
  obtain ⟨⟨generated, graph⟩, a₁, hfile, hrest⟩ := MQTestView.of_run_bind hrun
  obtain ⟨hgen, rfl⟩ := MQTestView.of_run_liftRuntime hfile
  cases hgraph.symm.trans hgen
  obtain ⟨scenInfoList, a₂, hparse, hrest₁⟩ := MQTestView.of_run_bind hrest
  obtain ⟨hinfos, rfl⟩ := of_run_liftFailure hparse
  obtain ⟨seq, a₃, hseq, hrest₂⟩ := MQTestView.of_run_bind hrest₁
  obtain ⟨-, rfl⟩ := MQTestView.of_run_liftRuntime hseq
  obtain ⟨⟨scenariosPathsMap, graph⟩, a₄, hpaths, hrest₃⟩ := MQTestView.of_run_bind hrest₂
  obtain ⟨cov, a₅, hcov, hrest₄⟩ := MQTestView.of_run_bind hrest₃
  obtain ⟨-, rfl⟩ := MQTestView.of_run_liftRuntime hcov
  obtain ⟨stepXml, a₆, hxml, hrest₅⟩ := MQTestView.of_run_bind hrest₄
  obtain ⟨infos, a₇, hinfoList, hturns⟩ := MQTestView.of_run_bind hrest₅
  obtain ⟨hsome, -⟩ := MQTestView.of_run_liftRuntime hinfoList
  obtain rfl := Prog.nonNull_eq_ok.mp hsome
  obtain ⟨x, rfl, hkept, rfl⟩ := of_run_runGenPath (wf_graphOf steps) hpaths
  refine ⟨infos, parseScenario_of_file hread hinfos, ?_⟩
  -- each scenario is the first component of its turn
  conv => arg 2; rw [← List.zipIdx_map_fst 0 infos]
  refine List.forall₂_map_left_iff.mpr ((of_run_mapM hturns).imp fun t m hm => ?_)
  generalize t.1 = info at hm ⊢
  obtain ⟨b, b', hturn⟩ := hm
  -- a scenario whose name has no paths would have thrown
  obtain ⟨lists, b₁, hlists, -⟩ := MQTestView.of_run_bind hturn
  obtain ⟨hlists, -⟩ := MQTestView.of_run_liftRuntime hlists
  have hlookup : x.scenariosPathsMap.lookup info.name = some lists := Prog.nonNull_eq_ok.mp hlists
  have hrel := hkept.paths info.name
  rw [hlookup] at hrel
  cases hlast : MGenPath.lastNamed infos info.name with
  | none =>
    rw [hlast] at hrel
    cases hrel
  | some last =>
    rw [hlast] at hrel
    cases hrel with
    | some hpaths =>
      obtain ⟨ps, rfl, hgoes⟩ := hpaths.goes
      exact ⟨last, ps, rfl, hpaths, cases_of_turn hnodup hints hnames hxml hgoes hlookup hturn⟩

/-- The step `pay`, whose action uses `sum`. -/
def sumsSteps : List ModelStep :=
  [(⟨⟨"pay", 1, "Open", "Sold", 1, "[sum]", "align"⟩, ["Open"], ["Sold"], by decide, by decide, by decide,
      by decide, by decide⟩, [⟨"type", ["\x7bMBT_STEP_PARAM(sum)\x7d"]⟩])]

/-- A view that asks the shared object of `align` for the values of `sum`. -/
def sumsCase (_ : ℕ) : GenCase := fun _ _ _ _ =>
  discard (MQTestView.algoRows "align" [⟨some "sum", none, some "[1, 2]"⟩] .empty)

theorem genDocs_walks_sums : ∃ ms a' infos,
    (genDocs (fun _ => .insertion) .insertion .insertion MGenReplacedStep.replaceAllQuoted
      MGenStepXml.sumsMapper true "Pay" [⟨"buy", "", "", ""⟩] (sumsSteps.map logged) sumsCase).run
        (fun _ => .new) = .ok ms a' ∧
    MGenScenParser.parseScenario MGenStepXml.sumsMapper ([⟨"buy", "", "", ""⟩].map scenTexts) =
      .ok (some infos) ∧
    List.Forall₂ (fun info m => ∃ last ps, MGenPath.lastNamed infos info.name = some last ∧
      MGenPath.IsPaths (graphOf sumsSteps) last (.ofPaths ps) ∧
      Cases .insertion MGenReplacedStep.replaceAllQuoted MGenStepXml.sumsMapper (fun _ => .new) sumsSteps
        (mbtXmlOf [⟨"buy", "", "", ""⟩] (sumsSteps.map logged)) (MGenPath.algo last = .covRepeat) info ps
        m) infos ms := by
  have hints : ∀ s ∈ sumsSteps, IntNumbers s.1.step := by
    unfold IntNumbers MQTestActionHandler.IsInt
    decide
  have hnames : ∀ s ∈ sumsSteps, ∀ l,
      getJsonParamList MGenStepXml.sumsMapper s.1.step.param = .ok l → (l.map Param.name).Nodup := by
    intro s hs l hl
    rw [List.mem_singleton.mp hs] at hl
    cases hl
    exact List.nodup_singleton _
  have hok : (match (genDocs (fun _ => .insertion) .insertion .insertion
      MGenReplacedStep.replaceAllQuoted MGenStepXml.sumsMapper true "Pay" [⟨"buy", "", "", ""⟩]
      (sumsSteps.map logged) sumsCase).run (fun _ => .new) with
      | .ok _ _ => true
      | .error _ _ => false) = true := by decide +kernel
  cases hrun : (genDocs (fun _ => .insertion) .insertion .insertion MGenReplacedStep.replaceAllQuoted
      MGenStepXml.sumsMapper true "Pay" [⟨"buy", "", "", ""⟩] (sumsSteps.map logged) sumsCase).run
        (fun _ => .new) with
  | ok ms a' =>
    obtain ⟨infos, hinfos, hcases⟩ := genDocs_walks (fun _ => .insertion) .insertion .insertion
      MGenReplacedStep.replaceAllQuoted MGenStepXml.sumsMapper true "Pay" [⟨"buy", "", "", ""⟩]
      sumsSteps sumsCase _ a' ms (by decide) hints hnames hrun
    exact ⟨ms, a', infos, rfl, hinfos, hcases⟩
  | error e a' =>
    rw [hrun] at hok
    cases hok

end Run

end MTestLoader

end MBT
