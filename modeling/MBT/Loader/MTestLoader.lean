import MBT.Generate.ScriptDocMap

/-!
# Loader — MTestLoader

The case loop of `MTestLoader.run`: each document of a scenario is handed to the view, which writes
the case.

* `nodup_targets_iff`: the cases are written to different files exactly when no path has more than
  one document.
-/

namespace MBT
open Exec MJsonHandler MGenReplacedStep MGenDocMap

/-- The views whose `handleVars` writes the whole case at once. -/
inductive View where
  | gTest
  | jUnit
  | phpUnit
  | qTest4JS
  deriving DecidableEq

namespace View

/-- The name of the file that a view writes for a case. -/
def setCaseName : View → String → String
  | .gTest, caseName => caseName ++ ".cpp"
  | .jUnit, caseName => caseName ++ ".java"
  | .phpUnit, caseName => caseName ++ ".php"
  | .qTest4JS, caseName => caseName ++ ".js"

/-- The path that `handleVars` passes to `genCase`; the name map is not used. -/
def handleVars (view : View) (caseName : String) (_nameMap : CaseNameMap) (dir : String) : String :=
  dir ++ "/" ++ view.setCaseName caseName

/-- No view writes one text for two. -/
theorem handleVars_injective (view : View) (nameMap nameMap' : CaseNameMap) (dir : String)
    {s t : String} (h : view.handleVars s nameMap dir = view.handleVars t nameMap' dir) : s = t := by
  have hname := (String.append_right_inj _).mp h
  cases view <;> exact (String.append_left_inj _).mp hname

end View

namespace MTestLoader

/-- The target of the `j`-th document of a path. -/
def genCase (view : View) (dir pathName : String) (docs : List Document) (names : List CaseNameMap)
    (j : ℕ) : Except Exn String := do
  let _pathDoc ← ArrayList.get docs j
  let nameMap ← ArrayList.get names j
  return view.handleVars pathName nameMap dir

/-- The targets of the cases of a scenario, in the order in which the loop visits the paths. -/
def targets (o : VisitOrder String) (view : View) (dir : String) (m : MGenDocMap) :
    Except Exn (List String) := do
  let perPath ← (o.visit m.scriptDocMap.keySet).mapM fun pathName => do
    let docs ← Prog.nonNull (m.scriptDocMap.lookup pathName)
    let names ← Prog.nonNull (m.scriptNameMap.lookup pathName)
    (List.range docs.length).mapM (genCase view dir pathName docs names)
  return perPath.flatten

/-! ### The targets of a path -/

/-- The documents of a path. -/
def docsOf (m : MGenDocMap) (pathName : String) : List Document :=
  (m.scriptDocMap.lookup pathName).getD []

/-- The target of every document of the path. -/
def target (view : View) (dir pathName : String) : String := dir ++ "/" ++ view.setCaseName pathName

/-- The targets of the documents of a path. -/
theorem mapM_genCase (view : View) (dir pathName : String) {docs : List Document}
    {names : List CaseNameMap} (h : names.length = docs.length) :
    (List.range docs.length).mapM (genCase view dir pathName docs names) =
      .ok (List.replicate docs.length (target view dir pathName)) := by
  refine mapM_eq_ok.mpr (List.forall₂_iff_get.mpr ⟨by simp, fun j hj _ => ?_⟩)
  rw [List.length_range] at hj
  simp only [List.get_eq_getElem, List.getElem_range, List.getElem_replicate]
  rw [genCase, ArrayList.get_ok (List.getElem?_eq_getElem hj), ok_bind,
    ArrayList.get_ok (List.getElem?_eq_getElem (h ▸ hj))]
  rfl

/-- Each path of a map gives its target for each of its documents. -/
theorem targets_eq (o : VisitOrder String) (view : View) (dir : String) {m : MGenDocMap}
    (h : ∀ s ∈ m.scriptDocMap, ∃ docs names, m.scriptDocMap.lookup s = some docs ∧
      m.scriptNameMap.lookup s = some names ∧ names.length = docs.length) :
    targets o view dir m = .ok ((o.visit m.scriptDocMap.keySet).flatMap fun s =>
      List.replicate (docsOf m s).length (target view dir s)) := by
  have hall : ((o.visit m.scriptDocMap.keySet).mapM fun pathName => do
      let docs ← Prog.nonNull (m.scriptDocMap.lookup pathName)
      let names ← Prog.nonNull (m.scriptNameMap.lookup pathName)
      (List.range docs.length).mapM (genCase view dir pathName docs names)) =
        .ok ((o.visit m.scriptDocMap.keySet).map fun s =>
          List.replicate (docsOf m s).length (target view dir s)) := by
    refine mapM_eq_ok.mpr (List.forall₂_map_right_iff.mpr (List.forall₂_same.mpr fun s hs => ?_))
    obtain ⟨docs, names, hdocs, hnames, hlen⟩ := h s ((o.mem_visit).mp hs)
    rw [hdocs, hnames, Prog.nonNull, ok_bind, Prog.nonNull, ok_bind, mapM_genCase view dir s hlen,
      docsOf, hdocs, Option.getD_some]
  rw [targets, hall, ok_bind, List.flatMap_def]
  rfl

/-- The targets differ exactly when no path has two documents. -/
theorem nodup_flatMap_targets {o : VisitOrder String} {view : View} {dir : String} {m : MGenDocMap} :
    ((o.visit m.scriptDocMap.keySet).flatMap fun s =>
      List.replicate (docsOf m s).length (target view dir s)).Nodup ↔
        ∀ s ∈ m.scriptDocMap, (docsOf m s).length ≤ 1 := by
  rw [List.nodup_flatMap]
  simp only [List.nodup_replicate, o.mem_visit]
  refine and_iff_left ((o.nodup_visit _).imp fun {s t} hne => ?_)
  intro x hs ht
  rw [List.mem_replicate] at hs ht
  exact hne (View.handleVars_injective view ⟨"", ""⟩ ⟨"", ""⟩ dir (hs.2.symm.trans ht.2))

/-! ### The cases of a scenario -/

/-- **When no case is overwritten.**  For different paths with edges, once their documents are
generated, the case loop writes each document to a file of its own exactly when no path has more
than one combination of its steps and of the rows of the scenario. -/
theorem nodup_targets_iff (view : View) (dir : String) (o : VisitOrder String)
    (replaceAll : ReplaceAll) (mapper : ObjectMapper) (combXml : List StepCombs) (mbtXml : MbtXml)
    (scenarioName dataAlgo : String) (a : AlgoMap) (paths : List MGenDocMap.Path) (m : MGenDocMap)
    (hne : ∀ p ∈ paths, p.1 ≠ []) (hnodup : (paths.map Prod.fst).Nodup)
    (hknown : ∀ p ∈ paths, ∀ t ∈ p.2, Known combXml mbtXml.testSteps t)
    (hrun : (genDocMap o replaceAll mapper mbtXml scenarioName dataAlgo (paths.map Prod.fst)
      (paths.map Prod.snd)).run (new combXml mbtXml a) = .ok ⟨⟩ m) :
    (∃ ts, targets o view dir m = .ok ts ∧ ts.Nodup) ↔
      ∀ (i : ℕ) (p : MGenDocMap.Path) (rows : HashMap ℕ Row), paths[i]? = some p →
        rowsOf mapper mbtXml scenarioName dataAlgo
          (algosBefore mapper mbtXml scenarioName dataAlgo a (paths.take i)) p.2 = some rows →
        (choicesOf combXml p.2).length * rows.keys.length ≤ 1 := by
  have hcoll := collected_of_run hrun
  have hlive : live paths = paths := List.filter_eq_self.mpr fun p hp => decide_eq_true (hne p hp)
  -- the documents of a path, counted
  have hcount : ∀ (i : ℕ) (p : MGenDocMap.Path), paths[i]? = some p → ∃ docs names rows,
      m.scriptDocMap.lookup (getStepPathName scenarioName p.1) = some docs ∧
      m.scriptNameMap.lookup (getStepPathName scenarioName p.1) = some names ∧
      names.length = docs.length ∧
      rowsOf mapper mbtXml scenarioName dataAlgo
        (algosBefore mapper mbtXml scenarioName dataAlgo a (paths.take i)) p.2 = some rows ∧
      docs.length = (choicesOf combXml p.2).length * rows.keys.length := by
    intro i p hp
    have hmem := List.mem_of_getElem? hp
    obtain ⟨docs, names, ⟨rows, g, hret, hdocs, hnames⟩, hm, hm'⟩ := hcoll.own hnodup hp (hne p hmem)
    have hgen := generated_of_run (hknown p hmem)
      (loaded_genBefore fun q hq _ => hknown q (List.mem_of_mem_take hq)) hret.steps
    have hlen := (mapM_eq_ok.mp hdocs).length_eq
    rw [length_pairs, ← hgen.entries.length_eq] at hlen
    refine ⟨docs, names, rows, hm, hm', ?_, hret.data, hlen.symm⟩
    exact (mapM_eq_ok.mp hnames).length_eq.symm.trans (mapM_eq_ok.mp hdocs).length_eq
  have hkeys : ∀ s, s ∈ m.scriptDocMap ↔ ∃ (i : ℕ) (p : MGenDocMap.Path),
      paths[i]? = some p ∧ s = getStepPathName scenarioName p.1 := by
    intro s
    rw [hcoll.keys, hlive]
    constructor
    · rintro ⟨p, hp, rfl⟩
      obtain ⟨i, hi⟩ := List.mem_iff_getElem?.mp hp
      exact ⟨i, p, hi, rfl⟩
    · rintro ⟨i, p, hp, rfl⟩
      exact ⟨p, List.mem_of_getElem? hp, rfl⟩
  have htargets := targets_eq o view dir (m := m) fun s hs => by
    obtain ⟨i, p, hp, rfl⟩ := (hkeys s).mp hs
    obtain ⟨docs, names, rows, hm, hm', hlen, -⟩ := hcount i p hp
    exact ⟨docs, names, hm, hm', hlen⟩
  have hprop : (∃ ts, targets o view dir m = .ok ts ∧ ts.Nodup) ↔
      ∀ s ∈ m.scriptDocMap, (docsOf m s).length ≤ 1 := by
    rw [htargets, ← nodup_flatMap_targets (o := o) (m := m)]
    exact ⟨fun ⟨ts, hts, hn⟩ => Except.ok.inj hts ▸ hn, fun h => ⟨_, rfl, h⟩⟩
  rw [hprop]
  constructor
  · intro h i p rows hp hrows
    obtain ⟨docs, names, rows', hm, -, -, hrows', hlen⟩ := hcount i p hp
    rw [hrows] at hrows'
    cases hrows'
    have hle := h _ ((hkeys _).mpr ⟨i, p, hp, rfl⟩)
    rw [docsOf, hm, Option.getD_some, hlen] at hle
    exact hle
  · intro h s hs
    obtain ⟨i, p, hp, rfl⟩ := (hkeys s).mp hs
    obtain ⟨docs, names, rows, hm, -, -, hrows, hlen⟩ := hcount i p hp
    rw [docsOf, hm, Option.getD_some, hlen]
    exact h i p rows hp hrows

/-- The documents of the step `pay`, whose variable has the two values `10` and `20`. -/
def payMaps : MGenDocMap :=
  (genDocMap .insertion replaceAllQuoted (sumMapper "5") ⟨payActions, []⟩ "buy" "align" [[1]] [[1]]).exec
    (MGenDocMap.new payCombs ⟨payActions, []⟩ newAlgos)

/-- The step of the path is known. -/
theorem known_paths : ∀ p ∈ [(([1], [1]) : MGenDocMap.Path)], ∀ t ∈ p.2, Known payCombs payActions t := by
  intro p hp t ht
  rw [List.mem_singleton.mp hp] at ht
  exact known_pay t ht

theorem nodup_targets_iff_pay :
    (∃ ts, targets .insertion .gTest "out" payMaps = .ok ts ∧ ts.Nodup) ↔
      ∀ (i : ℕ) (p : MGenDocMap.Path) (rows : HashMap ℕ Row), [([1], [1])][i]? = some p →
        rowsOf (sumMapper "5") ⟨payActions, []⟩ "buy" "align"
          (algosBefore (sumMapper "5") ⟨payActions, []⟩ "buy" "align" newAlgos ([([1], [1])].take i))
            p.2 = some rows →
        (choicesOf payCombs p.2).length * rows.keys.length ≤ 1 :=
  nodup_targets_iff .gTest "out" .insertion replaceAllQuoted (sumMapper "5") payCombs ⟨payActions, []⟩
    "buy" "align" newAlgos [([1], [1])] payMaps (by decide) (by decide) known_paths rfl

/-- Both documents of the path are written to `out/buy_1.cpp`. -/
theorem not_nodup_targets :
    ¬ ∃ ts, targets .insertion .gTest "out" payMaps = .ok ts ∧ ts.Nodup := by
  have htargets : targets .insertion .gTest "out" payMaps = .ok ["out/buy_1.cpp", "out/buy_1.cpp"] := by
    decide +kernel
  rintro ⟨ts, hts, hnodup⟩
  rw [htargets] at hts
  cases hts
  exact absurd hnodup (by decide)

end MTestLoader

end MBT
