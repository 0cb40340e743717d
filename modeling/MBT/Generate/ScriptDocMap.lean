import MBT.Generate.MGenDocMap

/-!
# Generate — ScriptDocMap

What `genDocMap` leaves in its two maps for the paths of a scenario.

* `collected_of_run`, `exists_run`: the call returns exactly when the turn of each path does, and
  then holds what the turns have left.
* `genDocMap_documents_iff`: each path has its documents, numbered in order, exactly when no
  substitution of a row throws.
* `genDocMap_completes_iff`: every path has a document exactly when the parameters it uses are
  declared and no substitution throws.
-/

namespace MBT
open Exec MJsonHandler MGenReplacedStep Choices

namespace MGenDocMap

/-- A path: its edges and its steps. -/
abbrev Path := List ℤ × List ℤ

/-- The paths that are not left out. -/
def live (paths : List Path) : List Path := paths.filter fun p => p.1 ≠ []

/-! ### The objects before a path -/

/-- The step generator after the turns for the paths `before`. -/
def genBefore (o : VisitOrder String) (replaceAll : ReplaceAll) (combXml : List StepCombs)
    (mbtXml : MbtXml) (before : List Path) : MGenReplacedStep :=
  used o replaceAll combXml mbtXml.testSteps ((live before).map Prod.snd)

/-- The data algorithms after the turns for the paths `before`. -/
def algosBefore (mapper : ObjectMapper) (mbtXml : MbtXml) (scenarioName dataAlgo : String)
    (a : AlgoMap) (before : List Path) : AlgoMap :=
  (live before).foldl (fun a p => nextAlgos mapper mbtXml scenarioName dataAlgo a p.2) a

variable {o : VisitOrder String} {replaceAll : ReplaceAll} {mapper : ObjectMapper}
  {mbtXml : MbtXml} {scenarioName dataAlgo : String} {combXml : List StepCombs} {a : AlgoMap}

theorem live_append (before : List Path) (p : Path) :
    live (before ++ [p]) = if p.1 = [] then live before else live before ++ [p] := by
  by_cases hp : p.1 = [] <;> simp [live, List.filter_append, hp]

theorem genBefore_append (before : List Path) (p : Path) :
    genBefore o replaceAll combXml mbtXml (before ++ [p]) =
      if p.1 = [] then genBefore o replaceAll combXml mbtXml before
      else (genReplacedStep o replaceAll p.2).exec (genBefore o replaceAll combXml mbtXml before) := by
  rw [genBefore, live_append]
  split
  · rfl
  · rw [used, List.map_append, List.foldl_append]
    rfl

theorem algosBefore_append (before : List Path) (p : Path) :
    algosBefore mapper mbtXml scenarioName dataAlgo a (before ++ [p]) =
      if p.1 = [] then algosBefore mapper mbtXml scenarioName dataAlgo a before
      else nextAlgos mapper mbtXml scenarioName dataAlgo
        (algosBefore mapper mbtXml scenarioName dataAlgo a before) p.2 := by
  rw [algosBefore, live_append]
  split
  · rfl
  · rw [List.foldl_append]
    rfl

/-! ### The loop over the paths -/

/-- The rows and the replaced steps that the turn for the path `p` works with. -/
structure Returned (o : VisitOrder String) (replaceAll : ReplaceAll) (mapper : ObjectMapper)
    (combXml : List StepCombs) (mbtXml : MbtXml) (scenarioName dataAlgo : String) (a : AlgoMap)
    (before : List Path) (p : Path) (rows : HashMap ℕ Row) (g : MGenReplacedStep) : Prop where
  data : rowsOf mapper mbtXml scenarioName dataAlgo
    (algosBefore mapper mbtXml scenarioName dataAlgo a before) p.2 = some rows
  steps : (genReplacedStep o replaceAll p.2).run (genBefore o replaceAll combXml mbtXml before) =
    .ok ⟨⟩ g

/-- The documents and the names that the turn for the path `p` leaves. -/
def Turn (o : VisitOrder String) (replaceAll : ReplaceAll) (mapper : ObjectMapper)
    (combXml : List StepCombs) (mbtXml : MbtXml) (scenarioName dataAlgo : String) (a : AlgoMap)
    (before : List Path) (p : Path) (docs : List Document) (names : List CaseNameMap) : Prop :=
  ∃ rows g, Returned o replaceAll mapper combXml mbtXml scenarioName dataAlgo a before p rows g ∧
    (pairs g.replacedStepList.length rows.keys.length).mapM
      (document o replaceAll (getStepPathName scenarioName p.1) p.2 rows g) = .ok docs ∧
    (pairs g.replacedStepList.length rows.keys.length).mapM (nameMap o rows g) = .ok names

/-- The state after the turns for the paths `before`: a path has what the last turn for its edges
has left. -/
structure Collected (o : VisitOrder String) (replaceAll : ReplaceAll) (mapper : ObjectMapper)
    (combXml : List StepCombs) (mbtXml : MbtXml) (scenarioName dataAlgo : String) (a : AlgoMap)
    (before : List Path) (m : MGenDocMap) : Prop where
  gen : m.stepGenner = genBefore o replaceAll combXml mbtXml before
  algos : m.algoMap = algosBefore mapper mbtXml scenarioName dataAlgo a before
  keys : ∀ s, s ∈ m.scriptDocMap ↔ ∃ p ∈ live before, s = getStepPathName scenarioName p.1
  turns : ∀ (i : ℕ) (p : Path), before[i]? = some p → p.1 ≠ [] → ∃ docs names,
    Turn o replaceAll mapper combXml mbtXml scenarioName dataAlgo a (before.take i) p docs names
  last : ∀ (i : ℕ) (p : Path), before[i]? = some p → p.1 ≠ [] →
    ∃ (j : ℕ) (q : Path) (docs : List Document) (names : List CaseNameMap), before[j]? = some q ∧
      q.1 = p.1 ∧
      Turn o replaceAll mapper combXml mbtXml scenarioName dataAlgo a (before.take j) q docs names ∧
      m.scriptDocMap.lookup (getStepPathName scenarioName p.1) = some docs ∧
      m.scriptNameMap.lookup (getStepPathName scenarioName p.1) = some names

theorem collected_nil :
    Collected o replaceAll mapper combXml mbtXml scenarioName dataAlgo a [] (new combXml mbtXml a) :=
  { gen := rfl
    algos := rfl
    keys := fun s => iff_of_false (AList.notMem_empty s) (by rintro ⟨p, hp, -⟩; cases hp)
    turns := fun i p h => nomatch h
    last := fun i p h => nomatch h }

/-- A path of a longer list is one before the last or the last. -/
theorem getElem?_append_cases {before : List Path} {p q : Path} {i : ℕ}
    (h : (before ++ [p])[i]? = some q) :
    (before[i]? = some q ∧ (before ++ [p]).take i = before.take i) ∨
      (i = before.length ∧ q = p ∧ (before ++ [p]).take i = before) := by
  rcases Nat.lt_trichotomy i before.length with hi | rfl | hi
  · rw [List.getElem?_append_left hi] at h
    exact .inl ⟨h, List.take_append_of_le_length hi.le⟩
  · rw [List.getElem?_append_right le_rfl, Nat.sub_self] at h
    exact .inr ⟨rfl, (Option.some.inj h).symm, List.take_left⟩
  · rw [List.getElem?_eq_none (by simp; omega)] at h
    cases h

/-- The turn for a path without edges. -/
theorem Collected.skip {before : List Path} {m : MGenDocMap} {p : Path} (hp : p.1 = [])
    (h : Collected o replaceAll mapper combXml mbtXml scenarioName dataAlgo a before m) :
    Collected o replaceAll mapper combXml mbtXml scenarioName dataAlgo a (before ++ [p]) m := by
  refine { gen := ?_, algos := ?_, keys := ?_, turns := ?_, last := ?_ }
  · rw [genBefore_append, if_pos hp, h.gen]
  · rw [algosBefore_append, if_pos hp, h.algos]
  · rw [live_append, if_pos hp]
    exact h.keys
  · intro i q hq hne
    rcases getElem?_append_cases hq with ⟨hq, htake⟩ | ⟨-, rfl, -⟩
    · rw [htake]
      exact h.turns i q hq hne
    · exact absurd hp hne
  · intro i q hq hne
    rcases getElem?_append_cases hq with ⟨hq, -⟩ | ⟨-, rfl, -⟩
    · obtain ⟨j, r, docs, names, hj, hr, hturn, hdocs, hnames⟩ := h.last i q hq hne
      have hlt := (List.getElem?_eq_some_iff.mp hj).1
      refine ⟨j, r, docs, names, ?_, hr, ?_, hdocs, hnames⟩
      · rw [List.getElem?_append_left hlt, hj]
      · rw [List.take_append_of_le_length hlt.le]
        exact hturn
    · exact absurd hp hne

/-- The turn for a path with edges. -/
theorem Collected.turn {before : List Path} {m : MGenDocMap} {p : Path} (hp : p.1 ≠ [])
    (h : Collected o replaceAll mapper combXml mbtXml scenarioName dataAlgo a before m)
    {rows : HashMap ℕ Row} {g : MGenReplacedStep} {docs : List Document} {names : List CaseNameMap}
    (hret : Returned o replaceAll mapper combXml mbtXml scenarioName dataAlgo a before p rows g)
    (hdocs : (pairs g.replacedStepList.length rows.keys.length).mapM
      (document o replaceAll (getStepPathName scenarioName p.1) p.2 rows g) = .ok docs)
    (hnames : (pairs g.replacedStepList.length rows.keys.length).mapM (nameMap o rows g) = .ok names) :
    Collected o replaceAll mapper combXml mbtXml scenarioName dataAlgo a (before ++ [p])
      ({ m with
        stepGenner := g
        algoMap := nextAlgos mapper mbtXml scenarioName dataAlgo m.algoMap p.2 : MGenDocMap
      }.withDocs (getStepPathName scenarioName p.1) docs names) := by
  have hturn : Turn o replaceAll mapper combXml mbtXml scenarioName dataAlgo a before p docs names :=
    ⟨rows, g, hret, hdocs, hnames⟩
  refine { gen := ?_, algos := ?_, keys := ?_, turns := ?_, last := ?_ }
  · rw [genBefore_append, if_neg hp, Prog.exec_ok hret.steps]
    rfl
  · rw [algosBefore_append, if_neg hp, ← h.algos]
    rfl
  · intro s
    rw [live_append, if_neg hp, withDocs, AList.mem_insert, h.keys]
    simp only [List.mem_append, List.mem_singleton, or_and_right, exists_or, exists_eq_left]
    exact or_comm
  · intro i q hq hne
    rcases getElem?_append_cases hq with ⟨hq, htake⟩ | ⟨-, rfl, htake⟩
    · rw [htake]
      exact h.turns i q hq hne
    · rw [htake]
      exact ⟨docs, names, hturn⟩
  · intro i q hq hne
    by_cases hqp : q.1 = p.1
    · refine ⟨before.length, p, docs, names, ?_, hqp.symm, ?_, ?_, ?_⟩
      · rw [List.getElem?_append_right le_rfl, Nat.sub_self]
        rfl
      · rw [List.take_left]
        exact hturn
      · rw [hqp]
        exact AList.lookup_insert _
      · rw [hqp]
        exact AList.lookup_insert _
    · have hname : getStepPathName scenarioName q.1 ≠ getStepPathName scenarioName p.1 :=
        fun he => hqp (CaseName.getStepPathName_injective _ he)
      rcases getElem?_append_cases hq with ⟨hq, -⟩ | ⟨-, rfl, -⟩
      · obtain ⟨j, r, docs', names', hj, hr, hturn', hdocs', hnames'⟩ := h.last i q hq hne
        have hlt := (List.getElem?_eq_some_iff.mp hj).1
        refine ⟨j, r, docs', names', ?_, hr, ?_, ?_, ?_⟩
        · rw [List.getElem?_append_left hlt, hj]
        · rw [List.take_append_of_le_length hlt.le]
          exact hturn'
        · exact (AList.lookup_insert_ne hname).trans hdocs'
        · exact (AList.lookup_insert_ne hname).trans hnames'
      · exact absurd rfl hqp

/-- Where the paths are different, each has what its own turn has left. -/
theorem Collected.own {paths : List Path} {m : MGenDocMap}
    (h : Collected o replaceAll mapper combXml mbtXml scenarioName dataAlgo a paths m)
    (hnodup : (paths.map Prod.fst).Nodup) {i : ℕ} {p : Path} (hp : paths[i]? = some p)
    (hne : p.1 ≠ []) : ∃ docs names,
      Turn o replaceAll mapper combXml mbtXml scenarioName dataAlgo a (paths.take i) p docs names ∧
      m.scriptDocMap.lookup (getStepPathName scenarioName p.1) = some docs ∧
      m.scriptNameMap.lookup (getStepPathName scenarioName p.1) = some names := by
  obtain ⟨j, q, docs, names, hq, hqp, hturn, hm, hm'⟩ := h.last i p hp hne
  have hij : j = i := by
    obtain ⟨hj, -⟩ := List.getElem?_eq_some_iff.mp hq
    refine (List.getElem?_inj (by rwa [List.length_map]) hnodup).mp ?_
    rw [List.getElem?_map, List.getElem?_map, hq, hp, Option.map_some, Option.map_some, hqp]
  subst hij
  have hpq := hp.symm.trans hq
  cases hpq
  exact ⟨docs, names, hturn, hm, hm'⟩

theorem run_genPath_skip {edgePathList stepPathList : List (List ℤ)} {i : ℕ}
    (hedge : edgePathList[i]? = some []) (m : MGenDocMap) :
    (genPath o replaceAll mapper mbtXml scenarioName dataAlgo edgePathList stepPathList i).run m =
      .ok ⟨⟩ m := by
  rw [genPath, ArrayList.get_ok hedge, Prog.lift_ok, pure_bind]
  rfl

/-- Where the call is, after some turns. -/
theorem getElem?_of_range {paths : List Path} {done rest : List ℕ} {i : ℕ}
    (h : List.range (paths.map Prod.snd).length = done ++ i :: rest) :
    ∃ p, paths[i]? = some p ∧ done.length = i ∧ paths.take (done ++ [i]).length = paths.take i ++ [p] ∧
      (paths.map Prod.fst)[i]? = some p.1 ∧ (paths.map Prod.snd)[i]? = some p.2 := by
  obtain ⟨hlen, hi⟩ := Prog.range_split h
  rw [List.length_map] at hi
  refine ⟨paths[i], List.getElem?_eq_getElem hi, hlen, ?_, ?_, ?_⟩
  · rw [List.length_append, List.length_singleton, hlen, List.take_append_getElem hi]
  · rw [List.getElem?_map, List.getElem?_eq_getElem hi]
    rfl
  · rw [List.getElem?_map, List.getElem?_eq_getElem hi]
    rfl

/-- A call that returns has collected what its turns have left. -/
theorem collected_of_run {paths : List Path} {m : MGenDocMap}
    (hrun : (genDocMap o replaceAll mapper mbtXml scenarioName dataAlgo (paths.map Prod.fst)
      (paths.map Prod.snd)).run (new combXml mbtXml a) = .ok ⟨⟩ m) :
    Collected o replaceAll mapper combXml mbtXml scenarioName dataAlgo a paths m := by
  have hend := Prog.of_run_forM_inv (fun done m =>
    Collected o replaceAll mapper combXml mbtXml scenarioName dataAlgo a (paths.take done.length) m)
    ?_ collected_nil hrun
  · rw [List.length_range, List.length_map, List.take_length] at hend
    exact hend
  · intro done i rest m₁ m₂ hsplit h₁ hturn
    obtain ⟨p, hp, hlen, htake, hedge, hstep⟩ := getElem?_of_range hsplit
    rw [hlen] at h₁
    rw [htake]
    by_cases hne : p.1 = []
    · rw [hne] at hedge
      rw [run_genPath_skip hedge] at hturn
      cases hturn
      exact h₁.skip hne
    · obtain ⟨rows, g, docs, names, hrows, hg, hdocs, hnames, rfl⟩ :=
        (run_genPath_iff hedge hstep hne).mp hturn
      rw [h₁.algos] at hrows
      rw [h₁.gen] at hg
      exact h₁.turn hne ⟨hrows, hg⟩ hdocs hnames

/-- The call returns when each of its turns does. -/
theorem exists_run {paths : List Path}
    (h : ∀ (i : ℕ) (p : Path), paths[i]? = some p → p.1 ≠ [] → ∃ docs names,
      Turn o replaceAll mapper combXml mbtXml scenarioName dataAlgo a (paths.take i) p docs names) :
    ∃ m, (genDocMap o replaceAll mapper mbtXml scenarioName dataAlgo (paths.map Prod.fst)
      (paths.map Prod.snd)).run (new combXml mbtXml a) = .ok ⟨⟩ m := by
  have hloop := Prog.run_forM_inv (l := List.range (paths.map Prod.snd).length)
    (f := genPath o replaceAll mapper mbtXml scenarioName dataAlgo (paths.map Prod.fst)
      (paths.map Prod.snd))
    (fun done m =>
      Collected o replaceAll mapper combXml mbtXml scenarioName dataAlgo a (paths.take done.length) m)
    ?_ collected_nil
  · obtain ⟨m, hrun, -⟩ := hloop
    exact ⟨m, hrun⟩
  · intro done i rest m₁ hsplit h₁
    obtain ⟨p, hp, hlen, htake, hedge, hstep⟩ := getElem?_of_range hsplit
    rw [hlen] at h₁
    rw [htake]
    by_cases hne : p.1 = []
    · rw [hne] at hedge
      exact ⟨m₁, run_genPath_skip hedge m₁, h₁.skip hne⟩
    · obtain ⟨docs, names, rows, g, hret, hdocs, hnames⟩ := h i p hp hne
      refine ⟨_, (run_genPath_iff hedge hstep hne).mpr
        ⟨rows, g, docs, names, ?_, ?_, hdocs, hnames, rfl⟩, h₁.turn hne hret hdocs hnames⟩
      · rw [h₁.algos]
        exact hret.data
      · rw [h₁.gen]
        exact hret.steps

/-! ### The replaced steps of a path -/

/-- The step object is loaded before each path. -/
theorem loaded_genBefore {before : List Path}
    (h : ∀ p ∈ before, p.1 ≠ [] → ∀ t ∈ p.2, Known combXml mbtXml.testSteps t) :
    Loaded combXml mbtXml.testSteps (genBefore o replaceAll combXml mbtXml before) := by
  refine loaded_used fun q hq => ?_
  obtain ⟨p, hp, rfl⟩ := List.mem_map.mp hq
  obtain ⟨hmem, hne⟩ := List.mem_filter.mp hp
  exact h p hmem (of_decide_eq_true hne)

/-- What the replaced steps of a path are, where they are generated. -/
structure Generated (o : VisitOrder String) (replaceAll : ReplaceAll) (combXml : List StepCombs)
    (mbtXml : MbtXml) (p : List ℤ) (g : MGenReplacedStep) : Prop where
  substitutes : Substitutes o replaceAll combXml mbtXml.testSteps p
  entries : List.Forall₂ (fun ch e => ∀ u, e.lookup u = lastUse o replaceAll mbtXml.testSteps p ch u)
    (choicesOf combXml p) g.replacedStepList
  names : g.replacedNameList = (choicesOf combXml p).map (choiceName combXml p)

/-- A call that returns has generated the entries of its path. -/
theorem generated_of_run {p : List ℤ} {m g : MGenReplacedStep}
    (hknown : ∀ t ∈ p, Known combXml mbtXml.testSteps t) (hm : Loaded combXml mbtXml.testSteps m)
    (hrun : (genReplacedStep o replaceAll p).run m = .ok ⟨⟩ g) :
    Generated o replaceAll combXml mbtXml p g := by
  have hdfs := hrun
  obtain ⟨⟨⟩, m₀, h₀, hdfs⟩ := Prog.of_run_bind_ok hdfs
  have hm₀ : Loaded combXml mbtXml.testSteps m₀ := by
    cases h₀
    exact hm.congr rfl rfl rfl rfl
  have hsub := substitutes_of_run_ok hknown hm₀ hdfs
  obtain ⟨g', hrun', -, hnames, hentries⟩ := run_genReplacedStep hknown hsub hm
  rw [hrun] at hrun'
  cases hrun'
  exact ⟨hsub, hentries, hnames⟩

namespace Generated

variable {p : List ℤ} {g : MGenReplacedStep}

/-- There is a name for each entry. -/
theorem length_names (h : Generated o replaceAll combXml mbtXml p g) :
    g.replacedNameList.length = g.replacedStepList.length := by
  rw [h.names, List.length_map, h.entries.length_eq]

/-- Each entry has the actions of each step. -/
theorem lookup_entry (h : Generated o replaceAll combXml mbtXml p g) :
    ∀ entry ∈ g.replacedStepList, ∀ t ∈ p, ∃ l, entry.lookup t = some l := by
  intro entry hentry t ht
  obtain ⟨j, hj, rfl⟩ := List.mem_iff_getElem.mp hentry
  have hlt := h.entries.length_eq ▸ hj
  obtain ⟨l, hl⟩ := isSome_lastUse h.substitutes (List.getElem_mem hlt) ht
  exact ⟨l, (h.entries.get hlt hj t).trans hl⟩

/-- There is an entry at least. -/
theorem entries_pos (h : Generated o replaceAll combXml mbtXml p g)
    (hknown : ∀ t ∈ p, Known combXml mbtXml.testSteps t) : 0 < g.replacedStepList.length := by
  rw [← h.entries.length_eq]
  have hne : ∀ l ∈ p.map (combsOf combXml), l ≠ [] := by
    intro l hl
    obtain ⟨t, ht, rfl⟩ := List.mem_map.mp hl
    obtain ⟨e, he⟩ := (hknown t ht).1
    exact combsOf_ne_nil he
  obtain ⟨ch, hch⟩ := exists_mem_choices hne
  exact List.length_pos_of_mem hch

/-- The substitutions of the rows, said of the choices. -/
theorem rowsSubstitute_iff (h : Generated o replaceAll combXml mbtXml p g) {rows : HashMap ℕ Row} :
    RowsSubstitute o replaceAll p g.replacedStepList rows ↔
      ∀ ch ∈ choicesOf combXml p, ∀ k row, rows.lookup k = some row → ∀ t ∈ p, ∀ actions,
        lastUse o replaceAll mbtXml.testSteps p ch t = some actions →
          ∀ a ∈ actions, ∃ b, substituteParam o replaceAll row a = .ok b := by
  constructor
  · intro hsub ch hch k row hrow t ht actions hactions
    obtain ⟨j, hj, rfl⟩ := List.mem_iff_getElem.mp hch
    have hlt := h.entries.length_eq ▸ hj
    exact hsub _ (List.getElem_mem hlt) k row hrow t ht actions
      ((h.entries.get hj hlt t).trans hactions)
  · intro hsub entry hentry k row hrow t ht actions hactions
    obtain ⟨j, hj, rfl⟩ := List.mem_iff_getElem.mp hentry
    have hlt := h.entries.length_eq ▸ hj
    exact hsub _ (List.getElem_mem hlt) k row hrow t ht actions
      ((h.entries.get hlt hj t).symm.trans hactions)

end Generated

/-- The rows and the step object of a path are determined. -/
theorem Returned.unique {before : List Path} {p : Path} {rows rows' : HashMap ℕ Row}
    {g g' : MGenReplacedStep}
    (h : Returned o replaceAll mapper combXml mbtXml scenarioName dataAlgo a before p rows g)
    (h' : Returned o replaceAll mapper combXml mbtXml scenarioName dataAlgo a before p rows' g') :
    rows' = rows ∧ g' = g := by
  have hdata := h.data.symm.trans h'.data
  have hsteps := h.steps.symm.trans h'.steps
  cases hdata
  cases hsteps
  exact ⟨rfl, rfl⟩

/-- A turn returns exactly when no substitution of a row throws. -/
theorem Returned.exists_turn_iff {before : List Path} {p : Path} {rows : HashMap ℕ Row}
    {g : MGenReplacedStep} (hgen : Generated o replaceAll combXml mbtXml p.2 g)
    (h : Returned o replaceAll mapper combXml mbtXml scenarioName dataAlgo a before p rows g) :
    (∃ docs names, Turn o replaceAll mapper combXml mbtXml scenarioName dataAlgo a before p docs
      names) ↔ RowsSubstitute o replaceAll p.2 g.replacedStepList rows := by
  obtain ⟨hdense, -⟩ := rowsOf_spec h.data
  rw [← exists_documents_iff (getStepPathName scenarioName p.1) hdense hgen.lookup_entry]
  constructor
  · rintro ⟨docs, names, rows', g', h', hdocs, -⟩
    obtain ⟨rfl, rfl⟩ := h.unique h'
    exact ⟨docs, hdocs⟩
  · rintro ⟨docs, hdocs⟩
    obtain ⟨names, hnames⟩ := exists_names (o := o) hdense hgen.length_names
    exact ⟨docs, names, rows, g, h, hdocs, hnames⟩

/-! ### The documents of each path -/

/-- The path has a document and a name for each entry with each row, in order and with its number:
an element for each position, with all actions of the entry substituted with the row. -/
def Documents (o : VisitOrder String) (replaceAll : ReplaceAll) (scenarioName : String)
    (m : MGenDocMap) (p : Path) (rows : HashMap ℕ Row) (g : MGenReplacedStep) : Prop :=
  ∃ docs names, m.scriptDocMap.lookup (getStepPathName scenarioName p.1) = some docs ∧
    m.scriptNameMap.lookup (getStepPathName scenarioName p.1) = some names ∧
    docs.length = g.replacedStepList.length * rows.keys.length ∧ names.length = docs.length ∧
    ∀ j < g.replacedStepList.length, ∀ k < rows.keys.length,
      ∃ entry replacedName row doc, g.replacedStepList[j]? = some entry ∧
        g.replacedNameList[j]? = some replacedName ∧ rows.lookup k = some row ∧
        docs[j * rows.keys.length + k]? = some doc ∧
        names[j * rows.keys.length + k]? =
          some ⟨number rows.keys.length j k, scenParamNameStr o row ++ replacedName⟩ ∧
        doc.name = getStepPathName scenarioName p.1 ++ number rows.keys.length j k ∧
        List.Forall₂ (Substituted o replaceAll g entry row) p.2 doc.testSteps

/-- An element has a partner at the same place. -/
theorem exists_getElem? {α β : Type} {R : α → β → Prop} {l : List α} {k : List β}
    (h : List.Forall₂ R l k) {n : ℕ} {x : α} (hx : l[n]? = some x) : ∃ y, k[n]? = some y ∧ R x y := by
  obtain ⟨hn, rfl⟩ := List.getElem?_eq_some_iff.mp hx
  have hn' := h.length_eq ▸ hn
  exact ⟨k[n], List.getElem?_eq_getElem hn', h.get hn hn'⟩

/-- The documents that a turn has added are those asked for. -/
theorem documents_of_turn {m : MGenDocMap} {p : Path} {rows : HashMap ℕ Row} {g : MGenReplacedStep}
    {docs : List Document} {names : List CaseNameMap}
    (hdocs : (pairs g.replacedStepList.length rows.keys.length).mapM
      (document o replaceAll (getStepPathName scenarioName p.1) p.2 rows g) = .ok docs)
    (hnames : (pairs g.replacedStepList.length rows.keys.length).mapM (nameMap o rows g) = .ok names)
    (hm : m.scriptDocMap.lookup (getStepPathName scenarioName p.1) = some docs)
    (hm' : m.scriptNameMap.lookup (getStepPathName scenarioName p.1) = some names) :
    Documents o replaceAll scenarioName m p rows g := by
  have hdocs := mapM_eq_ok.mp hdocs
  have hnames := mapM_eq_ok.mp hnames
  refine ⟨docs, names, hm, hm', ?_, hnames.length_eq.symm.trans hdocs.length_eq, fun j hj k hk => ?_⟩
  · rw [← hdocs.length_eq, length_pairs]
  · obtain ⟨doc, hdoc, hdoc'⟩ := exists_getElem? hdocs (getElem?_pairs hj hk)
    obtain ⟨name, hname, hname'⟩ := exists_getElem? hnames (getElem?_pairs hj hk)
    obtain ⟨row, entry, hrow, hentry, hdocName, hall⟩ := document_eq_ok.mp hdoc'
    obtain ⟨row', replacedName, hrow', hreplaced, rfl⟩ := nameMap_eq_ok.mp hname'
    have hrows := hrow.symm.trans hrow'
    cases hrows
    exact ⟨entry, replacedName, row, doc, hentry, hreplaced, hrow, hdoc, hname, hdocName, hall⟩

/-- **When each path has its documents.**  For different paths with edges, where the rows and the
replaced steps of each are generated, the call returns and each path has a document for each entry
with each row, numbered in order, exactly when no substitution of a row throws. -/
theorem genDocMap_documents_iff (o : VisitOrder String) (replaceAll : ReplaceAll)
    (mapper : ObjectMapper) (combXml : List StepCombs) (mbtXml : MbtXml)
    (scenarioName dataAlgo : String) (a : AlgoMap) (paths : List Path)
    (rows : ℕ → HashMap ℕ Row) (g : ℕ → MGenReplacedStep)
    (hne : ∀ p ∈ paths, p.1 ≠ []) (hnodup : (paths.map Prod.fst).Nodup)
    (hknown : ∀ p ∈ paths, ∀ t ∈ p.2, Known combXml mbtXml.testSteps t)
    (hret : ∀ (i : ℕ) (p : Path), paths[i]? = some p →
      Returned o replaceAll mapper combXml mbtXml scenarioName dataAlgo a (paths.take i) p (rows i) (g i)) :
    (∃ m, (genDocMap o replaceAll mapper mbtXml scenarioName dataAlgo (paths.map Prod.fst)
          (paths.map Prod.snd)).run (new combXml mbtXml a) = .ok ⟨⟩ m ∧
        (∀ s, s ∈ m.scriptDocMap ↔ ∃ p ∈ paths, s = getStepPathName scenarioName p.1) ∧
        ∀ (i : ℕ) (p : Path), paths[i]? = some p →
          Documents o replaceAll scenarioName m p (rows i) (g i)) ↔
      ∀ (i : ℕ) (p : Path), paths[i]? = some p →
        RowsSubstitute o replaceAll p.2 (g i).replacedStepList (rows i) := by
  have hgen : ∀ (i : ℕ) (p : Path), paths[i]? = some p →
      Generated o replaceAll combXml mbtXml p.2 (g i) := by
    intro i p hp
    refine generated_of_run (hknown p (List.mem_of_getElem? hp)) ?_ (hret i p hp).steps
    exact loaded_genBefore fun q hq _ => hknown q (List.mem_of_mem_take hq)
  have hlive : live paths = paths := List.filter_eq_self.mpr fun p hp => decide_eq_true (hne p hp)
  constructor
  · rintro ⟨m, hrun, -, -⟩ i p hp
    refine ((hret i p hp).exists_turn_iff (hgen i p hp)).mp ?_
    exact (collected_of_run hrun).turns i p hp (hne p (List.mem_of_getElem? hp))
  · intro hsub
    have hturns : ∀ (i : ℕ) (p : Path), paths[i]? = some p → p.1 ≠ [] → ∃ docs names,
        Turn o replaceAll mapper combXml mbtXml scenarioName dataAlgo a (paths.take i) p docs names :=
      fun i p hp _ => ((hret i p hp).exists_turn_iff (hgen i p hp)).mpr (hsub i p hp)
    obtain ⟨m, hrun⟩ := exists_run hturns
    have hcoll := collected_of_run hrun
    refine ⟨m, hrun, hlive ▸ hcoll.keys, fun i p hp => ?_⟩
    obtain ⟨docs, names, ⟨rows', g', hret', hdocs, hnames⟩, hm, hm'⟩ :=
      hcoll.own hnodup hp (hne p (List.mem_of_getElem? hp))
    obtain ⟨rfl, rfl⟩ := (hret i p hp).unique hret'
    exact documents_of_turn hdocs hnames hm hm'

/-! A step `pay` that uses the parameter `sum` of the scenario `buy`. -/

/-- A step without combinations. -/
def payComb : List StepCombs := [⟨1, "pay", []⟩]

/-- A step with a scenario parameter. -/
def payXml (param : String) : MbtXml :=
  ⟨[⟨1, ["pay(\x7bMBT_SCEN_PARAM(sum)\x7d);"]⟩], [⟨"buy", "", param⟩]⟩

/-- A library that reads every text as a list of `sum` with the value `v`. -/
def sumMapper (v : String) : ObjectMapper :=
  ⟨fun _ => .ok (some [.object fun key =>
    if key = "name" then .text "sum" else if key = "value" then .text v else .null]),
    fun _ _ => .ok none⟩

/-- New data algorithms. -/
def newAlgos : AlgoMap := fun _ => .new

/-- Its step is known. -/
theorem known_payXml (param : String) : ∀ p ∈ [(([1], [1]) : Path)], ∀ t ∈ p.2,
    Known payComb (payXml param).testSteps t := by
  intro p hp t ht
  rw [List.mem_singleton.mp hp] at ht
  rw [List.mem_singleton.mp ht]
  exact ⟨⟨_, rfl⟩, ⟨_, rfl⟩⟩

/-- The one row for the parameter. -/
def payRows (v : String) : HashMap ℕ Row := AList.insert 0 (AList.insert "sum" v ∅) ∅

/-- The step object after its path. -/
def payGen : MGenReplacedStep :=
  (genReplacedStep .insertion (Pattern.replaceAll Substitution.noEngine) [1]).exec
    (MGenReplacedStep.new payComb (payXml "[sum]").testSteps)

/-- The rows for the value `5`. -/
theorem returned_pay : Returned .insertion (Pattern.replaceAll Substitution.noEngine) (sumMapper "5")
    payComb (payXml "[sum]") "buy" "align" newAlgos [] ([1], [1]) (payRows "5") payGen :=
  ⟨rfl, rfl⟩

/-- The rows for the value `$5`. -/
theorem returned_dollar : Returned .insertion (Pattern.replaceAll Substitution.noEngine) (sumMapper "$5")
    payComb (payXml "[sum]") "buy" "align" newAlgos [] ([1], [1]) (payRows "$5") payGen :=
  ⟨rfl, rfl⟩

/-- The rows at the only place. -/
theorem returned_at {v : String} (h : Returned .insertion (Pattern.replaceAll Substitution.noEngine)
      (sumMapper v) payComb (payXml "[sum]") "buy" "align" newAlgos [] ([1], [1]) (payRows v) payGen) :
    ∀ (i : ℕ) (p : Path), [([1], [1])][i]? = some p →
      Returned .insertion (Pattern.replaceAll Substitution.noEngine) (sumMapper v) payComb
        (payXml "[sum]") "buy" "align" newAlgos ([([1], [1])].take i) p (payRows v) payGen := by
  intro i p hp
  cases i with
  | zero => cases hp; exact h
  | succ i => cases hp

theorem genDocMap_documents_iff_pay :
    (∃ m, (genDocMap .insertion (Pattern.replaceAll Substitution.noEngine) (sumMapper "5")
          (payXml "[sum]") "buy" "align" ([(([1], [1]) : Path)].map Prod.fst)
          ([(([1], [1]) : Path)].map Prod.snd)).run (new payComb (payXml "[sum]") newAlgos) = .ok ⟨⟩ m ∧
        (∀ s, s ∈ m.scriptDocMap ↔ ∃ p ∈ [(([1], [1]) : Path)], s = getStepPathName "buy" p.1) ∧
        ∀ (i : ℕ) (p : Path), [([1], [1])][i]? = some p →
          Documents .insertion (Pattern.replaceAll Substitution.noEngine) "buy" m p (payRows "5") payGen) ↔
      ∀ (i : ℕ) (p : Path), [([1], [1])][i]? = some p →
        RowsSubstitute .insertion (Pattern.replaceAll Substitution.noEngine) p.2
          payGen.replacedStepList (payRows "5") :=
  genDocMap_documents_iff _ _ _ _ _ _ _ _ [([1], [1])] (fun _ => payRows "5") (fun _ => payGen)
    (by decide) (by decide) (known_payXml _) (returned_at returned_pay)

/-- The value `$5` throws where it is substituted, and the path has no document. -/
theorem genDocMap_documents_dollar :
    (∀ (i : ℕ) (p : Path), [([1], [1])][i]? = some p →
      Returned .insertion (Pattern.replaceAll Substitution.noEngine) (sumMapper "$5") payComb
        (payXml "[sum]") "buy" "align" newAlgos ([([1], [1])].take i) p (payRows "$5") payGen) ∧
      ¬ ∃ m, (genDocMap .insertion (Pattern.replaceAll Substitution.noEngine) (sumMapper "$5")
        (payXml "[sum]") "buy" "align" [[1]] [[1]]).run (new payComb (payXml "[sum]") newAlgos) =
          .ok ⟨⟩ m := by
  refine ⟨returned_at returned_dollar, ?_⟩
  rintro ⟨m, hrun⟩
  have hthrows : (genDocMap .insertion (Pattern.replaceAll Substitution.noEngine) (sumMapper "$5")
      (payXml "[sum]") "buy" "align" [[1]] [[1]]).eval (new payComb (payXml "[sum]") newAlgos) = none := by
    decide +kernel
  rw [Prog.eval_ok hrun] at hthrows
  cases hthrows

/-! ### Calls that return -/

/-- What the turn for the path `p` needs: both XML files have its steps, the scenario parameters that
the path uses are declared, and no value, of a combination of its steps or of a row, throws where it is
substituted. -/
structure Ready (o : VisitOrder String) (replaceAll : ReplaceAll) (mapper : ObjectMapper)
    (combXml : List StepCombs) (mbtXml : MbtXml) (scenarioName dataAlgo : String) (a : AlgoMap)
    (before : List Path) (p : Path) : Prop where
  known : ∀ t ∈ p.2, Known combXml mbtXml.testSteps t
  declared : ∃ s, MGenPathParamSet.genPathParamSet mbtXml.testSteps p.2 = .ok s ∧
    MGenData.Declared mapper mbtXml.scenarios scenarioName dataAlgo s
  substitutes : Substitutes o replaceAll combXml mbtXml.testSteps p.2
  rows : ∀ rows, rowsOf mapper mbtXml scenarioName dataAlgo
      (algosBefore mapper mbtXml scenarioName dataAlgo a before) p.2 = some rows →
    ∀ ch ∈ choicesOf combXml p.2, ∀ k row, rows.lookup k = some row → ∀ t ∈ p.2, ∀ actions,
      lastUse o replaceAll mbtXml.testSteps p.2 ch t = some actions →
        ∀ x ∈ actions, ∃ y, substituteParam o replaceAll row x = .ok y

/-- The rows are generated exactly when the parameters are declared. -/
theorem exists_rowsOf_iff {stepPath : List ℤ} : (∃ rows, rowsOf mapper mbtXml scenarioName dataAlgo a
    stepPath = some rows) ↔ ∃ s, MGenPathParamSet.genPathParamSet mbtXml.testSteps stepPath = .ok s ∧
      MGenData.Declared mapper mbtXml.scenarios scenarioName dataAlgo s := by
  rw [rowsOf]
  cases hset : MGenPathParamSet.genPathParamSet mbtXml.testSteps stepPath with
  | error e =>
    refine iff_of_false ?_ ?_
    · rintro ⟨rows, h⟩
      cases h
    · rintro ⟨s, h, -⟩
      cases h
  | ok s =>
    have hs : ∀ P : HashSet String → Prop,
        (∃ s', (Except.ok s : Except Exn (HashSet String)) = .ok s' ∧ P s') ↔ P s := by
      intro P
      constructor
      · rintro ⟨s', h, hP⟩
        cases h
        exact hP
      · exact fun hP => ⟨s, rfl, hP⟩
    rw [hs, (MGenData.run_genData a).1]
    dsimp only
    cases hrun : (MGenData.genData mapper mbtXml.scenarios scenarioName dataAlgo s).run a with
    | error e a' =>
      rw [Prog.eval_error hrun]
      refine iff_of_false ?_ ?_
      · rintro ⟨rows, h⟩
        cases h
      · rintro ⟨rows, m', h⟩
        cases h
    | ok r a' =>
      rw [Prog.eval_ok hrun]
      cases r with
      | none =>
        refine iff_of_false ?_ ?_
        · rintro ⟨rows, h⟩
          cases h
        · rintro ⟨rows, m', h⟩
          cases h
      | some rows => exact iff_of_true ⟨padded rows, rfl⟩ ⟨rows, a', rfl⟩

/-- Both XML files have the steps of a path whose turn returns. -/
theorem Turn.known {before : List Path} {p : Path} {docs : List Document} {names : List CaseNameMap}
    (hbefore : ∀ q ∈ before, q.1 ≠ [] → ∀ t ∈ q.2, Known combXml mbtXml.testSteps t)
    (h : Turn o replaceAll mapper combXml mbtXml scenarioName dataAlgo a before p docs names) :
    ∀ t ∈ p.2, Known combXml mbtXml.testSteps t := by
  obtain ⟨rows, g, hret, -⟩ := h
  obtain ⟨⟨⟩, m₀, h₀, hdfs⟩ := Prog.of_run_bind_ok hret.steps
  have hloaded : Loaded combXml mbtXml.testSteps m₀ := by
    cases h₀
    exact (loaded_genBefore hbefore).congr rfl rfl rfl rfl
  exact known_of_run_ok hloaded hdfs

/-- A turn returns exactly when the path is ready. -/
theorem exists_turn_iff_ready {before : List Path} {p : Path}
    (hbefore : ∀ q ∈ before, q.1 ≠ [] → ∀ t ∈ q.2, Known combXml mbtXml.testSteps t) :
    (∃ docs names, Turn o replaceAll mapper combXml mbtXml scenarioName dataAlgo a before p docs
      names) ↔ Ready o replaceAll mapper combXml mbtXml scenarioName dataAlgo a before p := by
  have hloaded : Loaded combXml mbtXml.testSteps (genBefore o replaceAll combXml mbtXml before) :=
    loaded_genBefore hbefore
  constructor
  · rintro ⟨docs, names, hturn⟩
    have hp := hturn.known hbefore
    have hret := hturn
    obtain ⟨rows, g, hret, -⟩ := hret
    have hgen := generated_of_run hp hloaded hret.steps
    refine ⟨hp, exists_rowsOf_iff.mp ⟨rows, hret.data⟩, hgen.substitutes, fun rows' hrows' => ?_⟩
    obtain ⟨rfl, -⟩ := hret.unique ⟨hrows', hret.steps⟩
    exact hgen.rowsSubstitute_iff.mp ((hret.exists_turn_iff hgen).mp ⟨docs, names, hturn⟩)
  · intro h
    obtain ⟨rows, hrows⟩ := exists_rowsOf_iff.mpr h.declared
    obtain ⟨g, hrun, -⟩ := run_genReplacedStep h.known h.substitutes hloaded
    have hgen := generated_of_run h.known hloaded hrun
    have hret : Returned o replaceAll mapper combXml mbtXml scenarioName dataAlgo a before p rows g :=
      ⟨hrows, hrun⟩
    exact (hret.exists_turn_iff hgen).mpr (hgen.rowsSubstitute_iff.mpr (h.rows rows hrows))

theorem Turn.docs_ne_nil {before : List Path} {p : Path} {docs : List Document}
    {names : List CaseNameMap}
    (hbefore : ∀ q ∈ before, q.1 ≠ [] → ∀ t ∈ q.2, Known combXml mbtXml.testSteps t)
    (h : Turn o replaceAll mapper combXml mbtXml scenarioName dataAlgo a before p docs names) :
    docs ≠ [] := by
  have hp := h.known hbefore
  obtain ⟨rows, g, hret, hdocs, -⟩ := h
  have hgen := generated_of_run hp (loaded_genBefore hbefore) hret.steps
  have hlen := (mapM_eq_ok.mp hdocs).length_eq
  rw [length_pairs] at hlen
  have hpos := Nat.mul_pos (hgen.entries_pos hp) (rowsOf_spec hret.data).2
  rintro rfl
  rw [hlen] at hpos
  exact Nat.lt_irrefl 0 hpos

/-- Where the turns of the paths before the `i`-th return, both XML files have their steps. -/
theorem known_of_turns {paths : List Path} (i : ℕ)
    (h : ∀ (j : ℕ) (p : Path), j < i → paths[j]? = some p → p.1 ≠ [] → ∃ docs names,
      Turn o replaceAll mapper combXml mbtXml scenarioName dataAlgo a (paths.take j) p docs names) :
    ∀ q ∈ paths.take i, q.1 ≠ [] → ∀ t ∈ q.2, Known combXml mbtXml.testSteps t := by
  induction i with
  | zero => exact fun q hq => absurd hq List.not_mem_nil
  | succ i ih =>
    have hbefore := ih fun j p hj => h j p (Nat.lt_succ_of_lt hj)
    intro q hq hne
    rw [List.take_add_one, List.mem_append, Option.mem_toList] at hq
    rcases hq with hq | hq
    · exact hbefore q hq hne
    · obtain ⟨docs, names, hturn⟩ := h i q (Nat.lt_succ_self i) hq hne
      exact hturn.known hbefore

/-- Where the call returns, both XML files have the steps of every path with an edge. -/
theorem known_of_run {paths : List Path} {m : MGenDocMap}
    (hrun : (genDocMap o replaceAll mapper mbtXml scenarioName dataAlgo (paths.map Prod.fst)
      (paths.map Prod.snd)).run (new combXml mbtXml a) = .ok ⟨⟩ m) :
    ∀ p ∈ paths, p.1 ≠ [] → ∀ t ∈ p.2, Known combXml mbtXml.testSteps t := by
  have hall := known_of_turns paths.length fun i p _ hp hne => (collected_of_run hrun).turns i p hp hne
  rwa [List.take_length] at hall

/-- **When every path has a document.**  The call returns and each path with edges has a document
exactly when, for each, both XML files have its steps, the scenario parameters it uses are declared and
no value throws where it is substituted. -/
theorem genDocMap_completes_iff (o : VisitOrder String) (replaceAll : ReplaceAll)
    (mapper : ObjectMapper) (combXml : List StepCombs) (mbtXml : MbtXml)
    (scenarioName dataAlgo : String) (a : AlgoMap) (paths : List Path) :
    (∃ m, (genDocMap o replaceAll mapper mbtXml scenarioName dataAlgo (paths.map Prod.fst)
          (paths.map Prod.snd)).run (new combXml mbtXml a) = .ok ⟨⟩ m ∧
        ∀ p ∈ paths, p.1 ≠ [] → ∃ docs,
          m.scriptDocMap.lookup (getStepPathName scenarioName p.1) = some docs ∧ docs ≠ []) ↔
      ∀ (i : ℕ) (p : Path), paths[i]? = some p → p.1 ≠ [] →
        Ready o replaceAll mapper combXml mbtXml scenarioName dataAlgo a (paths.take i) p := by
  constructor
  · rintro ⟨m, hrun, -⟩ i p hp hne
    have hbefore : ∀ q ∈ paths.take i, q.1 ≠ [] → ∀ t ∈ q.2, Known combXml mbtXml.testSteps t :=
      fun q hq => known_of_run hrun q (List.mem_of_mem_take hq)
    exact (exists_turn_iff_ready hbefore).mp ((collected_of_run hrun).turns i p hp hne)
  · intro hready
    have hknown : ∀ i, ∀ q ∈ paths.take i, q.1 ≠ [] → ∀ t ∈ q.2, Known combXml mbtXml.testSteps t := by
      intro i q hq hne
      obtain ⟨j, hj⟩ := List.mem_iff_getElem?.mp (List.mem_of_mem_take hq)
      exact (hready j q hj hne).known
    have hturns : ∀ (i : ℕ) (p : Path), paths[i]? = some p → p.1 ≠ [] → ∃ docs names,
        Turn o replaceAll mapper combXml mbtXml scenarioName dataAlgo a (paths.take i) p docs names :=
      fun i p hp hne => (exists_turn_iff_ready (hknown i)).mpr (hready i p hp hne)
    obtain ⟨m, hrun⟩ := exists_run hturns
    refine ⟨m, hrun, fun p hmem hne => ?_⟩
    obtain ⟨i, hp⟩ := List.mem_iff_getElem?.mp hmem
    obtain ⟨j, q, docs, names, hq, -, hturn, hm, -⟩ := (collected_of_run hrun).last i p hp hne
    exact ⟨docs, hm, hturn.docs_ne_nil (hknown j)⟩

/-- The path uses a parameter of a scenario whose list is empty. -/
theorem genDocMap_throws_undeclared :
    ¬ ∃ m, (genDocMap .insertion (Pattern.replaceAll Substitution.noEngine) (sumMapper "5")
          (payXml "") "buy" "align" [[1]] [[1]]).run (new payComb (payXml "") newAlgos) = .ok ⟨⟩ m ∧
        ∀ p ∈ [(([1], [1]) : Path)], p.1 ≠ [] → ∃ docs,
          m.scriptDocMap.lookup (getStepPathName "buy" p.1) = some docs ∧ docs ≠ [] := by
  rintro ⟨m, hrun, -⟩
  have hthrows : (genDocMap .insertion (Pattern.replaceAll Substitution.noEngine) (sumMapper "5")
      (payXml "") "buy" "align" [[1]] [[1]]).eval (new payComb (payXml "") newAlgos) = none := by
    decide +kernel
  rw [Prog.eval_ok hrun] at hthrows
  cases hthrows

end MGenDocMap

end MBT
