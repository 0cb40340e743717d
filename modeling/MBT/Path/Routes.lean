import MBT.Path.RouteRuns
import MBT.Generate.MGenScenParser

/-!
# Path — Routes

What `MPathAlgoCovRoute` returns, said of the routes a scenario names.

* `genPath_partial`: partial routes give out CovAll's paths that contain them, route after route.
* `genPath_skips_iff`: when a route none of whose states exist is as good as left out.
-/

namespace MBT
open Exec Multigraph MPathAlgo

/-! ### Routes by their names -/

namespace Route

/-- The route asks for paths that contain it. -/
def IsPartial (r : Route) : Prop := ∃ c t, r.cov = some c :: t ∧ Text.trim c = "partial"

/-- The path contains every state and every step of the route that exists. -/
def Within (g : MGraph) (r : Route) (p : Path) : Prop :=
  (∀ name ∈ r.state, ∀ n, g.nodeNumMap.lookup name = some n → n ∈ p.states) ∧
    ∀ name ∈ r.step, ∀ t, g.stepNumMap.lookup name = some t → t ∈ p.steps

variable {g : MGraph} {r : Route}

/-- The states of a route that the graph knows. -/
theorem mem_state_nums (h : g.Wf) {n : ℤ} :
    n ∈ (r.nums g).state ↔ ∃ name ∈ r.state, g.nodeNumMap.lookup name = some n := by
  simp only [nums, routeNums, List.mem_filter, List.mem_map, MGraph.getNodeNum, decide_eq_true_eq]
  constructor
  · rintro ⟨⟨name, hname, rfl⟩, hne⟩
    cases hl : g.nodeNumMap.lookup name with
    | none => simp [hl] at hne
    | some n => exact ⟨name, hname, hl⟩
  · rintro ⟨name, hname, hl⟩
    have hnode := (h.nodes name n hl).1
    exact ⟨⟨name, hname, by rw [hl]⟩, by omega⟩

/-- The steps of a route that the graph knows. -/
theorem mem_step_nums {t : ℤ} :
    t ∈ (r.nums g).step ↔ ∃ name ∈ r.step, g.stepNumMap.lookup name = some t := List.mem_filterMap

/-- A route has no state left when the graph knows none of its names. -/
theorem state_nums_nil_iff (h : g.Wf) :
    (r.nums g).state = [] ↔ ∀ name ∈ r.state, g.nodeNumMap.lookup name = none := by
  rw [List.eq_nil_iff_forall_not_mem]
  simp only [mem_state_nums h, not_exists, not_and]
  constructor
  · intro hno name hname
    exact Option.eq_none_iff_forall_ne_some.mpr fun n => hno n name hname
  · intro hno n name hname hl
    rw [hno name hname] at hl
    cases hl

/-- A path contains a route when it goes through all its known states and steps. -/
theorem contains_iff (h : g.Wf) {p : Path} :
    MPathAlgoCovRoute.contains (r.nums g) p = true ↔ r.Within g p := by
  simp only [MPathAlgoCovRoute.contains, Bool.and_eq_true, List.all_eq_true, decide_eq_true_eq,
    mem_state_nums h, mem_step_nums, Within]
  constructor
  · rintro ⟨hstate, hstep⟩
    exact ⟨fun name hname n hl => hstate n ⟨name, hname, hl⟩,
      fun name hname t hl => hstep t ⟨name, hname, hl⟩⟩
  · rintro ⟨hstate, hstep⟩
    exact ⟨fun n ⟨name, hname, hl⟩ => hstate name hname n hl,
      fun t ⟨name, hname, hl⟩ => hstep name hname t hl⟩

/-- The coverage of a partial route is `0`. -/
theorem cov_nums_of_isPartial (h : r.IsPartial) : (r.nums g).cov = [0] := by
  obtain ⟨c, t, hc, htrim⟩ := h
  simp only [nums, hc, covNum, htrim]
  rfl

/-- Any other coverage is `1`. -/
theorem cov_nums_of_not {c : String} {t : List (Option String)} (hc : r.cov = some c :: t)
    (h : ¬ r.IsPartial) : (r.nums g).cov = [1] := by
  have htrim : Text.trim c ≠ "partial" := fun e => h ⟨c, t, hc, e⟩
  simp only [nums, hc, covNum, htrim]
  rfl

end Route

namespace MPathAlgoCovRoute

variable {a : Args} {o : VisitOrder ℤ} {r : Route}

/-! ### Partial routes -/

/-- Without through lists each run of a search is covered. -/
theorem covered_plain_iff (h : a.graph.Wf) {s : ℤ} {w : List (ℤ × ℕ)} :
    a.plain.Covered s w ↔ a.graph.IsStart a.startStateNameList s ∧ a.IsRun s w :=
  (Args.covered_iff (a := a.plain) h).trans (and_congr_right fun _ => and_iff_left rfl)

/-- The paths of a partial route are those of a search that go within it. -/
theorem mem_partialBlock (h : a.graph.Wf) {p : Path} :
    p ∈ partialBlock o a (r.nums a.graph) ↔
      (∃ s w, a.plain.Covered s w ∧ a.graph.pathOf s w = p) ∧ r.Within a.graph p := by
  rw [partialBlock, List.mem_filter, Route.contains_iff h]
  refine and_congr_left fun _ => ?_
  simp only [Args.paths, List.mem_map, Prod.exists]
  refine exists₂_congr fun s w => and_congr_left fun _ => ?_
  rw [Args.mem_found h, covered_plain_iff h]
  simp only [allowed_true, and_true]

/-- A partial route is searched for with `dfsPartial`. -/
theorem block_of_isPartial (hr : r.IsPartial) :
    block o a (r.nums a.graph) = partialBlock o a (r.nums a.graph) := by
  rw [block, if_neg]
  rw [Route.cov_nums_of_isPartial hr]
  decide

/-- Partial routes give their coverage. -/
theorem covsNamed_of_isPartial (hr : ∀ r ∈ a.routeList.getD [], r.IsPartial) : a.CovsNamed :=
  fun r hmem => by
    obtain ⟨c, t, hc, -⟩ := hr r hmem
    exact ⟨c, by rw [hc]; rfl⟩

/-- Partial routes can be searched for. -/
theorem sought_of_isPartial (hr : ∀ r ∈ a.routeList.getD [], r.IsPartial) :
    ∀ route ∈ a.routes, Sought route := by
  intro route hmem hcov
  obtain ⟨r, hr', rfl⟩ := List.mem_map.mp hmem
  rw [Route.cov_nums_of_isPartial (hr r hr')] at hcov
  cases hcov

/-- **Partial routes give out the paths that contain them.**  Whatever there is to pass through,
`genPath` gives out, route after route, the paths of CovAll with nothing to pass through that
contain the states and steps of the route that exist, each of them once for the route. -/
theorem genPath_partial (es : List EdgeCall) (a : Args) (hg : a.graph = .ofEdges es)
    (hr : ∀ r ∈ a.routeList.getD [], r.IsPartial) (o o' : VisitOrder ℤ)
    (m : MPathAlgo RouteFields) (m' : MPathAlgo Unit) :
    ∃ all blocks,
      (MPathAlgoCovAll.genPath o' a.plain).eval m' = some (.ofPaths all) ∧
      (genPath o a).eval m = some (.ofPaths blocks.flatten) ∧
      List.Forall₂ (fun r block => block.Nodup ∧
        ∀ p, p ∈ block ↔ p ∈ all ∧ r.Within a.graph p) (a.routeList.getD []) blocks := by
  have h : a.graph.Wf := hg ▸ MGraph.wf_ofEdges es
  obtain ⟨w, hrun⟩ := run_genPath h (covsNamed_of_isPartial hr) o (sought_of_isPartial hr) m
  obtain ⟨l, hall⟩ := MPathAlgoCovAll.run_genPath (a := a.plain) h a.covsNamed_plain o' m'
  refine ⟨_, a.routes.map (block o a), Prog.eval_ok hall, ?_, ?_⟩
  · rw [Prog.eval_ok hrun, List.flatMap_def]
  · rw [Args.routes, List.map_map, List.forall₂_map_right_iff, List.forall₂_same]
    intro r hmem
    rw [Function.comp_apply, block_of_isPartial (hr r hmem)]
    refine ⟨(Args.nodup_paths h).filter _, fun p => ?_⟩
    rw [mem_partialBlock h]
    refine and_congr_left fun _ => ?_
    simp only [Args.paths, List.mem_map, Prod.exists]
    exact exists₂_congr fun s w => and_congr_left fun _ =>
      (MPathAlgoCovAll.mem_covered (a := a.plain) h).symm

/-- Two partial routes in the graph with a detour; the state `X` does not exist. -/
def partialArgs : Args where
  graph := .ofEdges MPathAlgoCovAll.detourEdges
  startStateNameList := some ["S"]
  stopStateNameList := some ["T"]
  throughStateNameList := some ["B"]
  throughStepNameList := none
  routeList := some
    [⟨["A", "X"], ["finish"], [some "partial"]⟩, ⟨["B"], ["leave"], [some " partial"]⟩]

theorem genPath_partial_detour :
    ∃ all blocks,
      (MPathAlgoCovAll.genPath .insertion partialArgs.plain).eval MPathAlgoCovAll.new =
        some (.ofPaths all) ∧
      (genPath .insertion partialArgs).eval new = some (.ofPaths blocks.flatten) ∧
      List.Forall₂ (fun r block => block.Nodup ∧
        ∀ p, p ∈ block ↔ p ∈ all ∧ r.Within partialArgs.graph p)
        (partialArgs.routeList.getD []) blocks := by
  refine genPath_partial MPathAlgoCovAll.detourEdges partialArgs rfl (fun r hr => ?_) _ _ _ _
  obtain rfl | hr := List.mem_cons.mp hr
  · exact ⟨"partial", [], rfl, by decide⟩
  · obtain rfl := List.mem_singleton.mp hr
    exact ⟨" partial", [], rfl, by decide⟩

example : ((genPath .insertion partialArgs).eval new).map PathLists.statePath =
    some [[0, 1, 2, 1, 3], [0, 1, 3], [0, 1, 2, 1, 3]] := by decide +kernel

/-! ### Routes none of whose states exist -/

/-- The arguments without the `i`-th route. -/
def without (a : Args) (i : ℕ) : Args :=
  { a with routeList := some ((a.routeList.getD []).eraseIdx i) }

/-- To leave out a route leaves out its numbers. -/
theorem routes_without (i : ℕ) : (without a i).routes = a.routes.eraseIdx i :=
  (List.eraseIdx_map _ _ _).symm

/-- No state of the route exists. -/
def Stateless (g : MGraph) (r : Route) : Prop := ∀ name ∈ r.state, g.nodeNumMap.lookup name = none

/-- Where the call returns, a route may be left out iff it contributes nothing. -/
theorem eval_without_iff (h : a.graph.Wf) (hr : a.CovsNamed) (hs : ∀ route ∈ a.routes, Sought route)
    (m : MPathAlgo RouteFields) {i : ℕ} {route : RouteNums} (hi : a.routes[i]? = some route) :
    (genPath o (without a i)).eval m = (genPath o a).eval m ↔ block o a route = [] := by
  have hr' : (without a i).CovsNamed := fun r hmem => hr r (List.mem_of_mem_eraseIdx hmem)
  have hs' : ∀ route ∈ (without a i).routes, Sought route := fun route hmem => by
    rw [routes_without] at hmem
    exact hs route (List.mem_of_mem_eraseIdx hmem)
  obtain ⟨w, hrun⟩ := run_genPath h hr o hs m
  obtain ⟨w', hrun'⟩ := run_genPath (a := without a i) h hr' o hs' m
  obtain ⟨hlt, rfl⟩ := List.getElem?_eq_some_iff.mp hi
  have hsplit : a.routes.flatMap (block o a) = (a.routes.take i).flatMap (block o a) ++
      (block o a a.routes[i] ++ (a.routes.drop (i + 1)).flatMap (block o a)) := by
    conv_lhs => rw [← List.take_append_drop i a.routes, List.drop_eq_getElem_cons hlt]
    rw [List.flatMap_append, List.flatMap_cons]
  have hrest : (without a i).routes.flatMap (block o (without a i)) =
      (a.routes.take i).flatMap (block o a) ++ (a.routes.drop (i + 1)).flatMap (block o a) := by
    rw [routes_without, List.eraseIdx_eq_take_drop_succ, List.flatMap_append]
    rfl
  rw [Prog.eval_ok hrun, Prog.eval_ok hrun', hsplit, hrest]
  constructor
  · intro e
    have hlen := congrArg List.length (PathLists.ofPaths_injective (Option.some.inj e))
    simp only [List.length_append] at hlen
    exact List.eq_nil_of_length_eq_zero (by omega)
  · intro e
    rw [e, List.nil_append]

/-- A partial route without a state contributes nothing iff no run uses all its steps. -/
theorem partialBlock_nil_iff (h : a.graph.Wf) (hno : Stateless a.graph r) :
    partialBlock o a (r.nums a.graph) = [] ↔
      ∀ s w, a.plain.Covered s w → ¬ ∀ name ∈ r.step, ∀ t,
        a.graph.stepNumMap.lookup name = some t → t ∈ w.map a.graph.stepNumber := by
  have hstates : ∀ p : Path, ∀ name ∈ r.state, ∀ n, a.graph.nodeNumMap.lookup name = some n →
      n ∈ p.states := fun p name hname n hl => by
    rw [hno name hname] at hl
    cases hl
  rw [List.eq_nil_iff_forall_not_mem]
  simp only [mem_partialBlock h, Route.Within]
  constructor
  · intro hnil s w hw hall
    exact hnil (a.graph.pathOf s w) ⟨⟨s, w, hw, rfl⟩, hstates _, hall⟩
  · rintro hnone p ⟨⟨s, w, hw, rfl⟩, -, hall⟩
    exact hnone s w hw hall

/-- **When a route none of whose states exist is as good as left out.**  For routes as
`parseScenario` builds them, `genPath` returns, and returns the same when any such route is left
out, exactly when every route names its coverage, and each such route is partial and has steps that
no run uses together. -/
theorem genPath_skips_iff (es : List EdgeCall) (a : Args) (hg : a.graph = .ofEdges es)
    (hparsed : ∀ r ∈ a.routeList.getD [], r.Parsed) (o : VisitOrder ℤ) (m : MPathAlgo RouteFields) :
    (∃ ps, (genPath o a).eval m = some (.ofPaths ps) ∧
      ∀ i r, (a.routeList.getD [])[i]? = some r →
        (∀ name ∈ r.state, a.graph.nodeNumMap.lookup name = none) →
          (genPath o (without a i)).eval m = some (.ofPaths ps)) ↔
    ∀ r ∈ a.routeList.getD [], (∃ c, r.cov = [some c]) ∧
      ((∀ name ∈ r.state, a.graph.nodeNumMap.lookup name = none) → r.IsPartial ∧
        ∀ s w, a.plain.Covered s w → ¬ ∀ name ∈ r.step, ∀ t,
          a.graph.stepNumMap.lookup name = some t → t ∈ w.map a.graph.stepNumber) := by
  have h : a.graph.Wf := hg ▸ MGraph.wf_ofEdges es
  have hnums : ∀ {i : ℕ} {r : Route}, (a.routeList.getD [])[i]? = some r →
      a.routes[i]? = some (r.nums a.graph) := fun hi => by
    rw [Args.routes, List.getElem?_map, hi]
    rfl
  constructor
  · rintro ⟨ps, heval, hskip⟩ r hmem
    have hok : a.CovsNamed ∧ ∀ route ∈ a.routes, Sought route := by
      by_contra hnot
      obtain ⟨e, m', hrun⟩ := run_genPath_throws h o hnot m
      rw [Prog.eval_error hrun] at heval
      cases heval
    obtain ⟨c, hc⟩ : ∃ c, r.cov = [some c] := by
      obtain ⟨c, hc⟩ := (hparsed r hmem).cov
      obtain ⟨c', hc'⟩ := hok.1 r hmem
      rw [hc] at hc'
      exact ⟨c', by rw [hc, Option.some.inj hc']⟩
    refine ⟨⟨c, hc⟩, fun hno => ?_⟩
    have hpart : r.IsPartial := by
      by_contra hnot
      exact hok.2 _ (List.mem_map_of_mem hmem) (Route.cov_nums_of_not hc hnot)
        ((Route.state_nums_nil_iff h).mpr hno)
    obtain ⟨i, hi⟩ := List.mem_iff_getElem?.mp hmem
    have hnil := (eval_without_iff h hok.1 hok.2 m (hnums hi)).mp
      ((hskip i r hi hno).trans heval.symm)
    rw [block_of_isPartial hpart] at hnil
    exact ⟨hpart, (partialBlock_nil_iff h hno).mp hnil⟩
  · intro hall
    have hr : a.CovsNamed := fun r hmem => by
      obtain ⟨⟨c, hc⟩, -⟩ := hall r hmem
      exact ⟨c, by rw [hc]; rfl⟩
    have hs : ∀ route ∈ a.routes, Sought route := by
      intro route hmem hcov hnil
      obtain ⟨r, hr', rfl⟩ := List.mem_map.mp hmem
      have hpart := ((hall r hr').2 ((Route.state_nums_nil_iff h).mp hnil)).1
      rw [Route.cov_nums_of_isPartial hpart] at hcov
      cases hcov
    obtain ⟨w, hrun⟩ := run_genPath h hr o hs m
    refine ⟨_, Prog.eval_ok hrun, fun i r hi hno => ?_⟩
    obtain ⟨hpart, hnone⟩ := (hall r (List.mem_of_getElem? hi)).2 hno
    rw [← Prog.eval_ok hrun, eval_without_iff h hr hs m (hnums hi), block_of_isPartial hpart,
      partialBlock_nil_iff h hno]
    exact hnone

/-- A partial route without a state in the graph, whose two steps no run uses together. -/
def statelessArgs (cov : Option String) : Args where
  graph := .ofEdges [⟨"S", "T", "left", 1, 1⟩, ⟨"S", "T", "right", 2, 1⟩]
  startStateNameList := some ["S"]
  stopStateNameList := some ["T"]
  throughStateNameList := none
  throughStepNameList := none
  routeList := some [⟨["X"], ["left", "right"], [cov]⟩]

/-- A route without states is one that can be parsed. -/
theorem parsed_statelessArgs (cov : Option String) :
    ∀ r ∈ (statelessArgs cov).routeList.getD [], r.Parsed := fun r hr => by
  obtain rfl := List.mem_singleton.mp hr
  exact ⟨List.cons_ne_nil _ _, List.cons_ne_nil _ _, cov, rfl⟩

theorem genPath_skips_iff_stateless :
    (∃ ps, (genPath .insertion (statelessArgs (some "partial"))).eval new = some (.ofPaths ps) ∧
      ∀ i r, ((statelessArgs (some "partial")).routeList.getD [])[i]? = some r →
        (∀ name ∈ r.state,
          (statelessArgs (some "partial")).graph.nodeNumMap.lookup name = none) →
          (genPath .insertion (without (statelessArgs (some "partial")) i)).eval new =
            some (.ofPaths ps)) ↔
    ∀ r ∈ (statelessArgs (some "partial")).routeList.getD [], (∃ c, r.cov = [some c]) ∧
      ((∀ name ∈ r.state,
          (statelessArgs (some "partial")).graph.nodeNumMap.lookup name = none) → r.IsPartial ∧
        ∀ s w, (statelessArgs (some "partial")).plain.Covered s w → ¬ ∀ name ∈ r.step, ∀ t,
          (statelessArgs (some "partial")).graph.stepNumMap.lookup name = some t →
            t ∈ w.map (statelessArgs (some "partial")).graph.stepNumber) :=
  genPath_skips_iff _ (statelessArgs (some "partial")) rfl (parsed_statelessArgs _) .insertion new

/-- An overall route without a state in the graph, and a route that does not name its coverage, stop
the generation. -/
theorem genPath_stateless_throws :
    ¬ (∃ ps, (genPath .insertion (statelessArgs (some "overall"))).eval new = some (.ofPaths ps) ∧
      ∀ i r, ((statelessArgs (some "overall")).routeList.getD [])[i]? = some r →
        (∀ name ∈ r.state,
          (statelessArgs (some "overall")).graph.nodeNumMap.lookup name = none) →
          (genPath .insertion (without (statelessArgs (some "overall")) i)).eval new =
            some (.ofPaths ps)) ∧
    (genPath .insertion (statelessArgs none)).eval new = none := by
  have hoverall : (genPath .insertion (statelessArgs (some "overall"))).eval new = none := by
    decide +kernel
  refine ⟨?_, by decide +kernel⟩
  rintro ⟨ps, heval, -⟩
  rw [hoverall] at heval
  cases heval

end MPathAlgoCovRoute

end MBT
