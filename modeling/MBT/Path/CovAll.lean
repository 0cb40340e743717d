import MBT.Path.Rounds

/-!
# Path — CovAll

`MPathAlgoCovAll`: all runs from the start states to the stop states, or, where no stop state is
given, to the states whose edges are used up.

* `Covered`: the runs the algorithm is for, by the names the call gives.
* `run_genPath`: what `genPath` returns, from any object and in any order of the start states.
* `samePaths_orders`: the paths depend neither on the object nor on the order.
* `genPath_eq_covered`: on a new object it returns the covered runs, each of them once.
-/

namespace MBT
open Exec Multigraph MPathAlgo

/-! ### The runs within the names of a call -/

/-- `r` is a run from `s` within the names that the arguments of a call give. -/
structure Args.Covered (a : Args) (s : ℤ) (r : List (ℤ × ℕ)) : Prop where
  start : a.graph.IsStart a.startStateNameList s
  chained : a.graph.multigraph.Chained s r
  within : ∀ p, r.count p ≤ a.graph.budget p
  passes : ∀ q, q <+: r → q ≠ r →
    ¬ a.graph.IsNamed a.stopStateNameList (a.graph.multigraph.dest s q)
  ends : a.graph.IsNamed a.stopStateNameList (a.graph.multigraph.dest s r) ∨
    (∀ n, ¬ a.graph.IsNamed a.stopStateNameList n) ∧
      ∀ i < a.graph.multigraph.deg (a.graph.multigraph.dest s r),
        r.count (a.graph.multigraph.dest s r, i) = a.graph.budget (a.graph.multigraph.dest s r, i)
  visits : ∀ n, a.graph.IsNamed a.throughStateNameList n →
    ∃ n ∈ s :: r.map a.graph.multigraph.dst, a.graph.IsNamed a.throughStateNameList n
  uses : ∀ t, a.graph.IsNamedStep a.throughStepNameList t →
    ∃ t ∈ r.map a.graph.stepNumber, a.graph.IsNamedStep a.throughStepNameList t

namespace Args

variable {a : Args} {s : ℤ} {r : List (ℤ × ℕ)}

/-- The stop states are the named ones. -/
theorem stop_iff (h : a.graph.Wf) {n : ℤ} :
    a.stop n = true ↔ a.graph.IsNamed a.stopStateNameList n := by
  rw [stop, HashSet.contains_iff, MGraph.mem_stateSet h]

/-- A search ends at dead ends exactly when no stop state is known. -/
theorem leaves_iff (h : a.graph.Wf) :
    a.leaves = true ↔ ∀ n, ¬ a.graph.IsNamed a.stopStateNameList n := by
  simp only [leaves, decide_eq_true_eq, HashSet.size_eq_zero, MGraph.mem_stateSet h]

/-- A set from names is met by a list that holds a named number, if a name resolves at all. -/
theorem meets_iff {set : HashSet ℤ} {named : ℤ → Prop} (h : ∀ n, n ∈ set.elems ↔ named n)
    {l : List ℤ} : meets set l = true ↔ ∀ n, named n → ∃ n ∈ l, named n := by
  simp only [meets, Bool.or_eq_true, decide_eq_true_eq, List.any_eq_true, HashSet.contains_iff, h,
    HashSet.size_eq_zero]
  constructor
  · rintro (hn | hl) n hn'
    · exact absurd hn' (hn n)
    · exact hl
  · intro hl
    by_cases hn : ∃ n, named n
    · exact .inr (hl _ hn.choose_spec)
    · exact .inl fun n hn' => hn ⟨n, hn'⟩

/-- A path passes the filters when each through list that names something known names something on
it. -/
theorem passes_pathOf (h : a.graph.Wf) : MPathAlgo.passes a (a.graph.pathOf s r) = true ↔
    (∀ n, a.graph.IsNamed a.throughStateNameList n →
      ∃ n ∈ s :: r.map a.graph.multigraph.dst, a.graph.IsNamed a.throughStateNameList n) ∧
    ∀ t, a.graph.IsNamedStep a.throughStepNameList t →
      ∃ t ∈ r.map a.graph.stepNumber, a.graph.IsNamedStep a.throughStepNameList t := by
  rw [MPathAlgo.passes, Bool.and_eq_true, meets_iff fun n => MGraph.mem_stateSet h,
    meets_iff fun t => MGraph.mem_stepSet]
  rfl

/-- The covered runs are those of a search whose paths pass the filters. -/
theorem covered_iff (h : a.graph.Wf) : a.Covered s r ↔
    a.graph.IsStart a.startStateNameList s ∧ a.IsRun s r ∧
      MPathAlgo.passes a (a.graph.pathOf s r) = true := by
  rw [passes_pathOf h]
  constructor
  · rintro ⟨hs, hc, hb, hp, he, hv, hu⟩
    refine ⟨hs, ⟨hc, hb, fun q hq hne => ?_, ?_⟩, hv, hu⟩
    · rw [← Bool.not_eq_true, stop_iff h]; exact hp q hq hne
    · rw [stop_iff h, leaves_iff h]; exact he
  · rintro ⟨hs, ⟨hc, hb, hp, he⟩, hv, hu⟩
    refine ⟨hs, hc, hb, fun q hq hne => ?_, ?_, hv, hu⟩
    · rw [← stop_iff h, hp q hq hne]; exact Bool.false_ne_true
    · rwa [stop_iff h, leaves_iff h] at he

/-- The same graph, start and stop lists, with nothing to pass through and no routes. -/
def plain (a : Args) : Args :=
  { a with throughStateNameList := none, throughStepNameList := none, routeList := some [] }

/-- Without routes no coverage is missing. -/
theorem covsNamed_plain (a : Args) : a.plain.CovsNamed := fun _ h => nomatch h

end Args

/-! ### The algorithm -/

namespace MPathAlgoCovAll

/-- The constructor of `MPathAlgoCovAll`. -/
def new : MPathAlgo Unit := .new ()

/-- The search, which adds each path it arrives with at a stop state or at a dead end. -/
def dfs : ℕ → ℤ → ℕ → Prog (MPathAlgo Unit) Unit := MPathAlgo.dfs fun _ => addPath

/-- `genPath` up to the filters. -/
def search (o : VisitOrder ℤ) (a : Args) : Prog (MPathAlgo Unit) Unit := do
  init a
  rounds o dfs

/-- All paths of a search that pass the two through lists. -/
def genPath (o : VisitOrder ℤ) (a : Args) : Prog (MPathAlgo Unit) PathLists := do
  search o a
  delPathWithoutThroughState
  delPathWithoutThroughStep
  let m ← get
  return m.pathsMap

/-- The runs the search finds and the filters keep. -/
def covered (o : VisitOrder ℤ) (a : Args) : List (ℤ × List (ℤ × ℕ)) :=
  (a.found o (fun _ _ => true) 0).filter fun x => passes a (a.graph.pathOf x.1 x.2)

/-- A search leaves the paths of its runs, whatever the object did before. -/
theorem run_search {a : Args} (h : a.graph.Wf) (hr : a.CovsNamed) (o : VisitOrder ℤ)
    (m : MPathAlgo Unit) :
    ∃ l, (search o a).run m = .ok ⟨⟩ ((a.ready () l).withOut
      (.ofPaths (a.paths (a.found o (fun _ _ => true) 0)), ())) := by
  obtain ⟨l, hinit⟩ := run_init_ok h hr m
  refine ⟨l, ?_⟩
  rw [search, Prog.run_bind_ok hinit]
  exact run_rounds h fun s hs ps => run_round_dfs h (records_addPath _) hs () l trivial

/-- **What `genPath` returns and leaves.** -/
theorem run_genPath {a : Args} (h : a.graph.Wf) (hr : a.CovsNamed) (o : VisitOrder ℤ)
    (m : MPathAlgo Unit) :
    ∃ l, (genPath o a).run m = .ok (.ofPaths (a.paths (covered o a)))
      ((a.ready () l).withOut (.ofPaths (a.paths (covered o a)), ())) := by
  obtain ⟨l, hsearch⟩ := run_search h hr o m
  refine ⟨l, ?_⟩
  rw [genPath, Prog.run_bind_ok hsearch, run_filters,
    show (a.paths (a.found o (fun _ _ => true) 0)).filter (passes a) = a.paths (covered o a) from
      List.filter_map]
  rfl

/-- The order of the start states decides the order of the paths only. -/
theorem covered_perm (o o' : VisitOrder ℤ) (a : Args) : (covered o a).Perm (covered o' a) :=
  (a.found_perm o o' _ _).filter _

/-- From any object and in any order of the start states, the same paths are returned. -/
theorem samePaths_orders {a : Args} (h : a.graph.Wf) (o o' : VisitOrder ℤ) (m m' : MPathAlgo Unit) :
    SamePaths ((genPath o a).eval m) ((genPath o' a).eval m') := by
  by_cases hr : a.CovsNamed
  · obtain ⟨l, hrun⟩ := run_genPath h hr o m
    obtain ⟨l', hrun'⟩ := run_genPath h hr o' m'
    rw [Prog.eval_ok hrun, Prog.eval_ok hrun', samePaths_ofPaths]
    exact (covered_perm o o' a).map _
  · obtain ⟨e, l, hinit⟩ := run_init_throws h hr m
    obtain ⟨e', l', hinit'⟩ := run_init_throws h hr m'
    rw [genPath, genPath, search, search,
      Prog.eval_error (Prog.run_bind_error (Prog.run_bind_error hinit)),
      Prog.eval_error (Prog.run_bind_error (Prog.run_bind_error hinit'))]
    exact .none

/-- The paths that are returned are those of the covered runs. -/
theorem mem_covered {a : Args} (h : a.graph.Wf) {o : VisitOrder ℤ} {s : ℤ} {r : List (ℤ × ℕ)} :
    (s, r) ∈ covered o a ↔ a.Covered s r := by
  rw [covered, List.mem_filter, Args.mem_found h, Args.covered_iff h]
  simp only [allowed_true, and_true, and_assoc]

/-- No path is returned twice. -/
theorem nodup_covered {a : Args} (h : a.graph.Wf) (o : VisitOrder ℤ) :
    (a.paths (covered o a)).Nodup := by
  have hall : (a.paths (a.found o (fun _ _ => true) 0)).Nodup := Args.nodup_paths h
  exact hall.sublist (List.filter_sublist.map _)

/-- **CovAll finds all runs.**  In a graph that `addEdge` calls have built, a new object returns
the covered runs and no others, none of them twice, and the three lists hold the states, the edges
and the steps of the same run at every index. -/
theorem genPath_eq_covered (es : List EdgeCall) (a : Args) (hg : a.graph = .ofEdges es)
    (hr : a.CovsNamed) (o : VisitOrder ℤ) :
    ∃ rs : List (ℤ × List (ℤ × ℕ)),
      (genPath o a).eval new = some (.ofPaths (rs.map fun x => a.graph.pathOf x.1 x.2)) ∧
        rs.Nodup ∧ (rs.map fun x => a.graph.pathOf x.1 x.2).Nodup ∧
          ∀ s r, (s, r) ∈ rs ↔ a.Covered s r := by
  have h : a.graph.Wf := hg ▸ MGraph.wf_ofEdges es
  obtain ⟨l, hrun⟩ := run_genPath h hr o new
  exact ⟨covered o a, Prog.eval_ok hrun, (nodup_covered h o).of_map _, nodup_covered h o,
    fun s r => mem_covered h⟩

/-- `S → A → T`, with a detour from `A` over `B` back to `A`. -/
def detourEdges : List EdgeCall :=
  [⟨"S", "A", "enter", 1, 1⟩, ⟨"A", "B", "leave", 2, 1⟩, ⟨"B", "A", "return", 3, 1⟩,
    ⟨"A", "T", "finish", 4, 1⟩]

/-- From `S` to `T`, through the states named. -/
def detourArgs (throughStateNameList : List String) : Args where
  graph := .ofEdges detourEdges
  startStateNameList := some ["S"]
  stopStateNameList := some ["T"]
  throughStateNameList := some throughStateNameList
  throughStepNameList := none
  routeList := some []

theorem genPath_eq_covered_detour :
    ∃ rs : List (ℤ × List (ℤ × ℕ)),
      (genPath .insertion (detourArgs [])).eval new =
          some (.ofPaths (rs.map fun x => (detourArgs []).graph.pathOf x.1 x.2)) ∧
        rs.Nodup ∧ (rs.map fun x => (detourArgs []).graph.pathOf x.1 x.2).Nodup ∧
          ∀ s r, (s, r) ∈ rs ↔ (detourArgs []).Covered s r :=
  genPath_eq_covered detourEdges (detourArgs []) rfl (fun _ h => nomatch h) .insertion

example : ((genPath .insertion (detourArgs [])).eval new).map PathLists.statePath =
    some [[0, 1, 2, 1, 3], [0, 1, 3]] := by decide +kernel

end MPathAlgoCovAll

end MBT
