import MBT.Graph.Names

/-!
# Path — MPathAlgo

What the path algorithms share: the lists of generated paths, the fields of an algorithm object,
`init`, and the two filters on through states and through steps.

* `PathLists` holds the three lists of `pathsMap`, of one length.  `ofPaths` builds them from a
  list of paths; `removeBack_ofPaths` reads the deletion loops as filters on that list.
* `run_init`: `init` sets every field but those of the subclass (`own`) from its arguments
  (`Args.ready`), and then reads the routes.  `run_init_routes` and `run_init_throws` say when that
  returns.
* `SamePaths`: two calls return the same paths, each of them as often, or both throw.
-/

namespace MBT
open Exec

/-! ### Lists of paths -/

/-- A generated path: its states, edge numbers and step numbers. -/
structure Path where
  states : List ℤ
  edges : List ℤ
  steps : List ℤ
  deriving DecidableEq

/-- `pathsMap`: the lists under `STATE_PATH`, `EDGE_PATH` and `STEP_PATH`. -/
@[ext] structure PathLists where
  statePath : List (List ℤ)
  edgePath : List (List ℤ)
  stepPath : List (List ℤ)
  edge_length : edgePath.length = statePath.length
  step_length : stepPath.length = statePath.length
  deriving DecidableEq

namespace PathLists

/-- The three lists that describe some paths. -/
def ofPaths (ps : List Path) : PathLists where
  statePath := ps.map Path.states
  edgePath := ps.map Path.edges
  stepPath := ps.map Path.steps
  edge_length := by simp
  step_length := by simp

/-- No paths. -/
def empty : PathLists := ofPaths []

/-- One path more at the end of the three lists. -/
def add (l : PathLists) (p : Path) : PathLists where
  statePath := l.statePath ++ [p.states]
  edgePath := l.edgePath ++ [p.edges]
  stepPath := l.stepPath ++ [p.steps]
  edge_length := by simp [l.edge_length]
  step_length := by simp [l.step_length]

/-- `remove(i)` on the three lists, at an index of theirs. -/
def removeAt (l : PathLists) (i : ℕ) : PathLists where
  statePath := l.statePath.eraseIdx i
  edgePath := l.edgePath.eraseIdx i
  stepPath := l.stepPath.eraseIdx i
  edge_length := by simp only [List.length_eraseIdx, l.edge_length]
  step_length := by simp only [List.length_eraseIdx, l.step_length]

/-- How many paths there are. -/
def size (l : PathLists) : ℕ := l.statePath.length

/-- The deletion loops: from the last index to the first, remove the path at each index `drop`
holds of. -/
def removeBack (drop : PathLists → ℕ → Bool) (l : PathLists) : PathLists :=
  (List.range l.size).foldr (fun i l => if drop l i then l.removeAt i else l) l

@[simp] theorem ofPaths_add (ps : List Path) (p : Path) : (ofPaths ps).add p = ofPaths (ps ++ [p]) := by
  ext1 <;> simp [ofPaths, add]

/-- To remove one index from the three lists removes one path. -/
theorem ofPaths_removeAt (ps : List Path) (i : ℕ) :
    (ofPaths ps).removeAt i = ofPaths (ps.eraseIdx i) := by
  ext1 <;> simp [ofPaths, removeAt, List.eraseIdx_map]

@[simp] theorem size_ofPaths (ps : List Path) : (ofPaths ps).size = ps.length := by
  simp [ofPaths, size]

/-- A loop from the back that drops paths leaves those it does not drop. -/
theorem removeBack_ofPaths {drop : PathLists → ℕ → Bool} {keep : Path → Bool} {ps : List Path}
    (h : ∀ p a q t, ps = p ++ a :: q → drop (ofPaths (p ++ a :: t)) p.length = !keep a) :
    (ofPaths ps).removeBack drop = ofPaths (ps.filter keep) := by
  have herase : eraseBack (fun ps => drop (ofPaths ps)) ps = ps.filter keep := eraseBack_eq h
  rw [← herase, removeBack, eraseBack, size_ofPaths]
  induction List.range ps.length with
  | nil => rfl
  | cons i l ih =>
    simp only [List.foldr_cons, ih]
    split
    · exact ofPaths_removeAt _ i
    · rfl

/-- The paths that the three lists hold. -/
def paths (l : PathLists) : List Path :=
  (l.statePath.zip (l.edgePath.zip l.stepPath)).map fun x => ⟨x.1, x.2.1, x.2.2⟩

@[simp] theorem paths_ofPaths (ps : List Path) : (ofPaths ps).paths = ps := by
  induction ps with
  | nil => rfl
  | cons p ps ih => exact congrArg (p :: ·) ih

/-- The three lists tell the paths. -/
theorem ofPaths_injective : Function.Injective ofPaths := by
  intro ps qs h
  rw [← paths_ofPaths ps, h, paths_ofPaths]

end PathLists

/-- The same paths, each of them as often, or an exception instead of both. -/
def SamePaths : Option PathLists → Option PathLists → Prop :=
  Option.Rel fun l l' => l.paths.Perm l'.paths

/-- Equal results hold the same paths. -/
theorem SamePaths.of_eq {x y : Option PathLists} (h : x = y) : SamePaths x y := by
  subst h
  cases x with
  | none => exact .none
  | some l => exact .some (.refl _)

/-- Two results hold the same paths when one is a permutation of the other. -/
theorem samePaths_ofPaths {ps qs : List Path} :
    SamePaths (some (.ofPaths ps)) (some (.ofPaths qs)) ↔ ps.Perm qs := by
  refine ⟨fun h => ?_, fun h => .some (by simpa using h)⟩
  cases h with
  | some h => simpa using h

/-! ### The algorithm object -/

/-- A route of a scenario: the lists under `state`, `step` and `cov`. -/
structure Route where
  state : List String
  step : List String
  cov : List (Option String)

/-- A route with names resolved to numbers. -/
structure RouteNums where
  state : List ℤ
  step : List ℤ
  cov : List ℤ

/-- The arguments of `genPath`; a list may be `null`. -/
structure Args where
  graph : MGraph
  startStateNameList : Option (List String)
  stopStateNameList : Option (List String)
  throughStateNameList : Option (List String)
  throughStepNameList : Option (List String)
  routeList : Option (List Route)

/-- The fields of an algorithm object; `own` are those of the subclass. -/
structure MPathAlgo (ω : Type) where
  pathsMap : PathLists
  graph : MGraph
  statePath : List ℤ
  edgePath : List ℤ
  stepPath : List ℤ
  startStateNumSet : HashSet ℤ
  stopStateNumSet : HashSet ℤ
  throughStateNumSet : HashSet ℤ
  throughStepNumSet : HashSet ℤ
  routeList : List RouteNums
  own : ω

namespace MPathAlgo

variable {ω : Type}

/-- A newly constructed object. -/
def new (own : ω) : MPathAlgo ω where
  pathsMap := .empty
  graph := .new
  statePath := []
  edgePath := []
  stepPath := []
  startStateNumSet := .empty
  stopStateNumSet := .empty
  throughStateNumSet := .empty
  throughStepNumSet := .empty
  routeList := []
  own := own

/-- The path the three path fields hold. -/
def path (m : MPathAlgo ω) : Path := ⟨m.statePath, m.edgePath, m.stepPath⟩

/-- Adds a copy of the current path. -/
def addPath : Prog (MPathAlgo ω) Unit := modify fun m =>
  { m with pathsMap := m.pathsMap.add m.path }

/-- A search ends at this node. -/
def isStopState (m : MPathAlgo ω) (nodeNum : ℤ) : Bool := m.stopStateNumSet.contains nodeNum

/-! ### `init` -/

/-- Fills the set of the start states. -/
def genStartStateNumSet (startStateNameList : Option (List String)) : Prog (MPathAlgo ω) Unit := do
  modify fun m => { m with startStateNumSet := .empty }
  let m ← get
  let nums ← Prog.lift (m.graph.startSet startStateNameList)
  modify fun m => { m with startStateNumSet := nums }

/-- Fills the set of the stop states. -/
def genStopStateNumSet (stopStateNameList : Option (List String)) : Prog (MPathAlgo ω) Unit :=
  modify fun m => { m with stopStateNumSet := m.graph.stateSet stopStateNameList }

/-- Fills the set of the states to go through. -/
def genThroughStateNumSet (throughStateNameList : Option (List String)) :
    Prog (MPathAlgo ω) Unit :=
  modify fun m => { m with throughStateNumSet := m.graph.stateSet throughStateNameList }

/-- Fills the set of the steps to go through. -/
def genThroughStepNumSet (throughStepNameList : Option (List String)) : Prog (MPathAlgo ω) Unit :=
  modify fun m => { m with throughStepNumSet := m.graph.stepSet throughStepNameList }

/-- `0` for a partial route, `1` for an overall one. -/
def covNum : List (Option String) → Except Exn ℤ
  | [] => .error .indexOutOfBounds
  | none :: _ => .error .nullPointer
  | some tmpCovStr :: _ => .ok (if Text.trim tmpCovStr = "partial" then 0 else 1)

/-- The states and steps of the route that exist; `cov` is still empty. -/
def routeNums (g : MGraph) (r : Route) : RouteNums where
  state := (r.state.map g.getNodeNum).filter (· ≠ -1)
  step := r.step.filterMap g.stepNumMap.lookup
  cov := []

/-- Adds the numbers of a route, then its coverage. -/
def genRoute (r : Route) : Prog (MPathAlgo ω) Unit := do
  modify fun m => { m with routeList := m.routeList ++ [routeNums m.graph r] }
  let cov ← Prog.lift (covNum r.cov)
  modify fun m => { m with
    routeList := m.routeList.modify (m.routeList.length - 1) fun n => { n with cov := n.cov ++ [cov] } }

/-- Fills the list of the routes. -/
def genRouteList (routeList : Option (List Route)) : Prog (MPathAlgo ω) Unit := do
  modify fun m => { m with routeList := [] }
  forM (routeList.getD []) genRoute

/-- What each `genPath` does first: the arguments are read, and the current path is cleared. -/
def init (a : Args) : Prog (MPathAlgo ω) Unit := do
  modify fun m =>
    { m with graph := a.graph, pathsMap := .empty, statePath := [], edgePath := [], stepPath := [] }
  genStartStateNumSet a.startStateNameList
  genStopStateNumSet a.stopStateNameList
  genThroughStateNumSet a.throughStateNameList
  genThroughStepNumSet a.throughStepNameList
  genRouteList a.routeList

end MPathAlgo

/-! ### What `init` leaves -/

/-- The route as `genRouteList` leaves it. -/
def Route.nums (g : MGraph) (r : Route) : RouteNums :=
  { MPathAlgo.routeNums g r with cov := (MPathAlgo.covNum r.cov).toOption.toList }

namespace Args

/-- The start states. -/
def starts (a : Args) : HashSet ℤ :=
  match a.graph.startSet a.startStateNameList with
  | .ok s => s
  | .error _ => .empty

/-- The start states of a well-formed graph are found without an index error. -/
theorem startSet_eq {a : Args} (h : a.graph.Wf) :
    a.graph.startSet a.startStateNameList = .ok a.starts := by
  obtain ⟨s, hs, -⟩ := MGraph.mem_startSet h a.startStateNameList
  simp only [starts, hs]

/-- The start states are the named ones, or those that no edge enters. -/
theorem mem_starts {a : Args} (h : a.graph.Wf) {s : ℤ} :
    s ∈ a.starts.elems ↔ a.graph.IsStart a.startStateNameList s := by
  obtain ⟨t, ht, hmem⟩ := MGraph.mem_startSet h a.startStateNameList
  simp only [starts, ht, hmem]

/-- The routes with their names resolved. -/
def routes (a : Args) : List RouteNums := (a.routeList.getD []).map (Route.nums a.graph)

/-- Every route names its coverage. -/
def CovsNamed (a : Args) : Prop :=
  ∀ r ∈ a.routeList.getD [], ∃ c, r.cov.head? = some (some c)

/-- The object once `init` has set all fields but `routeList` and those of the subclass. -/
def ready {ω : Type} (a : Args) (own : ω) (routeList : List RouteNums) : MPathAlgo ω where
  pathsMap := .empty
  graph := a.graph
  statePath := []
  edgePath := []
  stepPath := []
  startStateNumSet := a.starts
  stopStateNumSet := a.graph.stateSet a.stopStateNameList
  throughStateNumSet := a.graph.stateSet a.throughStateNameList
  throughStepNumSet := a.graph.stepSet a.throughStepNameList
  routeList := routeList
  own := own

end Args

namespace MPathAlgo

variable {ω : Type}

/-- What the initialisation does, up to the routes. -/
theorem run_init {a : Args} (h : a.graph.Wf) (m : MPathAlgo ω) :
    (init a).run m = (forM (a.routeList.getD []) genRoute).run (a.ready m.own []) := by
  simp only [init, genStartStateNumSet, genStopStateNumSet, genThroughStateNumSet,
    genThroughStepNumSet, genRouteList, bind_assoc, EStateM.run_bind, EStateM.run_modify,
    EStateM.run_get, Args.startSet_eq h, Prog.lift_ok, EStateM.run_pure]
  rfl

/-- A route whose coverage is given is read. -/
theorem run_genRoute {r : Route} {c : ℤ} (h : covNum r.cov = .ok c) (m : MPathAlgo ω) :
    (genRoute r).run m = .ok ⟨⟩ { m with routeList := m.routeList ++ [r.nums m.graph] } := by
  simp only [genRoute, h, Prog.lift_ok, EStateM.run_bind, EStateM.run_modify, EStateM.run_pure,
    Route.nums, List.length_append, List.length_singleton, Nat.add_sub_cancel]
  have hlast : ∀ (l : List RouteNums) n f, (l ++ [n]).modify l.length f = l ++ [f n] := by
    intro l n f
    rw [List.modify_eq_set_getElem?]
    simp
  rw [hlast]
  rfl

/-- A coverage that is given has a number. -/
theorem covNum_ok {l : List (Option String)} (h : ∃ c, l.head? = some (some c)) :
    ∃ n, covNum l = .ok n := by
  obtain ⟨c, h⟩ := h
  cases l with
  | nil => cases h
  | cons x t =>
    cases h
    exact ⟨_, rfl⟩

/-- Where every route names its coverage, `init` resolves them all. -/
theorem run_init_routes {a : Args} (h : a.graph.Wf) (hr : a.CovsNamed) (m : MPathAlgo ω) :
    (init a).run m = .ok ⟨⟩ (a.ready m.own a.routes) := by
  rw [run_init h]
  refine Prog.run_forM (fun rs => a.ready m.own (rs.map (Route.nums a.graph))) fun p r q e => ?_
  obtain ⟨c, hc⟩ := covNum_ok (hr r (e ▸ List.mem_append_right p List.mem_cons_self))
  rw [run_genRoute hc, List.map_append]
  rfl

/-- With all coverages given the object is ready. -/
theorem run_init_ok {a : Args} (h : a.graph.Wf) (hr : a.CovsNamed) (m : MPathAlgo ω) :
    ∃ l, (init a).run m = .ok ⟨⟩ (a.ready m.own l) :=
  ⟨_, run_init_routes h hr m⟩

/-- A missing coverage ends the reading. -/
theorem run_genRoute_throws {r : Route} (h : ¬ ∃ c, r.cov.head? = some (some c))
    (m : MPathAlgo ω) : ∃ e l, (genRoute r).run m = .error e { m with routeList := l } := by
  obtain ⟨e, he⟩ : ∃ e, covNum r.cov = .error e := by
    rcases hr : r.cov with _ | ⟨_ | c, t⟩
    · exact ⟨_, rfl⟩
    · exact ⟨_, rfl⟩
    · exact absurd ⟨c, by simp [hr]⟩ h
  refine ⟨e, m.routeList ++ [routeNums m.graph r], ?_⟩
  rw [genRoute, he]
  rfl

/-- A route that does not name its coverage makes `init` throw. -/
theorem run_init_throws {a : Args} (h : a.graph.Wf) (hr : ¬ a.CovsNamed) (m : MPathAlgo ω) :
    ∃ e l, (init a).run m = .error e (a.ready m.own l) := by
  rw [run_init h]
  unfold Args.CovsNamed at hr
  generalize a.routeList.getD [] = rs at hr
  suffices H : ∀ l, ∃ e l', (forM rs genRoute).run (a.ready m.own l) =
      .error e (a.ready m.own l') from H []
  induction rs with
  | nil => exact absurd (fun r hr => nomatch hr) hr
  | cons r rs ih =>
    intro l
    by_cases hc : ∃ c, r.cov.head? = some (some c)
    · obtain ⟨n, hn⟩ := covNum_ok hc
      obtain ⟨e, l', h'⟩ := ih (fun hrs => hr fun r' hr' => (List.mem_cons.mp hr').elim
        (fun e => e ▸ hc) (hrs r')) (l ++ [r.nums a.graph])
      exact ⟨e, l', by rw [List.forM_cons, Prog.run_bind_ok (run_genRoute hn _)]; exact h'⟩
    · obtain ⟨e, l', h'⟩ := run_genRoute_throws hc (a.ready m.own l)
      exact ⟨e, l', by rw [List.forM_cons, Prog.run_bind_error h']; rfl⟩

/-! ### The filters -/

/-- The loop of the two filters: remove the paths that hold no element of the set. -/
def delPathWithout (set : HashSet ℤ) (listOf : PathLists → List (List ℤ)) (l : PathLists) :
    PathLists :=
  if set.size = 0 then l
  else l.removeBack fun l i => !((listOf l).getD i []).any set.contains

/-- Deletes the paths that meet none of the states to go through. -/
def delPathWithoutThroughState : Prog (MPathAlgo ω) Unit := modify fun m =>
  { m with pathsMap := delPathWithout m.throughStateNumSet PathLists.statePath m.pathsMap }

/-- Deletes the paths that meet none of the steps to go through. -/
def delPathWithoutThroughStep : Prog (MPathAlgo ω) Unit := modify fun m =>
  { m with pathsMap := delPathWithout m.throughStepNumSet PathLists.stepPath m.pathsMap }

/-- The set is empty or holds an element of the list. -/
def meets (set : HashSet ℤ) (l : List ℤ) : Bool := set.size = 0 || l.any set.contains

/-- The filters delete whole paths. -/
theorem delPathWithout_ofPaths (set : HashSet ℤ) (listOf : PathLists → List (List ℤ))
    {part : Path → List ℤ} (h : ∀ ps, listOf (.ofPaths ps) = ps.map part) (ps : List Path) :
    delPathWithout set listOf (.ofPaths ps) = .ofPaths (ps.filter fun p => meets set (part p)) := by
  unfold delPathWithout meets
  split
  · rename_i hs
    simp [hs]
  · rename_i hs
    simp only [hs, decide_false, Bool.false_or]
    exact PathLists.removeBack_ofPaths fun p a q t _ => by simp [h, List.getD_eq_getElem?_getD]

/-- The path passes both filters of the arguments. -/
def passes (a : Args) (p : Path) : Bool :=
  meets (a.graph.stateSet a.throughStateNameList) p.states &&
    meets (a.graph.stepSet a.throughStepNameList) p.steps

end MPathAlgo

end MBT
