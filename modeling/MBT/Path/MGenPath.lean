import MBT.Path.RealPaths
import MBT.Path.Trails
import MBT.Generate.ScenarioInfo

/-!
# Path — MGenPath

The paths of all scenarios of a model, one call of `genPath` after another.  The calls share the
objects of the manager, and the graph, into which each algorithm writes its marks.

* `Goes`: what is known of every path that is kept, also of one that an `N2N` object still holds
  from the call of another scenario.
* `genPath_goes`: when the paths of all scenarios are generated; the graph is then as it was before,
  and the paths of every scenario go along its edges.
-/

namespace MBT
open Exec Multigraph MPathAlgo

/-! ### Paths along the edges of a graph -/

namespace MGraph

/-- The path goes along edges of the graph, none of them more often than its repeat time says.  Where
`stays` holds, it may take an edge once more on the spot. -/
structure Goes (g : MGraph) (stays : Prop) (p : Path) : Prop where
  states : p.states.length = p.edges.length + 1
  steps : p.steps.length = p.edges.length
  edges : ∀ i < p.edges.length, ∃ q, g.IsEdge q ∧ p.states[i + 1]? = some (g.multigraph.dst q) ∧
    p.edges[i]? = some (g.edgeNumber q) ∧ p.steps[i]? = some (g.stepNumber q) ∧
    (p.states[i]? = some q.1 ∨ stays ∧ 0 < i ∧ p.edges[i - 1]? = some (g.edgeNumber q))
  within : ∀ q, g.IsEdge q → p.edges.count (g.edgeNumber q) ≤ g.budget q

/-- The number of an edge is one of the numbers of the graph. -/
theorem edgeNumber_mem {g : MGraph} (h : g.Wf) {q : ℤ × ℕ} (hq : g.IsEdge q) :
    g.edgeNumber q ∈ g.edgeNumberList.flatten := by
  obtain ⟨h₀, h₁⟩ := isNode_of_isEdge hq
  have hlength : g.edgeNumberList.length = g.edgeList.length := by
    simpa using congrArg List.length h.numbers
  have hrow : row g.edgeNumberList q.1 ∈ g.edgeNumberList := by
    refine List.mem_of_getElem? (getElem?_row h₀ ?_)
    omega
  have hplace : q.2 < (row g.edgeNumberList q.1).length := by
    rw [h.length_numbers]
    exact hq
  refine List.mem_flatten.mpr ⟨_, hrow, ?_⟩
  rw [edgeNumber, List.getD_eq_getElem _ _ hplace]
  exact List.getElem_mem hplace

/-- The edges follow one another from `s`, or an edge follows itself; `last` is the one before. -/
def Linked (g : MGraph) : ℤ → Option (ℤ × ℕ) → List (ℤ × ℕ) → Prop
  | _, _, [] => True
  | s, last, q :: l => g.IsEdge q ∧ (q.1 = s ∨ last = some q) ∧ g.Linked (g.multigraph.dst q) (some q) l

variable {g : MGraph} {s : ℤ} {r : List (ℤ × ℕ)}

/-- An edge may be taken again on the spot. -/
theorem linked_replicate {q : ℤ × ℕ} (hq : g.IsEdge q) (n : ℕ) {l : List (ℤ × ℕ)}
    (hl : g.Linked (g.multigraph.dst q) (some q) l) :
    g.Linked (g.multigraph.dst q) (some q) (List.replicate n q ++ l) := by
  induction n with
  | zero => exact hl
  | succ n ih => exact ⟨hq, .inr rfl, ih⟩

/-- The edges of a walk, each repeated on the spot. -/
theorem linked_expand (h : g.Wf) (hr : g.multigraph.Chained s r) (last : Option (ℤ × ℕ)) :
    g.Linked s last (g.expand r) := by
  induction r generalizing s last with
  | nil => trivial
  | cons p r ih =>
    obtain ⟨hs, hp, hrest⟩ := hr
    have hedge : g.IsEdge p := by
      rw [IsEdge, hs]
      exact hp
    obtain ⟨n, hn⟩ := Nat.exists_eq_succ_of_ne_zero (budget_ne_zero h hedge)
    rw [expand_cons, hn, List.replicate_succ]
    exact ⟨hedge, .inl hs, linked_replicate hedge n (ih hrest (some p))⟩

/-- A list of linked edges, at an index. -/
theorem Linked.at {l : List (ℤ × ℕ)} {last : Option (ℤ × ℕ)} (h : g.Linked s last l) {i : ℕ}
    {q : ℤ × ℕ} (hi : l[i]? = some q) : g.IsEdge q ∧
      (q.1 = g.multigraph.dest s (l.take i) ∨ 0 < i ∧ l[i - 1]? = some q ∨ i = 0 ∧ last = some q) := by
  induction l generalizing s last i with
  | nil => cases hi
  | cons q' l ih =>
    obtain ⟨hq, hlast, hrest⟩ := h
    cases i with
    | zero =>
      obtain rfl := Option.some.inj hi
      exact ⟨hq, hlast.imp id fun he => .inr ⟨rfl, he⟩⟩
    | succ i =>
      obtain ⟨hedge, hor⟩ := ih hrest hi
      refine ⟨hedge, ?_⟩
      rcases hor with hs | ⟨hpos, hbefore⟩ | ⟨rfl, he⟩
      · exact .inl hs
      · -- the edge before stands behind the first one as well
        obtain ⟨i, rfl⟩ := Nat.exists_eq_succ_of_ne_zero hpos.ne'
        exact .inr (.inl ⟨Nat.succ_pos _, hbefore⟩)
      · exact .inr (.inl ⟨Nat.one_pos, he⟩)

/-- Different edges have different numbers. -/
theorem count_edgeNumber (h : g.Wf) {l : List (ℤ × ℕ)} (hl : ∀ p ∈ l, g.IsEdge p) {q : ℤ × ℕ}
    (hq : g.IsEdge q) : (l.map g.edgeNumber).count (g.edgeNumber q) = l.count q := by
  rw [List.count, List.countP_map, List.count]
  refine List.countP_congr fun p hp => ?_
  rw [Function.comp_apply, beq_iff_eq, beq_iff_eq]
  exact ⟨h.eq_of_edgeNumber (hl p hp) hq, fun e => e ▸ rfl⟩

/-- **Linked edges are a path of the graph.** -/
theorem Linked.goes (h : g.Wf) {l : List (ℤ × ℕ)} (hl : g.Linked s none l)
    (hcount : ∀ q, l.count q ≤ g.budget q) : g.Goes True (g.pathOf s l) where
  states := by simp [pathOf, extend]
  steps := by simp [pathOf, extend]
  edges i hi := by
    have hi' : i < l.length := by simpa [pathOf, extend] using hi
    obtain ⟨hedge, hor⟩ := hl.at (List.getElem?_eq_getElem hi')
    refine ⟨l[i], hedge, ?_, ?_, ?_, ?_⟩
    · rw [Args.getElem?_states _ hi', List.take_succ_eq_append_getElem hi', dest_append]
      rfl
    · simp [pathOf, extend, hi']
    · simp [pathOf, extend, hi']
    · rw [Args.getElem?_states _ hi'.le]
      rcases hor with hs | ⟨hpos, hbefore⟩ | ⟨-, he⟩
      · exact .inl (congrArg some hs.symm)
      · exact .inr ⟨trivial, hpos, by simp [pathOf, extend, hbefore]⟩
      · cases he
  within q hq := by
    have hmem : ∀ p ∈ l, g.IsEdge p := by
      intro p hp
      obtain ⟨i, hi⟩ := List.mem_iff_getElem?.mp hp
      exact (hl.at hi).1
    have hedges : (g.pathOf s l).edges = l.map g.edgeNumber := by simp [pathOf, extend]
    rw [hedges, count_edgeNumber h hmem hq]
    exact hcount q

/-- A trail whose edges are repeated uses each of them as often as its repeat time says. -/
theorem count_expand (hr : r.Nodup) (q : ℤ × ℕ) : (g.expand r).count q ≤ g.budget q := by
  rw [expand, List.count_flatMap]
  have hterm : (List.count q ∘ fun p => List.replicate (g.budget p) p) =
      fun p => if p = q then g.budget q else 0 := by
    funext p
    rw [Function.comp_apply, List.count_replicate]
    by_cases hp : p = q
    · simp [hp]
    · simp [hp]
  rw [hterm]
  induction r with
  | nil => simp
  | cons p r ih =>
    obtain ⟨hp, hr⟩ := List.nodup_cons.mp hr
    rw [List.map_cons, List.sum_cons]
    by_cases he : p = q
    · have hrest : (r.map fun p => if p = q then g.budget q else 0).sum = 0 := by
        refine List.sum_eq_zero fun n hn => ?_
        obtain ⟨p', hp', rfl⟩ := List.mem_map.mp hn
        exact if_neg fun he' : p' = q => hp ((he.trans he'.symm).symm ▸ hp')
      rw [if_pos he, hrest, Nat.add_zero]
    · rw [if_neg he, Nat.zero_add]
      exact ih hr

end MGraph

theorem MGraph.Goes.mono {g : MGraph} {stays stays' : Prop} {p : Path} (h : g.Goes stays p)
    (hstays : stays → stays') : g.Goes stays' p where
  states := h.states
  steps := h.steps
  edges i hi := by
    obtain ⟨q, hq, hto, hnumber, hstep, hfrom⟩ := h.edges i hi
    exact ⟨q, hq, hto, hnumber, hstep, hfrom.imp id fun ⟨hs, hbefore⟩ => ⟨hstays hs, hbefore⟩⟩
  within := h.within

namespace Args

variable {a : Args} {p : Path} {stays : Prop}

/-- A path of edges goes from state to state. -/
theorem IsPath.goes (h : a.IsPath p) : a.graph.Goes stays p where
  states := h.states
  steps := h.steps
  edges i hi := by
    obtain ⟨q, hq, hfrom, hto, hnumber, hstep⟩ := h.edges i hi
    exact ⟨q, hq, hto, hnumber, hstep, .inl hfrom⟩
  within := h.within

/-- A path that a search finds goes from state to state. -/
theorem Found.goes (h : a.graph.Wf) (hp : a.Found p) : a.graph.Goes stays p := (hp.isPath h).goes

/-- The paths of a round are found. -/
theorem found_of_mem_pathsFrom {R : Ranking ℤ} (h : a.graph.Wf) {s : ℤ} (hs : s ∈ a.starts.elems)
    (hp : p ∈ CovN2N.pathsFrom R a s) : a.Found p := by
  obtain ⟨r, hr, rfl⟩ := List.mem_map.mp hp
  exact ⟨s, r, (mem_starts h).mp hs, (mem_runsFrom.mp hr).1, rfl⟩

end Args

/-- The path of an expanded trail goes from state to state, or repeats a step on the spot. -/
theorem MPathAlgoCovRepeat.goes_of_mem_covered {a : Args} (h : a.graph.Wf) {o : VisitOrder ℤ} {p : Path}
    (hp : p ∈ paths a (covered o a)) : a.graph.Goes True p := by
  obtain ⟨⟨s, r⟩, hr, rfl⟩ := List.mem_map.mp hp
  obtain ⟨-, htrail, -⟩ := (mem_found h).mp (List.mem_of_mem_filter hr)
  exact (MGraph.linked_expand h htrail.chained none).goes h (MGraph.count_expand htrail.nodup)

/-! ### One call -/

namespace Algo

/-- What calls on the graph `g` keep in the fields of the subclass. -/
def KeepsOn (g : MGraph) : (k : Algo) → MPathAlgo k.Own → Prop
  | covShortN2N, m => ∃ left, CovN2N.Sound shortest m.own left ∧ ∀ p ∈ left, g.Goes False p
  | covLongN2N, m => ∃ left, CovN2N.Sound longest m.own left ∧ ∀ p ∈ left, g.Goes False p
  | k, m => k.Keeps m

/-- The algorithms that keep nothing from call to call. -/
def Fresh (k : Algo) : Prop := k ≠ covShortN2N ∧ k ≠ covLongN2N

/-- The routes of the call are all read and, where the algorithm goes along them, can be sought. -/
def Readable (k : Algo) (a : Args) : Prop :=
  a.CovsNamed ∧ (k = covRoute → ∀ route ∈ a.routes, MPathAlgoCovRoute.Sought route)

variable {g : MGraph} {k : Algo} {a : Args} {o : VisitOrder ℤ}

/-- What is kept on one graph is what a call on any graph expects. -/
theorem KeepsOn.keeps {m : MPathAlgo k.Own} (h : KeepsOn g k m) : k.Keeps m := by
  cases k with
  | covShortN2N =>
    obtain ⟨left, hleft, -⟩ := h
    exact ⟨left, hleft⟩
  | covLongN2N =>
    obtain ⟨left, hleft, -⟩ := h
    exact ⟨left, hleft⟩
  | covAll | covLong | covShort | covRepeat | covLeast | covRoute => exact h

/-- It holds of new objects. -/
theorem keepsOn_new (g : MGraph) (k : Algo) : KeepsOn g k k.new := by
  cases k with
  | covShortN2N => exact ⟨[], CovN2N.sound_new, List.forall_mem_nil _⟩
  | covLongN2N => exact ⟨[], CovN2N.sound_new, List.forall_mem_nil _⟩
  | covAll => exact keeps_new covAll
  | covLong => exact keeps_new covLong
  | covShort => exact keeps_new covShort
  | covRepeat => exact keeps_new covRepeat
  | covLeast => exact keeps_new covLeast
  | covRoute => exact keeps_new covRoute

/-- What a call that is started on a graph of its own returns and leaves. -/
structure CallSpec (k : Algo) (a : Args) (m' : MPathAlgo k.Own) (ps : List Path) : Prop where
  graph : m'.graph = a.graph
  keeps : KeepsOn a.graph k m'
  goes : ∀ p ∈ ps, a.graph.Goes (k = covRepeat) p

/-- A call of one of the two `N2N` algorithms. -/
theorem exists_run_n2n {R : Ranking ℤ} (h : a.graph.Wf) (hr : a.CovsNamed)
    {m : MPathAlgo (Dist N2N)} {left : List Path} (hm : CovN2N.Sound R m.own left)
    (hleft : ∀ p ∈ left, a.graph.Goes False p) (o : VisitOrder ℤ) :
    ∃ ps m', (CovN2N.genPath R o a).run m = .ok (.ofPaths ps) m' ∧ m'.graph = a.graph ∧
      (∃ left', CovN2N.Sound R m'.own left' ∧ ∀ p ∈ left', a.graph.Goes False p) ∧
      ∀ p ∈ ps, a.graph.Goes False p := by
  obtain ⟨l, hinit⟩ := run_init_ok h hr m
  obtain ⟨w', hrun, hsound⟩ := CovN2N.run_genPath_left h hinit hm o
  have hround : ∀ p, p ∈ left ∨ (∃ s ∈ o.visit a.starts, p ∈ CovN2N.pathsFrom R a s) →
      a.graph.Goes False p := by
    rintro p (hp | ⟨s, hs, hp⟩)
    · exact hleft p hp
    · exact (Args.found_of_mem_pathsFrom h (o.mem_visit.mp hs) hp).goes h
  refine ⟨_, _, hrun, rfl, ⟨_, hsound, fun p hp => hround p (Carry.mem_of_mem_foldl_step hp)⟩, ?_⟩
  exact fun p hp => hround p (Carry.mem_of_mem_carry (List.mem_of_mem_filter hp))

/-- A call whose routes can be read returns. -/
theorem exists_run (h : a.graph.Wf) (hread : k.Readable a) {m : MPathAlgo k.Own}
    (hm : KeepsOn a.graph k m) (o : VisitOrder ℤ) :
    ∃ ps m', (k.genPath o a).run m = .ok (.ofPaths ps) m' ∧ CallSpec k a m' ps := by
  obtain ⟨hr, hsought⟩ := hread
  -- what the fields of the subclass keep is known of every call
  have hkeeps : ∀ {ps m'}, (k.genPath o a).run m = .ok (.ofPaths ps) m' → k.Keeps m' :=
    fun hrun => Prog.exec_ok hrun ▸ keeps_exec h hm.keeps o
  have hinit : ∀ {ω : Type} (m : MPathAlgo ω), ∃ l, (init a).run m = .ok ⟨⟩ (a.ready m.own l) :=
    fun m => run_init_ok h hr m
  cases k with
  | covAll =>
    obtain ⟨l, hrun⟩ := MPathAlgoCovAll.run_genPath h hr o m
    exact ⟨_, _, hrun, rfl, hkeeps hrun, fun p hp => (Args.found_of_mem_covered h hp).goes h⟩
  | covLong =>
    obtain ⟨l, hrun⟩ := CovBest.run_genPath h hr hm.keeps o
    exact ⟨_, _, hrun, rfl, hkeeps hrun, fun p hp => (Args.found_of_mem_result h hp).goes h⟩
  | covShort =>
    obtain ⟨l, hrun⟩ := CovBest.run_genPath h hr hm.keeps o
    exact ⟨_, _, hrun, rfl, hkeeps hrun, fun p hp => (Args.found_of_mem_result h hp).goes h⟩
  | covRepeat =>
    obtain ⟨l, hrun⟩ := MPathAlgoCovRepeat.run_genPath h hr o m
    exact ⟨_, _, hrun, rfl, hkeeps hrun, fun p hp =>
      (MPathAlgoCovRepeat.goes_of_mem_covered h hp).mono fun _ => rfl⟩
  | covShortN2N =>
    obtain ⟨left, hsound, hleft⟩ := hm
    obtain ⟨ps, m', hrun, hg, hkept, hgoes⟩ := exists_run_n2n h hr hsound hleft o
    exact ⟨ps, m', hrun, hg, hkept, fun p hp => (hgoes p hp).mono False.elim⟩
  | covLongN2N =>
    obtain ⟨left, hsound, hleft⟩ := hm
    obtain ⟨ps, m', hrun, hg, hkept, hgoes⟩ := exists_run_n2n h hr hsound hleft o
    exact ⟨ps, m', hrun, hg, hkept, fun p hp => (hgoes p hp).mono False.elim⟩
  | covLeast =>
    obtain ⟨chosen, c, hc, hchosen, -⟩ := MPathAlgoCovLeast.exists_chosen
      ((a.paths (MPathAlgoCovAll.covered o a)).map Path.steps)
    obtain ⟨l, hrun⟩ := MPathAlgoCovLeast.run_genPath h hr o m hc hchosen
    exact ⟨_, _, hrun, rfl, hkeeps hrun, fun p hp =>
      (Args.found_of_mem_covered h (List.mem_of_mem_filter hp)).goes h⟩
  | covRoute =>
    obtain ⟨w', hrun⟩ := MPathAlgoCovRoute.run_genPath h hr o (hsought rfl) m
    refine ⟨_, _, hrun, rfl, hkeeps hrun, fun p hp => ?_⟩
    obtain ⟨route, hroute, hp⟩ := List.mem_flatMap.mp hp
    obtain ⟨r, hmem, rfl⟩ := List.mem_map.mp hroute
    exact (MPathAlgoCovRoute.isOfRoute_of_mem_block h o (hr r hmem)
      (hsought rfl _ (List.mem_map_of_mem hmem)) p hp).1.goes

/-- A call that returns has routes that can be read. -/
theorem readable_of_run (h : a.graph.Wf) {m m' : MPathAlgo k.Own} {lists : PathLists}
    (hrun : (k.genPath o a).run m = .ok lists m') : k.Readable a := by
  refine ⟨covsNamed_of_run h hrun, ?_⟩
  rintro rfl
  by_contra hs
  obtain ⟨e, m'', herror⟩ := MPathAlgoCovRoute.run_genPath_throws h o (fun hall => hs hall.2) m
  rw [show (covRoute.genPath o a).run m = _ from herror] at hrun
  cases hrun

/-- Where nothing is kept from call to call, what a used object returns is what a new one does, in any
order of the start states for which `least` picks the same paths. -/
theorem samePaths_new (h : a.graph.Wf) (hk : k.Fresh) {m : MPathAlgo k.Own} (hm : k.Keeps m)
    {o o' : VisitOrder ℤ}
    (hpicks : k = .covLeast → MPathAlgoCovLeast.SamePicks o o' a) :
    SamePaths ((k.genPath o a).eval m) ((k.genPath o' a).eval k.new) := by
  refine (samePaths_iff h hm o o').mpr ?_
  cases k with
  | covShortN2N => exact absurd rfl hk.1
  | covLongN2N => exact absurd rfl hk.2
  | covLeast => exact hpicks rfl
  | covAll => trivial
  | covLong => trivial
  | covShort => trivial
  | covRepeat => trivial
  | covRoute => trivial

end Algo

/-! ### The scenarios -/

/-- What the calls share, `MPathAlgoMag.getInstance()` and the graph, and the map of the paths. -/
structure MGenPath where
  mag : MPathAlgoMag
  graph : MGraph
  scenariosPathsMap : HashMap String PathLists

namespace MGenPath

/-- The algorithm of a scenario. -/
def algo (info : ScenarioInfo) : Algo :=
  let pathAlgo := if 0 < info.route.length then MPathConfig.PATH_ROUTE else info.path
  MPathAlgoMag.getAlgorithm pathAlgo

/-- The arguments of the call for a scenario. -/
def args (graph : MGraph) (info : ScenarioInfo) : Args where
  graph := graph
  startStateNameList := some info.start
  stopStateNameList := some info.stop
  throughStateNameList := some info.throughState
  throughStepNameList := some info.throughStep
  routeList := some info.route

/-- The object of the algorithm; its graph is the one that the calls share. -/
def setObject (k : Algo) (m : MPathAlgo k.Own) (x : MGenPath) : MGenPath :=
  { x with mag := ⟨Function.update x.mag.object k m⟩, graph := m.graph }

/-- The turn of the loop over the scenarios; `o` is the order in which the call visits its start
states. -/
def genScenario (o : VisitOrder ℤ) (info : ScenarioInfo) : Prog MGenPath Unit := do
  let x ← get
  let scenPaths ← Prog.zoom (fun x => x.mag.object (algo info)) (setObject (algo info))
    ((algo info).genPath o (args x.graph info))
  modify fun x => { x with scenariosPathsMap := x.scenariosPathsMap.insert info.name scenPaths }

/-- The paths of each scenario, by its name; `null` where the scenarios do not parse.  The order of a
turn depends on the calls before it as well, from which the sets of the object keep their tables. -/
def genPath (order : ℕ → VisitOrder ℤ) (scenInfoList : Option (List ScenarioInfo)) :
    Prog MGenPath (Option (HashMap String PathLists)) :=
  match scenInfoList with
  | none => return none
  | some scenInfoList => do
    modify fun x => { x with scenariosPathsMap := ∅ }
    forM scenInfoList.zipIdx fun t => genScenario (order t.2) t.1
    let x ← get
    return some x.scenariosPathsMap

/-- The state before the first scenario. -/
def new (graph : MGraph) : MGenPath := ⟨MPathAlgoMag.manager, graph, ∅⟩

/-- The scenario can be read, all its routes included. -/
def Readable (g : MGraph) (info : ScenarioInfo) : Prop := (algo info).Readable (args g info)

/-- The paths of a scenario on the graph: those of a new object, where the algorithm keeps nothing
from call to call, and at any rate paths of the graph.  The new object may visit the start states in
any order; for `least`, in one that picks the same paths as the order of the turn. -/
structure IsPaths (g : MGraph) (info : ScenarioInfo) (lists : PathLists) : Prop where
  own : (algo info).Fresh → ∃ o : VisitOrder ℤ, ∀ o' : VisitOrder ℤ,
    (algo info = .covLeast → MPathAlgoCovLeast.SamePicks o o' (args g info)) →
      SamePaths (some lists) (((algo info).genPath o' (args g info)).eval (algo info).new)
  goes : ∃ ps, lists = .ofPaths ps ∧ ∀ p ∈ ps, g.Goes (algo info = .covRepeat) p

/-- The scenario that is read last under the name. -/
def lastNamed (infos : List ScenarioInfo) (name : String) : Option ScenarioInfo :=
  infos.reverse.find? fun info => info.name = name

/-- What the loop keeps, after the scenarios `infos`. -/
structure Kept (g : MGraph) (infos : List ScenarioInfo) (x : MGenPath) : Prop where
  graph : x.graph = g
  keeps : ∀ k : Algo, k.KeepsOn g (x.mag.object k)
  paths : ∀ name, Option.Rel (IsPaths g) (lastNamed infos name) (x.scenariosPathsMap.lookup name)

variable {order : ℕ → VisitOrder ℤ} {o : VisitOrder ℤ} {g : MGraph} {info : ScenarioInfo}
  {infos : List ScenarioInfo} {x : MGenPath}

/-- When the routes of a scenario can be read. -/
theorem readable_iff : Readable g info ↔ ∀ r ∈ info.route,
    (∃ c, r.cov.head? = some (some c)) ∧ MPathAlgoCovRoute.Sought (r.nums g) := by
  have hroutes : (args g info).routes = info.route.map (Route.nums g) := rfl
  constructor
  · rintro ⟨hnamed, hsought⟩ r hr
    have halgo : algo info = .covRoute := by
      rw [algo, if_pos (List.length_pos_of_mem hr)]
      decide +kernel
    exact ⟨hnamed r hr, hsought halgo _ (hroutes ▸ List.mem_map_of_mem hr)⟩
  · intro h
    refine ⟨fun r hr => (h r hr).1, fun _ route hroute => ?_⟩
    obtain ⟨r, hr, rfl⟩ := List.mem_map.mp (hroutes ▸ hroute)
    exact (h r hr).2

/-- Nothing is kept before the first scenario. -/
theorem kept_new (g : MGraph) : Kept g [] (new g) where
  graph := rfl
  keeps k := Algo.keepsOn_new g k
  paths _ := .none

theorem lastNamed_append (infos : List ScenarioInfo) (info : ScenarioInfo) (name : String) :
    lastNamed (infos ++ [info]) name = if info.name = name then some info else lastNamed infos name := by
  simp [lastNamed, List.find?_cons]
  split <;> simp_all

/-- **A scenario** that can be read adds its paths. -/
theorem run_genScenario (h : g.Wf) (hx : Kept g infos x) (hread : Readable g info) :
    ∃ x', (genScenario o info).run x = .ok ⟨⟩ x' ∧ Kept g (infos ++ [info]) x' := by
  obtain ⟨rfl, hkeeps, hpaths⟩ := hx
  obtain ⟨ps, m', hrun, hspec⟩ := Algo.exists_run h hread (hkeeps (algo info)) o
  have hzoom : (Prog.zoom (fun x : MGenPath => x.mag.object (algo info)) (setObject (algo info))
      ((algo info).genPath o (args x.graph info))).run x =
        .ok (.ofPaths ps) (setObject (algo info) m' x) := Prog.run_zoom_ok hrun
  refine ⟨_, by rw [genScenario, Prog.run_bind_get, Prog.run_bind_ok hzoom]; rfl, hspec.graph, ?_, ?_⟩
  · intro k
    change Algo.KeepsOn x.graph k (Function.update x.mag.object (algo info) m' k)
    by_cases hk : k = algo info
    · subst hk
      rw [Function.update_self]
      exact hspec.keeps
    · rw [Function.update_of_ne hk]
      exact hkeeps k
  · intro name
    rw [lastNamed_append]
    by_cases hname : info.name = name
    · subst hname
      rw [if_pos rfl]
      have hput : (x.scenariosPathsMap.insert info.name (.ofPaths ps)).lookup info.name =
          some (.ofPaths ps) := AList.lookup_insert _
      refine hput.symm ▸ .some ⟨fun hfresh => ⟨o, fun o' hpicks => ?_⟩, ps, rfl, hspec.goes⟩
      have hsame := Algo.samePaths_new h hfresh (hkeeps _).keeps hpicks
      rwa [Prog.eval_ok hrun] at hsame
    · have hput : (x.scenariosPathsMap.insert info.name (.ofPaths ps)).lookup name =
          x.scenariosPathsMap.lookup name := AList.lookup_insert_ne (Ne.symm hname)
      rw [if_neg hname]
      exact hput.symm ▸ hpaths name

/-- One that cannot be read ends the loop. -/
theorem run_genScenario_throws (h : g.Wf) (hx : Kept g infos x) (hread : ¬ Readable g info) :
    ∃ e x', (genScenario o info).run x = .error e x' := by
  obtain ⟨rfl, -, -⟩ := hx
  cases hrun : ((algo info).genPath o (args x.graph info)).run (x.mag.object (algo info)) with
  | ok lists m' => exact absurd (Algo.readable_of_run h hrun) hread
  | error e m' =>
    have hzoom : (Prog.zoom (fun x : MGenPath => x.mag.object (algo info)) (setObject (algo info))
        ((algo info).genPath o (args x.graph info))).run x =
          .error e (setObject (algo info) m' x) := Prog.run_zoom_error hrun
    exact ⟨e, _, by rw [genScenario, Prog.run_bind_get, Prog.run_bind_error hzoom]⟩

/-- **A run over the scenarios.** -/
theorem run_scenarios (h : g.Wf) (order : ℕ → VisitOrder ℤ) (infos done : List ScenarioInfo) (i : ℕ)
    {x : MGenPath} (hx : Kept g done x) :
    (∀ info ∈ infos, Readable g info) ∧
        (∃ x', (forM (infos.zipIdx i) fun t => genScenario (order t.2) t.1).run x = .ok ⟨⟩ x' ∧
          Kept g (done ++ infos) x') ∨
      (∃ info ∈ infos, ¬ Readable g info) ∧
        ∃ e x', (forM (infos.zipIdx i) fun t => genScenario (order t.2) t.1).run x = .error e x' := by
  induction infos generalizing done i x with
  | nil => exact .inl ⟨List.forall_mem_nil _, x, rfl, (List.append_nil done).symm ▸ hx⟩
  | cons info infos ih =>
    by_cases hread : Readable g info
    · obtain ⟨x', hrun, hx'⟩ := run_genScenario (o := order i) h hx hread
      rw [List.zipIdx_cons, List.forM_cons, Prog.run_bind_ok hrun]
      rcases ih (done ++ [info]) (i + 1) hx' with ⟨hall, x'', hrest, hx''⟩ | ⟨⟨bad, hmem, hbad⟩, hrest⟩
      · rw [List.append_assoc] at hx''
        exact .inl ⟨List.forall_mem_cons.mpr ⟨hread, hall⟩, x'', hrest, hx''⟩
      · exact .inr ⟨⟨bad, List.mem_cons_of_mem _ hmem, hbad⟩, hrest⟩
    · obtain ⟨e, x', hrun⟩ := run_genScenario_throws (o := order i) h hx hread
      exact .inr ⟨⟨info, List.mem_cons_self, hread⟩, e, x', Prog.run_bind_error hrun⟩

/-- The routes of the scenario name their coverage, and an overall one has a state of the graph. -/
def RoutesRead (g : MGraph) (info : ScenarioInfo) : Prop :=
  ∀ r ∈ info.route, (∃ c, r.cov.head? = some (some c)) ∧ MPathAlgoCovRoute.Sought (r.nums g)

/-- What a call on new objects leaves, or that it throws. -/
theorem run_genPath (h : g.Wf) (order : ℕ → VisitOrder ℤ) (infos : List ScenarioInfo) :
    (∀ info ∈ infos, RoutesRead g info) ∧
        (∃ x', (genPath order (some infos)).run (new g) = .ok (some x'.scenariosPathsMap) x' ∧
          Kept g infos x') ∨
      (∃ info ∈ infos, ¬ RoutesRead g info) ∧
        ∃ e x', (genPath order (some infos)).run (new g) = .error e x' := by
  have hloop : (genPath order (some infos)).run (new g) =
      ((forM infos.zipIdx fun t => genScenario (order t.2) t.1) >>= fun _ => get >>= fun x =>
        pure (some x.scenariosPathsMap)).run (new g) := rfl
  rcases run_scenarios h order infos [] 0 (kept_new g) with ⟨hall, x', hrun, hx'⟩ | ⟨hbad, e, x', hrun⟩
  · refine .inl ⟨fun info hinfo => readable_iff.mp (hall info hinfo), x', ?_, hx'⟩
    rw [hloop, Prog.run_bind_ok hrun]
    rfl
  · obtain ⟨info, hinfo, hread⟩ := hbad
    exact .inr ⟨⟨info, hinfo, fun hroutes => hread (readable_iff.mpr hroutes)⟩, e, x',
      hloop.trans (Prog.run_bind_error hrun)⟩

/-- **The paths of a model.**  Where the routes of all scenarios can be read, the graph is left as it
was, and each name has the paths of the last scenario of that name.  These go along the edges of the
graph, also where an `N2N` algorithm gives them out again for a later scenario; else they are the
paths of the scenario alone.  Where some route cannot be read, `genPath` throws. -/
theorem genPath_goes (es : List EdgeCall) (order : ℕ → VisitOrder ℤ)
    (infos : List ScenarioInfo) :
    (∀ info ∈ infos, RoutesRead (.ofEdges es) info) ∧
        (∃ scenariosPathsMap x', (genPath order (some infos)).run (new (.ofEdges es)) =
            .ok (some scenariosPathsMap) x' ∧ x'.graph = .ofEdges es ∧
          ∀ name, Option.Rel (IsPaths (.ofEdges es)) (lastNamed infos name)
            (scenariosPathsMap.lookup name)) ∨
      (∃ info ∈ infos, ¬ RoutesRead (.ofEdges es) info) ∧
        ∃ e x', (genPath order (some infos)).run (new (.ofEdges es)) = .error e x' := by
  rcases run_genPath (MGraph.wf_ofEdges es) order infos with ⟨hall, x', hrun, hx'⟩ | hbad
  · exact .inl ⟨hall, _, x', hrun, hx'.graph, hx'.paths⟩
  · exact .inr hbad

/-! ### The edges of the paths -/

/-- The edges of a path are edges of the graph. -/
theorem number_mem_of_goes (h : g.Wf) {stays : Prop} {p : Path} (hp : g.Goes stays p) :
    ∀ n ∈ p.edges, n ∈ g.edgeNumberList.flatten := by
  intro n hn
  obtain ⟨i, hi, rfl⟩ := List.mem_iff_getElem.mp hn
  obtain ⟨q, hq, -, hnumber, -⟩ := hp.edges i hi
  rw [List.getElem?_eq_getElem hi] at hnumber
  rw [Option.some.inj hnumber]
  exact MGraph.edgeNumber_mem h hq

/-- Every scenario has paths, over the edges of the graph. -/
theorem Kept.exists_paths (h : g.Wf) (hx : Kept g infos x) (hinfo : info ∈ infos) :
    ∃ lists, x.scenariosPathsMap.lookup info.name = some lists ∧
      ∀ path ∈ lists.edgePath, ∀ n ∈ path, n ∈ g.edgeNumberList.flatten := by
  have hfound : (lastNamed infos info.name).isSome := by
    rw [lastNamed, List.find?_isSome]
    exact ⟨info, List.mem_reverse.mpr hinfo, by simp⟩
  obtain ⟨last, hlast⟩ := Option.isSome_iff_exists.mp hfound
  have hrel := hx.paths info.name
  rw [hlast] at hrel
  generalize hlookup : x.scenariosPathsMap.lookup info.name = found at hrel
  cases hrel with
  | some hpaths =>
    obtain ⟨ps, rfl, hgoes⟩ := hpaths.goes
    refine ⟨_, rfl, fun path hpath => ?_⟩
    obtain ⟨p, hp, rfl⟩ := List.mem_map.mp hpath
    exact number_mem_of_goes h (hgoes p hp)

end MGenPath

end MBT
