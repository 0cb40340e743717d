import MBT.Path.CovAll
import MBT.Path.CovRoute
import MBT.Support.Walks

/-!
# Path — RouteRuns

What `MPathAlgoCovRoute` finds for its routes.

* `run_partial`: a partial route contributes the paths of CovAll's search that contain its states
  and steps.
* `run_dfsOverall`: the search for an overall route records the walks to its last state that have
  as many edges as it has different steps.
* `run_routes`: the routes contribute one after the other (`block`); the call throws where a route
  that is overall has no state left (`Route.Sought`).
* `samePaths_orders`: the paths depend neither on the object nor on the order of the start states.
-/

namespace MBT
open Exec Multigraph MPathAlgo

namespace MPathAlgoCovRoute

/-! ### Partial routes -/

/-- What holds of a list holds of its set. -/
theorem all_addAll (l : List ℤ) (f : ℤ → Bool) :
    (HashSet.empty.addAll l).elems.all f = l.all f := by
  rw [Bool.eq_iff_iff, List.all_eq_true, List.all_eq_true]
  refine forall_congr' fun n => imp_congr_left ?_
  rw [HashSet.mem_elems_addAll]
  simp [HashSet.empty]

/-- A set holds the elements of its list. -/
theorem contains_addAll (l : List ℤ) (n : ℤ) :
    (HashSet.empty.addAll l).contains n = decide (n ∈ l) := by
  rw [HashSet.contains, decide_eq_decide, HashSet.mem_elems_addAll]
  simp [HashSet.empty]

/-- The path contains all states and all steps of the route. -/
def contains (route : RouteNums) (p : Path) : Bool :=
  route.state.all (· ∈ p.states) && route.step.all (· ∈ p.steps)

/-- The fields are those of the route. -/
structure Fields (route : RouteNums) (w : RouteFields) : Prop where
  state : w.stateSet = some (HashSet.empty.addAll route.state)
  step : w.stepSet = some (HashSet.empty.addAll route.step)

/-- The filter asks whether the current path contains the route. -/
theorem run_partialFilter {route : RouteNums} {m : MPathAlgo RouteFields} (h : Fields route m.own) :
    partialFilter.run m = .ok (contains route m.path) m := by
  have hstates : (HashSet.empty.addAll m.statePath).contains = fun n => decide (n ∈ m.statePath) :=
    funext (contains_addAll m.statePath)
  have hsteps : (HashSet.empty.addAll m.stepPath).contains = fun n => decide (n ∈ m.stepPath) :=
    funext (contains_addAll m.stepPath)
  rw [partialFilter, Prog.run_bind_get]
  simp only [h.state, h.step, Prog.nonNull, Prog.lift_ok, pure_bind, all_addAll, hstates, hsteps]
  change _ = EStateM.Result.ok ((route.state.all fun n => decide (n ∈ m.statePath)) && _) m
  cases route.state.all fun n => decide (n ∈ m.statePath) <;> rfl

/-- The results with the path added if it contains the route. -/
def putPartial (route : RouteNums) (p : Path) (x : PathLists × RouteFields) :
    PathLists × RouteFields :=
  if contains route p then putPath p x else x

/-- The search for a partial route records the paths that contain it. -/
theorem records_putPartial (route : RouteNums) (n : ℕ) :
    Records n (fun x => Fields route x.2)
      (fun _ => do if ← partialFilter then addPath) (putPartial route) where
  run m s k _ _ hf := by
    rw [Prog.run_bind_ok (run_partialFilter hf), putPartial]
    cases contains route m.path <;> rfl
  keeps p x hf := by
    unfold putPartial
    split
    · exact hf
    · exact hf

/-- Of some paths those that contain the route are recorded. -/
theorem foldl_putPartial (route : RouteNums) (ps qs : List Path) (w : RouteFields) :
    ps.foldl (fun x p => putPartial route p x) (.ofPaths qs, w) =
      (.ofPaths (qs ++ ps.filter (contains route)), w) := by
  induction ps generalizing qs with
  | nil => simp
  | cons p ps ih =>
    rw [List.foldl_cons, putPartial, List.filter_cons]
    split
    · rw [putPath, PathLists.ofPaths_add, ih, List.append_assoc, List.singleton_append]
    · exact ih qs

/-- What a partial route contributes. -/
def partialBlock (o : VisitOrder ℤ) (a : Args) (route : RouteNums) : List Path :=
  (a.paths (a.found o (fun _ _ => true) 0)).filter (contains route)

/-- **A partial route.** -/
theorem run_partial {a : Args} (h : a.graph.Wf) (o : VisitOrder ℤ) {w w' : RouteFields}
    {l : List RouteNums} {route : RouteNums} (hf : Fields route w') (ps : List Path) :
    (rounds o dfsPartial).run ((a.ready w l).withOut (.ofPaths ps, w')) =
      .ok ⟨⟩ ((a.ready w l).withOut (.ofPaths (ps ++ partialBlock o a route), w')) := by
  have hrounds := Prog.run_forM (l := o.visit a.starts)
    (f := round (dfsPartial (a.graph.repeatSum + 1))) (fun p => (a.ready w l).withOut
      (.ofPaths (ps ++ (a.paths (p.flatMap fun s => (a.runsFrom (fun _ _ => true) 0 s).map
        (s, ·))).filter (contains route)), w')) fun p s q hp => by
    have hs : s ∈ o.visit a.starts := hp ▸ List.mem_append_right p List.mem_cons_self
    refine (run_round_dfs h (records_putPartial route _)
      (isNode_of_isStart h ((Args.mem_starts h).mp (o.mem_visit.mp hs))) w l hf).trans ?_
    rw [foldl_putPartial]
    simp [Args.paths, Function.comp_def]
  have hnil : (a.ready w l).withOut (.ofPaths (ps ++ (a.paths (([] : List ℤ).flatMap fun s =>
      (a.runsFrom (fun _ _ => true) 0 s).map (s, ·))).filter (contains route)), w') =
        (a.ready w l).withOut (.ofPaths ps, w') := by
    simp [Args.paths]
  rw [hnil] at hrounds
  rw [rounds, Prog.run_bind_get]
  exact hrounds

/-! ### Overall routes -/

/-- The search follows the edge: it leads to a state of the route, and no other edge does so from
the same state, or its step is one of the route. -/
def accepts (route : RouteNums) (g : MGraph) (p : ℤ × ℕ) : Bool :=
  decide (g.multigraph.dst p ∈ route.state) &&
    (ArrayList.indexOf (row g.edgeList p.1) (g.multigraph.dst p) ==
        ArrayList.lastIndexOf (row g.edgeList p.1) (g.multigraph.dst p) ||
      decide (g.stepNumber p ∈ route.step))

/-- The number of different steps. -/
def size (route : RouteNums) : ℕ := (HashSet.empty.addAll route.step).size

/-- The search for an overall route: a path is recorded where it stands at `stop` and has as many
edges as the route has different steps. -/
def listed (route : RouteNums) (stop : ℤ) (g : MGraph) : Search.Tree (Cfg ℤ) (ℤ × ℕ) :=
  g.multigraph.roam (accepts route g) fun c =>
    if stop = c.state ∧ c.pos = size route + 1 then 1 else 0

/-- No repeat time is negative. -/
def NonNeg (g : MGraph) : Prop :=
  ∀ (s : ℤ) (i : ℕ) (t : ℤ), (row g.edgeRepeatTimeList s)[i]? = some t → 0 ≤ t

/-- In a well-formed graph no number is negative. -/
theorem nonNeg_of_wf {g : MGraph} (h : g.Wf) : NonNeg g := by
  intro s i t ht
  unfold row at ht
  split at ht
  · rw [List.getD_eq_getElem?_getD] at ht
    cases hr : g.edgeRepeatTimeList[s.toNat]? with
    | none => simp [hr] at ht
    | some r =>
      rw [hr] at ht
      have := h.positive r (List.mem_of_getElem? hr) t (List.mem_of_getElem? ht)
      omega
  · cases ht

/-- A move leaves no number negative. -/
theorem NonNeg.move {m : MPathAlgo RouteFields} {s : ℤ} {k i : ℕ} (hm : NonNeg m.graph)
    (h : m.At s k) (hb : 0 < m.graph.budget (s, i)) : NonNeg (m.move (s, i)).graph := by
  intro n j t ht
  have hlen := congrArg List.length h.aligned.repeats
  simp only [List.length_map] at hlen
  obtain ⟨h₀, h₁⟩ := h.node
  change (row (m.graph.edgeRepeatTimeList.modify s.toNat (·.set i _)) n)[j]? = some t at ht
  rw [row_modify_set h₀ (by omega)] at ht
  split at ht
  · rw [List.getElem?_set] at ht
    split at ht
    · split at ht
      · cases ht; omega
      · cases ht
    · exact hm s j t ht
  · exact hm n j t ht

/-- One turn of the loop for an overall route: an accepted edge is taken as long as it may be
repeated. -/
theorem run_tryListed {m : MPathAlgo RouteFields} {s : ℤ} {k i : ℕ} (h : m.At s k)
    (hi : i < (row m.graph.edgeList s).length) (hm : NonNeg m.graph) {route : RouteNums}
    (hf : Fields route m.own) {o : PathLists × RouteFields}
    (next : ℤ → ℕ → Prog (MPathAlgo RouteFields) Unit)
    (hnext : 0 < m.graph.budget (s, i) → (next (m.graph.multigraph.dst (s, i)) (k + 1)).run
      (m.move (s, i)) = .ok ⟨⟩ ((m.move (s, i)).withOut o)) :
    (tryListed next s k (row m.graph.edgeList s) (row m.graph.edgeNumberList s)
      (row m.graph.edgeStepList s) i).run m =
      .ok ⟨⟩ (if decide (0 < m.graph.budget (s, i)) && accepts route m.graph (s, i) then m.withOut o
        else m) := by
  obtain ⟨t, hrow, hb, hget⟩ := h.run_getRepeatTime hi
  have ht₀ := hm s i t hrow
  rw [tryListed, Prog.run_bind_ok hget]
  by_cases ht : t = 0
  · have hl : ¬ 0 < m.graph.budget (s, i) := by omega
    simp [ht, hl]
  · have hl : 0 < m.graph.budget (s, i) := by omega
    have hcond : (((HashSet.empty.addAll route.state).contains (m.graph.multigraph.dst (s, i)) &&
          !(ArrayList.indexOf (row m.graph.edgeList s) (m.graph.multigraph.dst (s, i)) ==
            ArrayList.lastIndexOf (row m.graph.edgeList s) (m.graph.multigraph.dst (s, i))) &&
          (HashSet.empty.addAll route.step).contains (m.graph.stepNumber (s, i))) ||
        ((HashSet.empty.addAll route.state).contains (m.graph.multigraph.dst (s, i)) &&
          (ArrayList.indexOf (row m.graph.edgeList s) (m.graph.multigraph.dst (s, i)) ==
            ArrayList.lastIndexOf (row m.graph.edgeList s) (m.graph.multigraph.dst (s, i))))) =
        accepts route m.graph (s, i) := by
      rw [accepts, contains_addAll, contains_addAll]
      generalize decide (m.graph.multigraph.dst (s, i) ∈ route.state) = x
      generalize decide (m.graph.stepNumber (s, i) ∈ route.step) = y
      generalize (ArrayList.indexOf (row m.graph.edgeList s) (m.graph.multigraph.dst (s, i)) ==
        ArrayList.lastIndexOf (row m.graph.edgeList s) (m.graph.multigraph.dst (s, i))) = z
      cases x <;> cases y <;> cases z <;> rfl
    simp only [if_neg ht, At.get_dst hi, h.get_edgeNumber hi, h.get_stepNumber hi, Prog.lift_ok,
      pure_bind, Prog.run_bind_get, hf.state, hf.step, Prog.nonNull, hcond, hl, decide_true,
      Bool.true_and]
    cases accepts route m.graph (s, i) with
    | false => rfl
    | true =>
      rw [if_pos rfl, if_pos rfl, Prog.run_bind_ok (At.run_spend hb (by omega)),
        Prog.run_bind_ok (h.run_move i), Prog.run_bind_ok (hnext hl), move_withOut,
        Prog.run_bind_ok ((h.withOut o).run_unmove i)]
      exact (h.withOut o).run_unspend hrow

/-- Recording leaves the fields of the subclass. -/
theorem snd_putAll (g : MGraph) (p : Path) (rs : List (List (ℤ × ℕ)))
    (o : PathLists × RouteFields) : (putAll putPath g p rs o).2 = o.2 := by
  unfold putAll
  induction rs generalizing o with
  | nil => rfl
  | cons r rs ih => exact ih _

/-- The walks listed below `c` that begin with the `i`-th edge. -/
def listedVia (route : RouteNums) (stop : ℤ) (g : MGraph) (depth : ℕ) (c : Cfg ℤ) (i : ℕ) :
    List (List (ℤ × ℕ)) :=
  if decide (0 < c.left (c.state, i)) && accepts route g (c.state, i) then
    ((listed route stop g).runs depth (c.step g.multigraph (c.state, i))).map ((c.state, i) :: ·)
  else []

/-- The runs of the search for an overall route, one move at a time. -/
theorem runs_listed {route : RouteNums} {stop : ℤ} {g : MGraph} {depth : ℕ} {c : Cfg ℤ} :
    (listed route stop g).runs (depth + 1) c =
      List.replicate (if stop = c.state ∧ c.pos = size route + 1 then 1 else 0) [] ++
        (List.range (row g.edgeList c.state).length).flatMap (listedVia route stop g depth c) :=
  runs_roam

/-- The path is recorded, or not, before the loop over the edges. -/
theorem run_recordOverall {route : RouteNums} {m : MPathAlgo RouteFields} {c : Cfg ℤ} {k : ℕ}
    (h : m.At c.state k) (hpos : c.pos = k) (hf : Fields route m.own)
    (loop : Prog (MPathAlgo RouteFields) Unit) :
    (if m.own.stopStateNum = c.state then do
        let stepSet ← Prog.lift (Prog.nonNull m.own.stepSet)
        if m.stepPath.length = stepSet.size then do
          addPath
          loop
        else loop
      else loop : Prog (MPathAlgo RouteFields) Unit).run m =
    loop.run (m.withOut (putAll putPath m.graph m.path (List.replicate
      (if m.own.stopStateNum = c.state ∧ c.pos = size route + 1 then 1 else 0) []) m.out)) := by
  have hsteps := h.steps
  have hsize : m.stepPath.length = (HashSet.empty.addAll route.step).size ↔
      c.pos = size route + 1 := by
    rw [size]
    omega
  simp only [hf.step, Prog.nonNull, Prog.lift_ok, pure_bind, ← hsize]
  by_cases hs : m.own.stopStateNum = c.state
  · by_cases hl : m.stepPath.length = (HashSet.empty.addAll route.step).size
    · rw [if_pos hs, if_pos hl, if_pos ⟨hs, hl⟩]
      simp only [putAll, List.replicate_one, List.foldl_cons, List.foldl_nil, extend_nil]
      rfl
    · rw [if_pos hs, if_neg hl, if_neg fun h => hl h.2]
      rfl
  · rw [if_neg hs, if_neg fun h => hs h.1]
    rfl

/-- **What the search for an overall route records.** -/
theorem run_dfsOverall {route : RouteNums} {depth : ℕ} {m : MPathAlgo RouteFields} {c : Cfg ℤ}
    {k : ℕ} (h : m.At c.state k) (hc : c.left = m.graph.budget) (hpos : c.pos = k)
    (hm : NonNeg m.graph) (hf : Fields route m.own) (hd : c.rank m.graph.multigraph < depth) :
    (dfsOverall depth c.state k).run m = .ok ⟨⟩ (m.withOut (putAll putPath m.graph m.path
      ((listed route m.own.stopStateNum m.graph).runs depth c) m.out)) := by
  induction depth generalizing m c k with
  | zero => exact absurd hd (Nat.not_lt_zero _)
  | succ depth ih =>
    -- a turn of the loop, which finds the fields as they are
    have hturn : ∀ o : PathLists × RouteFields, o.2 = m.own →
        ∀ i < (row m.graph.edgeList c.state).length,
        (tryListed (fun n k => dfsOverall depth n k) c.state k (row m.graph.edgeList c.state)
          (row m.graph.edgeNumberList c.state) (row m.graph.edgeStepList c.state) i).run
            (m.withOut o) =
          .ok ⟨⟩ (m.withOut (putAll putPath m.graph m.path
            (listedVia route m.own.stopStateNum m.graph depth c i) o)) := by
      rintro ⟨l, _⟩ rfl i hi
      have hrun := run_tryListed (h.withOut (l, m.own)) hi hm hf (fun n k => dfsOverall depth n k)
        fun hl => ih (k := k + 1) (m := (m.withOut (l, m.own)).move (c.state, i))
          (c := c.step m.graph.multigraph (c.state, i)) ((h.withOut (l, m.own)).move hi)
          (by rw [(h.withOut (l, m.own)).budget_move hi, Cfg.step, hc]; rfl)
          (by rw [Cfg.step, hpos]; rfl)
          (NonNeg.move (m := m.withOut (l, m.own)) hm (h.withOut (l, m.own)) hl) hf
          (rank_step hi (hc ▸ hl) hd)
      refine hrun.trans ?_
      change EStateM.Result.ok PUnit.unit (if decide (0 < m.graph.budget (c.state, i)) &&
        accepts route m.graph (c.state, i) then _ else _) = _
      rw [← hc, listedVia]
      split
      · rw [← putAll_move]
        rfl
      · rfl
    rw [dfsOverall, Prog.run_bind_get, runs_listed, putAll_append]
    simp only [h.get_row rfl, h.get_row h.aligned.numbers, h.get_row h.aligned.steps,
      Prog.lift_ok, pure_bind]
    rw [run_recordOverall h hpos hf]
    have hown := snd_putAll m.graph m.path (List.replicate
      (if m.own.stopStateNum = c.state ∧ c.pos = size route + 1 then 1 else 0) []) m.out
    generalize putAll putPath m.graph m.path (List.replicate _ []) m.out = o at hown
    refine Prog.run_forM (fun p => m.withOut (putAll putPath m.graph m.path
      (p.flatMap (listedVia route m.own.stopStateNum m.graph depth c)) o)) fun p i q hp => ?_
    have hi : i < (row m.graph.edgeList c.state).length :=
      List.mem_range.mp (hp ▸ List.mem_append_right p List.mem_cons_self)
    rw [hturn _ ((snd_putAll ..).trans hown) i hi, List.flatMap_append, List.flatMap_singleton,
      putAll_append]

/-- What an overall route from `s` to `t` contributes. -/
def overallBlock (a : Args) (route : RouteNums) (s t : ℤ) : List Path :=
  ((listed route t a.graph).runs (a.graph.repeatSum + 1)
    ⟨s, a.graph.budget, fun _ => 0, 1⟩).map (a.graph.pathOf s)

/-- **An overall route** whose first state is `s` and whose last is `t`. -/
theorem run_overall {a : Args} (h : a.graph.Wf) {w w' : RouteFields} {l : List RouteNums}
    {route : RouteNums} (hf : Fields route w') {s t : ℤ} (hs : route.state.head? = some s)
    (ht : route.state.getLast? = some t) (hnode : a.graph.IsNode s) (ps : List Path) :
    (overallPaths route).run ((a.ready w l).withOut (.ofPaths ps, w')) =
      .ok ⟨⟩ ((a.ready w l).withOut (.ofPaths (ps ++ overallBlock a route s t),
        { w' with startStateNum := s, stopStateNum := t })) := by
  obtain ⟨pre, e⟩ := List.getLast?_eq_some_iff.mp ht
  have hfirst : ArrayList.get route.state 0 = .ok s :=
    ArrayList.get_ok (i := 0) (by rw [← List.head?_eq_getElem?, hs])
  have hlast : ArrayList.get route.state ((route.state.length : ℤ) - 1) = .ok t := by
    rw [e, List.length_append, List.length_singleton, Nat.cast_add, Nat.cast_one,
      add_sub_cancel_right]
    exact ArrayList.get_last pre t
  rw [overallPaths, hfirst, hlast]
  refine (run_round (run_dfsOverall (c := ⟨s, a.graph.budget, fun _ => 0, 1⟩)
    (at_atStart h hnode w l (.ofPaths ps, { w' with startStateNum := s, stopStateNum := t })) rfl rfl
    (nonNeg_of_wf h) ⟨hf.state, hf.step⟩ (Nat.lt_succ_self _))).trans ?_
  rw [overallBlock, ← foldl_putPath, List.foldl_map]
  rfl

/-- An overall route without a state. -/
theorem run_overall_throws {route : RouteNums} (hs : route.state = [])
    (m : MPathAlgo RouteFields) :
    (overallPaths route).run m = .error .indexOutOfBounds m := by
  rw [overallPaths, hs]
  rfl

/-! ### All routes -/

/-- What a route contributes. -/
def block (o : VisitOrder ℤ) (a : Args) (route : RouteNums) : List Path :=
  if route.cov = [1] then overallBlock a route (route.state.headD 0) (route.state.getLastD 0)
  else partialBlock o a route

/-- A state is left of the route, if it is overall. -/
def Sought (route : RouteNums) : Prop := route.cov = [1] → route.state ≠ []

/-- What `genRouteList` leaves of a route. -/
structure Resolved (g : MGraph) (route : RouteNums) : Prop where
  cov : route.cov = [0] ∨ route.cov = [1]
  nodes : ∀ s ∈ route.state, g.IsNode s

/-- The numbers of a route whose coverage is given are resolved. -/
theorem resolved_nums {g : MGraph} (h : g.Wf) {r : Route} (hr : ∃ c, r.cov.head? = some (some c)) :
    Resolved g (r.nums g) where
  cov := by
    obtain ⟨c, hc⟩ := hr
    rw [Route.nums]
    dsimp only
    generalize r.cov = l at hc
    cases l with
    | nil => cases hc
    | cons x l =>
      cases hc
      rw [covNum]
      split
      · exact .inl rfl
      · exact .inr rfl
  nodes s hs := by
    obtain ⟨hmem, hne⟩ := List.mem_filter.mp hs
    obtain ⟨name, -, rfl⟩ := List.mem_map.mp hmem
    rw [MGraph.getNodeNum] at hne ⊢
    cases hl : g.nodeNumMap.lookup name with
    | none => simp [hl] at hne
    | some n => simpa [hl] using h.nodes name n hl

/-- The turn of a route. -/
theorem run_routePaths {a : Args} (h : a.graph.Wf) (o : VisitOrder ℤ) {w : RouteFields} {i : ℕ}
    {route : RouteNums} (hi : a.routes[i]? = some route) (hres : Resolved a.graph route)
    (ps : List Path) (w' : RouteFields) :
    (Sought route → ∃ w'', (routePaths o i).run ((a.ready w a.routes).withOut (.ofPaths ps, w')) =
      .ok ⟨⟩ ((a.ready w a.routes).withOut (.ofPaths (ps ++ block o a route), w''))) ∧
    (¬ Sought route → ∃ w'', (routePaths o i).run
        ((a.ready w a.routes).withOut (.ofPaths ps, w')) =
      .error .indexOutOfBounds ((a.ready w a.routes).withOut (.ofPaths ps, w''))) := by
  have hturn : ∀ c, route.cov = [c] →
      (routePaths o i).run ((a.ready w a.routes).withOut (.ofPaths ps, w')) =
        (if c = 1 then overallPaths route else rounds o dfsPartial).run
          ((a.ready w a.routes).withOut (.ofPaths ps, setRoute route c w')) := by
    intro c hc
    have hget : ArrayList.get route.cov 0 = .ok c := ArrayList.get_ok (i := 0) (by rw [hc]; rfl)
    rw [routePaths, Prog.run_bind_get]
    simp only [withOut, Args.ready, ArrayList.get_ok hi, Prog.lift_ok, pure_bind, hget]
    split <;> rfl
  have hfields : ∀ c, Fields route (setRoute route c w') := fun c => ⟨rfl, rfl⟩
  rcases hres.cov with hc | hc
  · have hne : route.cov ≠ [1] := by rw [hc]; decide
    refine ⟨fun _ => ⟨setRoute route 0 w', ?_⟩, fun hnot => absurd (fun h => absurd h hne) hnot⟩
    rw [hturn 0 hc, if_neg (by decide), run_partial h o (hfields 0), block, if_neg hne]
  · rw [hturn 1 hc, if_pos rfl, Sought, block, if_pos hc]
    refine ⟨fun hsought => ?_, fun hnot => ⟨setRoute route 1 w', ?_⟩⟩
    · obtain ⟨s, l, e⟩ := List.exists_cons_of_ne_nil (hsought hc)
      have hs : route.state.head? = some s := by rw [e]; rfl
      have ht : route.state.getLast? = some (route.state.getLastD 0) := by
        rw [e, List.getLast?_cons, List.getLastD_cons, List.getLastD_eq_getLast?]
      have hfirst : route.state.headD 0 = s := by rw [e]; rfl
      rw [hfirst]
      exact ⟨_, run_overall h (hfields 1) hs ht (hres.nodes s (e ▸ List.mem_cons_self)) ps⟩
    · exact run_overall_throws (by_contra fun hne => hnot fun _ => hne) _

/-- The turns of the first `n` routes. -/
theorem run_routes {a : Args} (h : a.graph.Wf) (hr : a.CovsNamed) (o : VisitOrder ℤ)
    (w : RouteFields) {n : ℕ} (hn : n ≤ a.routes.length) :
    (∀ route ∈ a.routes.take n, Sought route) ∧
        (∃ w', (forM (List.range n) (routePaths o)).run (a.ready w a.routes) =
          .ok ⟨⟩ ((a.ready w a.routes).withOut
            (.ofPaths ((a.routes.take n).flatMap (block o a)), w'))) ∨
      (∃ route ∈ a.routes.take n, ¬ Sought route) ∧
        ∃ ps w', (forM (List.range n) (routePaths o)).run (a.ready w a.routes) =
          .error .indexOutOfBounds ((a.ready w a.routes).withOut (.ofPaths ps, w')) := by
  induction n with
  | zero => exact .inl ⟨fun _ hroute => (nomatch hroute), w, rfl⟩
  | succ n ih =>
    have hi : a.routes[n]? = some a.routes[n] := List.getElem?_eq_getElem hn
    have hres : Resolved a.graph a.routes[n] := by
      obtain ⟨r, hmem, e⟩ := List.mem_map.mp (List.mem_of_getElem? hi)
      rw [← e]
      exact resolved_nums h (hr r hmem)
    rw [List.range_succ, List.forM_append, List.take_succ_eq_append_getElem hn]
    rcases ih (Nat.le_of_succ_le hn) with ⟨hall, w', hrun⟩ | ⟨⟨route, hmem, hnot⟩, ps, w', hrun⟩
    · rw [Prog.run_bind_ok hrun, List.forM_cons]
      obtain ⟨hok, hthrows⟩ := run_routePaths h o (w := w) hi hres
        ((a.routes.take n).flatMap (block o a)) w'
      by_cases hs : Sought a.routes[n]
      · obtain ⟨w'', hturn⟩ := hok hs
        refine .inl ⟨fun route hmem => ?_, w'', ?_⟩
        · rcases List.mem_append.mp hmem with hmem | hmem
          · exact hall route hmem
          · exact List.mem_singleton.mp hmem ▸ hs
        · rw [Prog.run_bind_ok hturn, List.flatMap_append, List.flatMap_singleton]
          rfl
      · obtain ⟨w'', hturn⟩ := hthrows hs
        exact .inr ⟨⟨_, List.mem_append_right _ List.mem_cons_self, hs⟩, _, w'',
          Prog.run_bind_error hturn⟩
    · exact .inr ⟨⟨route, List.mem_append_left _ hmem, hnot⟩, ps, w', Prog.run_bind_error hrun⟩

/-- **What `genPath` returns**: the contributions of the routes, in their order. -/
theorem run_genPath {a : Args} (h : a.graph.Wf) (hr : a.CovsNamed) (o : VisitOrder ℤ)
    (hs : ∀ route ∈ a.routes, Sought route) (m : MPathAlgo RouteFields) :
    ∃ w', (genPath o a).run m = .ok (.ofPaths (a.routes.flatMap (block o a)))
      ((a.ready m.own a.routes).withOut (.ofPaths (a.routes.flatMap (block o a)), w')) := by
  rw [genPath, Prog.run_bind_ok (run_init_routes h hr m), Prog.run_bind_get]
  rcases run_routes h hr o m.own (le_refl a.routes.length) with ⟨-, w', hrun⟩ | ⟨⟨route, hmem, hnot⟩, -⟩
  · rw [List.take_length] at hrun
    exact ⟨w', by rw [show (a.ready m.own a.routes).routeList = a.routes from rfl,
      Prog.run_bind_ok hrun]; rfl⟩
  · exact absurd (hs route (List.mem_of_mem_take hmem)) hnot

/-- It throws where a route does not name its coverage, or has no state left. -/
theorem run_genPath_throws {a : Args} (h : a.graph.Wf) (o : VisitOrder ℤ)
    (hs : ¬ (a.CovsNamed ∧ ∀ route ∈ a.routes, Sought route)) (m : MPathAlgo RouteFields) :
    ∃ e m', (genPath o a).run m = .error e m' := by
  by_cases hr : a.CovsNamed
  · rw [genPath, Prog.run_bind_ok (run_init_routes h hr m), Prog.run_bind_get]
    rcases run_routes h hr o m.own (le_refl a.routes.length) with ⟨hall, -⟩ | ⟨-, ps, w', hrun⟩
    · rw [List.take_length] at hall
      exact absurd ⟨hr, hall⟩ hs
    · exact ⟨_, _, Prog.run_bind_error hrun⟩
  · obtain ⟨e, l, hinit⟩ := run_init_throws h hr m
    exact ⟨e, _, Prog.run_bind_error hinit⟩

/-- In another order of the start states, a route contributes the same paths. -/
theorem block_perm (o o' : VisitOrder ℤ) (a : Args) (route : RouteNums) :
    (block o a route).Perm (block o' a route) := by
  rw [block, block]
  split
  · exact .refl _
  · exact ((a.found_perm o o' _ _).map _).filter _

/-- From any object and in any order of the start states, the same paths are returned. -/
theorem samePaths_orders {a : Args} (h : a.graph.Wf) (o o' : VisitOrder ℤ)
    (m m' : MPathAlgo RouteFields) :
    SamePaths ((genPath o a).eval m) ((genPath o' a).eval m') := by
  by_cases hall : a.CovsNamed ∧ ∀ route ∈ a.routes, Sought route
  · obtain ⟨w, hrun⟩ := run_genPath h hall.1 o hall.2 m
    obtain ⟨w', hrun'⟩ := run_genPath h hall.1 o' hall.2 m'
    rw [Prog.eval_ok hrun, Prog.eval_ok hrun', samePaths_ofPaths]
    exact List.Perm.flatMap_left _ fun route _ => block_perm o o' a route
  · obtain ⟨e, m₁, hrun⟩ := run_genPath_throws h o hall m
    obtain ⟨e', m₂, hrun'⟩ := run_genPath_throws h o' hall m'
    rw [Prog.eval_error hrun, Prog.eval_error hrun']
    exact .none

end MPathAlgoCovRoute

end MBT
