import MBT.Path.Routes

/-!
# Path — OverallRoutes

What `MPathAlgoCovRoute` finds for an overall route, against what the route asks for: from its first
state to its last, within its states, with its steps and no others.

The search counts the edges of a path against the different steps of the route.  It looks at the
step of an edge only where another edge leads to the same state, and never at a step used twice.

* `mem_overallBlock`: the paths found are those of the walks it counts (`Route.Counted`).
* `routePaths_follow_iff`: when all of them do what the route asks for.
-/

namespace MBT
open Exec Multigraph MPathAlgo

namespace Route

/-- The numbers of the steps that exist. -/
def stepNums (g : MGraph) (r : Route) : Finset ℤ := (r.step.filterMap g.stepNumMap.lookup).toFinset

/-- The walk from `s` to `t` stays in the states of the route and within the repeat times; each of
its edges is the only one between its two states or has a step of the route; and it has as many
edges as the route has different steps. -/
structure Counted (g : MGraph) (r : Route) (s t : ℤ) (w : List (ℤ × ℕ)) : Prop where
  chained : g.multigraph.Chained s w
  within : ∀ p, w.count p ≤ g.budget p
  states : ∀ p ∈ w, ∃ name ∈ r.state, g.nodeNumMap.lookup name = some (g.multigraph.dst p)
  edges : ∀ p ∈ w, (∀ j < g.multigraph.deg p.1,
      g.multigraph.dst (p.1, j) = g.multigraph.dst p → j = p.2) ∨
    ∃ name ∈ r.step, g.stepNumMap.lookup name = some (g.stepNumber p)
  ends : g.multigraph.dest s w = t
  length : w.length = (r.stepNums g).card

/-- The path does what the route asks for. -/
structure Follows (g : MGraph) (r : Route) (p : Path) : Prop where
  first : p.states.head? = r.state.head?.bind g.nodeNumMap.lookup
  last : p.states.getLast? = r.state.getLast?.bind g.nodeNumMap.lookup
  states : ∀ n ∈ p.states, ∃ name ∈ r.state, g.nodeNumMap.lookup name = some n
  steps : ∀ t, t ∈ p.steps ↔ ∃ name ∈ r.step, g.stepNumMap.lookup name = some t

variable {g : MGraph} {r : Route} {s t : ℤ} {w : List (ℤ × ℕ)}

/-- The steps of a route that the graph knows. -/
theorem mem_stepNums {n : ℤ} :
    n ∈ r.stepNums g ↔ ∃ name ∈ r.step, g.stepNumMap.lookup name = some n := by
  rw [stepNums, List.mem_toFinset, List.mem_filterMap]

/-- How many steps of a route the graph knows, each once. -/
theorem size_nums : MPathAlgoCovRoute.size (r.nums g) = (r.stepNums g).card := by
  have hset : (HashSet.empty.addAll (r.nums g).step).elems.toFinset = r.stepNums g := by
    ext n
    rw [List.mem_toFinset, HashSet.mem_elems_addAll, mem_stepNums, mem_step_nums]
    simp [HashSet.empty]
  rw [MPathAlgoCovRoute.size, HashSet.size, ← hset, List.toFinset_card_of_nodup (HashSet.nodup _)]

/-- The first and the last state, where all exist. -/
theorem ends_nums (h : g.Wf) (hall : ∀ name ∈ r.state, ∃ n, g.nodeNumMap.lookup name = some n) :
    (r.nums g).state.head? = r.state.head?.bind g.nodeNumMap.lookup ∧
      (r.nums g).state.getLast? = r.state.getLast?.bind g.nodeNumMap.lookup := by
  have hnum : ∀ name ∈ r.state, g.nodeNumMap.lookup name = some (g.getNodeNum name) := by
    intro name hname
    obtain ⟨n, hn⟩ := hall name hname
    rw [MGraph.getNodeNum, hn]
  have hstate : (r.nums g).state = r.state.map g.getNodeNum := by
    refine List.filter_eq_self.mpr fun n hn => ?_
    obtain ⟨name, hname, rfl⟩ := List.mem_map.mp hn
    have := (h.nodes name _ (hnum name hname)).1
    rw [decide_eq_true_eq]
    omega
  rw [hstate, List.head?_map, List.getLast?_map]
  constructor
  · cases hh : r.state.head? with
    | none => rfl
    | some name => exact (hnum name (List.mem_of_mem_head? hh)).symm
  · cases hl : r.state.getLast? with
    | none => rfl
    | some name => exact (hnum name (List.mem_of_getLast? hl)).symm

/-! ### What is found -/

/-- The edges that the search takes: they enter a listed state, and are the only ones between their
states or carry a listed step. -/
theorem accepts_iff (h : g.Wf) {p : ℤ × ℕ} (hp : g.IsEdge p) :
    MPathAlgoCovRoute.accepts (r.nums g) g p = true ↔
      (∃ name ∈ r.state, g.nodeNumMap.lookup name = some (g.multigraph.dst p)) ∧
        ((∀ j < g.multigraph.deg p.1, g.multigraph.dst (p.1, j) = g.multigraph.dst p → j = p.2) ∨
          ∃ name ∈ r.step, g.stepNumMap.lookup name = some (g.stepNumber p)) := by
  have hp' : p.2 < (row g.edgeList p.1).length := hp
  have hget : ∀ j < (row g.edgeList p.1).length,
      (row g.edgeList p.1)[j]? = some (g.multigraph.dst (p.1, j)) := fun j hj => by
    simp [MGraph.multigraph, hj]
  have hone := ArrayList.indexOf_eq_lastIndexOf_iff (hget p.2 hp')
  rw [MPathAlgoCovRoute.accepts, Bool.and_eq_true, Bool.or_eq_true, decide_eq_true_eq,
    decide_eq_true_eq, beq_iff_eq, mem_state_nums h, mem_step_nums, hone]
  refine and_congr_right fun _ => or_congr_left ⟨fun hall j hj e => ?_, fun hall j hj => ?_⟩
  · exact hall j ((hget j hj).trans (congrArg some e))
  · have hlt := (List.getElem?_eq_some_iff.mp hj).1
    rw [hget j hlt] at hj
    exact hall j hlt (Option.some.inj hj)

/-- The runs of as many accepted edges as the route has steps. -/
theorem counted_iff (h : g.Wf) : r.Counted g s t w ↔
    g.multigraph.IsWalk (MPathAlgoCovRoute.accepts (r.nums g) g) g.budget s w ∧
      g.multigraph.dest s w = t ∧ w.length = MPathAlgoCovRoute.size (r.nums g) := by
  rw [size_nums]
  constructor
  · rintro ⟨hc, hb, hs, he, hd, hl⟩
    exact ⟨⟨hc, hb, fun p hp => (accepts_iff h (MGraph.isEdge_of_chained hc p hp)).mpr
      ⟨hs p hp, he p hp⟩⟩, hd, hl⟩
  · rintro ⟨⟨hc, hb, ha⟩, hd, hl⟩
    have hacc := fun p hp => (accepts_iff h (MGraph.isEdge_of_chained hc p hp)).mp (ha p hp)
    exact ⟨hc, hb, fun p hp => (hacc p hp).1, fun p hp => (hacc p hp).2, hd, hl⟩

end Route

namespace MPathAlgoCovRoute

variable {a : Args} {r : Route} {s t : ℤ}

/-- **The paths found for an overall route.** -/
theorem mem_overallBlock (h : a.graph.Wf) {p : Path} : p ∈ overallBlock a (r.nums a.graph) s t ↔
    ∃ w, r.Counted a.graph s t w ∧ a.graph.pathOf s w = p := by
  rw [overallBlock, List.mem_map]
  refine exists_congr fun w => and_congr_left fun _ => ?_
  have hroom : Cfg.rank a.graph.multigraph ⟨s, a.graph.budget, fun _ => 0, 1⟩ <
      a.graph.repeatSum + 1 := Nat.lt_succ_self _
  rw [Route.counted_iff h, listed, mem_roam hroom, state_foldl_step, pos_foldl_step]
  refine and_congr_right fun _ => ?_
  split
  · rename_i hend
    refine iff_of_true Nat.one_pos ⟨hend.1.symm, ?_⟩
    have := hend.2
    dsimp only at this
    omega
  · rename_i hend
    refine iff_of_false (lt_irrefl 0) fun hw => hend ⟨hw.1.symm, ?_⟩
    dsimp only
    omega

/-- A walk with as many edges as there are steps uses exactly these iff it uses no others and none
of them twice. -/
theorem steps_iff {l : List ℤ} {f : Finset ℤ} (hlen : l.length = f.card) :
    (∀ t, t ∈ l ↔ t ∈ f) ↔ (∀ t ∈ l, t ∈ f) ∧ l.Nodup := by
  constructor
  · intro hall
    have hset : l.toFinset = f := by
      ext t
      rw [List.mem_toFinset, hall]
    refine ⟨fun t ht => (hall t).mp ht, ?_⟩
    have hdedup : l.dedup = l := (List.dedup_sublist l).eq_of_length (by
      rw [← List.card_toFinset, hset, hlen])
    exact List.dedup_eq_self.mp hdedup
  · rintro ⟨hsub, hnd⟩
    have hset : l.toFinset = f := by
      refine Finset.eq_of_subset_of_card_le (fun t ht => hsub t (List.mem_toFinset.mp ht)) ?_
      rw [List.toFinset_card_of_nodup hnd, hlen]
    intro t
    rw [← hset, List.mem_toFinset]

/-- The path of a counted walk does what the route asks for iff its steps are those of the route. -/
theorem follows_iff (h : a.graph.Wf)
    (hall : ∀ name ∈ r.state, ∃ n, a.graph.nodeNumMap.lookup name = some n)
    (hs : (r.nums a.graph).state.head? = some s) (ht : (r.nums a.graph).state.getLast? = some t)
    {w : List (ℤ × ℕ)} (hw : r.Counted a.graph s t w) :
    r.Follows a.graph (a.graph.pathOf s w) ↔
      (∀ p ∈ w, ∃ name ∈ r.step, a.graph.stepNumMap.lookup name = some (a.graph.stepNumber p)) ∧
        (w.map a.graph.stepNumber).Nodup := by
  obtain ⟨hfirst, hlast⟩ := Route.ends_nums h hall
  have hsteps := steps_iff (l := w.map a.graph.stepNumber) (f := r.stepNums a.graph)
    ((List.length_map ..).trans hw.length)
  simp only [Route.mem_stepNums, List.forall_mem_map] at hsteps
  rw [← hsteps]
  refine ⟨fun hf => hf.steps, fun hall => ⟨?_, ?_, ?_, hall⟩⟩
  · exact hs.symm.trans hfirst
  · rw [← hlast, ht, ← hw.ends, dest_eq_getLast]
    exact List.getLast?_eq_some_getLast (List.cons_ne_nil _ _)
  · intro n hn
    rcases List.mem_cons.mp (show n ∈ s :: w.map a.graph.multigraph.dst from hn) with rfl | hn
    · exact (Route.mem_state_nums h).mp (List.mem_of_mem_head? hs)
    · obtain ⟨p, hp, rfl⟩ := List.mem_map.mp hn
      exact hw.states p hp

/-- **When the paths of an overall route do what it asks for**: every walk from its first state to
its last through its states and within the repeat times, each edge of which is the only one between
its two states or has a step of the route, and which has as many edges as the route has different
steps, uses steps of the route only and none of them twice. -/
theorem routePaths_follow_iff (es : List EdgeCall) (a : Args) (hg : a.graph = .ofEdges es)
    (o : VisitOrder ℤ) (m : MPathAlgo RouteFields) {i : ℕ} {r : Route}
    (hi : (a.routeList.getD [])[i]? = some r) (hoverall : ¬ r.IsPartial) (hne : r.state ≠ [])
    (hstates : ∀ name ∈ r.state, ∃ n, a.graph.nodeNumMap.lookup name = some n)
    {m₁ : MPathAlgo RouteFields}
    (hreach : (do init a; forM (List.range i) (routePaths o)).run m = .ok ⟨⟩ m₁) :
    ∃ ps added m₂, m₁.pathsMap = .ofPaths ps ∧ (routePaths o i).run m₁ = .ok ⟨⟩ m₂ ∧
      m₂.pathsMap = .ofPaths (ps ++ added) ∧
      ((∀ p ∈ added, r.Follows a.graph p) ↔
        ∀ s t w, r.state.head?.bind a.graph.nodeNumMap.lookup = some s →
          r.state.getLast?.bind a.graph.nodeNumMap.lookup = some t → r.Counted a.graph s t w →
            (∀ p ∈ w, ∃ name ∈ r.step,
              a.graph.stepNumMap.lookup name = some (a.graph.stepNumber p)) ∧
            (w.map a.graph.stepNumber).Nodup) := by
  have h : a.graph.Wf := hg ▸ MGraph.wf_ofEdges es
  have hr : a.CovsNamed := by
    by_contra hr
    obtain ⟨e, l, hinit⟩ := run_init_throws h hr m
    rw [Prog.run_bind_error hinit] at hreach
    cases hreach
  have hmem : r ∈ a.routeList.getD [] := List.mem_of_getElem? hi
  have hi' : a.routes[i]? = some (r.nums a.graph) := by
    rw [Args.routes, List.getElem?_map, hi]
    rfl
  have hlt : i < a.routes.length := (List.getElem?_eq_some_iff.mp hi').1
  obtain ⟨w', hm₁⟩ : ∃ w', m₁ = (a.ready m.own a.routes).withOut
      (.ofPaths ((a.routes.take i).flatMap (block o a)), w') := by
    rw [Prog.run_bind_ok (run_init_routes h hr m)] at hreach
    rcases run_routes h hr o m.own hlt.le with ⟨-, w', hrun⟩ | ⟨-, ps, w', hrun⟩
    · rw [hrun] at hreach
      cases hreach
      exact ⟨w', rfl⟩
    · rw [hrun] at hreach
      cases hreach
  obtain ⟨hfirst, hlast⟩ := Route.ends_nums h hstates
  have hcov : (r.nums a.graph).cov = [1] := by
    obtain ⟨c, hc⟩ := hr r hmem
    obtain ⟨l, hl⟩ := List.head?_eq_some_iff.mp hc
    exact Route.cov_nums_of_not hl hoverall
  have hstate : (r.nums a.graph).state ≠ [] := by
    intro hnil
    obtain ⟨name, l, e⟩ := List.exists_cons_of_ne_nil hne
    obtain ⟨n, hn⟩ := hstates name (e ▸ List.mem_cons_self)
    have := (Route.state_nums_nil_iff h).mp hnil name (e ▸ List.mem_cons_self)
    rw [hn] at this
    cases this
  obtain ⟨w'', hturn⟩ := (run_routePaths h o (w := m.own) hi' (resolved_nums h (hr r hmem))
    ((a.routes.take i).flatMap (block o a)) w').1 fun _ => hstate
  subst hm₁
  refine ⟨_, _, _, rfl, hturn, rfl, ?_⟩
  have hs := List.head?_eq_some_head hstate
  have ht := List.getLast?_eq_some_getLast hstate
  generalize (r.nums a.graph).state.head hstate = s at hs
  generalize (r.nums a.graph).state.getLast hstate = t at ht
  rw [block, if_pos hcov, List.headD_eq_head?_getD, List.getLastD_eq_getLast?, hs, ht]
  constructor
  · intro hall s' t' w hs' ht' hw
    obtain rfl : s' = s := Option.some.inj (hs'.symm.trans (hfirst.symm.trans hs))
    obtain rfl : t' = t := Option.some.inj (ht'.symm.trans (hlast.symm.trans ht))
    exact (follows_iff h hstates hs ht hw).mp (hall _ ((mem_overallBlock h).mpr ⟨w, hw, rfl⟩))
  · intro hall p hp
    obtain ⟨w, hw, rfl⟩ := (mem_overallBlock h).mp hp
    exact (follows_iff h hstates hs ht hw).mpr
      (hall s t w (hfirst.symm.trans hs) (hlast.symm.trans ht) hw)

/-- An overall route along the graph with a detour. -/
def alongArgs : Args where
  graph := .ofEdges MPathAlgoCovAll.detourEdges
  startStateNameList := some ["S"]
  stopStateNameList := some ["T"]
  throughStateNameList := none
  throughStepNameList := none
  routeList := some [⟨["S", "A", "T"], ["enter", "finish"], [some "overall"]⟩]

theorem routePaths_follow_iff_along :
    ∃ ps added m₂, (alongArgs.ready new.own alongArgs.routes).pathsMap = .ofPaths ps ∧
      (routePaths .insertion 0).run (alongArgs.ready new.own alongArgs.routes) = .ok ⟨⟩ m₂ ∧
      m₂.pathsMap = .ofPaths (ps ++ added) ∧
      ((∀ p ∈ added, Route.Follows alongArgs.graph
          ⟨["S", "A", "T"], ["enter", "finish"], [some "overall"]⟩ p) ↔
        ∀ s t w, (["S", "A", "T"].head?).bind alongArgs.graph.nodeNumMap.lookup = some s →
          (["S", "A", "T"].getLast?).bind alongArgs.graph.nodeNumMap.lookup = some t →
          Route.Counted alongArgs.graph
            ⟨["S", "A", "T"], ["enter", "finish"], [some "overall"]⟩ s t w →
            (∀ p ∈ w, ∃ name ∈ ["enter", "finish"],
              alongArgs.graph.stepNumMap.lookup name = some (alongArgs.graph.stepNumber p)) ∧
            (w.map alongArgs.graph.stepNumber).Nodup) := by
  refine routePaths_follow_iff MPathAlgoCovAll.detourEdges alongArgs rfl .insertion new (i := 0)
    (r := ⟨["S", "A", "T"], ["enter", "finish"], [some "overall"]⟩) rfl ?_ (by decide) ?_ (by rfl)
  · rintro ⟨c, t, hc, htrim⟩
    obtain ⟨hc, -⟩ := List.cons.inj hc
    obtain rfl := Option.some.inj hc
    revert htrim
    decide
  · have hsome : ∀ name ∈ ["S", "A", "T"],
        (alongArgs.graph.nodeNumMap.lookup name).isSome = true := by decide
    exact fun name hname => Option.isSome_iff_exists.mp (hsome name hname)

/-- `A` leads to `B` by `walk` and to `C` by `ride`; the route leads from `A` to `B` by `ride`. -/
def lureArgs : Args where
  graph := .ofEdges [⟨"A", "B", "walk", 1, 1⟩, ⟨"A", "C", "ride", 2, 1⟩]
  startStateNameList := some ["A"]
  stopStateNameList := some ["B"]
  throughStateNameList := none
  throughStepNameList := none
  routeList := some [⟨["A", "B"], ["ride"], [some "overall"]⟩]

/-- The path found walks. -/
theorem genPath_lured : ∃ ps, (genPath .insertion lureArgs).eval new = some (.ofPaths ps) ∧
    ¬ ∀ p ∈ ps, Route.Follows lureArgs.graph ⟨["A", "B"], ["ride"], [some "overall"]⟩ p := by
  refine ⟨[⟨[0, 1], [1], [1]⟩], by decide +kernel, fun hall => ?_⟩
  have hsteps := (hall _ List.mem_cons_self).steps 1
  obtain ⟨name, hname, hl⟩ := hsteps.mp (by decide)
  obtain rfl := List.mem_singleton.mp hname
  revert hl
  decide

end MPathAlgoCovRoute

end MBT
