import MBT.Path.MPathAlgoMag
import MBT.Path.OverallRoutes
import MBT.Path.LeastPaths

/-!
# Path — RealPaths

What the algorithms leave of the graph, and what their paths are.

* `genPath_restores`: where `genPath` returns, it has taken back every mark in the graph and every
  element of its path.
* `genPath_isPath`: the paths of all algorithms but `repeat` are walks of the graph within the repeat
  times; they lead from a start state to the first stop state, or along their overall route.
-/

namespace MBT
open Exec Multigraph MPathAlgo

/-! ### Paths of the graph -/

namespace Args

/-- The path goes along edges of the graph, none of them more often than its repeat time says. -/
structure IsPath (a : Args) (p : Path) : Prop where
  states : p.states.length = p.edges.length + 1
  steps : p.steps.length = p.edges.length
  edges : ∀ i < p.edges.length, ∃ q, a.graph.IsEdge q ∧ p.states[i]? = some q.1 ∧
    p.states[i + 1]? = some (a.graph.multigraph.dst q) ∧
    p.edges[i]? = some (a.graph.edgeNumber q) ∧ p.steps[i]? = some (a.graph.stepNumber q)
  within : ∀ q, a.graph.IsEdge q → p.edges.count (a.graph.edgeNumber q) ≤ a.graph.budget q

/-- The path begins in a start state, and, where a stop state is given, ends in the first one it
meets. -/
structure FromTo (a : Args) (p : Path) : Prop where
  start : ∃ s, p.states.head? = some s ∧ a.graph.IsStart a.startStateNameList s
  stop : (∃ n, a.graph.IsNamed a.stopStateNameList n) →
    (∃ n, p.states.getLast? = some n ∧ a.graph.IsNamed a.stopStateNameList n) ∧
      ∀ n ∈ p.states.dropLast, ¬ a.graph.IsNamed a.stopStateNameList n

/-- The path is that of a run. -/
def Found (a : Args) (p : Path) : Prop :=
  ∃ s r, a.graph.IsStart a.startStateNameList s ∧ a.IsRun s r ∧ a.graph.pathOf s r = p

variable {a : Args} {s : ℤ} {r : List (ℤ × ℕ)}

/-- The state at an index is where the edges before lead. -/
theorem getElem?_states (g : MGraph) {i : ℕ} (hi : i ≤ r.length) :
    (g.pathOf s r).states[i]? = some (g.multigraph.dest s (r.take i)) := by
  cases i with
  | zero => rfl
  | succ i =>
    rw [List.take_succ_eq_append_getElem hi, dest_append]
    change (s :: r.map g.multigraph.dst)[i + 1]? = _
    rw [List.getElem?_cons_succ, List.getElem?_map, List.getElem?_eq_getElem hi]
    rfl

/-- A run within the budgets is a path of the graph. -/
theorem isPath_pathOf (h : a.graph.Wf) (hc : a.graph.multigraph.Chained s r)
    (hb : ∀ q, r.count q ≤ a.graph.budget q) : a.IsPath (a.graph.pathOf s r) where
  states := by simp [MGraph.pathOf, MGraph.extend]
  steps := by simp [MGraph.pathOf, MGraph.extend]
  edges i hi := by
    have hi' : i < r.length := by simpa [MGraph.pathOf, MGraph.extend] using hi
    have hsplit : r = r.take i ++ r[i] :: r.drop (i + 1) := by
      rw [← List.drop_eq_getElem_cons hi', List.take_append_drop]
    have hstart : r[i].1 = a.graph.multigraph.dest s (r.take i) := by
      rw [hsplit] at hc
      exact (a.graph.multigraph.chained_append.mp hc).2.1
    refine ⟨r[i], MGraph.isEdge_of_chained hc _ (List.getElem_mem hi'), ?_, ?_, ?_, ?_⟩
    · rw [getElem?_states _ hi'.le, hstart]
    · rw [getElem?_states _ hi', List.take_succ_eq_append_getElem hi', dest_append]
      rfl
    · simp [MGraph.pathOf, MGraph.extend, hi']
    · simp [MGraph.pathOf, MGraph.extend, hi']
  within q hq := by
    have hcount : (r.map a.graph.edgeNumber).count (a.graph.edgeNumber q) = r.count q := by
      rw [List.count, List.countP_map, List.count]
      refine List.countP_congr fun p hp => ?_
      rw [Function.comp_apply, beq_iff_eq, beq_iff_eq]
      exact ⟨h.eq_of_edgeNumber (MGraph.isEdge_of_chained hc p hp) hq, fun e => e ▸ rfl⟩
    change ([] ++ r.map a.graph.edgeNumber).count (a.graph.edgeNumber q) ≤ _
    rw [List.nil_append, hcount]
    exact hb q

/-- What a search finds is a path of the graph. -/
theorem Found.isPath (h : a.graph.Wf) {p : Path} (hp : a.Found p) : a.IsPath p := by
  obtain ⟨s, r, -, hr, rfl⟩ := hp
  exact isPath_pathOf h hr.chained hr.within

/-- What a search finds leads from a start state to where it may end. -/
theorem Found.fromTo (h : a.graph.Wf) {p : Path} (hp : a.Found p) : a.FromTo p := by
  obtain ⟨s, r, hs, hr, rfl⟩ := hp
  refine ⟨⟨s, rfl, hs⟩, fun hstop => ⟨⟨a.graph.multigraph.dest s r, ?_, ?_⟩, fun n hn => ?_⟩⟩
  · rw [dest_eq_getLast]
    exact List.getLast?_eq_some_getLast (List.cons_ne_nil _ _)
  · rcases hr.ends with he | ⟨hl, -⟩
    · exact (stop_iff h).mp he
    · exact absurd hstop (fun ⟨n, hn⟩ => (leaves_iff h).mp hl n hn)
  · obtain ⟨i, hi⟩ := List.mem_iff_getElem?.mp hn
    have hlt : i < r.length := by
      have := (List.getElem?_eq_some_iff.mp hi).1
      simpa [MGraph.pathOf, MGraph.extend] using this
    rw [List.getElem?_dropLast, if_pos (by simpa [MGraph.pathOf, MGraph.extend] using hlt),
      getElem?_states _ hlt.le] at hi
    rw [← Option.some.inj hi, ← stop_iff h, hr.passes _ (List.take_prefix i r) fun e => ?_]
    · exact Bool.false_ne_true
    · have := congrArg List.length e
      rw [List.length_take] at this
      omega

end Args

/-! ### What a call returns and leaves -/

namespace Algo

variable {k : Algo} {a : Args} {o : VisitOrder ℤ} {m m' : MPathAlgo k.Own} {lists : PathLists}

/-- A call that returns has all coverages given. -/
theorem covsNamed_of_run (h : a.graph.Wf) (hrun : (k.genPath o a).run m = .ok lists m') :
    a.CovsNamed := by
  by_contra hr
  obtain ⟨e, l, hinit⟩ := run_init_throws h hr m
  have herror : ∃ e' m'', (k.genPath o a).run m = .error e' m'' := by
    cases k with
    | covAll => exact ⟨_, _, Prog.run_bind_error (Prog.run_bind_error hinit)⟩
    | covLong => exact ⟨_, _, Prog.run_bind_error (Prog.run_bind_error hinit)⟩
    | covShort => exact ⟨_, _, Prog.run_bind_error (Prog.run_bind_error hinit)⟩
    | covRepeat => exact ⟨_, _, Prog.run_bind_error hinit⟩
    | covShortN2N => exact ⟨_, _, Prog.run_bind_error hinit⟩
    | covLongN2N => exact ⟨_, _, Prog.run_bind_error hinit⟩
    | covLeast => exact ⟨_, _, Prog.run_bind_error hinit⟩
    | covRoute => exact ⟨_, _, Prog.run_bind_error hinit⟩
  obtain ⟨e', m'', herror⟩ := herror
  rw [herror] at hrun
  cases hrun

/-- A call that returns leaves the object as `init` makes it, with the result in it. -/
theorem ready_of_run (h : a.graph.Wf) (hm : k.Keeps m)
    (hrun : (k.genPath o a).run m = .ok lists m') :
    ∃ l w w', m' = (a.ready w l).withOut (lists, w') := by
  have hr := covsNamed_of_run h hrun
  obtain ⟨l, hinit⟩ := run_init_ok h hr m
  have hready : ∃ ps l w w', (k.genPath o a).run m =
      .ok ps ((a.ready w l).withOut (ps, w')) := by
    cases k with
    | covAll =>
      obtain ⟨l, hall⟩ := MPathAlgoCovAll.run_genPath h hr o m
      exact ⟨_, l, _, _, hall⟩
    | covLong => exact ⟨_, l, _, _, CovBest.run_genPath_of_init h hinit hm o⟩
    | covShort => exact ⟨_, l, _, _, CovBest.run_genPath_of_init h hinit hm o⟩
    | covRepeat =>
      obtain ⟨l, hrepeat⟩ := MPathAlgoCovRepeat.run_genPath h hr o m
      exact ⟨_, l, _, _, hrepeat⟩
    | covShortN2N =>
      obtain ⟨left, hm⟩ := hm
      obtain ⟨w', -, hn2n, -⟩ := CovN2N.run_genPath_of_init h hinit hm o
      exact ⟨_, l, _, w', hn2n⟩
    | covLongN2N =>
      obtain ⟨left, hm⟩ := hm
      obtain ⟨w', -, hn2n, -⟩ := CovN2N.run_genPath_of_init h hinit hm o
      exact ⟨_, l, _, w', hn2n⟩
    | covLeast =>
      obtain ⟨p, c, hc, hchosen, -⟩ := MPathAlgoCovLeast.exists_chosen
        ((a.paths (MPathAlgoCovAll.covered o a)).map Path.steps)
      obtain ⟨l, hleast⟩ := MPathAlgoCovLeast.run_genPath h hr o m hc hchosen
      exact ⟨_, l, _, _, hleast⟩
    | covRoute =>
      by_cases hs : ∀ route ∈ a.routes, MPathAlgoCovRoute.Sought route
      · obtain ⟨w', hroute⟩ := MPathAlgoCovRoute.run_genPath h hr o hs m
        exact ⟨_, a.routes, _, w', hroute⟩
      · obtain ⟨e, m'', herror⟩ := MPathAlgoCovRoute.run_genPath_throws h o (fun hall => hs hall.2) m
        rw [show (covRoute.genPath o a).run m = _ from herror] at hrun
        cases hrun
  obtain ⟨ps, l, w, w', hready⟩ := hready
  rw [hready] at hrun
  cases hrun
  exact ⟨l, w, w', rfl⟩

end Algo

namespace MPathAlgoMag

/-- **`genPath` restores.**  After any sequence of calls, a call that returns leaves the graph, with
its five adjacency lists, as it was, and the path of the object empty. -/
theorem genPath_restores (cs : List Call) (es : List EdgeCall) (a : Args)
    (hg : a.graph = .ofEdges es) (k : Algo) (o : VisitOrder ℤ) {lists : PathLists}
    {m' : MPathAlgo k.Own}
    (hrun : (k.genPath o a).run ((manager.afterCalls cs).object k) = .ok lists m') :
    m'.graph = a.graph ∧ m'.statePath = [] ∧ m'.edgePath = [] ∧ m'.stepPath = [] := by
  have h : a.graph.Wf := hg ▸ MGraph.wf_ofEdges es
  obtain ⟨l, w, w', rfl⟩ := Algo.ready_of_run h (keeps_afterCalls cs k) hrun
  exact ⟨rfl, rfl, rfl, rfl⟩

theorem genPath_restores_line : ∃ lists m',
    (Algo.covRepeat.genPath .insertion (lineArgs "C")).run
      ((manager.afterCalls [lineCall "repeat" "B"]).object .covRepeat) = .ok lists m' ∧
    m'.graph = (lineArgs "C").graph ∧ m'.statePath = [] ∧ m'.edgePath = [] ∧ m'.stepPath = [] := by
  have h : (lineArgs "C").graph.Wf := MGraph.wf_ofEdges _
  obtain ⟨l, hrun⟩ := MPathAlgoCovRepeat.run_genPath h (fun _ h => nomatch h) .insertion
    ((manager.afterCalls [lineCall "repeat" "B"]).object .covRepeat)
  exact ⟨_, _, hrun, genPath_restores [lineCall "repeat" "B"] _ (lineArgs "C") rfl .covRepeat
    .insertion hrun⟩

end MPathAlgoMag

/-! ### What a new object returns -/

namespace Args

variable {a : Args} {o : VisitOrder ℤ} {R : Ranking ℤ} {p : Path}

/-- A covered run is found. -/
theorem Covered.found (h : a.graph.Wf) {s : ℤ} {r : List (ℤ × ℕ)} (hr : a.Covered s r) :
    a.Found (a.graph.pathOf s r) := by
  obtain ⟨hs, hrun, -⟩ := (covered_iff h).mp hr
  exact ⟨s, r, hs, hrun, rfl⟩

/-- The paths of `MPathAlgoCovAll` are found. -/
theorem found_of_mem_covered (h : a.graph.Wf)
    (hp : p ∈ a.paths (MPathAlgoCovAll.covered o a)) : a.Found p := by
  obtain ⟨⟨s, r⟩, hr, rfl⟩ := List.mem_map.mp hp
  exact ((MPathAlgoCovAll.mem_covered h).mp hr).found h

/-- The paths of the best algorithms are found. -/
theorem found_of_mem_result (h : a.graph.Wf) (hp : p ∈ CovBest.result R o a) : a.Found p := by
  obtain ⟨s, r, ⟨hr, -⟩, rfl⟩ := (CovBest.mem_result h).mp hp
  exact hr.1.found h

/-- The paths of a new N2N object are found. -/
theorem found_of_mem_carried (h : a.graph.Wf) (hp : p ∈ CovN2N.carried R o a []) : a.Found p := by
  rcases Carry.mem_of_mem_carry hp with hp | ⟨s, hs, hp⟩
  · cases hp
  · obtain ⟨r, hr, rfl⟩ := List.mem_map.mp hp
    exact ⟨s, r, (mem_starts h).mp (o.mem_visit.mp hs), (mem_runsFrom.mp hr).1, rfl⟩

end Args

namespace MPathAlgoCovRoute

/-- What a path of the route is. -/
def IsOfRoute (a : Args) (r : Route) (p : Path) : Prop :=
  a.IsPath p ∧ (r.IsPartial → a.FromTo p) ∧
    (¬ r.IsPartial → p.states.head? = (r.nums a.graph).state.head? ∧
      p.states.getLast? = (r.nums a.graph).state.getLast?)

/-- The paths of a route are of this route. -/
theorem isOfRoute_of_mem_block {a : Args} (h : a.graph.Wf) (o : VisitOrder ℤ) {r : Route}
    (hr : ∃ c, r.cov.head? = some (some c)) (hs : Sought (r.nums a.graph)) :
    ∀ p ∈ block o a (r.nums a.graph), IsOfRoute a r p := by
  intro p hp
  by_cases hpartial : r.IsPartial
  · rw [block_of_isPartial hpartial, mem_partialBlock h] at hp
    obtain ⟨⟨s, w, hw, rfl⟩, -⟩ := hp
    obtain ⟨hstart, hrun⟩ := (covered_plain_iff h).mp hw
    have hfound : a.Found (a.graph.pathOf s w) := ⟨s, w, hstart, hrun, rfl⟩
    exact ⟨hfound.isPath h, fun _ => hfound.fromTo h, fun hnot => absurd hpartial hnot⟩
  · obtain ⟨c, hc⟩ := hr
    obtain ⟨l, hl⟩ := List.head?_eq_some_iff.mp hc
    have hcov := Route.cov_nums_of_not (g := a.graph) hl hpartial
    have hne := hs hcov
    have hfirst := List.head?_eq_some_head hne
    have hlast := List.getLast?_eq_some_getLast hne
    generalize (r.nums a.graph).state.head hne = s at hfirst
    generalize (r.nums a.graph).state.getLast hne = t at hlast
    rw [block, if_pos hcov, List.headD_eq_head?_getD, List.getLastD_eq_getLast?, hfirst, hlast,
      Option.getD_some, Option.getD_some, mem_overallBlock h] at hp
    obtain ⟨w, hw, rfl⟩ := hp
    refine ⟨Args.isPath_pathOf h hw.chained hw.within, fun hpartial' => absurd hpartial' hpartial,
      fun _ => ⟨hfirst.symm, ?_⟩⟩
    rw [hlast, ← hw.ends]
    exact CovN2N.getLast?_pathOf a.graph s w

end MPathAlgoCovRoute

namespace Algo

/-- **The paths are real.**  What a new object of any class but `MPathAlgoCovRepeat` returns are the
states, edges and steps of walks in the graph within the repeat times.  They lead from a start state
to the first stop state; those of an overall route lead from its first state to its last. -/
theorem genPath_isPath (es : List EdgeCall) (a : Args) (hg : a.graph = .ofEdges es) (k : Algo)
    (hk : k ≠ .covRepeat) (o : VisitOrder ℤ) {lists : PathLists}
    (heval : (k.genPath o a).eval k.new = some lists) :
    ∃ ps, lists = .ofPaths ps ∧ (∀ p ∈ ps, a.IsPath p) ∧
      (k ≠ .covRoute → ∀ p ∈ ps, a.FromTo p) ∧
      (k = .covRoute → ∃ blocks, ps = blocks.flatten ∧
        List.Forall₂ (fun r block => ∀ p ∈ block, (r.IsPartial → a.FromTo p) ∧
          (¬ r.IsPartial → p.states.head? = (r.nums a.graph).state.head? ∧
            p.states.getLast? = (r.nums a.graph).state.getLast?))
          (a.routeList.getD []) blocks) := by
  have h : a.graph.Wf := hg ▸ MGraph.wf_ofEdges es
  obtain ⟨m', hrun⟩ : ∃ m', (k.genPath o a).run k.new = .ok lists m' := by
    unfold Prog.eval at heval
    split at heval
    · rename_i ps m' hrun
      obtain rfl := Option.some.inj heval
      exact ⟨m', hrun⟩
    · cases heval
  have hr := covsNamed_of_run h hrun
  have hfound : ∀ ps : List Path, (k.genPath o a).eval k.new = some (.ofPaths ps) →
      k ≠ .covRoute → (∀ p ∈ ps, a.Found p) → ∃ ps, lists = .ofPaths ps ∧
        (∀ p ∈ ps, a.IsPath p) ∧ (k ≠ .covRoute → ∀ p ∈ ps, a.FromTo p) ∧
        (k = .covRoute → ∃ blocks, ps = blocks.flatten ∧
          List.Forall₂ (fun r block => ∀ p ∈ block, (r.IsPartial → a.FromTo p) ∧
            (¬ r.IsPartial → p.states.head? = (r.nums a.graph).state.head? ∧
              p.states.getLast? = (r.nums a.graph).state.getLast?))
            (a.routeList.getD []) blocks) := by
    intro ps heval' hne hall
    exact ⟨ps, Option.some.inj (heval.symm.trans heval'), fun p hp => (hall p hp).isPath h,
      fun _ p hp => (hall p hp).fromTo h, fun e => absurd e hne⟩
  have hinit : ∀ {ω : Type} (m : MPathAlgo ω), ∃ l, (init a).run m = .ok ⟨⟩ (a.ready m.own l) :=
    fun m => run_init_ok h hr m
  cases k with
  | covAll =>
    obtain ⟨l, hall⟩ := MPathAlgoCovAll.run_genPath h hr o MPathAlgoCovAll.new
    exact hfound _ (Prog.eval_ok hall) nofun fun p hp => Args.found_of_mem_covered h hp
  | covLong =>
    obtain ⟨l, hlong⟩ := CovBest.run_genPath h hr (CovBest.idle_new (R := longest)) o
    exact hfound _ (Prog.eval_ok hlong) nofun fun p hp => Args.found_of_mem_result h hp
  | covShort =>
    obtain ⟨l, hshort⟩ := CovBest.run_genPath h hr (CovBest.idle_new (R := shortest)) o
    exact hfound _ (Prog.eval_ok hshort) nofun fun p hp => Args.found_of_mem_result h hp
  | covRepeat => exact absurd rfl hk
  | covShortN2N =>
    obtain ⟨l, hl⟩ := hinit CovN2N.new
    obtain ⟨w', -, hn2n, -⟩ := CovN2N.run_genPath_of_init h hl (CovN2N.sound_new (R := shortest)) o
    exact hfound _ (Prog.eval_ok hn2n) nofun fun p hp =>
      Args.found_of_mem_carried h (List.mem_of_mem_filter hp)
  | covLongN2N =>
    obtain ⟨l, hl⟩ := hinit CovN2N.new
    obtain ⟨w', -, hn2n, -⟩ := CovN2N.run_genPath_of_init h hl (CovN2N.sound_new (R := longest)) o
    exact hfound _ (Prog.eval_ok hn2n) nofun fun p hp =>
      Args.found_of_mem_carried h (List.mem_of_mem_filter hp)
  | covLeast =>
    obtain ⟨all, p, c, -, hall, hleast, -⟩ := MPathAlgoCovLeast.exists_run h hr o
    obtain ⟨l, hrun⟩ := MPathAlgoCovAll.run_genPath h hr o MPathAlgoCovAll.new
    rw [Prog.eval_ok hrun] at hall
    obtain rfl := PathLists.ofPaths_injective (Option.some.inj hall)
    exact hfound _ hleast nofun fun q hq =>
      Args.found_of_mem_covered h (List.mem_of_mem_filter hq)
  | covRoute =>
    have hs : ∀ route ∈ a.routes, MPathAlgoCovRoute.Sought route := by
      by_contra hs
      obtain ⟨e, m'', herror⟩ := MPathAlgoCovRoute.run_genPath_throws h o (fun hall => hs hall.2)
        MPathAlgoCovRoute.new
      rw [show (covRoute.genPath o a).run covRoute.new = _ from herror] at hrun
      cases hrun
    obtain ⟨w', hroute⟩ := MPathAlgoCovRoute.run_genPath h hr o hs MPathAlgoCovRoute.new
    have hblock : ∀ r ∈ a.routeList.getD [],
        ∀ p ∈ MPathAlgoCovRoute.block o a (r.nums a.graph), MPathAlgoCovRoute.IsOfRoute a r p :=
      fun r hmem => MPathAlgoCovRoute.isOfRoute_of_mem_block h o (hr r hmem)
        (hs _ (List.mem_map_of_mem hmem))
    refine ⟨a.routes.flatMap (MPathAlgoCovRoute.block o a),
      Option.some.inj (heval.symm.trans (Prog.eval_ok hroute)), fun p hp => ?_,
      fun hne => absurd rfl hne, fun _ => ⟨a.routes.map (MPathAlgoCovRoute.block o a),
        List.flatMap_def .., ?_⟩⟩
    · obtain ⟨route, hroute, hp⟩ := List.mem_flatMap.mp hp
      obtain ⟨r, hmem, rfl⟩ := List.mem_map.mp hroute
      exact (hblock r hmem p hp).1
    · rw [Args.routes, List.map_map, List.forall₂_map_right_iff, List.forall₂_same]
      exact fun r hmem p hp => (hblock r hmem p hp).2

theorem genPath_isPath_along :
    ∃ ps, (.ofPaths [⟨[0, 1, 3], [1, 4], [1, 4]⟩] : PathLists) = .ofPaths ps ∧
      (∀ p ∈ ps, MPathAlgoCovRoute.alongArgs.IsPath p) ∧
      (Algo.covRoute ≠ .covRoute → ∀ p ∈ ps, MPathAlgoCovRoute.alongArgs.FromTo p) ∧
      (Algo.covRoute = .covRoute → ∃ blocks, ps = blocks.flatten ∧
        List.Forall₂ (fun r block => ∀ p ∈ block,
          (r.IsPartial → MPathAlgoCovRoute.alongArgs.FromTo p) ∧
          (¬ r.IsPartial →
            p.states.head? = (r.nums MPathAlgoCovRoute.alongArgs.graph).state.head? ∧
            p.states.getLast? = (r.nums MPathAlgoCovRoute.alongArgs.graph).state.getLast?))
          (MPathAlgoCovRoute.alongArgs.routeList.getD []) blocks) :=
  genPath_isPath MPathAlgoCovAll.detourEdges MPathAlgoCovRoute.alongArgs rfl .covRoute nofun
    .insertion (by decide +kernel)

end Algo

end MBT
