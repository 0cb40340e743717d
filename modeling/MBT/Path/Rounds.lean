import MBT.Path.Dfs

/-!
# Path — Rounds

A search from each start state in turn, and the paths it finds.

* `runsFrom`, `found`: the runs from one start state and from all of them, as
  `Multigraph.explore` lists them within the arguments of a call.
* `mem_found`, `nodup_paths`: `found` lists the runs whose moves are allowed, and no path twice.
* `run_round_dfs`, `run_round_dfsDist`: a round puts the paths of `runsFrom` into the results.
* `run_rounds`: where found paths are added to the result map, the rounds add those of `found`.
-/

namespace MBT
open Exec Multigraph

/-! ### The runs within the arguments of a call -/

/-- The path of the run `r` from `s`. -/
def MGraph.pathOf (g : MGraph) (s : ℤ) (r : List (ℤ × ℕ)) : Path := g.extend ⟨[s], [], []⟩ r

namespace Args

/-- A run may end at this state. -/
def stop (a : Args) (s : ℤ) : Bool := (a.graph.stateSet a.stopStateNameList).contains s

/-- No stop state is given. -/
def leaves (a : Args) : Bool := (a.graph.stateSet a.stopStateNameList).size = 0

/-- `r` is a run from the start state `s`. -/
def IsRun (a : Args) (s : ℤ) (r : List (ℤ × ℕ)) : Prop :=
  a.graph.multigraph.IsRun a.graph.budget a.stop a.leaves s r

/-- The runs of a search from a state, where distances may forbid moves. -/
def runsFrom (a : Args) (allow : ℤ → ℤ → Bool) (M s : ℤ) : List (List (ℤ × ℕ)) :=
  (a.graph.multigraph.explore a.stop a.leaves allow).runs (a.graph.repeatSum + 1)
    ⟨s, a.graph.budget, fun _ => M, 1⟩

/-- The start states with the runs from them, in the order of the visits. -/
def found (a : Args) (o : VisitOrder ℤ) (allow : ℤ → ℤ → Bool) (M : ℤ) :
    List (ℤ × List (ℤ × ℕ)) :=
  (o.visit a.starts).flatMap fun s => (a.runsFrom allow M s).map (s, ·)

/-- The paths of some runs. -/
def paths (a : Args) (rs : List (ℤ × List (ℤ × ℕ))) : List Path :=
  rs.map fun x => a.graph.pathOf x.1 x.2

variable {a : Args} {o : VisitOrder ℤ} {allow : ℤ → ℤ → Bool} {M s : ℤ} {r : List (ℤ × ℕ)}

/-- The runs that a search finds. -/
theorem mem_runsFrom : r ∈ a.runsFrom allow M s ↔
    a.IsRun s r ∧ a.graph.multigraph.Allowed allow (fun _ => M) 1 r :=
  mem_explore (c := ⟨s, a.graph.budget, fun _ => M, 1⟩) (Nat.lt_succ_self _)

/-- What the rounds of a call find. -/
theorem mem_found (h : a.graph.Wf) : (s, r) ∈ a.found o allow M ↔
    a.graph.IsStart a.startStateNameList s ∧ a.IsRun s r ∧
      a.graph.multigraph.Allowed allow (fun _ => M) 1 r := by
  simp only [found, List.mem_flatMap, List.mem_map, Prod.mk.injEq, ← mem_starts h,
    ← mem_runsFrom]
  constructor
  · rintro ⟨s, hs, r, hr, rfl, rfl⟩
    exact ⟨(o.mem_visit).mp hs, hr⟩
  · rintro ⟨hs, hr⟩
    exact ⟨s, (o.mem_visit).mpr hs, r, hr, rfl, rfl⟩

/-- No run is found twice. -/
theorem nodup_found : (a.found o allow M).Nodup := by
  refine List.nodup_flatMap.mpr ⟨fun s _ => (nodup_explore _ _).map fun _ _ h => (Prod.mk.inj h).2, ?_⟩
  refine (o.nodup_visit a.starts).imp fun {s s'} hne => ?_
  rintro ⟨t, r⟩ h h'
  obtain ⟨_, -, e⟩ := List.mem_map.mp h
  obtain ⟨_, -, e'⟩ := List.mem_map.mp h'
  exact hne ((Prod.mk.inj e).1.trans (Prod.mk.inj e').1.symm)

/-- In another order of the start states, the same runs are found. -/
theorem found_perm (a : Args) (o o' : VisitOrder ℤ) (allow : ℤ → ℤ → Bool) (M : ℤ) :
    (a.found o allow M).Perm (a.found o' allow M) := (o.visit_perm o' a.starts).flatMap_right _

end Args

namespace MGraph

variable {g : MGraph}

/-- A walk goes along edges. -/
theorem isEdge_of_chained {s : ℤ} {r : List (ℤ × ℕ)} (h : g.multigraph.Chained s r) :
    ∀ p ∈ r, g.IsEdge p := by
  induction r generalizing s with
  | nil => intro p hp; cases hp
  | cons q r ih =>
    obtain ⟨h₁, h₂, h₃⟩ := h
    intro p hp
    rcases List.mem_cons.mp hp with rfl | hp
    · rw [IsEdge, h₁]; exact h₂
    · exact ih h₃ p hp

/-- A run is known by its path. -/
theorem pathOf_inj (h : g.Wf) {s s' : ℤ} {r r' : List (ℤ × ℕ)} (hr : g.multigraph.Chained s r)
    (hr' : g.multigraph.Chained s' r') (e : g.pathOf s r = g.pathOf s' r') : s = s' ∧ r = r' := by
  have e₁ := congrArg Path.states e
  have e₂ := congrArg Path.edges e
  simp only [pathOf, extend, List.singleton_append, List.cons.injEq, List.nil_append] at e₁ e₂
  refine ⟨e₁.1, ?_⟩
  have hE := isEdge_of_chained hr
  have hE' := isEdge_of_chained hr'
  clear e e₁ hr hr'
  induction r generalizing r' with
  | nil => exact (List.map_eq_nil_iff.mp e₂.symm).symm
  | cons p r ih =>
    cases r' with
    | nil => cases e₂
    | cons q r' =>
      simp only [List.map_cons, List.cons.injEq] at e₂
      rw [h.eq_of_edgeNumber (hE p List.mem_cons_self) (hE' q List.mem_cons_self) e₂.1,
        ih e₂.2 (fun p hp => hE p (List.mem_cons_of_mem _ hp))
          fun p hp => hE' p (List.mem_cons_of_mem _ hp)]

end MGraph

namespace Args

variable {a : Args} {o : VisitOrder ℤ} {allow : ℤ → ℤ → Bool} {M : ℤ}

/-- No path is found twice. -/
theorem nodup_paths (h : a.graph.Wf) : (a.paths (a.found o allow M)).Nodup := by
  refine List.Nodup.map_on (fun x hx y hy e => ?_) nodup_found
  obtain ⟨-, hx, -⟩ := (mem_found (s := x.1) (r := x.2) h).mp hx
  obtain ⟨-, hy, -⟩ := (mem_found (s := y.1) (r := y.2) h).mp hy
  obtain ⟨h₁, h₂⟩ := MGraph.pathOf_inj h hx.chained hy.chained e
  exact Prod.ext h₁ h₂

end Args

/-! ### The rounds -/

namespace MPathAlgo

variable {ω : Type}

/-- The search from one start state. -/
def round (dfs : ℤ → ℕ → Prog (MPathAlgo ω) Unit) (stateNumber : ℤ) : Prog (MPathAlgo ω) Unit := do
  addState 0 stateNumber
  dfs stateNumber 1
  removeState 0

/-- The loop over the start states.  No path is longer than the sum of the repeat times, so the
stack has room for the search. -/
def rounds (o : VisitOrder ℤ) (dfs : ℕ → ℤ → ℕ → Prog (MPathAlgo ω) Unit) :
    Prog (MPathAlgo ω) Unit := do
  let m ← get
  forM (o.visit m.startStateNumSet) (round (dfs (m.graph.repeatSum + 1)))

variable {n : ℕ} {ok : PathLists × ω → Prop} {record : ℕ → Prog (MPathAlgo ω) Unit}
  {put : Path → PathLists × ω → PathLists × ω}

/-- The object in which the search from `s` begins. -/
def atStart (m : MPathAlgo ω) (s : ℤ) : MPathAlgo ω := { m with statePath := [s] }

/-- A round begins at its start state. -/
theorem at_atStart {a : Args} (h : a.graph.Wf) {s : ℤ} (hs : a.graph.IsNode s) (w : ω)
    (l : List RouteNums) (x : PathLists × ω) :
    (((a.ready w l).withOut x).atStart s).At s 1 :=
  ⟨h.toAligned, hs, ⟨[], rfl, rfl⟩, rfl, rfl⟩

/-- What a round does, from what its search does. -/
theorem run_round {a : Args} {w : ω} {l : List RouteNums} {x y : PathLists × ω} {s : ℤ}
    {dfs : ℤ → ℕ → Prog (MPathAlgo ω) Unit}
    (h : (dfs s 1).run (((a.ready w l).withOut x).atStart s) =
      .ok ⟨⟩ (((a.ready w l).withOut y).atStart s)) :
    (round dfs s).run ((a.ready w l).withOut x) = .ok ⟨⟩ ((a.ready w l).withOut y) := by
  have hadd : (addState 0 s).run ((a.ready w l).withOut x) =
      .ok ⟨⟩ (((a.ready w l).withOut x).atStart s) := rfl
  rw [round, Prog.run_bind_ok hadd, Prog.run_bind_ok h]
  rfl

/-- A start state is a node. -/
theorem isNode_of_isStart {g : MGraph} (h : g.Wf) {names : Option (List String)} {s : ℤ}
    (hs : g.IsStart names s) : g.IsNode s := by
  unfold MGraph.IsStart at hs
  split at hs
  · exact hs.1
  · obtain ⟨name, -, hl⟩ := hs
    exact h.nodes name s hl

/-- **A round of a search** records the paths of its runs. -/
theorem run_round_dfs {a : Args} (h : a.graph.Wf) (hr : Records a.graph.edgeList.length ok record put)
    {s : ℤ} (hs : a.graph.IsNode s) (w : ω) (l : List RouteNums) {x : PathLists × ω} (hx : ok x) :
    (round (dfs record (a.graph.repeatSum + 1)) s).run ((a.ready w l).withOut x) =
      .ok ⟨⟩ ((a.ready w l).withOut
        (((a.runsFrom (fun _ _ => true) 0 s).map (a.graph.pathOf s)).foldl (fun x p => put p x) x)) := by
  rw [List.foldl_map]
  exact run_round (run_dfs (c := ⟨s, a.graph.budget, fun _ => 0, 1⟩) hr (at_atStart h hs w l x) rfl
    rfl hx (Nat.lt_succ_self _))

/-- **A round with distances** records the paths of its runs, and leaves the distances as they were.
-/
theorem run_round_dfsDist {ω : Type} {ok : PathLists × Dist ω → Prop}
    {record : ℕ → Prog (MPathAlgo (Dist ω)) Unit}
    {put : Path → PathLists × Dist ω → PathLists × Dist ω} {a : Args} (h : a.graph.Wf)
    (hr : Records a.graph.edgeList.length ok record put) (hb : BlindToDist ok put)
    (closeEnough : ℤ → ℤ → Bool) {M s : ℤ} (hs : a.graph.IsNode s) (w : Dist ω)
    (l : List RouteNums) {x : PathLists × Dist ω} (hx : ok x)
    (hlen : a.graph.edgeList.length ≤ x.2.stateDistList.length)
    (hM : ∀ d ∈ x.2.stateDistList, d = M) :
    (round (dfsDist closeEnough record (a.graph.repeatSum + 1)) s).run ((a.ready w l).withOut x) =
      .ok ⟨⟩ ((a.ready w l).withOut
        (((a.runsFrom closeEnough M s).map (a.graph.pathOf s)).foldl (fun x p => put p x) x)) := by
  rw [List.foldl_map]
  exact run_round (run_dfsDist (c := ⟨s, a.graph.budget, fun _ => M, 1⟩) hr hb
    (at_atStart h hs w l x) rfl (distOf_const hM).symm rfl rfl hlen hx (Nat.lt_succ_self _))

/-! ### Adding the paths found to the result map -/

/-- The results with a path added to the result map. -/
def putPath (p : Path) (x : PathLists × ω) : PathLists × ω := (x.1.add p, x.2)

/-- `addPath` records the current path. -/
theorem records_addPath (n : ℕ) :
    Records (ω := ω) n (fun _ => True) (fun _ => addPath) putPath :=
  ⟨fun _ _ _ _ _ _ => rfl, fun _ _ _ => trivial⟩

/-- Paths are recorded in order. -/
theorem foldl_putPath (ps qs : List Path) (w : ω) :
    ps.foldl (fun x p => putPath p x) (.ofPaths qs, w) = (.ofPaths (qs ++ ps), w) := by
  induction ps generalizing qs with
  | nil => simp
  | cons p ps ih => rw [List.foldl_cons, putPath, PathLists.ofPaths_add, ih]; simp

/-- Rounds each of which adds the paths of `runsFrom` add those of `found`. -/
theorem run_rounds {a : Args} {o : VisitOrder ℤ} {allow : ℤ → ℤ → Bool} {M : ℤ}
    {w : ω} {l : List RouteNums} {dfs : ℕ → ℤ → ℕ → Prog (MPathAlgo ω) Unit} (h : a.graph.Wf)
    (hround : ∀ s, a.graph.IsNode s → ∀ ps,
      (round (dfs (a.graph.repeatSum + 1)) s).run ((a.ready w l).withOut (.ofPaths ps, w)) =
        .ok ⟨⟩ ((a.ready w l).withOut (((a.runsFrom allow M s).map (a.graph.pathOf s)).foldl
          (fun x p => putPath p x) (.ofPaths ps, w)))) :
    (rounds o dfs).run (a.ready w l) =
      .ok ⟨⟩ ((a.ready w l).withOut (.ofPaths (a.paths (a.found o allow M)), w)) := by
  refine Prog.run_forM (σ := MPathAlgo ω) (fun p => (a.ready w l).withOut
    (.ofPaths (a.paths (p.flatMap fun s => (a.runsFrom allow M s).map (s, ·))), w))
    fun p s q hp => ?_
  have hs : s ∈ o.visit a.starts := by
    rw [show o.visit a.starts = p ++ s :: q from hp]
    exact List.mem_append_right p List.mem_cons_self
  refine (hround s (isNode_of_isStart h ((Args.mem_starts h).mp (o.mem_visit.mp hs))) _).trans ?_
  rw [foldl_putPath]
  simp [Args.paths, Function.comp_def]

/-- The two filters, after the rounds. -/
theorem run_filters {α : Type} (a : Args) (w w' : ω) (l : List RouteNums) (ps : List Path)
    (next : Prog (MPathAlgo ω) α) :
    (do delPathWithoutThroughState; delPathWithoutThroughStep; next).run
        ((a.ready w l).withOut (.ofPaths ps, w')) =
      next.run ((a.ready w l).withOut (.ofPaths (ps.filter (passes a)), w')) := by
  have hstate : delPathWithoutThroughState.run ((a.ready w l).withOut (.ofPaths ps, w')) =
      .ok ⟨⟩ ((a.ready w l).withOut (.ofPaths (ps.filter fun p =>
        meets (a.graph.stateSet a.throughStateNameList) p.states), w')) := by
    simp only [delPathWithoutThroughState, EStateM.run_modify, withOut, Args.ready,
      delPathWithout_ofPaths _ PathLists.statePath (fun _ => rfl)]
  have hstep : ∀ ps, delPathWithoutThroughStep.run ((a.ready w l).withOut (.ofPaths ps, w')) =
      .ok ⟨⟩ ((a.ready w l).withOut (.ofPaths (ps.filter fun p =>
        meets (a.graph.stepSet a.throughStepNameList) p.steps), w')) := fun ps => by
    simp only [delPathWithoutThroughStep, EStateM.run_modify, withOut, Args.ready,
      delPathWithout_ofPaths _ PathLists.stepPath (fun _ => rfl)]
  have hboth : (fun p : Path => meets (a.graph.stepSet a.throughStepNameList) p.steps &&
      meets (a.graph.stateSet a.throughStateNameList) p.states) = passes a :=
    funext fun _ => Bool.and_comm _ _
  rw [Prog.run_bind_ok hstate, Prog.run_bind_ok (hstep _), List.filter_filter, hboth]

end MPathAlgo

end MBT
