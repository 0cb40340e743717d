import MBT.Path.MPathAlgoMag
import MBT.Path.RouteRuns

/-!
# Path — Depth

How deep the recursive searches of the algorithms go.  A call of a search takes one unit of a repeat
time, or one unmarked edge, away from the calls below it, so that the room for one call more than
there are units is enough.

* `ReturnsWithin`: a search within some room ends, and leaves everything but its results as it found it.
* `genPath_no_overflow`: no call of the manager runs out of the room its search is given.
* `search_depth`: both, for each of the eight algorithms.
-/

namespace MBT
open Exec Multigraph MPathAlgo

/-! ### Loops that throw -/

/-- A loop that throws throws in one of its turns. -/
theorem exists_of_run_forM_error {σ ι : Type} {l : List ι} {f : ι → Prog σ PUnit} {s s' : σ} {e : Exn}
    (h : (forM l f).run s = .error e s') : ∃ i ∈ l, ∃ t t', (f i).run t = .error e t' := by
  induction l generalizing s with
  | nil => cases h
  | cons i l ih =>
    rw [List.forM_cons] at h
    cases hi : (f i).run s with
    | ok _ t =>
      rw [Prog.run_bind_ok hi] at h
      obtain ⟨j, hj, hthrows⟩ := ih h
      exact ⟨j, List.mem_cons_of_mem i hj, hthrows⟩
    | error e' t =>
      rw [Prog.run_bind_error hi] at h
      obtain ⟨rfl, -⟩ := EStateM.Result.error.inj h
      exact ⟨i, List.mem_cons_self, s, t, hi⟩

namespace MPathAlgo

variable {ω : Type}

/-- `init` calls nothing that calls itself. -/
theorem init_error {a : Args} (h : a.graph.Wf) {m m' : MPathAlgo ω} {e : Exn}
    (hrun : (init a).run m = .error e m') : e ≠ .stackOverflow := by
  rw [run_init h] at hrun
  obtain ⟨r, -, t, t', hr⟩ := exists_of_run_forM_error hrun
  cases hcov : covNum r.cov with
  | ok c =>
    rw [run_genRoute hcov] at hr
    cases hr
  | error e' =>
    have hthrows : ∃ t'', (genRoute r).run t = .error e' t'' := by
      rw [genRoute, hcov]
      exact ⟨_, rfl⟩
    obtain ⟨t'', hthrows⟩ := hthrows
    rw [hthrows] at hr
    cases hr
    rintro rfl
    -- the errors of `covNum` are those of an empty list and of a missing text
    cases hl : r.cov with
    | nil => rw [hl] at hcov; cases hcov
    | cons x l =>
      rw [hl] at hcov
      cases x with
      | none => cases hcov
      | some c => cases hcov

/-- A search from `s`, in an object as a round finds it, ends within the room for `depth` calls, and
nothing but the results has changed. -/
def ReturnsWithin (a : Args) (search : ℕ → ℤ → ℕ → Prog (MPathAlgo ω) Unit) (depth : ℕ) (s : ℤ)
    (x : PathLists × ω) : Prop :=
  ∀ w l, ∃ y, (search depth s 1).run (((a.ready w l).withOut x).atStart s) =
    .ok ⟨⟩ (((a.ready w l).withOut y).atStart s)

variable {a : Args} {n depth : ℕ} {s : ℤ}

/-- A search with enough room returns. -/
theorem returns_dfs {ok : PathLists × ω → Prop} {record : ℕ → Prog (MPathAlgo ω) Unit}
    {put : Path → PathLists × ω → PathLists × ω} (h : a.graph.Wf)
    (hr : Records a.graph.edgeList.length ok record put) (hs : a.graph.IsNode s)
    (hd : a.graph.repeatSum < depth) {x : PathLists × ω} (hx : ok x) :
    ReturnsWithin a (dfs record) depth s x := by
  intro w l
  exact ⟨_, run_dfs (c := ⟨s, a.graph.budget, fun _ => 0, 1⟩) hr (at_atStart h hs w l x) rfl rfl hx hd⟩

/-- A search with distances and enough room returns. -/
theorem returns_dfsDist {ok : PathLists × Dist ω → Prop} {record : ℕ → Prog (MPathAlgo (Dist ω)) Unit}
    {put : Path → PathLists × Dist ω → PathLists × Dist ω} {closeEnough : ℤ → ℤ → Bool}
    (h : a.graph.Wf) (hr : Records a.graph.edgeList.length ok record put) (hb : BlindToDist ok put)
    (hs : a.graph.IsNode s) (hd : a.graph.repeatSum < depth) {x : PathLists × Dist ω} (hx : ok x)
    (hlen : a.graph.edgeList.length ≤ x.2.stateDistList.length) :
    ReturnsWithin a (dfsDist closeEnough record) depth s x := by
  intro w l
  exact ⟨_, run_dfsDist (c := ⟨s, a.graph.budget, distOf 0 x.2.stateDistList, 1⟩) (M := 0) hr hb
    (at_atStart h hs w l x) rfl rfl rfl rfl hlen hx hd⟩

end MPathAlgo

/-- An overall route without a state throws before it is searched for. -/
theorem MPathAlgoCovRoute.genPath_error {a : Args} (h : a.graph.Wf) (hr : a.CovsNamed) (o : VisitOrder ℤ)
    {m m' : MPathAlgo RouteFields} {e : Exn} (hrun : (genPath o a).run m = .error e m') :
    e ≠ .stackOverflow := by
  have hready : (a.ready m.own a.routes).routeList = a.routes := rfl
  rw [genPath, Prog.run_bind_ok (run_init_routes h hr m), Prog.run_bind_get, hready] at hrun
  rcases run_routes h hr o m.own (le_refl a.routes.length) with ⟨-, w', hok⟩ | ⟨-, ps, w', hthrows⟩
  · rw [Prog.run_bind_ok hok] at hrun
    cases hrun
  · rw [Prog.run_bind_error hthrows] at hrun
    obtain ⟨rfl, -⟩ := EStateM.Result.error.inj hrun
    decide

namespace Algo

/-! ### The searches -/

/-- The recursive methods of the class. -/
def searches : (k : Algo) → List (ℕ → ℤ → ℕ → Prog (MPathAlgo k.Own) Unit)
  | covAll => [MPathAlgoCovAll.dfs]
  | covLong => [MPathAlgoCovLong.dfs]
  | covShort => [MPathAlgoCovShort.dfs]
  | covRepeat => [MPathAlgoCovRepeat.dfs]
  | covShortN2N => [CovN2N.dfs shortest]
  | covLongN2N => [CovN2N.dfs longest]
  | covLeast => [MPathAlgoCovLeast.dfs]
  | covRoute => [MPathAlgoCovRoute.dfsOverall, MPathAlgoCovRoute.dfsPartial]

/-- The room for calls: one more than the repeat times add up to, or than there are edges. -/
def room (k : Algo) (g : MGraph) : ℕ :=
  match k with
  | covRepeat => g.multigraph.edges.length + 1
  | _ => g.repeatSum + 1

/-- The fields of the subclass are those of a round: an entry for each state, and the sets of a
route. -/
def Fits : (k : Algo) → MGraph → k.Own → Prop
  | covAll, _, _ | covRepeat, _, _ | covLeast, _, _ => True
  | covLong, g, w | covShort, g, w => g.edgeList.length ≤ (Dist.stateDistList (ω := Unit) w).length
  | covShortN2N, g, w | covLongN2N, g, w =>
    g.edgeList.length ≤ (Dist.stateDistList (ω := N2N) w).length ∧
      g.edgeList.length ≤ (Dist.own (ω := N2N) w).bestDistList.length
  | covRoute, _, w => ∃ route, MPathAlgoCovRoute.Fields route w

/-- Each search of each algorithm returns, in the room it needs. -/
theorem returnsWithin {k : Algo} {a : Args} (h : a.graph.Wf)
    {search : ℕ → ℤ → ℕ → Prog (MPathAlgo k.Own) Unit}
    (hsearch : search ∈ k.searches) {depth : ℕ} (hd : k.room a.graph ≤ depth) {s : ℤ}
    (hs : a.graph.IsNode s) {x : PathLists × k.Own} (hx : k.Fits a.graph x.2) :
    ReturnsWithin a search depth s x := by
  cases k with
  | covAll =>
    rw [List.mem_singleton.mp hsearch]
    exact returns_dfs h (records_addPath _) hs hd trivial
  | covLong =>
    rw [List.mem_singleton.mp hsearch]
    exact returns_dfsDist h (records_addPath _) CovBest.blindToDist_putPath hs hd trivial hx
  | covShort =>
    rw [List.mem_singleton.mp hsearch]
    exact returns_dfsDist h (records_addPath _) CovBest.blindToDist_putPath hs hd trivial hx
  | covRepeat =>
    rw [List.mem_singleton.mp hsearch]
    intro w l
    have hstands :
        MPathAlgoCovRepeat.Stands a.graph (fun _ => 1) (((a.ready w l).withOut x).atStart s) s 1 :=
      ⟨rfl, a.graph.marks_none, hs, ⟨[], rfl, rfl⟩, rfl, rfl⟩
    exact ⟨_, MPathAlgoCovRepeat.run_dfs (c := ⟨s, fun _ => 1, fun _ => 0, 1⟩) h hstands
      (fun _ => le_rfl) ((MPathAlgoCovRepeat.rank_one _ s).trans_le hd)⟩
  | covShortN2N =>
    rw [List.mem_singleton.mp hsearch]
    exact returns_dfsDist h (CovN2N.records_record shortest _) (CovN2N.blindToDist_put shortest _) hs hd
      hx.2 hx.1
  | covLongN2N =>
    rw [List.mem_singleton.mp hsearch]
    exact returns_dfsDist h (CovN2N.records_record longest _) (CovN2N.blindToDist_put longest _) hs hd
      hx.2 hx.1
  | covLeast =>
    rw [List.mem_singleton.mp hsearch]
    exact returns_dfs h (records_addPath _) hs hd trivial
  | covRoute =>
    obtain ⟨route, hf⟩ := hx
    rcases List.mem_pair.mp hsearch with rfl | rfl
    · intro w l
      exact ⟨_, MPathAlgoCovRoute.run_dfsOverall (c := ⟨s, a.graph.budget, fun _ => 0, 1⟩)
        (at_atStart h hs w l x) rfl rfl (MPathAlgoCovRoute.nonNeg_of_wf h) hf hd⟩
    · exact returns_dfs h (MPathAlgoCovRoute.records_putPartial route _) hs hd hf

/-! ### The calls -/

/-- **No call runs out of its room**, whether it returns or throws. -/
theorem genPath_no_overflow {k : Algo} {a : Args} (h : a.graph.Wf) {m m' : MPathAlgo k.Own}
    (hm : k.Keeps m) (o : VisitOrder ℤ) {e : Exn} (hrun : (k.genPath o a).run m = .error e m') :
    e ≠ .stackOverflow := by
  by_cases hr : a.CovsNamed
  · cases k with
    | covAll =>
      obtain ⟨l, hok⟩ := MPathAlgoCovAll.run_genPath h hr o m
      cases hok.symm.trans hrun
    | covLong =>
      obtain ⟨l, hok⟩ := CovBest.run_genPath h hr hm o
      cases hok.symm.trans hrun
    | covShort =>
      obtain ⟨l, hok⟩ := CovBest.run_genPath h hr hm o
      cases hok.symm.trans hrun
    | covRepeat =>
      obtain ⟨l, hok⟩ := MPathAlgoCovRepeat.run_genPath h hr o m
      cases hok.symm.trans hrun
    | covShortN2N =>
      obtain ⟨left, hm⟩ := hm
      obtain ⟨l, hinit⟩ := run_init_ok h hr m
      obtain ⟨w', left', hok, -⟩ := CovN2N.run_genPath_of_init h hinit hm o
      cases hok.symm.trans hrun
    | covLongN2N =>
      obtain ⟨left, hm⟩ := hm
      obtain ⟨l, hinit⟩ := run_init_ok h hr m
      obtain ⟨w', left', hok, -⟩ := CovN2N.run_genPath_of_init h hinit hm o
      cases hok.symm.trans hrun
    | covLeast =>
      obtain ⟨p, c, hc, hchosen, -⟩ := MPathAlgoCovLeast.exists_chosen
        ((a.paths (MPathAlgoCovAll.covered o a)).map Path.steps)
      obtain ⟨l, hok⟩ := MPathAlgoCovLeast.run_genPath h hr o m hc hchosen
      cases hok.symm.trans hrun
    | covRoute => exact MPathAlgoCovRoute.genPath_error h hr o hrun
  · obtain ⟨e', l, hinit⟩ := run_init_throws h hr m
    have hthrows : ∃ t, (k.genPath o a).run m = .error e' t := by
      cases k with
      | covAll => exact ⟨_, Prog.run_bind_error (Prog.run_bind_error hinit)⟩
      | covLong => exact ⟨_, Prog.run_bind_error (Prog.run_bind_error hinit)⟩
      | covShort => exact ⟨_, Prog.run_bind_error (Prog.run_bind_error hinit)⟩
      | covRepeat => exact ⟨_, Prog.run_bind_error hinit⟩
      | covShortN2N => exact ⟨_, Prog.run_bind_error hinit⟩
      | covLongN2N => exact ⟨_, Prog.run_bind_error hinit⟩
      | covLeast => exact ⟨_, Prog.run_bind_error hinit⟩
      | covRoute => exact ⟨_, Prog.run_bind_error hinit⟩
    obtain ⟨t, hthrows⟩ := hthrows
    obtain ⟨rfl, -⟩ := EStateM.Result.error.inj (hrun.symm.trans hthrows)
    exact init_error h hinit

end Algo

/-- **The depth of the searches.**  After any calls, no call of the manager runs out of room, and each
recursive method of the eight classes, given at least that room, returns from any state of the graph with
nothing but the results changed. -/
theorem MPathAlgoMag.search_depth (cs : List Call) (c : Call) :
    (∀ e m, (c.algo.genPath c.order c.args).run ((manager.afterCalls cs).object c.algo) = .error e m →
      e ≠ .stackOverflow) ∧
    ∀ (k : Algo), ∀ search ∈ k.searches, ∀ depth, k.room c.args.graph ≤ depth →
      ∀ s, c.args.graph.IsNode s → ∀ x : PathLists × k.Own, k.Fits c.args.graph x.2 →
        ReturnsWithin c.args search depth s x := by
  obtain ⟨es, hg⟩ := c.built
  have h : c.args.graph.Wf := hg ▸ MGraph.wf_ofEdges es
  refine ⟨fun e m hrun => Algo.genPath_no_overflow h (keeps_afterCalls cs c.algo) c.order hrun, ?_⟩
  intro k search hsearch depth hd s hs x hx
  exact Algo.returnsWithin h hsearch hd hs hx

end MBT
