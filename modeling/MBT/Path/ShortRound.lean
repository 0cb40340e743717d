import MBT.Path.Pairs

/-!
# Path — ShortRound

One round of `MPathAlgoCovShortN2N`: the search from a start state, then `deleteLongPath`, with any
paths in the temporary lists before it.

* `exec_deletePaths`: the deletion judges the entries of the round first.  Whatever it meets in what
  was left before, and if it throws there, these are settled by then.
* `searchRound_shortest`: among the entries of the round stay the shortest of CovAll's paths from the
  start state to each stop state.
-/

namespace MBT
open Exec Multigraph MPathAlgo

namespace CovN2N

variable {R : Ranking ℤ} {a : Args} {s : ℤ} {m : MPathAlgo (Dist N2N)} {x : PathLists}
  {d b : List ℤ}

/-! ### The deletion -/

/-- A turn removes the path at its index, or it keeps or cannot judge it. -/
theorem exec_deleteAt (i : ℕ) (tmp : List Path) :
    (deleteAt R i).exec (m.withOut (x, ⟨d, ⟨b, .ofPaths tmp⟩⟩)) =
        m.withOut (x, ⟨d, ⟨b, .ofPaths tmp⟩⟩) ∨
      (deleteAt R i).exec (m.withOut (x, ⟨d, ⟨b, .ofPaths tmp⟩⟩)) =
        m.withOut (x, ⟨d, ⟨b, .ofPaths (tmp.eraseIdx i)⟩⟩) := by
  rw [← PathLists.ofPaths_removeAt]
  generalize PathLists.ofPaths tmp = lists
  have hkept : ∀ m', m' = m.withOut (x, ⟨d, ⟨b, lists⟩⟩) →
      m' = m.withOut (x, ⟨d, ⟨b, lists⟩⟩) ∨
        m' = m.withOut (x, ⟨d, ⟨b, lists.removeAt i⟩⟩) := fun m' => .inl
  refine Prog.exec_lift_bind (P := fun m' => m' = _ ∨ m' = _) (hkept _ rfl) fun path _ => ?_
  refine Prog.exec_lift_bind (P := fun m' => m' = _ ∨ m' = _) (hkept _ rfl) fun n _ => ?_
  refine Prog.exec_lift_bind (P := fun m' => m' = _ ∨ m' = _) (hkept _ rfl) fun dist _ => ?_
  split
  · exact .inr rfl
  · exact .inl rfl

/-- The turns at what was left do not touch the entries after it. -/
theorem exec_deleteLeft (new : List Path) (k : ℕ) (left : List Path) (hk : k ≤ left.length) :
    ∃ left', left'.Sublist left ∧ (forM (List.range k).reverse (deleteAt R)).exec
        (m.withOut (x, ⟨d, ⟨b, .ofPaths (left ++ new)⟩⟩)) =
      m.withOut (x, ⟨d, ⟨b, .ofPaths (left' ++ new)⟩⟩) := by
  induction k generalizing left with
  | zero => exact ⟨left, .refl _, rfl⟩
  | succ k ih =>
    rw [List.range_succ, List.reverse_append, List.reverse_singleton, List.singleton_append,
      List.forM_cons]
    have hturn : ∃ left', left'.Sublist left ∧ k ≤ left'.length ∧
        (deleteAt R k).exec (m.withOut (x, ⟨d, ⟨b, .ofPaths (left ++ new)⟩⟩)) =
          m.withOut (x, ⟨d, ⟨b, .ofPaths (left' ++ new)⟩⟩) := by
      rcases exec_deleteAt (R := R) (m := m) (x := x) (d := d) (b := b) k (left ++ new)
        with e | e
      · exact ⟨left, .refl _, by omega, e⟩
      · refine ⟨left.eraseIdx k, List.eraseIdx_sublist .., ?_, ?_⟩
        · rw [List.length_eraseIdx_of_lt hk]; omega
        · rw [e, List.eraseIdx_append_of_lt_length hk]
    obtain ⟨left₁, hsub, hlen, hexec⟩ := hturn
    cases hrun : (deleteAt R k).run (m.withOut (x, ⟨d, ⟨b, .ofPaths (left ++ new)⟩⟩)) with
    | ok u m' =>
      obtain ⟨left₂, hsub', hexec'⟩ := ih left₁ hlen
      rw [Prog.exec_bind_ok hrun, ← Prog.exec_ok hrun, hexec]
      exact ⟨left₂, hsub'.trans hsub, hexec'⟩
    | error e m' =>
      rw [Prog.exec_bind_error hrun, ← Prog.exec_error hrun, hexec]
      exact ⟨left₁, hsub, rfl⟩

/-- **The deletion** judges the new entries, and then what was left. -/
theorem exec_deletePaths {new : List Path} (hnew : ∀ p ∈ new, Ends b.length p)
    (left : List Path) :
    ∃ left', left'.Sublist left ∧
      (deletePaths R).exec (m.withOut (x, ⟨d, ⟨b, .ofPaths (left ++ new)⟩⟩)) =
        m.withOut (x, ⟨d, ⟨b, .ofPaths
          (left' ++ new.filter fun p => R.le (size p) (distOf R.worst b (last p)))⟩⟩) := by
  have hnewer : (forM (List.range new.length).reverse fun i => deleteAt R (left.length + i)).run
      (m.withOut (x, ⟨d, ⟨b, .ofPaths (left ++ new)⟩⟩)) = .ok ⟨⟩ (m.withOut (x, ⟨d, ⟨b, .ofPaths
        (left ++ new.filter fun p => R.le (size p) (distOf R.worst b (last p)))⟩⟩)) := by
    refine run_eraseBack (fun l => m.withOut (x, ⟨d, ⟨b, .ofPaths (left ++ l)⟩⟩))
      fun p q qs t e => ?_
    have hturn : (deleteAt R (left ++ p).length).run
        (m.withOut (x, ⟨d, ⟨b, .ofPaths (left ++ p ++ q :: t)⟩⟩)) = _ :=
      run_deleteAt (hnew q (e ▸ List.mem_append_right p List.mem_cons_self))
    rw [List.length_append] at hturn
    rw [← List.append_assoc, hturn, apply_ite (left ++ ·), List.append_assoc, List.append_assoc]
  obtain ⟨left', hsub, hexec⟩ := exec_deleteLeft (R := R) (m := m) (x := x) (d := d) (b := b)
    (new.filter fun p => R.le (size p) (distOf R.worst b (last p))) left.length left le_rfl
  refine ⟨left', hsub, ?_⟩
  have hsize : (m.withOut (x, ⟨d, ⟨b, .ofPaths (left ++ new)⟩⟩)).own.own.tmpPathLists.size =
      left.length + new.length := (PathLists.size_ofPaths _).trans List.length_append
  rw [deletePaths, Prog.exec, Prog.run_bind_get, hsize, List.range_add, List.reverse_append,
    ← List.map_reverse, List.forM_append, List.forM_map, Prog.run_bind_ok hnewer]
  exact hexec

/-! ### The round -/

/-- What a round offers is added to what was left. -/
theorem run_search {R : Ranking ℤ} (h : a.graph.Wf) {l : List RouteNums} {w : Dist N2N}
    {sd dl : List ℤ}
    (hs : a.graph.IsNode s) (hsd : a.graph.edgeList.length ≤ sd.length) (hM : ∀ d ∈ sd, d = R.worst)
    (hdl : a.graph.edgeList.length ≤ dl.length) (hB : ∀ d ∈ dl, d = R.worst) (left : List Path) :
    ∃ dl' new, dl'.length = dl.length ∧
      (dfs R (a.graph.repeatSum + 1) s 1).run
          (((a.ready w l).withOut (x, ⟨sd, ⟨dl, .ofPaths left⟩⟩)).atStart s) =
        .ok ⟨⟩ (((a.ready w l).atStart s).withOut (x, ⟨sd, ⟨dl', .ofPaths (left ++ new)⟩⟩)) ∧
      (∀ p ∈ new, p ∈ pathsFrom R a s) ∧
      new.filter (fun p => R.le (size p) (distOf R.worst dl' (last p))) =
        (pathsFrom R a s).filter (keep R a s) := by
  obtain ⟨dl', hlen, hdist, hput⟩ := foldl_put (R := R) (pathsFrom R a s)
    (ends_pathsFrom h hs hdl) x sd dl left rfl
  rw [distOf_const hB] at hdist hput
  have hkeep : (fun p => R.le (size p) (distOf R.worst dl' (last p))) = keep R a s := by
    rw [hdist, Ranking.fst_foldl_offer _ _ left []]
    rfl
  refine ⟨dl', ((pathsFrom R a s).foldl (R.offer size last) (fun _ => R.worst, [])).2, hlen, ?_,
    fun p hp => Ranking.mem_foldl_offer hp, ?_⟩
  · rw [← Ranking.snd_foldl_offer, ← hput, pathsFrom, List.foldl_map]
    exact run_dfsDist (c := ⟨s, a.graph.budget, fun _ => R.worst, 1⟩)
      (records_record R a.graph.edgeList.length) (blindToDist_put R _)
      (at_atStart h hs w l (x, ⟨sd, ⟨dl, .ofPaths left⟩⟩)) rfl (distOf_const hM).symm rfl rfl hsd
      hdl (Nat.lt_succ_self _)
  · have hfilter := @Ranking.filter_offer _ _ _ R size _ last (pathsFrom R a s)
      (fun _ => R.worst, []) _ rfl
    rw [Ranking.fst_foldl_offer _ _ [] left, ← hdist, hkeep] at hfilter
    rw [hkeep, hfilter, List.nil_append]

/-- A shortest run is in sight where the graph has fewer states than the largest distance. -/
theorem inSight_shortest (h : a.graph.Wf) (hno : ∀ x, ¬ a.IsThrough x)
    (hstop : ∃ n, a.graph.IsNamed a.stopStateNameList n)
    (hn : (a.graph.edgeList.length : ℤ) < MPathConfig.MAX_PATH_DIST) : InSight a shortest := by
  intro s r hr
  obtain ⟨r₀, hr₀, hd₀, hb₀⟩ := exists_bestTo (R := shortest) h hr
  refine ⟨r₀, hr₀, hd₀, ?_⟩
  -- its states are different states of the graph
  have hnd := nodup_of_bestTo h hno hstop hr₀ hb₀
  have hsub : r₀.map a.graph.multigraph.dst ⊆
      (List.range a.graph.edgeList.length).map fun i : ℕ => (i : ℤ) := by
    intro n hn
    obtain ⟨p, hp, rfl⟩ := List.mem_map.mp hn
    obtain ⟨h₀, h₁⟩ := h.isNode_dst (MGraph.isEdge_of_chained hr₀.chained p hp)
    obtain ⟨k, e⟩ := Int.eq_ofNat_of_zero_le h₀
    rw [e]
    exact List.mem_map.mpr ⟨k, List.mem_range.mpr (by omega), rfl⟩
  have hlen := (List.subperm_of_subset hnd hsub).length_le
  rw [List.length_map, List.length_map, List.length_range] at hlen
  simp only [shortest, decide_eq_true_eq]
  omega

end CovN2N

namespace MPathAlgoCovShortN2N
open CovN2N

/-- The object as a round finds it when it has entered `s`: `x` has been given out, and the fields
of the subclass are `w`. -/
def inRound (a : Args) (l : List RouteNums) (x : PathLists) (w : Dist N2N) (s : ℤ) :
    MPathAlgo (Dist N2N) :=
  ((a.ready w l).withOut (x, w)).atStart s

/-- `dfs` and `deleteLongPath`, in the round of `s`. -/
def searchRound (g : MGraph) (s : ℤ) : Prog (MPathAlgo (Dist N2N)) Unit := do
  dfs (g.repeatSum + 1) s 1
  deleteLongPath

/-- **A round keeps the shortest paths.**  In a graph of fewer than `MAX_PATH_DIST` states, with a
stop state and all distances at the maximum, the entries of the round of `s` that are left behind
those of earlier rounds are CovAll's paths from `s` that no other to the same stop state beats, each
of them once.  The round returns when the entries of earlier rounds end in states with a distance,
as those of all rounds do. -/
theorem searchRound_shortest (es : List EdgeCall) (a : Args) (hg : a.graph = .ofEdges es)
    (hn : a.graph.nodeCount < MPathConfig.MAX_PATH_DIST)
    (hstop : ∃ n, a.graph.IsNamed a.stopStateNameList n) {s : ℤ}
    (hs : a.graph.IsStart a.startStateNameList s) (l : List RouteNums) (x : PathLists) (w : Dist N2N)
    (hsd : a.graph.nodeCount ≤ w.stateDistList.length)
    (hM : ∀ d ∈ w.stateDistList, d = MPathConfig.MAX_PATH_DIST)
    (hdl : a.graph.nodeCount ≤ w.own.bestDistList.length)
    (hB : ∀ d ∈ w.own.bestDistList, d = MPathConfig.MAX_PATH_DIST) (left : List Path)
    (hleft : w.own.tmpPathLists = .ofPaths left) (o : VisitOrder ℤ) :
    ∃ all left' new,
      (MPathAlgoCovAll.genPath o a.plain).eval MPathAlgoCovAll.new = some (.ofPaths all) ∧
      ((searchRound a.graph s).exec (inRound a l x w s)).own.own.tmpPathLists =
        .ofPaths (left' ++ new) ∧
      left'.Sublist left ∧ new.Nodup ∧
      (∀ p, p ∈ new ↔ p ∈ all ∧ p.states.head? = some s ∧
        ∀ q ∈ all, q.states.head? = some s → q.states.getLast? = p.states.getLast? →
          p.states.length ≤ q.states.length) ∧
      ((∀ p ∈ left, Ends w.own.bestDistList.length p) →
        ∃ m, (searchRound a.graph s).run (inRound a l x w s) = .ok ⟨⟩ m) := by
  have h : a.graph.Wf := hg ▸ MGraph.wf_ofEdges es
  have hcount := h.count
  obtain ⟨sd, dl, tmp⟩ := w
  obtain rfl : tmp = .ofPaths left := hleft
  dsimp only at hsd hM hdl hB ⊢
  have hno : ∀ y, ¬ a.plain.IsThrough y := Args.not_isThrough rfl rfl
  have hsight : InSight a.plain shortest := inSight_shortest (a := a.plain) h hno hstop
    (show (a.graph.edgeList.length : ℤ) < _ by omega)
  have hguard : Guarded a.plain shortest := guarded_shortest (a := a.plain) h hno hstop
  obtain ⟨l', hall⟩ := MPathAlgoCovAll.run_genPath (a := a.plain) h a.covsNamed_plain o
    MPathAlgoCovAll.new
  have hcov : ∀ s r, (s, r) ∈ MPathAlgoCovAll.covered o a.plain ↔ a.plain.Covered s r :=
    fun s r => MPathAlgoCovAll.mem_covered (a := a.plain) h
  have hnode := isNode_of_isStart h hs
  obtain ⟨dl', new, hlen, hsearch, hnew, hfilter⟩ := CovN2N.run_search (R := shortest) (x := x) h
    (l := l) (w := ⟨sd, ⟨dl, .ofPaths left⟩⟩) hnode (by omega) hM (by omega) hB left
  have hends : ∀ p ∈ new, Ends dl'.length p := fun p hp => by
    rw [hlen]
    exact ends_pathsFrom h hnode (by omega) p (hnew p hp)
  have hdeletion := exec_deletePaths (R := shortest)
    (m := (a.ready ⟨sd, ⟨dl, .ofPaths left⟩⟩ l).atStart s) (x := x) (d := sd) hends
  rw [hfilter] at hdeletion
  obtain ⟨left', hsub, hdelete⟩ := hdeletion left
  refine ⟨_, left', (pathsFrom shortest a s).filter (keep shortest a s), Prog.eval_ok hall, ?_, hsub,
    (nodup_pathsFrom h s).filter _, fun p => ?_, fun hleft => ?_⟩
  · have hexec := (Prog.exec_bind_ok (f := fun _ => deleteLongPath) hsearch).trans hdelete
    exact congrArg (·.own.own.tmpPathLists) hexec
  · rw [show p ∈ (pathsFrom shortest a s).filter (keep shortest a s) ↔ _ from
      mem_own (a := a.plain) h hno hguard hsight hs]
    constructor
    · rintro ⟨r, hr, hb, rfl⟩
      refine ⟨(CovBest.mem_paths hcov).mpr ⟨s, r, hr, rfl⟩, rfl, fun q hq hh hl => ?_⟩
      have := (bestPair_pathOf hcov).mpr hb q hq hh hl
      simpa [shortest] using this
    · rintro ⟨hp, hh, hb⟩
      obtain ⟨s', r, hr, rfl⟩ := (CovBest.mem_paths hcov).mp hp
      obtain rfl : s' = s := Option.some.inj hh
      refine ⟨r, hr, (bestPair_pathOf hcov).mp fun q hq hh hl => ?_, rfl⟩
      simpa [shortest] using hb q hq hh hl
  · refine ⟨_, (Prog.run_bind_ok hsearch).trans (run_deletePaths sd fun p hp => ?_)⟩
    rcases List.mem_append.mp hp with hp | hp
    · rw [hlen]; exact hleft p hp
    · exact hends p hp

/-- The round of `A` in the fork, with a path of an earlier round in the temporary lists. -/
theorem searchRound_shortest_fork :
    ∃ all left' new,
      (MPathAlgoCovAll.genPath .insertion forkArgs.plain).eval MPathAlgoCovAll.new =
        some (.ofPaths all) ∧
      ((searchRound forkArgs.graph 0).exec (inRound forkArgs [] .empty
        ⟨List.replicate 3 99999999, ⟨List.replicate 3 99999999, .ofPaths [⟨[2, 1], [2], [2]⟩]⟩⟩
          0)).own.own.tmpPathLists = .ofPaths (left' ++ new) ∧
      left'.Sublist [⟨[2, 1], [2], [2]⟩] ∧ new.Nodup ∧
      (∀ p, p ∈ new ↔ p ∈ all ∧ p.states.head? = some 0 ∧
        ∀ q ∈ all, q.states.head? = some 0 → q.states.getLast? = p.states.getLast? →
          p.states.length ≤ q.states.length) ∧
      ((∀ p ∈ [⟨[2, 1], [2], [2]⟩], Ends (List.replicate 3 (99999999 : ℤ)).length p) →
        ∃ m, (searchRound forkArgs.graph 0).run (inRound forkArgs [] .empty
          ⟨List.replicate 3 99999999, ⟨List.replicate 3 99999999, .ofPaths [⟨[2, 1], [2], [2]⟩]⟩⟩
            0) = .ok ⟨⟩ m) :=
  searchRound_shortest forkEdges forkArgs rfl (by decide) isNamed_forkArgs
    ⟨"A", by decide, by decide⟩ [] .empty
    ⟨List.replicate 3 99999999, ⟨List.replicate 3 99999999, .ofPaths [⟨[2, 1], [2], [2]⟩]⟩⟩
    (by decide) (by decide) (by decide) (by decide) _ rfl .insertion

end MPathAlgoCovShortN2N

end MBT
