import MBT.Path.CovBest
import MBT.Support.Carry

/-!
# Path — CovN2N

`MPathAlgoCovShortN2N` and `MPathAlgoCovLongN2N`: the shortest (longest) paths from each start
state to each stop state.  The two differ in the order on path lengths only, the `Ranking` of the
definitions here.

A round searches from one start state, keeps the paths that are as good as the best to the same
end, and adds the temporary lists to the result map.  These lists are emptied nowhere, so that what
a round leaves in them is judged and added again by the next one (`Carry`).

* `run_genPath_of_init`: what `genPath` returns, from any object a call may find (`Sound`).
* `samePaths_iff`: when that is what it returns from a new object.
-/

namespace MBT
open Exec Multigraph MPathAlgo

/-- The fields of the two subclasses, besides `stateDistList`. -/
structure N2N where
  /-- `minDistList`, `maxDistList`: the size of the best path of the round, for each end state. -/
  bestDistList : List ℤ
  /-- `tmpStatePathLists`, `tmpEdgePathLists` and `tmpStepPathLists`. -/
  tmpPathLists : PathLists

namespace CovN2N

variable (R : Ranking ℤ)

/-- The constructor of the two classes. -/
def new : MPathAlgo (Dist N2N) := .new ⟨[], ⟨[], .empty⟩⟩

/-- `resetMinDistList` and `resetMaxDistList`. -/
def resetDistList : Prog (MPathAlgo (Dist N2N)) Unit := modify fun m =>
  { m with own := { m.own with own := { m.own.own with
      bestDistList := m.own.own.bestDistList.map fun _ => R.worst } } }

/-- Add the path found to the temporary lists, if it is as good as the best to its end state. -/
def record (curPos : ℕ) : Prog (MPathAlgo (Dist N2N)) Unit := do
  let m ← get
  let last ← Prog.lift (ArrayList.get m.statePath (curPos - 1))
  let dist ← Prog.lift (ArrayList.get m.own.own.bestDistList last)
  if R.le m.statePath.length dist then
    let bestDistList ← Prog.lift (ArrayList.set m.own.own.bestDistList last m.statePath.length)
    let tmpPathLists := m.own.own.tmpPathLists.add m.path
    set { m with own := { m.own with own := N2N.mk bestDistList tmpPathLists } }

/-- The search, which records a path in the temporary lists. -/
def dfs : ℕ → ℤ → ℕ → Prog (MPathAlgo (Dist N2N)) Unit := dfsDist R.le (record R)

/-- Remove the path at index `i` of the temporary lists if a better one to its end was found. -/
def deleteAt (i : ℕ) : Prog (MPathAlgo (Dist N2N)) Unit := do
  let m ← get
  let path ← Prog.lift (ArrayList.get m.own.own.tmpPathLists.statePath i)
  let endStateNum ← Prog.lift (ArrayList.get path (path.length - 1))
  let dist ← Prog.lift (ArrayList.get m.own.own.bestDistList endStateNum)
  if !R.le path.length dist then
    set { m with own := { m.own with own := { m.own.own with
      tmpPathLists := m.own.own.tmpPathLists.removeAt i } } }

/-- `deleteLongPath` and `deleteShortPath`. -/
def deletePaths : Prog (MPathAlgo (Dist N2N)) Unit := do
  let m ← get
  forM (List.range m.own.own.tmpPathLists.size).reverse (deleteAt R)

/-- Add the path at index `i` of the temporary lists to the result map. -/
def addPathAt (i : ℕ) : Prog (MPathAlgo (Dist N2N)) Unit := do
  let m ← get
  let statePath ← Prog.lift (ArrayList.get m.own.own.tmpPathLists.statePath i)
  let edgePath ← Prog.lift (ArrayList.get m.own.own.tmpPathLists.edgePath i)
  let stepPath ← Prog.lift (ArrayList.get m.own.own.tmpPathLists.stepPath i)
  set { m with statePath, edgePath, stepPath }
  addPath

/-- Moves the temporary paths to the result; the temporary lists stay filled. -/
def addPathToMap : Prog (MPathAlgo (Dist N2N)) Unit := do
  let m ← get
  forM (List.range m.own.own.tmpPathLists.size) addPathAt
  modify fun m => { m with statePath := [], edgePath := [], stepPath := [] }

/-- The round of a start state. -/
def startRound (depth : ℕ) (stateNumber : ℤ) : Prog (MPathAlgo (Dist N2N)) Unit := do
  resetDistList R
  round (dfs R depth) stateNumber
  deletePaths R
  addPathToMap

/-- `bestDistList.add(worst); stateDistList.add(worst)`, once for each state. -/
def addDists : Prog (MPathAlgo (Dist N2N)) Unit := modify fun m =>
  let worsts := List.replicate m.graph.nodeCount.toNat R.worst
  { m with own := {
      stateDistList := m.own.stateDistList ++ worsts
      own := { m.own.own with bestDistList := m.own.own.bestDistList ++ worsts } } }

/-- For each start state a search, of which the best path to each stop state is kept. -/
def genPath (o : VisitOrder ℤ) (a : Args) : Prog (MPathAlgo (Dist N2N)) PathLists := do
  init a
  addDists R
  let m ← get
  forM (o.visit m.startStateNumSet) (startRound R (m.graph.repeatSum + 1))
  delPathWithoutThroughState
  delPathWithoutThroughStep
  let m ← get
  return m.pathsMap

/-! ### Recording -/

variable {R}

/-- The last state of a path. -/
def last (p : Path) : ℤ := p.states.getLastD 0

/-- How many states a path has. -/
def size (p : Path) : ℤ := p.states.length

/-- The results with the path recorded. -/
def put (R : Ranking ℤ) (p : Path) (x : PathLists × Dist N2N) : PathLists × Dist N2N :=
  if R.le (size p) (distOf R.worst x.2.own.bestDistList (last p)) then
    (x.1, { x.2 with own := {
      bestDistList := x.2.own.bestDistList.set (last p).toNat (size p)
      tmpPathLists := x.2.own.tmpPathLists.add p } })
  else x

/-- The distance of a node that has one. -/
theorem get_dist {M s : ℤ} {l : List ℤ} (h₀ : 0 ≤ s) (h : s.toNat < l.length) :
    ArrayList.get l s = .ok (distOf M l s) := by
  obtain ⟨k, rfl⟩ := Int.eq_ofNat_of_zero_le h₀
  exact ArrayList.get_ok (by simp [distOf, show k < l.length from h])

/-- Recording a path changes the temporary lists and the best distance to its end. -/
theorem records_record (R : Ranking ℤ) (n : ℕ) :
    Records n (fun x => n ≤ x.2.own.bestDistList.length) (record R) (put R) where
  run m s k h hn hlen := by
    obtain ⟨pre, e, hk⟩ := h.states
    obtain ⟨h₀, h₁⟩ := h.node
    have hlt : s.toNat < m.own.own.bestDistList.length := by
      have : n ≤ m.own.own.bestDistList.length := hlen
      omega
    have hlast : last m.path = s := by simp [last, path, e]
    have hset : ArrayList.set m.own.own.bestDistList s (m.statePath.length : ℤ) =
        .ok (m.own.own.bestDistList.set s.toNat m.statePath.length) := by
      obtain ⟨j, rfl⟩ := Int.eq_ofNat_of_zero_le h₀
      exact ArrayList.set_ok _ hlt
    rw [record, Prog.run_bind_get]
    simp only [h.get_last, Prog.lift_ok, pure_bind, get_dist (M := R.worst) h₀ hlt]
    rw [put, hlast]
    change EStateM.run _ m = .ok PUnit.unit (m.withOut (if R.le m.statePath.length
      (distOf R.worst m.own.own.bestDistList s) = true then _ else _))
    split
    · rw [hset]; rfl
    · rfl
  keeps p x hlen := by
    unfold put
    split
    · simpa using hlen
    · exact hlen

/-- What is recorded does not depend on the distances of the search. -/
theorem blindToDist_put (R : Ranking ℤ) (n : ℕ) :
    BlindToDist (fun x : PathLists × Dist N2N => n ≤ x.2.own.bestDistList.length) (put R) where
  put_setDist p x l := by
    unfold put setDist
    dsimp only
    split <;> rfl
  ok_setDist _ _ h := h

/-- A path that a round can have left: it ends in a state with an entry. -/
def Ends (n : ℕ) (p : Path) : Prop := p.states ≠ [] ∧ 0 ≤ last p ∧ (last p).toNat < n

/-- Recording paths one after the other is the running best of the paths to each end. -/
theorem foldl_put {n : ℕ} (ps : List Path) (hps : ∀ p ∈ ps, Ends n p) (x : PathLists) (l dl : List ℤ)
    (tmp : List Path) (hdl : dl.length = n) :
    ∃ dl', dl'.length = n ∧
      distOf R.worst dl' = (ps.foldl (R.offer size last) (distOf R.worst dl, tmp)).1 ∧
      ps.foldl (fun x p => put R p x) (x, ⟨l, ⟨dl, .ofPaths tmp⟩⟩) =
        (x, ⟨l, ⟨dl', .ofPaths (ps.foldl (R.offer size last) (distOf R.worst dl, tmp)).2⟩⟩) := by
  induction ps generalizing dl tmp with
  | nil => exact ⟨dl, hdl, rfl, rfl⟩
  | cons p ps ih =>
    obtain ⟨-, h₀, hlt⟩ := hps p List.mem_cons_self
    have hps' : ∀ p ∈ ps, Ends n p := fun q hq => hps q (List.mem_cons_of_mem _ hq)
    rw [List.foldl_cons, List.foldl_cons, put, Ranking.offer]
    dsimp only
    split
    · rw [PathLists.ofPaths_add, ← distOf_set h₀ (hdl ▸ hlt)]
      exact ih hps' _ _ (by simpa using hdl)
    · exact ih hps' _ _ hdl

/-! ### A round -/

/-- The paths of the search from `s`. -/
def pathsFrom (R : Ranking ℤ) (a : Args) (s : ℤ) : List Path :=
  (a.runsFrom R.le R.worst s).map (a.graph.pathOf s)

/-- The size of the best path of the round of `s`, for each end state. -/
def bestFrom (R : Ranking ℤ) (a : Args) (s : ℤ) : ℤ → ℤ :=
  ((pathsFrom R a s).foldl (R.offer size last) (fun _ => R.worst, [])).1

/-- The round of `s` keeps the path. -/
def keep (R : Ranking ℤ) (a : Args) (s : ℤ) (p : Path) : Bool :=
  R.le (size p) (bestFrom R a s (last p))

/-- A round keeps a path that its best distances do not rank behind. -/
theorem keep_iff {a : Args} {s : ℤ} {p : Path} : keep R a s p = true ↔
    R.le (size p) R.worst = true ∧
      ∀ q ∈ pathsFrom R a s, last q = last p → R.le (size p) (size q) = true :=
  Ranking.le_foldl_offer

/-- The last state of a path that has one. -/
theorem get_last {p : Path} (h : p.states ≠ []) :
    ArrayList.get p.states ((p.states.length : ℤ) - 1) = .ok (last p) := by
  obtain ⟨pre, s, e⟩ := (List.eq_nil_or_concat p.states).resolve_left h
  rw [List.concat_eq_append] at e
  rw [last, e, List.length_append, List.length_singleton, Nat.cast_add, Nat.cast_one,
    add_sub_cancel_right, ArrayList.get_last, List.getLastD_concat]

/-- One turn of the deletion, at the last path that is left to look at. -/
theorem run_deleteAt {m : MPathAlgo (Dist N2N)} {x : PathLists} {sd dl : List ℤ} {p t : List Path}
    {q : Path} (hq : Ends dl.length q) :
    (deleteAt R p.length).run (m.withOut (x, ⟨sd, ⟨dl, .ofPaths (p ++ q :: t)⟩⟩)) =
      .ok ⟨⟩ (m.withOut (x, ⟨sd, ⟨dl, .ofPaths (if R.le (size q) (distOf R.worst dl (last q)) = true
        then p ++ q :: t else p ++ t)⟩⟩)) := by
  obtain ⟨hne, h₀, hlt⟩ := hq
  have hget : ArrayList.get ((PathLists.ofPaths (p ++ q :: t)).statePath) (p.length : ℕ) =
      .ok q.states := ArrayList.get_ok (by simp [PathLists.ofPaths])
  rw [deleteAt, Prog.run_bind_get]
  change EStateM.run (Prog.lift (ArrayList.get (PathLists.ofPaths (p ++ q :: t)).statePath _) >>= _)
    _ = _
  simp only [hget, Prog.lift_ok, pure_bind, get_last hne]
  change EStateM.run (Prog.lift (ArrayList.get dl _) >>= _) _ = _
  rw [get_dist (M := R.worst) h₀ hlt, Prog.lift_ok, pure_bind]
  change _ = EStateM.Result.ok PUnit.unit (m.withOut (x, ⟨sd, ⟨dl, .ofPaths
    (if R.le (q.states.length) (distOf R.worst dl (last q)) = true then _ else _)⟩⟩))
  cases R.le (q.states.length) (distOf R.worst dl (last q))
  · have hdel : (PathLists.ofPaths (p ++ q :: t)).removeAt p.length = .ofPaths (p ++ t) := by
      rw [PathLists.ofPaths_removeAt]
      simp [List.eraseIdx_append_of_length_le]
    exact congrArg (fun y => EStateM.Result.ok PUnit.unit (m.withOut (x, ⟨sd, ⟨dl, y⟩⟩))) hdel
  · rfl

/-- The temporary paths that are kept are those with the best distance to their ends. -/
theorem run_deletePaths {m : MPathAlgo (Dist N2N)} {x : PathLists}
    (sd : List ℤ) {dl : List ℤ} {tmp : List Path} (htmp : ∀ p ∈ tmp, Ends dl.length p) :
    (deletePaths R).run (m.withOut (x, ⟨sd, ⟨dl, .ofPaths tmp⟩⟩)) =
      .ok ⟨⟩ (m.withOut (x, ⟨sd, ⟨dl, .ofPaths
        (tmp.filter fun p => R.le (size p) (distOf R.worst dl (last p)))⟩⟩)) := by
  rw [deletePaths, Prog.run_bind_get,
    show ((m.withOut (x, ⟨sd, ⟨dl, .ofPaths tmp⟩⟩)).own.own.tmpPathLists.size) =
      tmp.length from PathLists.size_ofPaths tmp]
  exact run_eraseBack (fun tmp => m.withOut (x, ⟨sd, ⟨dl, .ofPaths tmp⟩⟩)) fun p q qs t e =>
    run_deleteAt (htmp q (e ▸ List.mem_append_right p List.mem_cons_self))

/-- The object with its path fields set to `q`. -/
def holding (m : MPathAlgo (Dist N2N)) (q : Path) : MPathAlgo (Dist N2N) :=
  { m with statePath := q.states, edgePath := q.edges, stepPath := q.steps }

/-- One temporary path is moved to the result. -/
theorem run_addPathAt {m : MPathAlgo (Dist N2N)} {sd dl : List ℤ} {ps tmp : List Path} {i : ℕ}
    {p : Path} (hp : tmp[i]? = some p) (q : Path) :
    (addPathAt i).run (holding (m.withOut (.ofPaths ps, ⟨sd, ⟨dl, .ofPaths tmp⟩⟩)) q) =
      .ok ⟨⟩ (holding (m.withOut (.ofPaths (ps ++ [p]), ⟨sd, ⟨dl, .ofPaths tmp⟩⟩)) p) := by
  have hs : ArrayList.get (PathLists.ofPaths tmp).statePath i = .ok p.states :=
    ArrayList.get_ok (by simp [PathLists.ofPaths, hp])
  have he : ArrayList.get (PathLists.ofPaths tmp).edgePath i = .ok p.edges :=
    ArrayList.get_ok (by simp [PathLists.ofPaths, hp])
  have ht : ArrayList.get (PathLists.ofPaths tmp).stepPath i = .ok p.steps :=
    ArrayList.get_ok (by simp [PathLists.ofPaths, hp])
  simp only [addPathAt, EStateM.run_bind, EStateM.run_get, holding, withOut, hs, he, ht,
    Prog.lift_ok, EStateM.run_pure, EStateM.run_set, addPath, EStateM.run_modify, path,
    PathLists.ofPaths_add]

/-- All temporary paths are added to the result. -/
theorem run_addPathToMap {a : Args} {l : List RouteNums} {w : Dist N2N} {sd dl : List ℤ}
    (ps tmp : List Path) :
    addPathToMap.run ((a.ready w l).withOut (.ofPaths ps, ⟨sd, ⟨dl, .ofPaths tmp⟩⟩)) =
      .ok ⟨⟩ ((a.ready w l).withOut (.ofPaths (ps ++ tmp), ⟨sd, ⟨dl, .ofPaths tmp⟩⟩)) := by
  have hturn : ∀ p i q m, List.range tmp.length = p ++ i :: q →
      (∃ x, m = holding ((a.ready w l).withOut
        (.ofPaths (ps ++ tmp.take p.length), ⟨sd, ⟨dl, .ofPaths tmp⟩⟩)) x) →
      ∃ m', (addPathAt i).run m = .ok ⟨⟩ m' ∧ ∃ x, m' = holding ((a.ready w l).withOut
        (.ofPaths (ps ++ tmp.take (p ++ [i]).length), ⟨sd, ⟨dl, .ofPaths tmp⟩⟩)) x := by
    rintro p i q _ e ⟨x, rfl⟩
    obtain ⟨rfl, hi⟩ := Prog.range_split e
    refine ⟨_, run_addPathAt (List.getElem?_eq_getElem hi) x, tmp[p.length], ?_⟩
    simp only [List.length_append, List.length_singleton, List.append_assoc,
      List.take_append_getElem hi]
  obtain ⟨m, hm, x, rfl⟩ := Prog.run_forM_inv _ hturn (s := (a.ready w l).withOut
    (.ofPaths ps, ⟨sd, ⟨dl, .ofPaths tmp⟩⟩)) ⟨⟨[], [], []⟩, by
      simp only [List.length_nil, List.take_zero, List.append_nil]; rfl⟩
  rw [addPathToMap, Prog.run_bind_get,
    show (((a.ready w l).withOut (.ofPaths ps, ⟨sd, ⟨dl, .ofPaths tmp⟩⟩)).own.own.tmpPathLists.size)
      = tmp.length from PathLists.size_ofPaths tmp, Prog.run_bind_ok hm]
  simp only [List.length_range, List.take_length]
  rfl

/-- A walk ends at a node. -/
theorem isNode_dest {g : MGraph} (h : g.Wf) {s : ℤ} (hs : g.IsNode s) {r : List (ℤ × ℕ)}
    (hr : g.multigraph.Chained s r) : g.IsNode (g.multigraph.dest s r) := by
  induction r generalizing s with
  | nil => exact hs
  | cons p r ih => exact ih (h.isNode_dst (show p.2 < _ from hr.1 ▸ hr.2.1)) hr.2.2

/-- The path of a run has one state more than the run has edges. -/
theorem size_pathOf (g : MGraph) (s : ℤ) (r : List (ℤ × ℕ)) :
    size (g.pathOf s r) = r.length + 1 := by
  simp [size, MGraph.pathOf, MGraph.extend]

/-- The path of a run ends where the run does. -/
theorem last_pathOf (g : MGraph) (s : ℤ) (r : List (ℤ × ℕ)) :
    last (g.pathOf s r) = g.multigraph.dest s r := by
  rw [dest_eq_getLast, List.getLast_eq_getLastD]
  simp only [last, MGraph.pathOf, MGraph.extend, List.singleton_append, List.getLastD_cons]

/-- The paths of a round end at nodes. -/
theorem ends_pathsFrom {a : Args} (h : a.graph.Wf) {s : ℤ} (hs : a.graph.IsNode s) {n : ℕ}
    (hn : a.graph.edgeList.length ≤ n) : ∀ p ∈ pathsFrom R a s, Ends n p := by
  rintro p hp
  obtain ⟨r, hr, rfl⟩ := List.mem_map.mp hp
  have hnode := isNode_dest h hs (Args.mem_runsFrom.mp hr).1.chained
  refine ⟨by simp [MGraph.pathOf, MGraph.extend], ?_, ?_⟩ <;> rw [last_pathOf]
  · exact hnode.1
  · have := hnode.1; have := hnode.2; omega

/-- **A round**: the list left by the round before is judged with the paths of this one. -/
theorem run_startRound {a : Args} (h : a.graph.Wf) {l : List RouteNums} {w : Dist N2N}
    {sd dl : List ℤ} (hsd : a.graph.edgeList.length ≤ sd.length) (hM : ∀ d ∈ sd, d = R.worst)
    (hdl : a.graph.edgeList.length ≤ dl.length) (ps : List Path) {tmp : List Path}
    (htmp : ∀ p ∈ tmp, Ends dl.length p) {s : ℤ} (hs : a.graph.IsNode s) :
    ∃ dl', dl'.length = dl.length ∧
      (startRound R (a.graph.repeatSum + 1) s).run
        ((a.ready w l).withOut (.ofPaths ps, ⟨sd, ⟨dl, .ofPaths tmp⟩⟩)) =
      .ok ⟨⟩ ((a.ready w l).withOut
        (.ofPaths (ps ++ (tmp ++ pathsFrom R a s).filter (keep R a s)),
          ⟨sd, ⟨dl', .ofPaths ((tmp ++ pathsFrom R a s).filter (keep R a s))⟩⟩)) := by
  have hends := ends_pathsFrom (R := R) h hs hdl
  have hreset : (resetDistList R).run
      ((a.ready w l).withOut (.ofPaths ps, ⟨sd, ⟨dl, .ofPaths tmp⟩⟩)) = .ok ⟨⟩
      ((a.ready w l).withOut (.ofPaths ps, ⟨sd, ⟨dl.map fun _ => R.worst, .ofPaths tmp⟩⟩)) := rfl
  obtain ⟨dl', hlen, hdist, hput⟩ := foldl_put (R := R) (pathsFrom R a s) hends (.ofPaths ps) sd
    (dl.map fun _ => R.worst) tmp (List.length_map ..)
  have hworst : distOf R.worst (dl.map fun _ => R.worst) = fun _ => R.worst :=
    distOf_const fun d hd => by obtain ⟨_, -, rfl⟩ := List.mem_map.mp hd; rfl
  rw [hworst] at hdist hput
  have hround := run_round_dfsDist h (records_record R a.graph.edgeList.length)
    (blindToDist_put R _) R.le hs w l (x := (.ofPaths ps, ⟨sd, ⟨dl.map fun _ => R.worst,
      .ofPaths tmp⟩⟩)) (by simpa using hdl) hsd hM
  have hkeep : (fun p => R.le (size p) (distOf R.worst dl' (last p))) = keep R a s := by
    rw [hdist, Ranking.fst_foldl_offer _ _ tmp []]
    rfl
  have hends' : ∀ p ∈ ((pathsFrom R a s).foldl (R.offer size last) (fun _ => R.worst, tmp)).2,
      Ends dl'.length p := fun p hp => by
    rw [hlen]
    exact (List.mem_append.mp (Ranking.mem_foldl_offer hp)).elim (htmp p) (hends p)
  have hfilter := @Ranking.filter_offer _ _ _ R size _ last (pathsFrom R a s)
    (fun _ => R.worst, tmp) _ rfl
  rw [← hdist, hkeep] at hfilter
  refine ⟨dl', hlen, ?_⟩
  change (round (dfs R (a.graph.repeatSum + 1)) s).run _ =
    .ok PUnit.unit ((a.ready w l).withOut ((pathsFrom R a s).foldl (fun x p => put R p x) _)) at hround
  rw [hput] at hround
  have hdelete := run_deletePaths (R := R) (m := a.ready w l) (x := .ofPaths ps) sd hends'
  rw [hkeep, hfilter] at hdelete
  rw [startRound, Prog.run_bind_ok hreset, Prog.run_bind_ok hround, Prog.run_bind_ok hdelete,
    run_addPathToMap]

/-! ### What `genPath` returns -/

/-- What a call may find in the fields of the subclass: the temporary lists hold the paths `left`,
and all of these end in a state with an entry. -/
structure Sound (R : Ranking ℤ) (w : Dist N2N) (left : List Path) : Prop where
  idle : ∀ d ∈ w.stateDistList, d = R.worst
  tmp : w.own.tmpPathLists = .ofPaths left
  ends : ∀ p ∈ left, Ends w.own.bestDistList.length p

/-- A new object has nothing left over. -/
theorem sound_new : Sound R new.own [] := ⟨fun _ h => (nomatch h), rfl, fun _ h => (nomatch h)⟩

/-- The paths that a call adds to the result map, where the temporary lists hold `left`. -/
def carried (R : Ranking ℤ) (o : VisitOrder ℤ) (a : Args) (left : List Path) : List Path :=
  Carry.carry (keep R a) (pathsFrom R a) left (o.visit a.starts)

/-- The fields of the subclass once `addDists` has added to them. -/
def grown (R : Ranking ℤ) (a : Args) (w : Dist N2N) : Dist N2N where
  stateDistList := w.stateDistList ++ List.replicate a.graph.nodeCount.toNat R.worst
  own := { w.own with
    bestDistList := w.own.bestDistList ++ List.replicate a.graph.nodeCount.toNat R.worst }

/-- Distances that are added leave an object sound. -/
theorem Sound.grown {w : Dist N2N} {left : List Path} (h : Sound R w left) (a : Args) :
    Sound R (grown R a w) left where
  idle d hd := (List.mem_append.mp hd).elim (h.idle d) List.eq_of_mem_replicate
  tmp := h.tmp
  ends p hp := by
    obtain ⟨h₁, h₂, h₃⟩ := h.ends p hp
    refine ⟨h₁, h₂, ?_⟩
    simp only [CovN2N.grown, List.length_append]
    omega

/-- The temporary lists and the result map after the rounds of the start states `p`. -/
def afterRounds (R : Ranking ℤ) (a : Args) (left : List Path) (p : List ℤ) :
    List Path × List Path :=
  p.foldl (Carry.step (keep R a) (pathsFrom R a)) (left, [])

/-- What the loop over the start states keeps. -/
def InRounds (R : Ranking ℤ) (a : Args) (w : Dist N2N) (l : List RouteNums) (left : List Path)
    (p : List ℤ) (m : MPathAlgo (Dist N2N)) : Prop :=
  ∃ dl, a.graph.edgeList.length ≤ dl.length ∧
    (∀ q ∈ (afterRounds R a left p).1, Ends dl.length q) ∧
    m = (a.ready w l).withOut (.ofPaths (afterRounds R a left p).2,
      ⟨w.stateDistList, ⟨dl, .ofPaths (afterRounds R a left p).1⟩⟩)

/-- The step of the loop over the start states. -/
theorem InRounds.startRound {a : Args} (h : a.graph.Wf) {w : Dist N2N} {l : List RouteNums}
    (hsd : a.graph.edgeList.length ≤ w.stateDistList.length)
    (hidle : ∀ d ∈ w.stateDistList, d = R.worst) {left : List Path} {p : List ℤ}
    {m : MPathAlgo (Dist N2N)} (hI : InRounds R a w l left p m) {s : ℤ} (hs : a.graph.IsNode s) :
    ∃ m', (startRound R (a.graph.repeatSum + 1) s).run m = .ok ⟨⟩ m' ∧
      InRounds R a w l left (p ++ [s]) m' := by
  obtain ⟨dl, hdl, hends, rfl⟩ := hI
  obtain ⟨dl', hlen, hrun⟩ := run_startRound (l := l) (w := w) h hsd hidle hdl
    (afterRounds R a left p).2 hends hs
  refine ⟨_, hrun, dl', hlen ▸ hdl, fun q hq => ?_, ?_⟩
  · rw [afterRounds, List.foldl_append] at hq
    rw [hlen]
    rcases List.mem_append.mp (List.mem_of_mem_filter hq) with hq | hq
    · exact hends q hq
    · exact ends_pathsFrom h hs hdl q hq
  · simp only [afterRounds, List.foldl_append]
    rfl

/-- **What a call returns and leaves.** -/
theorem run_genPath_left {a : Args} (h : a.graph.Wf) {m : MPathAlgo (Dist N2N)}
    {l : List RouteNums} (hinit : (init a).run m = .ok ⟨⟩ (a.ready m.own l)) {left : List Path}
    (hm : Sound R m.own left) (o : VisitOrder ℤ) :
    ∃ w', (genPath R o a).run m = .ok (.ofPaths ((carried R o a left).filter (passes a)))
        ((a.ready (grown R a m.own) l).withOut
          (.ofPaths ((carried R o a left).filter (passes a)), w')) ∧
      Sound R w' (afterRounds R a left (o.visit a.starts)).1 := by
  have hcount := h.count
  have hgrown := hm.grown a
  have hsd : a.graph.edgeList.length ≤ (grown R a m.own).stateDistList.length := by
    simp only [grown, List.length_append, List.length_replicate]; omega
  have hbd : a.graph.edgeList.length ≤ (grown R a m.own).own.bestDistList.length := by
    simp only [grown, List.length_append, List.length_replicate]; omega
  have hadd : (addDists R).run (a.ready m.own l) = .ok ⟨⟩ (a.ready (grown R a m.own) l) := rfl
  generalize grown R a m.own = w at hgrown hsd hbd hadd
  obtain ⟨m', hloop, dl, hdl, hends, rfl⟩ := Prog.run_forM_inv (InRounds R a w l left)
    (l := o.visit (a.ready w l).startStateNumSet)
    (f := startRound R ((a.ready w l).graph.repeatSum + 1)) (s := a.ready w l)
    (fun p s q m e hI => by
      have hs : s ∈ o.visit a.starts := e ▸ List.mem_append_right p List.mem_cons_self
      exact hI.startRound h hsd hgrown.idle
        (isNode_of_isStart h ((Args.mem_starts h).mp (o.mem_visit.mp hs))))
    ⟨w.own.bestDistList, hbd, hgrown.ends, by
      simp only [afterRounds, List.foldl_nil, ← hgrown.tmp]; rfl⟩
  have hresult : (afterRounds R a left (o.visit a.starts)).2 = carried R o a left := by
    rw [afterRounds, Carry.foldl_step, List.nil_append, carried]
  refine ⟨⟨w.stateDistList, ⟨dl, .ofPaths (afterRounds R a left (o.visit a.starts)).1⟩⟩, ?_,
    hgrown.idle, rfl, hends⟩
  rw [genPath, Prog.run_bind_ok hinit, Prog.run_bind_ok hadd, Prog.run_bind_get,
    Prog.run_bind_ok hloop, run_filters, ← hresult]
  rfl

/-- `genPath` behind its initialisation, with what earlier calls have left. -/
theorem run_genPath_of_init {a : Args} (h : a.graph.Wf) {m : MPathAlgo (Dist N2N)}
    {l : List RouteNums} (hinit : (init a).run m = .ok ⟨⟩ (a.ready m.own l)) {left : List Path}
    (hm : Sound R m.own left) (o : VisitOrder ℤ) :
    ∃ w' left', (genPath R o a).run m = .ok (.ofPaths ((carried R o a left).filter (passes a)))
        ((a.ready (grown R a m.own) l).withOut
          (.ofPaths ((carried R o a left).filter (passes a)), w')) ∧ Sound R w' left' := by
  obtain ⟨w', hrun, hsound⟩ := run_genPath_left h hinit hm o
  exact ⟨w', _, hrun, hsound⟩

/-! ### A used object -/

/-- A call leaves what the next one may find. -/
theorem sound_exec {a : Args} (h : a.graph.Wf) {m : MPathAlgo (Dist N2N)} {left : List Path}
    (hm : Sound R m.own left) (o : VisitOrder ℤ) :
    ∃ left', Sound R ((genPath R o a).exec m).own left' := by
  by_cases hr : a.CovsNamed
  · obtain ⟨l, hinit⟩ := run_init_ok h hr m
    obtain ⟨w', left', hrun, hm'⟩ := run_genPath_of_init h hinit hm o
    exact ⟨left', by rw [Prog.exec_ok hrun]; exact hm'⟩
  · obtain ⟨e, l, hinit⟩ := run_init_throws h hr m
    exact ⟨left, by rw [genPath, Prog.exec_error (Prog.run_bind_error hinit)]; exact hm⟩

/-- The round of `s` keeps the path: no run that the search from `s` finds leads to its end and
beats it. -/
def Held (R : Ranking ℤ) (a : Args) (s : ℤ) (p : Path) : Prop :=
  R.le (size p) R.worst = true ∧
    ∀ r, a.IsRun s r → a.graph.multigraph.Allowed R.le (fun _ => R.worst) 1 r →
      a.graph.multigraph.dest s r = last p → R.le (size p) (r.length + 1) = true

/-- A round holds a path exactly when it keeps it. -/
theorem held_iff {a : Args} {s : ℤ} {p : Path} : Held R a s p ↔ keep R a s p = true := by
  rw [keep_iff, Held]
  simp only [pathsFrom, List.mem_map, forall_exists_index, and_imp, Args.mem_runsFrom]
  refine and_congr_right fun _ => ⟨fun h q r hr hallow e hlast => ?_, fun h r hr hallow hdest => ?_⟩
  · subst e
    rw [last_pathOf] at hlast
    rw [size_pathOf]
    exact h r hr hallow hlast
  · have hle := h _ r hr hallow rfl (by rwa [last_pathOf])
    rwa [size_pathOf] at hle

instance (a : Args) (s : ℤ) (p : Path) : Decidable (Held R a s p) :=
  decidable_of_iff (keep R a s p = true) held_iff.symm

/-- The state in which a path begins. -/
def start (p : Path) : ℤ := p.states.headD 0

/-- How many rounds in a row hold the path, from the first of these start states on. -/
def heldFor (R : Ranking ℤ) (a : Args) (p : Path) (starts : List ℤ) : ℕ :=
  (starts.takeWhile fun s => Held R a s p).length

/-- How many rounds in a row keep a path that is there at their beginning. -/
theorem stays_keep (a : Args) (p : Path) (starts : List ℤ) :
    Carry.stays (keep R a) p starts = heldFor R a p starts := by
  have hkeep : (fun s => decide (Held R a s p)) = (keep R a · p) := by
    funext s
    rw [Bool.eq_iff_iff, decide_eq_true_eq, held_iff]
  rw [heldFor, hkeep]
  rfl

/-- How often a call gives out a path that its own search finds: in the rounds in a row that hold it,
from that of its start state on. -/
def ownTimes (R : Ranking ℤ) (o : VisitOrder ℤ) (a : Args) (p : Path) : ℕ :=
  (pathsFrom R a (start p)).count p *
    heldFor R a p ((o.visit a.starts).dropWhile (· ≠ start p))

/-- The paths of a round start at its state. -/
theorem start_of_mem_pathsFrom {a : Args} {s : ℤ} {p : Path} (hp : p ∈ pathsFrom R a s) :
    start p = s := by
  obtain ⟨r, -, rfl⟩ := List.mem_map.mp hp
  rfl

/-- How often a call gives out a path, from the temporary lists that hold `left`. -/
theorem count_carried (o : VisitOrder ℤ) (a : Args) (left : List Path) (p : Path) :
    (carried R o a left).count p =
      left.count p * heldFor R a p (o.visit a.starts) + ownTimes R o a p := by
  rw [carried, Carry.count_carry (o.nodup_visit a.starts) (s := start p)
    (fun s _ hs hp => hs (start_of_mem_pathsFrom hp).symm), stays_keep, stays_keep, ownTimes]

/-- Each path that passes the filters is given out as often as by a new object, which visits the start
states in the order `o'`: once for each copy in the temporary lists and each round that holds it, from
the first on, besides those of its own. -/
def Undisturbed (R : Ranking ℤ) (o o' : VisitOrder ℤ) (a : Args) (m : MPathAlgo (Dist N2N)) : Prop :=
  a.CovsNamed → ∀ p, passes a p = true →
    m.own.own.tmpPathLists.paths.count p * heldFor R a p (o.visit a.starts) + ownTimes R o a p =
      ownTimes R o' a p

/-- In one order this says that the first round holds no path that earlier calls have left and that
passes the filters. -/
theorem undisturbed_self_iff {o : VisitOrder ℤ} {a : Args} {m : MPathAlgo (Dist N2N)} :
    Undisturbed R o o a m ↔ (a.CovsNamed → ∀ s ∈ (o.visit a.starts).head?,
      ∀ p ∈ m.own.own.tmpPathLists.paths, passes a p = true → ¬ Held R a s p) := by
  refine imp_congr_right fun _ => ?_
  have hzero (p : Path) : m.own.own.tmpPathLists.paths.count p * heldFor R a p (o.visit a.starts) = 0 ↔
      (p ∈ m.own.own.tmpPathLists.paths → ∀ s ∈ (o.visit a.starts).head?, ¬ Held R a s p) := by
    rw [Nat.mul_eq_zero, List.count_eq_zero, ← imp_iff_not_or, heldFor]
    refine imp_congr_right fun _ => ?_
    cases o.visit a.starts with
    | nil => simp
    | cons s starts =>
      rw [List.takeWhile_cons]
      split
      · rename_i hheld
        exact iff_of_false (by simp) fun h => h s rfl (of_decide_eq_true hheld)
      · rename_i hheld
        refine iff_of_true rfl ?_
        rintro _ ⟨⟩
        exact fun h => hheld (decide_eq_true h)
  simp only [Nat.add_eq_right, hzero]
  exact ⟨fun h s hs p hp hpass => h p hpass hp s hs, fun h p hpass hp s hs => h s hs p hp hpass⟩

/-- **When a used object returns what a new one does**, whatever the orders in which they visit the
start states. -/
theorem samePaths_iff {a : Args} (h : a.graph.Wf) {m : MPathAlgo (Dist N2N)} {left : List Path}
    (hm : Sound R m.own left) (o o' : VisitOrder ℤ) :
    SamePaths ((genPath R o a).eval m) ((genPath R o' a).eval new) ↔ Undisturbed R o o' a m := by
  by_cases hr : a.CovsNamed
  · obtain ⟨l, hinit⟩ := run_init_ok h hr m
    obtain ⟨l', hinit'⟩ := run_init_ok h hr new
    obtain ⟨m₁, left₁, hrun, -⟩ := run_genPath_of_init h hinit hm o
    obtain ⟨m₂, left₂, hrun', -⟩ := run_genPath_of_init h hinit' (sound_new (R := R)) o'
    rw [Prog.eval_ok hrun, Prog.eval_ok hrun', samePaths_ofPaths, List.perm_iff_count, Undisturbed,
      forall_prop_of_true hr, hm.tmp, PathLists.paths_ofPaths]
    refine forall_congr' fun p => ?_
    by_cases hp : passes a p = true
    · rw [List.count_filter hp, List.count_filter hp, count_carried, count_carried, List.count_nil,
        zero_mul, zero_add, forall_prop_of_true hp]
    · have hnone (l : List Path) : (l.filter (passes a)).count p = 0 :=
        List.count_eq_zero_of_not_mem fun hmem => hp (List.mem_filter.mp hmem).2
      rw [hnone, hnone]
      exact iff_of_true rfl fun hpass => absurd hpass hp
  · obtain ⟨e, l, hinit⟩ := run_init_throws h hr m
    obtain ⟨e', l', hinit'⟩ := run_init_throws h hr new
    rw [genPath, genPath, Prog.eval_error (Prog.run_bind_error hinit),
      Prog.eval_error (Prog.run_bind_error hinit')]
    exact ⟨fun _ hr' => absurd hr' hr, fun _ => .none⟩

end CovN2N

end MBT
