import MBT.Path.CovAll
import MBT.Support.Walks

/-!
# Path — CovRepeat

`MPathAlgoCovRepeat`: the paths that use an edge at once as often as its repeat time says, and
then not again.  An edge in use is marked by `-1` in the list of end states.

* `run_dfs`: the search records trails, some of them twice, and takes back every mark.
* `run_genPath`: what `genPath` returns, from any object and in any order of the start states.
* `samePaths_orders`: the paths depend neither on the object nor on the order of the start states.
-/

namespace MBT
open Exec Multigraph MPathAlgo

namespace MPathAlgoCovRepeat

/-- The constructor of `MPathAlgoCovRepeat`. -/
def new : MPathAlgo Unit := .new ()

/-- `neighbours.get(i)`, in the row of `curState`. -/
def getNeighbour (curState : ℤ) (i : ℕ) : Prog (MPathAlgo Unit) ℤ := do
  let m ← get
  let neighbours ← Prog.lift (ArrayList.get m.graph.edgeList curState)
  Prog.lift (ArrayList.get neighbours i)

/-- `neighbours.set(i, n)`; the row is the graph's own. -/
def setNeighbour (curState : ℤ) (i : ℕ) (n : ℤ) : Prog (MPathAlgo Unit) Unit := modify fun m =>
  { m with graph := { m.graph with
      edgeList := m.graph.edgeList.modify curState.toNat (·.set i n) } }

/-- The turn of the loop for the `i`-th edge of `curState`; `next` is the recursive call.  The
search writes no repeat times. -/
def tryUnused (next : ℤ → ℕ → Prog (MPathAlgo Unit) Unit) (curState : ℤ) (curPos : ℕ)
    (edgenumbers stepnumbers repeatTime : List ℤ) (hasOkNeighbour : Bool) (i : ℕ) :
    Prog (MPathAlgo Unit) Bool := do
  let tmpStateNumber ← getNeighbour curState i
  if tmpStateNumber = -1 then
    return hasOkNeighbour
  else
    setNeighbour curState i (-1)
    let times ← Prog.lift (ArrayList.get repeatTime i)
    let edgenumber ← Prog.lift (ArrayList.get edgenumbers i)
    let stepnumber ← Prog.lift (ArrayList.get stepnumbers i)
    forM (List.range times.toNat) fun j => addToPaths (curPos + j) tmpStateNumber edgenumber stepnumber
    next tmpStateNumber (curPos + times.toNat)
    forM (List.range times.toNat).reverse fun j => removeFromPaths (curPos + j)
    setNeighbour curState i tmpStateNumber
    return true

/-- The recursion is on `depth`, the calls the stack has room for. -/
def dfs : ℕ → ℤ → ℕ → Prog (MPathAlgo Unit) Unit
  | 0, _, _ => throw .stackOverflow
  | depth + 1, curState, curPos => do
    let m ← get
    let neighbours ← Prog.lift (ArrayList.get m.graph.edgeList curState)
    let edgenumbers ← Prog.lift (ArrayList.get m.graph.edgeNumberList curState)
    let stepnumbers ← Prog.lift (ArrayList.get m.graph.edgeStepList curState)
    let repeatTime ← Prog.lift (ArrayList.get m.graph.edgeRepeatTimeList curState)
    let last ← Prog.lift (ArrayList.get m.statePath (curPos - 1))
    if m.isStopState last || (neighbours.length = 0 && m.stopStateNumSet.size = 0) then
      addPath
    let hasOkNeighbour ← (List.range neighbours.length).foldlM
      (tryUnused (fun n k => dfs depth n k) curState curPos edgenumbers stepnumbers repeatTime) false
    if !hasOkNeighbour && m.stopStateNumSet.size = 0 then
      addPath

/-- No path uses an edge twice, so the stack has room for as many calls as there are edges and
one. -/
def genPath (o : VisitOrder ℤ) (a : Args) : Prog (MPathAlgo Unit) PathLists := do
  init a
  let m ← get
  forM (o.visit m.startStateNumSet) (round (dfs (m.graph.multigraph.edges.length + 1)))
  delPathWithoutThroughState
  delPathWithoutThroughStep
  let m ← get
  return m.pathsMap

end MPathAlgoCovRepeat

/-! ### The paths of trails -/

namespace MGraph

/-- The repeat times are positive. -/
theorem budget_ne_zero {g : MGraph} (h : g.Wf) {p : ℤ × ℕ} (hp : g.IsEdge p) : g.budget p ≠ 0 := by
  obtain ⟨h₀, h₁⟩ := isNode_of_isEdge hp
  have hlen := congrArg List.length h.repeats
  simp only [List.length_map] at hlen
  have hi : p.2 < (row g.edgeRepeatTimeList p.1).length := by
    rw [h.length_repeats]
    exact hp
  have hmem := List.mem_of_getElem? (getElem?_row (l := g.edgeRepeatTimeList) h₀ (by omega))
  have hpos := h.positive _ hmem _ (List.getElem_mem hi)
  rw [budget, List.getD_eq_getElem _ _ hi]
  omega

/-- Each edge of `r` as often in a row as its repeat time says. -/
def expand (g : MGraph) (r : List (ℤ × ℕ)) : List (ℤ × ℕ) :=
  r.flatMap fun p => List.replicate (g.budget p) p

theorem expand_cons (g : MGraph) (p : ℤ × ℕ) (r : List (ℤ × ℕ)) :
    g.expand (p :: r) = List.replicate (g.budget p) p ++ g.expand r := rfl

/-- The end states `l` of the graph `g`, with the edges marked that have nothing left. -/
structure Marks (g : MGraph) (left : ℤ × ℕ → ℕ) (l : List (List ℤ)) : Prop where
  lengths : l.map List.length = g.edgeList.map List.length
  entry : ∀ p, g.IsEdge p →
    (row l p.1)[p.2]? = some (if left p = 0 then -1 else g.multigraph.dst p)

/-- An edge list without marks. -/
theorem marks_none (g : MGraph) : g.Marks (fun _ => 1) g.edgeList where
  lengths := rfl
  entry p hp := by
    have hp' : p.2 < (row g.edgeList p.1).length := hp
    simp [multigraph, hp']

/-- A mark stands for an edge that is used up. -/
theorem Marks.mark {g : MGraph} {left : ℤ × ℕ → ℕ} {l : List (List ℤ)} (h : g.Marks left l)
    {s : ℤ} {i : ℕ} (he : g.IsEdge (s, i)) :
    g.Marks (Function.update left (s, i) 0) (l.modify s.toNat (·.set i (-1))) where
  lengths := (map_length_modify_set _ _ _ _).trans h.lengths
  entry p hp := by
    have hlen := congrArg List.length h.lengths
    simp only [List.length_map] at hlen
    obtain ⟨h₀, h₁⟩ := isNode_of_isEdge he
    rw [row_modify_set h₀ (by omega), Function.update_apply]
    obtain ⟨n, j⟩ := p
    by_cases hn : n = s
    · subst hn
      rw [if_pos rfl]
      by_cases hj : j = i
      · subst hj
        have hi : j < (row l n).length := by
          rw [length_row_congr h.lengths]
          exact hp
        simp [hi]
      · rw [List.getElem?_set_ne (Ne.symm hj), if_neg fun e => hj (Prod.mk.inj e).2]
        exact h.entry _ hp
    · rw [if_neg hn, if_neg fun e => hn (Prod.mk.inj e).1]
      exact h.entry _ hp

end MGraph

namespace MPathAlgoCovRepeat

/-! ### Where the search stands -/

/-- The object at the state `s`, reached at position `k - 1`; in its graph the edges of `g` with
nothing left are marked. -/
structure Stands (g : MGraph) (left : ℤ × ℕ → ℕ) (m : MPathAlgo Unit) (s : ℤ) (k : ℕ) : Prop where
  graph : m.graph = { g with edgeList := m.graph.edgeList }
  marks : g.Marks left m.graph.edgeList
  node : g.IsNode s
  states : ∃ pre, m.statePath = pre ++ [s] ∧ pre.length + 1 = k
  edges : m.edgePath.length + 1 = k
  steps : m.stepPath.length + 1 = k

/-- The object with the edge `(s, i)` marked. -/
def mark (m : MPathAlgo Unit) (s : ℤ) (i : ℕ) : MPathAlgo Unit :=
  { m with graph := { m.graph with
      edgeList := m.graph.edgeList.modify s.toNat (·.set i (-1)) } }

/-- The object with the edge `p` added to the paths `t` times. -/
def addTimes (g : MGraph) (p : ℤ × ℕ) (t : ℕ) (m : MPathAlgo Unit) : MPathAlgo Unit :=
  { m with
    statePath := m.statePath ++ List.replicate t (g.multigraph.dst p)
    edgePath := m.edgePath ++ List.replicate t (g.edgeNumber p)
    stepPath := m.stepPath ++ List.replicate t (g.stepNumber p) }

theorem addTimes_succ (g : MGraph) (p : ℤ × ℕ) (t : ℕ) (m : MPathAlgo Unit) :
    addTimes g p (t + 1) m = { addTimes g p t m with
      statePath := (addTimes g p t m).statePath ++ [g.multigraph.dst p]
      edgePath := (addTimes g p t m).edgePath ++ [g.edgeNumber p]
      stepPath := (addTimes g p t m).stepPath ++ [g.stepNumber p] } := by
  simp only [addTimes, List.replicate_succ', List.append_assoc]

variable {g : MGraph} {m : MPathAlgo Unit} {k : ℕ}

/-- Taking an edge adds all its repetitions. -/
theorem run_addTimes (hs : m.statePath.length = k) (he : m.edgePath.length + 1 = k)
    (hp : m.stepPath.length + 1 = k) (p : ℤ × ℕ) (t : ℕ) :
    (forM (List.range t) fun j => addToPaths (k + j) (g.multigraph.dst p) (g.edgeNumber p)
      (g.stepNumber p)).run m = .ok ⟨⟩ (addTimes g p t m) := by
  induction t with
  | zero => simp [addTimes]
  | succ t ih =>
    have hadd := run_addToPaths (m := addTimes g p t m) (k := k + t) (by simp [addTimes, hs])
      (by simp [addTimes, ← he]; omega) (by simp [addTimes, ← hp]; omega) (g.multigraph.dst p)
      (g.edgeNumber p) (g.stepNumber p)
    rw [List.range_succ, List.forM_append, Prog.run_bind_ok ih, List.forM_cons,
      Prog.run_bind_ok hadd, addTimes_succ]
    rfl

/-- Going back takes all repetitions out. -/
theorem run_removeTimes (hs : m.statePath.length = k) (he : m.edgePath.length + 1 = k)
    (hp : m.stepPath.length + 1 = k) (p : ℤ × ℕ) (t : ℕ) :
    (forM (List.range t).reverse fun j => removeFromPaths (k + j)).run (addTimes g p t m) =
      .ok ⟨⟩ m := by
  induction t with
  | zero => simp [addTimes]
  | succ t ih =>
    have hremove := run_removeFromPaths (m := addTimes g p t m) (k := k + t)
      (by simp [addTimes, hs]) (by simp [addTimes, ← he]; omega) (by simp [addTimes, ← hp]; omega)
      (g.multigraph.dst p) (g.edgeNumber p) (g.stepNumber p)
    rw [List.range_succ, List.reverse_concat, List.forM_cons, addTimes_succ,
      Prog.run_bind_ok hremove, ih]

/-- A path that is extended by an edge's repetitions, then by the rest of a trail. -/
theorem extend_addTimes (p : ℤ × ℕ) (r : List (ℤ × ℕ)) :
    g.extend (addTimes g p (g.budget p) m).path (g.expand r) = g.extend m.path (g.expand (p :: r)) := by
  simp [MGraph.extend, path, addTimes, MGraph.expand_cons]

namespace Stands

variable {left : ℤ × ℕ → ℕ} {s : ℤ} {i : ℕ} (h : Stands g left m s k)
include h

/-- There is one state more than entries so far. -/
theorem length_states : m.statePath.length = k := by
  obtain ⟨pre, e, hk⟩ := h.states
  rw [e, List.length_append, List.length_singleton, hk]

/-- The last state is the current one. -/
theorem get_last : ArrayList.get m.statePath ((k : ℤ) - 1) = .ok s := by
  obtain ⟨pre, e, hk⟩ := h.states
  rw [e, show (k : ℤ) - 1 = pre.length by omega]
  exact ArrayList.get_last pre s

/-- The rows of the current state. -/
theorem get_row {α : Type} {l : List (List α)}
    (hl : l.map List.length = g.edgeList.map List.length) :
    ArrayList.get l s = .ok (row l s) := by
  obtain ⟨h₀, h₁⟩ := h.node
  obtain ⟨n, rfl⟩ := Int.eq_ofNat_of_zero_le h₀
  have := congrArg List.length hl
  simp only [List.length_map] at this
  exact ArrayList.get_ok (getElem?_row h₀ (by omega))

/-- A marked edge reads as `-1`. -/
theorem run_getNeighbour (hi : g.IsEdge (s, i)) : (getNeighbour s i).run m =
    .ok (if left (s, i) = 0 then -1 else g.multigraph.dst (s, i)) m := by
  simp only [getNeighbour, EStateM.run_bind, EStateM.run_get, h.get_row h.marks.lengths,
    Prog.lift_ok, EStateM.run_pure, ArrayList.get_ok (h.marks.entry _ hi)]

omit h in
/-- To take an edge marks it. -/
theorem run_mark : (setNeighbour s i (-1)).run m = .ok ⟨⟩ (mark m s i) := rfl

/-- To go back writes the node that the mark has replaced. -/
theorem run_unmark (hi : g.IsEdge (s, i)) (hl : left (s, i) ≠ 0) :
    (setNeighbour s i (g.multigraph.dst (s, i))).run (mark m s i) = .ok ⟨⟩ m := by
  have hentry := h.marks.entry _ hi
  rw [if_neg hl] at hentry
  simp only [setNeighbour, EStateM.run_modify, mark, modify_set_restore h.node.1 hentry]

/-- The object after a turn has added the edge `(s, i)` to the paths. -/
theorem move (hg : g.Wf) (hi : g.IsEdge (s, i)) :
    Stands g (Function.update left (s, i) 0)
      (addTimes g (s, i) (g.budget (s, i)) (mark m s i)) (g.multigraph.dst (s, i))
      (k + g.budget (s, i)) := by
  obtain ⟨t, ht⟩ : ∃ t, g.budget (s, i) = t + 1 :=
    Nat.exists_eq_add_one_of_ne_zero (MGraph.budget_ne_zero hg hi)
  refine ⟨?_, h.marks.mark hi, hg.isNode_dst hi, ?_, ?_, ?_⟩
  · rw [show (addTimes g (s, i) (g.budget (s, i)) (mark m s i)).graph =
      { m.graph with edgeList := m.graph.edgeList.modify s.toNat (·.set i (-1)) } from rfl, h.graph]
  · refine ⟨m.statePath ++ List.replicate t (g.multigraph.dst (s, i)), ?_, ?_⟩
    · simp only [addTimes, mark, ht, List.replicate_succ', List.append_assoc]
    · rw [List.length_append, List.length_replicate, h.length_states, ht]
      omega
  · simp only [addTimes, mark, List.length_append, List.length_replicate, ← h.edges]
    omega
  · simp only [addTimes, mark, List.length_append, List.length_replicate, ← h.steps]
    omega

/-- The edge numbers are those of the graph without marks. -/
theorem numbers : m.graph.edgeNumberList = g.edgeNumberList := by rw [h.graph]

/-- The step numbers are those of the graph without marks. -/
theorem steps_eq : m.graph.edgeStepList = g.edgeStepList := by rw [h.graph]

/-- The repeat times are those of the graph without marks. -/
theorem repeats : m.graph.edgeRepeatTimeList = g.edgeRepeatTimeList := by rw [h.graph]

omit h in
/-- What is recorded does not change where the search stands. -/
theorem withOut (h : Stands g left m s k) (o : PathLists × Unit) : Stands g left (m.withOut o) s k :=
  ⟨h.graph, h.marks, h.node, h.states, h.edges, h.steps⟩

end Stands

/-! ### What the search records -/

/-- How often the search records where it arrives: in a stop state or a state without edges before
the loop over the edges, and where no edge is left after it. -/
def recorded (G : Multigraph ℤ) (stop : ℤ → Bool) (leaves : Bool) (c : Cfg ℤ) : ℕ :=
  (if stop c.state || (decide (G.deg c.state = 0) && leaves) then 1 else 0) +
    if c.spent G && leaves then 1 else 0

/-- The search for trails, with the stop states of the object. -/
def trails (g : MGraph) (m : MPathAlgo Unit) : Search.Tree (Cfg ℤ) (ℤ × ℕ) :=
  g.multigraph.roam (fun _ => true)
    (recorded g.multigraph m.isStopState (decide (m.stopStateNumSet.size = 0)))

/-- The results with the trails `rs`, after the path of the object, added to the result map. -/
def putTrails (g : MGraph) (m : MPathAlgo Unit) (rs : List (List (ℤ × ℕ))) (o : PathLists × Unit) :
    PathLists × Unit := putAll putPath g m.path (rs.map g.expand) o

theorem putTrails_append (rs rs' : List (List (ℤ × ℕ))) (o : PathLists × Unit) :
    putTrails g m (rs ++ rs') o = putTrails g m rs' (putTrails g m rs o) := by
  rw [putTrails, List.map_append, putAll_append]
  rfl

/-- To record trails behind an edge is to record them with the edge in front. -/
theorem putTrails_addTimes (p : ℤ × ℕ) (rs : List (List (ℤ × ℕ))) (o : PathLists × Unit) :
    putTrails g (addTimes g p (g.budget p) m) rs o = putTrails g m (rs.map (p :: ·)) o := by
  simp only [putTrails, putAll, List.map_map, List.foldl_map, Function.comp_apply, extend_addTimes]

/-- The trails below `c` that begin with the `i`-th edge. -/
def trailsVia (g : MGraph) (m : MPathAlgo Unit) (depth : ℕ) (c : Cfg ℤ) (i : ℕ) :
    List (List (ℤ × ℕ)) :=
  if decide (0 < c.left (c.state, i)) && true then
    ((trails g m).runs depth (c.step g.multigraph (c.state, i))).map ((c.state, i) :: ·)
  else []

variable {c : Cfg ℤ} {i depth : ℕ}

/-- One turn of the loop over the neighbours: the edge is taken unless it is used up. -/
theorem run_tryUnused (hg : g.Wf) (h : Stands g c.left m c.state k)
    (hi : g.IsEdge (c.state, i)) (b : Bool) {o : PathLists × Unit}
    (next : ℤ → ℕ → Prog (MPathAlgo Unit) Unit)
    (hnext : 0 < c.left (c.state, i) →
      (next (g.multigraph.dst (c.state, i)) (k + g.budget (c.state, i))).run
        (addTimes g (c.state, i) (g.budget (c.state, i)) (mark m c.state i)) = .ok ⟨⟩
        ((addTimes g (c.state, i) (g.budget (c.state, i)) (mark m c.state i)).withOut o)) :
    (tryUnused next c.state k (row g.edgeNumberList c.state) (row g.edgeStepList c.state)
      (row g.edgeRepeatTimeList c.state) b i).run m =
      if 0 < c.left (c.state, i) then .ok true (m.withOut o) else .ok b m := by
  have hdst := hg.isNode_dst hi
  have htimes : i < (row g.edgeRepeatTimeList c.state).length := by
    rw [hg.length_repeats]
    exact hi
  have hnumber : i < (row g.edgeNumberList c.state).length := by
    rw [hg.length_numbers]
    exact hi
  have hstep : i < (row g.edgeStepList c.state).length := by
    rw [hg.length_steps]
    exact hi
  rw [tryUnused, Prog.run_bind_ok (h.run_getNeighbour hi)]
  by_cases hl : c.left (c.state, i) = 0
  · rw [if_pos hl, if_pos rfl, if_neg (by omega)]
    rfl
  · have hne : g.multigraph.dst (c.state, i) ≠ -1 := by
      have := hdst.1
      omega
    have hback := h.withOut o
    rw [if_neg hl, if_neg hne, if_pos (Nat.pos_of_ne_zero hl), Prog.run_bind_ok Stands.run_mark]
    simp only [ArrayList.get_ok (List.getElem?_eq_getElem htimes),
      ArrayList.get_ok (List.getElem?_eq_getElem hnumber),
      ArrayList.get_ok (List.getElem?_eq_getElem hstep), Prog.lift_ok, pure_bind]
    have htoNat : (row g.edgeRepeatTimeList c.state)[i].toNat = g.budget (c.state, i) := by
      simp [MGraph.budget, htimes]
    have hnumber' : (row g.edgeNumberList c.state)[i] = g.edgeNumber (c.state, i) := by
      simp [MGraph.edgeNumber, hnumber]
    have hstep' : (row g.edgeStepList c.state)[i] = g.stepNumber (c.state, i) := by
      simp [MGraph.stepNumber, hstep]
    rw [htoNat, hnumber', hstep', Prog.run_bind_ok (run_addTimes (m := mark m c.state i)
      h.length_states h.edges h.steps _ _), Prog.run_bind_ok (hnext (Nat.pos_of_ne_zero hl)),
      show (addTimes g (c.state, i) (g.budget (c.state, i)) (mark m c.state i)).withOut o =
        addTimes g (c.state, i) (g.budget (c.state, i)) (mark (m.withOut o) c.state i) from rfl,
      Prog.run_bind_ok (run_removeTimes (m := mark (m.withOut o) c.state i) h.length_states
        h.edges h.steps _ _), Prog.run_bind_ok (hback.run_unmark hi hl)]
    rfl

/-- A place of the search that records: under the condition, the path once. -/
theorem run_addPath_if (g : MGraph) (m : MPathAlgo Unit) (o : PathLists × Unit) (b : Bool) :
    (if b = true then addPath else pure PUnit.unit).run (m.withOut o) = .ok ⟨⟩
      (m.withOut (putTrails g m (List.replicate (if b then 1 else 0) []) o)) := by
  cases b with
  | true => simp [putTrails, putAll, putPath, MGraph.expand, addPath, withOut, path]
  | false => rfl

/-- A path is added or not, then the search goes on. -/
theorem run_addPath_then (g : MGraph) (m : MPathAlgo Unit) (b : Bool) (next : Prog (MPathAlgo Unit) Unit) :
    (if b = true then do addPath; next else next).run m =
      next.run (m.withOut (putTrails g m (List.replicate (if b then 1 else 0) []) m.out)) := by
  have hfirst := run_addPath_if g m m.out b
  cases b with
  | true => exact Prog.run_bind_ok hfirst
  | false => rfl

/-- The loop over the edges of a state. -/
theorem run_loop {turn : Bool → ℕ → Prog (MPathAlgo Unit) Bool}
    (hturn : ∀ o b, ∀ i < g.multigraph.deg c.state, (turn b i).run (m.withOut o) =
      .ok (b || decide (0 < c.left (c.state, i)))
        (m.withOut (putTrails g m (trailsVia g m depth c i) o))) (o : PathLists × Unit) :
    ((List.range (g.multigraph.deg c.state)).foldlM turn false).run (m.withOut o) =
      .ok (!c.spent g.multigraph) (m.withOut (putTrails g m
        ((List.range (g.multigraph.deg c.state)).flatMap (trailsVia g m depth c)) o)) := by
  have hloop := Prog.run_foldlM (l := List.range (g.multigraph.deg c.state)) (f := turn)
    (fun p => p.any fun i => decide (0 < c.left (c.state, i)))
    (fun p => m.withOut (putTrails g m (p.flatMap (trailsVia g m depth c)) o))
    fun p i q hp => by
      have hi : i < g.multigraph.deg c.state :=
        List.mem_range.mp (hp ▸ List.mem_append_right p List.mem_cons_self)
      rw [hturn _ _ i hi, List.any_append, List.flatMap_append, putTrails_append]
      simp
  have hspent : (List.range (g.multigraph.deg c.state)).any
      (fun i => decide (0 < c.left (c.state, i))) = !c.spent g.multigraph := by
    rw [Cfg.spent, List.not_all_eq_any_not]
    refine congrArg (List.any _) (funext fun i => ?_)
    simp [Nat.pos_iff_ne_zero]
  rw [← hspent]
  exact hloop

/-- What the search records at and below a configuration, in its order. -/
theorem runs_trails : (trails g m).runs (depth + 1) c =
    List.replicate (if m.isStopState c.state || (decide (g.multigraph.deg c.state = 0) &&
        decide (m.stopStateNumSet.size = 0)) then 1 else 0) [] ++
      (List.range (g.multigraph.deg c.state)).flatMap (trailsVia g m depth c) ++
      List.replicate (if c.spent g.multigraph && decide (m.stopStateNumSet.size = 0) then 1 else 0)
        [] := by
  have hruns : (trails g m).runs (depth + 1) c =
      List.replicate (recorded g.multigraph m.isStopState (decide (m.stopStateNumSet.size = 0)) c) []
        ++ (List.range (g.multigraph.deg c.state)).flatMap (trailsVia g m depth c) := runs_roam
  rw [hruns, recorded, List.replicate_add, List.append_assoc, List.append_assoc]
  congr 1
  cases hs : c.spent g.multigraph with
  | true =>
    -- with no edge left, no edge begins a trail
    have hnone : (List.range (g.multigraph.deg c.state)).flatMap (trailsVia g m depth c) = [] := by
      refine List.flatMap_eq_nil_iff.mpr fun i hi => ?_
      have hl := of_decide_eq_true (List.all_eq_true.mp hs i hi)
      simp [trailsVia, hl]
    rw [hnone, List.nil_append, List.append_nil]
  | false => simp

/-- **What a search on unused edges records.** -/
theorem run_dfs (hg : g.Wf) {depth : ℕ} {m : MPathAlgo Unit} {c : Cfg ℤ} {k : ℕ}
    (h : Stands g c.left m c.state k) (hone : ∀ p, c.left p ≤ 1)
    (hd : c.rank g.multigraph < depth) :
    (dfs depth c.state k).run m =
      .ok ⟨⟩ (m.withOut (putTrails g m ((trails g m).runs depth c) m.out)) := by
  induction depth generalizing m c k with
  | zero => exact absurd hd (Nat.not_lt_zero _)
  | succ depth ih =>
    have hdeg : (row m.graph.edgeList c.state).length = g.multigraph.deg c.state :=
      length_row_congr h.marks.lengths _
    rw [dfs]
    simp only [EStateM.run_bind, EStateM.run_get, h.get_row h.marks.lengths, h.numbers, h.steps_eq,
      h.repeats, h.get_row hg.numbers, h.get_row hg.steps, h.get_row hg.repeats, h.get_last,
      Prog.lift_ok, EStateM.run_pure, hdeg]
    have hturn : ∀ o b, ∀ i < g.multigraph.deg c.state,
        (tryUnused (fun n k => dfs depth n k) c.state k (row g.edgeNumberList c.state)
          (row g.edgeStepList c.state) (row g.edgeRepeatTimeList c.state) b i).run (m.withOut o) =
        .ok (b || decide (0 < c.left (c.state, i)))
          (m.withOut (putTrails g m (trailsVia g m depth c i) o)) := fun o b i hi => by
      have hrun := run_tryUnused (o := putTrails g m (trailsVia g m depth c i) o) hg (h.withOut o) hi
        b (fun n k => dfs depth n k) fun hl => ?_
      · rw [hrun]
        by_cases hl : 0 < c.left (c.state, i)
        · simp [hl]
        · simp [hl, trailsVia, putTrails, putAll]
      · have hleft : (c.step g.multigraph (c.state, i)).left =
            Function.update c.left (c.state, i) 0 := by
          have := hone (c.state, i)
          rw [Cfg.step, Nat.sub_eq_zero_of_le this]
        have hstands := (h.withOut o).move hg hi
        rw [← hleft] at hstands
        have hrec := ih (c := c.step g.multigraph (c.state, i)) hstands (fun p => ?_) ?_
        · refine hrec.trans ?_
          rw [trailsVia, if_pos (by simpa using hl), ← putTrails_addTimes]
          rfl
        · rw [hleft, Function.update_apply]
          split
          · exact Nat.zero_le 1
          · exact hone p
        · exact rank_step (m := { m with graph := g }) hi hl hd
    rw [run_addPath_then g, Prog.run_bind_ok (run_loop hturn _), Bool.not_not, run_addPath_if g,
      ← putTrails_append, ← putTrails_append, ← List.append_assoc, runs_trails]

/-! ### What `genPath` returns -/

/-- The trails that the search from `s` records. -/
def trailsFrom (a : Args) (s : ℤ) : List (List (ℤ × ℕ)) :=
  (a.graph.multigraph.roam (fun _ => true) (recorded a.graph.multigraph a.stop a.leaves)).runs
    (a.graph.multigraph.edges.length + 1) ⟨s, fun _ => 1, fun _ => 0, 1⟩

/-- The path of the trail `r` from `s`. -/
def trailPath (g : MGraph) (s : ℤ) (r : List (ℤ × ℕ)) : Path := g.pathOf s (g.expand r)

/-- The start states with the trails from them. -/
def found (o : VisitOrder ℤ) (a : Args) : List (ℤ × List (ℤ × ℕ)) :=
  (o.visit a.starts).flatMap fun s => (trailsFrom a s).map (s, ·)

/-- The trails found whose paths the filters keep. -/
def covered (o : VisitOrder ℤ) (a : Args) : List (ℤ × List (ℤ × ℕ)) :=
  (found o a).filter fun x => passes a (trailPath a.graph x.1 x.2)

/-- The paths of some trails. -/
def paths (a : Args) (rs : List (ℤ × List (ℤ × ℕ))) : List Path :=
  rs.map fun x => trailPath a.graph x.1 x.2

/-- There is room for as many moves as there are edges. -/
theorem rank_one (G : Multigraph ℤ) (s : ℤ) :
    Cfg.rank G ⟨s, fun _ => 1, fun _ => 0, 1⟩ < G.edges.length + 1 := by
  simp [Cfg.rank]

/-- A round adds the paths of the trails from its state. -/
theorem run_round {a : Args} (h : a.graph.Wf) {s : ℤ} (hs : a.graph.IsNode s)
    (l : List RouteNums) (ps : List Path) :
    (round (dfs (a.graph.multigraph.edges.length + 1)) s).run
        ((a.ready () l).withOut (.ofPaths ps, ())) =
      .ok ⟨⟩ ((a.ready () l).withOut
        (.ofPaths (ps ++ (trailsFrom a s).map (trailPath a.graph s)), ())) := by
  have hstands : Stands a.graph (fun _ => 1) (((a.ready () l).withOut (.ofPaths ps, ())).atStart s) s 1 :=
    ⟨rfl, a.graph.marks_none, hs, ⟨[], rfl, rfl⟩, rfl, rfl⟩
  have hrun := run_dfs (c := ⟨s, fun _ => 1, fun _ => 0, 1⟩) h hstands (fun _ => le_rfl)
    (rank_one _ s)
  refine MPathAlgo.run_round (hrun.trans ?_)
  have hput := foldl_putPath ((trailsFrom a s).map (trailPath a.graph s)) ps ()
  rw [List.foldl_map] at hput
  rw [putTrails, putAll, List.foldl_map]
  exact congrArg (fun o => EStateM.Result.ok PUnit.unit
    (((a.ready () l).withOut o).atStart s)) hput

/-- **What `genPath` returns and leaves.** -/
theorem run_genPath {a : Args} (h : a.graph.Wf) (hr : a.CovsNamed) (o : VisitOrder ℤ)
    (m : MPathAlgo Unit) :
    ∃ l, (genPath o a).run m = .ok (.ofPaths (paths a (covered o a)))
      ((a.ready () l).withOut (.ofPaths (paths a (covered o a)), ())) := by
  obtain ⟨l, hinit⟩ := run_init_ok h hr m
  have hloop : (forM (o.visit a.starts) (round (dfs (a.graph.multigraph.edges.length + 1)))).run
      (a.ready () l) = .ok ⟨⟩ ((a.ready () l).withOut (.ofPaths (paths a (found o a)), ())) := by
    refine Prog.run_forM (fun p => (a.ready () l).withOut
      (.ofPaths (paths a (p.flatMap fun s => (trailsFrom a s).map (s, ·))), ())) fun p s q hp => ?_
    have hs : s ∈ o.visit a.starts := by
      rw [hp]
      exact List.mem_append_right p List.mem_cons_self
    refine (run_round h (isNode_of_isStart h ((Args.mem_starts h).mp (o.mem_visit.mp hs))) l _).trans
      ?_
    simp [paths, Function.comp_def]
  refine ⟨l, ?_⟩
  rw [genPath, Prog.run_bind_ok hinit, Prog.run_bind_get]
  refine (Prog.run_bind_ok hloop).trans ?_
  rw [run_filters, show (paths a (found o a)).filter (passes a) = paths a (covered o a) from
    List.filter_map]
  rfl

/-- The order of the start states decides the order of the trails only. -/
theorem covered_perm (o o' : VisitOrder ℤ) (a : Args) : (covered o a).Perm (covered o' a) :=
  ((o.visit_perm o' a.starts).flatMap_right _).filter _

/-- From any object and in any order of the start states, the same paths are returned. -/
theorem samePaths_orders {a : Args} (h : a.graph.Wf) (o o' : VisitOrder ℤ) (m m' : MPathAlgo Unit) :
    SamePaths ((genPath o a).eval m) ((genPath o' a).eval m') := by
  by_cases hr : a.CovsNamed
  · obtain ⟨l, hrun⟩ := run_genPath h hr o m
    obtain ⟨l', hrun'⟩ := run_genPath h hr o' m'
    rw [Prog.eval_ok hrun, Prog.eval_ok hrun', samePaths_ofPaths]
    exact (covered_perm o o' a).map _
  · obtain ⟨e, l, hinit⟩ := run_init_throws h hr m
    obtain ⟨e', l', hinit'⟩ := run_init_throws h hr m'
    rw [genPath, genPath, Prog.eval_error (Prog.run_bind_error hinit),
      Prog.eval_error (Prog.run_bind_error hinit')]
    exact .none

end MPathAlgoCovRepeat

end MBT
