import MBT.Path.MPathAlgo

/-!
# Path — Dfs

The depth-first searches of the algorithms, and what they record.

Two bodies occur in the sources: `dfs`, which follows every edge with repeat time left, and
`dfsDist`, which also keeps a list of the positions at which the states of the path were entered
and follows an edge only where `closeEnough` accepts the entry of its end state.  An algorithm
differs from another of the same body in what it does with a path found, the parameter `record`.
The recursion is on `depth`, the calls the stack has room for.

* `run_dfs`, `run_dfsDist`: with room for the repeat times left, a search returns; it has put the
  runs of `Multigraph.explore` into the results, one after the other, and restored all else.
-/

namespace MBT
open Exec Multigraph

namespace MPathAlgo

variable {ω : Type}

/-! ### The steps of a search -/

/-- `repeatTime.get(i)`, in the row of `curState`. -/
def getRepeatTime (curState : ℤ) (i : ℕ) : Prog (MPathAlgo ω) ℤ := do
  let m ← get
  let repeatTime ← Prog.lift (ArrayList.get m.graph.edgeRepeatTimeList curState)
  Prog.lift (ArrayList.get repeatTime i)

/-- `repeatTime.set(i, t)`; the row is the graph's own. -/
def setRepeatTime (curState : ℤ) (i : ℕ) (t : ℤ) : Prog (MPathAlgo ω) Unit := modify fun m =>
  { m with graph := m.graph.setRepeatTime curState i t }

/-- Adds a state at a position of the current path. -/
def addState (pos : ℕ) (n : ℤ) : Prog (MPathAlgo ω) Unit := do
  let m ← get
  let statePath ← Prog.lift (ArrayList.add m.statePath pos n)
  set { m with statePath }

/-- Takes the state at a position out of the current path. -/
def removeState (pos : ℕ) : Prog (MPathAlgo ω) Unit := do
  let m ← get
  let statePath ← Prog.lift (ArrayList.remove m.statePath pos)
  set { m with statePath }

/-- Add a state at `curPos`, and the edge and the step that lead to it before. -/
def addToPaths (curPos : ℕ) (neighbour edgenumber stepnumber : ℤ) :
    Prog (MPathAlgo ω) Unit := do
  addState curPos neighbour
  let m ← get
  let edgePath ← Prog.lift (ArrayList.add m.edgePath (curPos - 1) edgenumber)
  let stepPath ← Prog.lift (ArrayList.add m.stepPath (curPos - 1) stepnumber)
  set { m with edgePath, stepPath }

/-- Takes a state, and the edge and the step that led to it, out of the current path. -/
def removeFromPaths (curPos : ℕ) : Prog (MPathAlgo ω) Unit := do
  removeState curPos
  let m ← get
  let edgePath ← Prog.lift (ArrayList.remove m.edgePath (curPos - 1))
  let stepPath ← Prog.lift (ArrayList.remove m.stepPath (curPos - 1))
  set { m with edgePath, stepPath }

/-! ### The search on repeat times -/

/-- The turn of the loop for the `i`-th edge of `curState`; `next` is the recursive call. -/
def tryEdge (next : ℤ → ℕ → Prog (MPathAlgo ω) Unit) (curState : ℤ) (curPos : ℕ)
    (neighbours edgenumbers stepnumbers : List ℤ) (hasOkNeighbour : Bool) (i : ℕ) :
    Prog (MPathAlgo ω) Bool := do
  let leftTime ← getRepeatTime curState i
  let neighbour ← Prog.lift (ArrayList.get neighbours i)
  let edgenumber ← Prog.lift (ArrayList.get edgenumbers i)
  let stepnumber ← Prog.lift (ArrayList.get stepnumbers i)
  if leftTime > 0 then
    setRepeatTime curState i (leftTime - 1)
    addToPaths curPos neighbour edgenumber stepnumber
    next neighbour (curPos + 1)
    removeFromPaths curPos
    setRepeatTime curState i leftTime
    return true
  else
    return hasOkNeighbour

/-- The search of `MPathAlgoCovAll`, `MPathAlgoCovLeast` and the partial routes. -/
def dfs (record : ℕ → Prog (MPathAlgo ω) Unit) : ℕ → ℤ → ℕ → Prog (MPathAlgo ω) Unit
  | 0, _, _ => throw .stackOverflow
  | depth + 1, curState, curPos => do
    let m ← get
    let neighbours ← Prog.lift (ArrayList.get m.graph.edgeList curState)
    let edgenumbers ← Prog.lift (ArrayList.get m.graph.edgeNumberList curState)
    let stepnumbers ← Prog.lift (ArrayList.get m.graph.edgeStepList curState)
    let last ← Prog.lift (ArrayList.get m.statePath (curPos - 1))
    if m.isStopState last || (neighbours.length = 0 && m.stopStateNumSet.size = 0) then
      record curPos
    else
      let hasOkNeighbour ← (List.range neighbours.length).foldlM
        (tryEdge (fun n k => dfs record depth n k) curState curPos neighbours edgenumbers stepnumbers)
        false
      if !hasOkNeighbour && m.stopStateNumSet.size = 0 then
        record curPos

/-! ### The search on entry positions -/

end MPathAlgo

/-- The fields of the subclasses that keep, for each state, the position at which the current path
entered it. -/
structure Dist (ω : Type) where
  stateDistList : List ℤ
  own : ω

namespace MPathAlgo

variable {ω : Type}

/-- `stateDistList.set(n, d)`. -/
def setStateDist (n d : ℤ) : Prog (MPathAlgo (Dist ω)) Unit := do
  let m ← get
  let stateDistList ← Prog.lift (ArrayList.set m.own.stateDistList n d)
  set { m with own := { m.own with stateDistList } }

/-- The turn for the `i`-th edge: it is followed where `closeEnough` accepts the position and the
entry of its end state. -/
def tryNear (closeEnough : ℤ → ℤ → Bool) (next : ℤ → ℕ → Prog (MPathAlgo (Dist ω)) Unit)
    (curState : ℤ) (curPos : ℕ) (neighbours edgenumbers stepnumbers : List ℤ)
    (hasOkNeighbour : Bool) (i : ℕ) : Prog (MPathAlgo (Dist ω)) Bool := do
  let leftTime ← getRepeatTime curState i
  let neighbour ← Prog.lift (ArrayList.get neighbours i)
  let edgenumber ← Prog.lift (ArrayList.get edgenumbers i)
  let stepnumber ← Prog.lift (ArrayList.get stepnumbers i)
  let m ← get
  let curDistance ← Prog.lift (ArrayList.get m.own.stateDistList neighbour)
  if leftTime > 0 && closeEnough curPos curDistance then
    setRepeatTime curState i (leftTime - 1)
    addToPaths curPos neighbour edgenumber stepnumber
    setStateDist neighbour curPos
    next neighbour (curPos + 1)
    removeFromPaths curPos
    setStateDist neighbour curDistance
    setRepeatTime curState i leftTime
    return true
  else if leftTime > 0 && !closeEnough curPos curDistance then
    return true
  else
    return hasOkNeighbour

/-- The search of `MPathAlgoCovShort`, `MPathAlgoCovLong` and their `N2N` siblings. -/
def dfsDist (closeEnough : ℤ → ℤ → Bool) (record : ℕ → Prog (MPathAlgo (Dist ω)) Unit) :
    ℕ → ℤ → ℕ → Prog (MPathAlgo (Dist ω)) Unit
  | 0, _, _ => throw .stackOverflow
  | depth + 1, curState, curPos => do
    let m ← get
    let neighbours ← Prog.lift (ArrayList.get m.graph.edgeList curState)
    let edgenumbers ← Prog.lift (ArrayList.get m.graph.edgeNumberList curState)
    let stepnumbers ← Prog.lift (ArrayList.get m.graph.edgeStepList curState)
    let last ← Prog.lift (ArrayList.get m.statePath (curPos - 1))
    if m.isStopState last || (neighbours.length = 0 && m.stopStateNumSet.size = 0) then
      record curPos
    else if neighbours.length = 0 then
      return
    else
      let hasOkNeighbour ← (List.range neighbours.length).foldlM
        (tryNear closeEnough (fun n k => dfsDist closeEnough record depth n k) curState curPos
          neighbours edgenumbers stepnumbers) false
      if !hasOkNeighbour && m.stopStateNumSet.size = 0 then
        record curPos

/-! ### Where a search stands -/

/-- The object at a state `s` reached at position `k - 1`. -/
structure At (m : MPathAlgo ω) (s : ℤ) (k : ℕ) : Prop where
  aligned : m.graph.Aligned
  node : m.graph.IsNode s
  states : ∃ pre, m.statePath = pre ++ [s] ∧ pre.length + 1 = k
  edges : m.edgePath.length + 1 = k
  steps : m.stepPath.length + 1 = k

/-- What a search adds to. -/
def out (m : MPathAlgo ω) : PathLists × ω := (m.pathsMap, m.own)

/-- The object with other paths recorded and other fields of its subclass. -/
def withOut (m : MPathAlgo ω) (o : PathLists × ω) : MPathAlgo ω :=
  { m with pathsMap := o.1, own := o.2 }

@[simp] theorem out_withOut (m : MPathAlgo ω) (o : PathLists × ω) : (m.withOut o).out = o := rfl

@[simp] theorem withOut_out (m : MPathAlgo ω) : m.withOut m.out = m := rfl

@[simp] theorem withOut_withOut (m : MPathAlgo ω) (o o' : PathLists × ω) :
    (m.withOut o).withOut o' = m.withOut o' := rfl

/-- The object with the repeat time of the edge `p` less by one. -/
def spend (m : MPathAlgo ω) (p : ℤ × ℕ) : MPathAlgo ω :=
  { m with graph := m.graph.setRepeatTime p.1 p.2 ((m.graph.budget p : ℤ) - 1) }

/-- The object with the edge `p` used, and added to the paths. -/
def move (m : MPathAlgo ω) (p : ℤ × ℕ) : MPathAlgo ω :=
  { m.spend p with
    statePath := m.statePath ++ [m.graph.multigraph.dst p]
    edgePath := m.edgePath ++ [m.graph.edgeNumber p]
    stepPath := m.stepPath ++ [m.graph.stepNumber p] }

theorem move_withOut (m : MPathAlgo ω) (p : ℤ × ℕ) (o : PathLists × ω) :
    (m.move p).withOut o = (m.withOut o).move p := rfl

end MPathAlgo

/-- The path `p` continued by the edges `r`. -/
def MGraph.extend (g : MGraph) (p : Path) (r : List (ℤ × ℕ)) : Path where
  states := p.states ++ r.map g.multigraph.dst
  edges := p.edges ++ r.map g.edgeNumber
  steps := p.steps ++ r.map g.stepNumber

namespace MPathAlgo

variable {ω : Type}

@[simp] theorem extend_nil (g : MGraph) (p : Path) : g.extend p [] = p := by
  simp [MGraph.extend]

theorem extend_cons (m : MPathAlgo ω) (p : ℤ × ℕ) (r : List (ℤ × ℕ)) :
    (m.move p).graph.extend (m.move p).path r = m.graph.extend m.path (p :: r) := by
  simp [MGraph.extend, path, move, spend, MGraph.setRepeatTime, MGraph.multigraph, MGraph.edgeNumber,
    MGraph.stepNumber]

/-- An edge is added at the end of the three lists. -/
theorem run_addToPaths {m : MPathAlgo ω} {k : ℕ} (hs : m.statePath.length = k)
    (he : m.edgePath.length + 1 = k) (hp : m.stepPath.length + 1 = k) (n e p : ℤ) :
    (addToPaths k n e p).run m = .ok ⟨⟩
      { m with
        statePath := m.statePath ++ [n]
        edgePath := m.edgePath ++ [e]
        stepPath := m.stepPath ++ [p] } := by
  have hs' : ArrayList.add m.statePath k n = .ok (m.statePath ++ [n]) := by simp [← hs]
  have he' : ArrayList.add m.edgePath (k - 1) e = .ok (m.edgePath ++ [e]) := by simp [← he]
  have hp' : ArrayList.add m.stepPath (k - 1) p = .ok (m.stepPath ++ [p]) := by simp [← hp]
  simp only [addToPaths, addState, EStateM.run_bind, EStateM.run_get, EStateM.run_set,
    EStateM.run_pure, Prog.lift_ok, hs', he', hp']

/-- The last edge is taken out of the three lists. -/
theorem run_removeFromPaths {m : MPathAlgo ω} {k : ℕ} (hs : m.statePath.length = k)
    (he : m.edgePath.length + 1 = k) (hp : m.stepPath.length + 1 = k) (n e p : ℤ) :
    (removeFromPaths k).run
      { m with
        statePath := m.statePath ++ [n]
        edgePath := m.edgePath ++ [e]
        stepPath := m.stepPath ++ [p] } = .ok ⟨⟩ m := by
  have hs' : ArrayList.remove (m.statePath ++ [n]) k = .ok m.statePath := by simp [← hs]
  have he' : ArrayList.remove (m.edgePath ++ [e]) (k - 1) = .ok m.edgePath := by simp [← he]
  have hp' : ArrayList.remove (m.stepPath ++ [p]) (k - 1) = .ok m.stepPath := by simp [← hp]
  simp only [removeFromPaths, removeState, EStateM.run_bind, EStateM.run_get, EStateM.run_set,
    EStateM.run_pure, Prog.lift_ok, hs', he', hp']

namespace At

variable {m : MPathAlgo ω} {s : ℤ} {k : ℕ} (h : m.At s k)
include h

/-- There is one state more than edges. -/
theorem length_states : m.statePath.length = k := by
  obtain ⟨pre, e, hk⟩ := h.states
  rw [e, List.length_append, List.length_singleton, hk]

/-- The last state is the current one. -/
theorem get_last : ArrayList.get m.statePath ((k : ℤ) - 1) = .ok s := by
  obtain ⟨pre, e, hk⟩ := h.states
  rw [e, show (k : ℤ) - 1 = pre.length by omega]
  exact ArrayList.get_last pre s

/-- The rows of the current state. -/
theorem get_row {α : Type} {l : List (List α)}
    (hl : l.map List.length = m.graph.edgeList.map List.length) :
    ArrayList.get l s = .ok (row l s) := by
  obtain ⟨h₀, h₁⟩ := h.node
  obtain ⟨n, rfl⟩ := Int.eq_ofNat_of_zero_le h₀
  have := congrArg List.length hl
  simp only [List.length_map] at this
  exact ArrayList.get_ok (getElem?_row h₀ (by omega))

omit h in
/-- The node that an edge of the current state enters. -/
theorem get_dst {i : ℕ} (hi : i < (row m.graph.edgeList s).length) :
    ArrayList.get (row m.graph.edgeList s) i = .ok (m.graph.multigraph.dst (s, i)) :=
  ArrayList.get_ok (by simp [MGraph.multigraph, hi])

/-- The number of an edge of the current state. -/
theorem get_edgeNumber {i : ℕ} (hi : i < (row m.graph.edgeList s).length) :
    ArrayList.get (row m.graph.edgeNumberList s) i = .ok (m.graph.edgeNumber (s, i)) := by
  have hi' : i < (row m.graph.edgeNumberList s).length := by rw [h.aligned.length_numbers]; exact hi
  exact ArrayList.get_ok (by simp [MGraph.edgeNumber, hi'])

/-- The step of an edge of the current state. -/
theorem get_stepNumber {i : ℕ} (hi : i < (row m.graph.edgeList s).length) :
    ArrayList.get (row m.graph.edgeStepList s) i = .ok (m.graph.stepNumber (s, i)) := by
  have hi' : i < (row m.graph.edgeStepList s).length := by rw [h.aligned.length_steps]; exact hi
  exact ArrayList.get_ok (by simp [MGraph.stepNumber, hi'])

/-- The repeat time left, as it is read before the edge `(s, i)` is tried. -/
theorem run_getRepeatTime {i : ℕ} (hi : i < (row m.graph.edgeList s).length) :
    ∃ t : ℤ, (row m.graph.edgeRepeatTimeList s)[i]? = some t ∧
      m.graph.budget (s, i) = t.toNat ∧ (getRepeatTime s i).run m = .ok t m := by
  have hi' : i < (row m.graph.edgeRepeatTimeList s).length := by
    rw [h.aligned.length_repeats]; exact hi
  refine ⟨_, List.getElem?_eq_getElem hi', by simp [MGraph.budget, hi'], ?_⟩
  simp only [getRepeatTime, EStateM.run_bind, EStateM.run_get, h.get_row h.aligned.repeats,
    Prog.lift_ok, EStateM.run_pure, ArrayList.get_ok (List.getElem?_eq_getElem hi')]

/-- Along an edge, the object stands at the node it enters. -/
theorem move {i : ℕ} (hi : i < (row m.graph.edgeList s).length) :
    (m.move (s, i)).At (m.graph.multigraph.dst (s, i)) (k + 1) where
  aligned := h.aligned.setRepeatTime _ _ _
  node := h.aligned.isNode_dst hi
  states := ⟨m.statePath, rfl, by rw [h.length_states]⟩
  edges := by simp [MPathAlgo.move, h.edges]
  steps := by simp [MPathAlgo.move, h.steps]

/-- Along an edge, the budget of this edge falls by one. -/
theorem budget_move {i : ℕ} (hi : i < (row m.graph.edgeList s).length) :
    (m.move (s, i)).graph.budget =
      Function.update m.graph.budget (s, i) (m.graph.budget (s, i) - 1) := by
  rw [MPathAlgo.move, spend, MGraph.budget_setRepeatTime h.aligned hi]
  congr 1
  omega

omit h in
/-- The first assignment of a turn that uses the edge `(s, i)`. -/
theorem run_spend {i : ℕ} {t : ℤ} (hb : m.graph.budget (s, i) = t.toNat) (ht : 0 < t) :
    (setRepeatTime s i (t - 1)).run m = .ok ⟨⟩ (m.spend (s, i)) := by
  have e : ((m.graph.budget (s, i) : ℕ) : ℤ) - 1 = t - 1 := by omega
  simp only [setRepeatTime, EStateM.run_modify, spend, e]

/-- To take an edge adds it to the three lists. -/
theorem run_move (i : ℕ) :
    (addToPaths k (m.graph.multigraph.dst (s, i)) (m.graph.edgeNumber (s, i))
      (m.graph.stepNumber (s, i))).run (m.spend (s, i)) = .ok ⟨⟩ (m.move (s, i)) :=
  run_addToPaths (m := m.spend (s, i)) h.length_states h.edges h.steps _ _ _

/-- To go back takes it out of them. -/
theorem run_unmove (i : ℕ) :
    (removeFromPaths k).run (m.move (s, i)) = .ok ⟨⟩ (m.spend (s, i)) :=
  run_removeFromPaths (m := m.spend (s, i)) h.length_states h.edges h.steps _ _ _

/-- The last assignment of the turn. -/
theorem run_unspend {i : ℕ} {t : ℤ} (hrow : (row m.graph.edgeRepeatTimeList s)[i]? = some t) :
    (setRepeatTime s i t).run (m.spend (s, i)) = .ok ⟨⟩ m := by
  simp only [setRepeatTime, EStateM.run_modify, spend,
    MGraph.setRepeatTime_restore h.node.1 hrow]

omit h in
/-- What is recorded does not change where the object stands. -/
theorem withOut (h : m.At s k) (o : PathLists × ω) : (m.withOut o).At s k :=
  ⟨h.aligned, h.node, h.states, h.edges, h.steps⟩

end At

/-! ### What a search records -/

/-- `record` changes the results by `put` and nothing else, where `ok` holds of them. -/
structure Records (n : ℕ) (ok : PathLists × ω → Prop) (record : ℕ → Prog (MPathAlgo ω) Unit)
    (put : Path → PathLists × ω → PathLists × ω) : Prop where
  run : ∀ (m : MPathAlgo ω) s k, m.At s k → m.graph.edgeList.length = n → ok m.out →
    (record k).run m = .ok ⟨⟩ (m.withOut (put m.path m.out))
  keeps : ∀ p o, ok o → ok (put p o)

variable {n : ℕ} {ok : PathLists × ω → Prop} {record : ℕ → Prog (MPathAlgo ω) Unit}
  {put : Path → PathLists × ω → PathLists × ω}

/-- The results with the continuations `rs` of `p` put into them. -/
def putAll (put : Path → PathLists × ω → PathLists × ω) (g : MGraph) (p : Path)
    (rs : List (List (ℤ × ℕ))) (o : PathLists × ω) : PathLists × ω :=
  rs.foldl (fun o r => put (g.extend p r) o) o

/-- Paths that are recorded keep what recording keeps. -/
theorem Records.keeps_putAll (hr : Records n ok record put) (g : MGraph) (p : Path)
    (rs : List (List (ℤ × ℕ))) {o : PathLists × ω} (h : ok o) : ok (putAll put g p rs o) := by
  unfold putAll
  induction rs generalizing o with
  | nil => exact h
  | cons r rs ih => exact ih (hr.keeps _ _ h)

theorem putAll_append (g : MGraph) (p : Path) (rs rs' : List (List (ℤ × ℕ)))
    (o : PathLists × ω) :
    putAll put g p (rs ++ rs') o = putAll put g p rs' (putAll put g p rs o) := List.foldl_append

/-- To record runs behind an edge is to record them with the edge in front. -/
theorem putAll_move (m : MPathAlgo ω) (p : ℤ × ℕ) (rs : List (List (ℤ × ℕ)))
    (o : PathLists × ω) :
    putAll put (m.move p).graph (m.move p).path rs o =
      putAll put m.graph m.path (rs.map (p :: ·)) o := by
  simp only [putAll, List.foldl_map, extend_cons]

/-- The search for runs in the graph of the object. -/
def search (m : MPathAlgo ω) (allow : ℤ → ℤ → Bool) : Search.Tree (Cfg ℤ) (ℤ × ℕ) :=
  m.graph.multigraph.explore m.isStopState (m.stopStateNumSet.size = 0) allow

/-- The runs below `c` that begin with the `i`-th edge. -/
def runsVia (m : MPathAlgo ω) (allow : ℤ → ℤ → Bool) (depth : ℕ) (c : Cfg ℤ) (i : ℕ) :
    List (List (ℤ × ℕ)) :=
  if decide (0 < c.left (c.state, i)) &&
      allow c.pos (c.dist (m.graph.multigraph.dst (c.state, i))) then
    ((m.search allow).runs depth (c.step m.graph.multigraph (c.state, i))).map ((c.state, i) :: ·)
  else []

/-- The loop over the edges of a state and what follows it, from what each turn does. -/
theorem run_neighbours (hr : Records n ok record put) {m : MPathAlgo ω} {c : Cfg ℤ} {k depth : ℕ}
    (h : m.At c.state k) (hn : m.graph.edgeList.length = n)
    (ho : ok m.out) (hstop : m.isStopState c.state = false) {allow : ℤ → ℤ → Bool}
    {turn : Bool → ℕ → Prog (MPathAlgo ω) Bool}
    (hturn : ∀ o, ok o → ∀ b, ∀ i < (row m.graph.edgeList c.state).length,
      (turn b i).run (m.withOut o) = .ok (b || decide (0 < c.left (c.state, i)))
        (m.withOut (putAll put m.graph m.path (m.runsVia allow depth c i) o))) :
    (do let hasOkNeighbour ←
          (List.range (row m.graph.edgeList c.state).length).foldlM turn false
        if !hasOkNeighbour && m.stopStateNumSet.size = 0 then record k).run m =
      .ok ⟨⟩ (m.withOut (putAll put m.graph m.path ((m.search allow).runs (depth + 1) c) m.out)) := by
  have hruns : (m.search allow).runs (depth + 1) c =
      (if decide (m.stopStateNumSet.size = 0) && c.spent m.graph.multigraph then [[]] else []) ++
        (List.range (row m.graph.edgeList c.state).length).flatMap (m.runsVia allow depth c) :=
    runs_explore_go hstop
  have hloop : ((List.range (row m.graph.edgeList c.state).length).foldlM turn false).run m =
      .ok ((List.range (row m.graph.edgeList c.state).length).any fun i =>
        decide (0 < c.left (c.state, i)))
        (m.withOut (putAll put m.graph m.path ((List.range (row m.graph.edgeList c.state).length
          ).flatMap (m.runsVia allow depth c)) m.out)) :=
    Prog.run_foldlM (fun p => p.any fun i => decide (0 < c.left (c.state, i)))
    (fun p => m.withOut (putAll put m.graph m.path (p.flatMap (m.runsVia allow depth c)) m.out))
    fun p i q hp => by
      have hi : i < (row m.graph.edgeList c.state).length :=
        List.mem_range.mp (hp ▸ List.mem_append_right p List.mem_cons_self)
      rw [hturn _ (hr.keeps_putAll _ _ _ ho) _ i hi, List.any_append, List.flatMap_append,
        putAll_append]
      simp
  rw [Prog.run_bind_ok hloop, hruns, putAll_append]
  cases hb : (List.range (row m.graph.edgeList c.state).length).any
      fun i => decide (0 < c.left (c.state, i)) with
  | true =>
    have : c.spent m.graph.multigraph = false := by
      obtain ⟨i, hi, hl⟩ := List.any_eq_true.mp hb
      refine List.all_eq_false.mpr ⟨i, hi, ?_⟩
      have := of_decide_eq_true hl
      simp; omega
    simp [this, putAll]
  | false =>
    have hleft : ∀ i ∈ List.range (row m.graph.edgeList c.state).length,
        c.left (c.state, i) = 0 := fun i hi => by
      simpa using List.any_eq_false.mp hb i hi
    have hspent : c.spent m.graph.multigraph = true :=
      List.all_eq_true.mpr fun i hi => decide_eq_true (hleft i hi)
    -- no edge is left, so the loop has recorded nothing
    have hnone : (List.range (row m.graph.edgeList c.state).length).flatMap
        (m.runsVia allow depth c) = [] :=
      List.flatMap_eq_nil_iff.mpr fun i hi => by simp [runsVia, hleft i hi]
    rw [hnone, hspent]
    by_cases hl : m.stopStateNumSet.size = 0
    · simpa [hl, putAll] using hr.run m _ _ h hn ho
    · simp [hl, putAll]

/-- One turn of the loop over the neighbours: the edge is taken as long as it may be repeated. -/
theorem run_tryEdge {m : MPathAlgo ω} {s : ℤ} {k i : ℕ} (h : m.At s k)
    (hi : i < (row m.graph.edgeList s).length) (b : Bool) {o : PathLists × ω}
    (next : ℤ → ℕ → Prog (MPathAlgo ω) Unit)
    (hnext : 0 < m.graph.budget (s, i) → (next (m.graph.multigraph.dst (s, i)) (k + 1)).run
      (m.move (s, i)) = .ok ⟨⟩ ((m.move (s, i)).withOut o)) :
    (tryEdge next s k (row m.graph.edgeList s) (row m.graph.edgeNumberList s)
      (row m.graph.edgeStepList s) b i).run m =
      if 0 < m.graph.budget (s, i) then .ok true (m.withOut o) else .ok b m := by
  obtain ⟨t, hrow, hb, hget⟩ := h.run_getRepeatTime hi
  simp only [tryEdge, Prog.run_bind_ok hget, At.get_dst hi, h.get_edgeNumber hi,
    h.get_stepNumber hi, Prog.lift_ok, pure_bind]
  by_cases ht : 0 < t
  · have hl : 0 < m.graph.budget (s, i) := by omega
    rw [if_pos ht, if_pos hl, Prog.run_bind_ok (At.run_spend hb ht), Prog.run_bind_ok (h.run_move i),
      Prog.run_bind_ok (hnext hl), move_withOut, Prog.run_bind_ok ((h.withOut o).run_unmove i),
      Prog.run_bind_ok ((h.withOut o).run_unspend hrow)]
    rfl
  · rw [if_neg ht, if_neg (by omega)]
    rfl

/-- A move needs less room. -/
theorem rank_step {m : MPathAlgo ω} {c : Cfg ℤ} {i depth : ℕ}
    (hi : i < (row m.graph.edgeList c.state).length) (hl : 0 < c.left (c.state, i))
    (hd : c.rank m.graph.multigraph < depth + 1) :
    (c.step m.graph.multigraph (c.state, i)).rank m.graph.multigraph < depth :=
  have hrank : (m.graph.multigraph.explore (fun _ => false) false fun _ _ => true).Ranked
      (Cfg.rank m.graph.multigraph) := ranked_explore
  Nat.lt_of_lt_of_le (hrank c _ (mem_next_explore.mpr ⟨rfl, rfl, hi, hl, rfl, rfl⟩))
    (Nat.le_of_lt_succ hd)

/-- A stop state, or a state without edges where no stop state is given, ends the one run. -/
theorem runs_of_stop {m : MPathAlgo ω} {allow : ℤ → ℤ → Bool} {c : Cfg ℤ} {depth : ℕ}
    (h : (m.isStopState c.state || decide ((row m.graph.edgeList c.state).length = 0) &&
      decide (m.stopStateNumSet.size = 0)) = true) :
    (m.search allow).runs (depth + 1) c = [[]] := by
  cases hs : m.isStopState c.state with
  | true => exact runs_explore_stop hs
  | false =>
    simp only [hs, Bool.false_or, Bool.and_eq_true, decide_eq_true_eq] at h
    have hdeg : m.graph.multigraph.deg c.state = 0 := h.1
    rw [search, runs_explore_go hs, hdeg]
    simp [h.2, Cfg.spent, hdeg]

/-- **What a search on repeat times records.** -/
theorem run_dfs (hr : Records n ok record put) {depth : ℕ} {m : MPathAlgo ω} {c : Cfg ℤ} {k : ℕ}
    (h : m.At c.state k) (hc : c.left = m.graph.budget) (hn : m.graph.edgeList.length = n)
    (ho : ok m.out) (hd : c.rank m.graph.multigraph < depth) :
    (dfs record depth c.state k).run m = .ok ⟨⟩ (m.withOut
      (putAll put m.graph m.path ((m.search fun _ _ => true).runs depth c) m.out)) := by
  induction depth generalizing m c k with
  | zero => exact absurd hd (Nat.not_lt_zero _)
  | succ depth ih =>
    rw [dfs]
    simp only [EStateM.run_bind, EStateM.run_get, h.get_row rfl, h.get_row h.aligned.numbers,
      h.get_row h.aligned.steps, h.get_last, Prog.lift_ok, EStateM.run_pure]
    split
    · rename_i hcond
      rw [hr.run m _ _ h hn ho, runs_of_stop hcond]
      simp [putAll]
    · rename_i hcond
      simp only [Bool.or_eq_true, not_or, Bool.not_eq_true] at hcond
      refine run_neighbours hr h hn ho hcond.1 fun o ho b i hi => ?_
      have hrun := run_tryEdge (h.withOut o) hi b (fun n k => dfs record depth n k) fun hl =>
        ih (m := (m.withOut o).move (c.state, i)) (c := c.step m.graph.multigraph (c.state, i))
          ((h.withOut o).move hi) (by rw [(h.withOut o).budget_move hi, Cfg.step, hc]; rfl) hn ho
          (rank_step hi (hc ▸ hl) hd)
      refine hrun.trans ?_
      change (if 0 < m.graph.budget (c.state, i) then _ else _) = _
      rw [← hc]
      by_cases hl : 0 < c.left (c.state, i)
      · rw [if_pos hl, runsVia, putAll_move]
        simp [hl]
        rfl
      · rw [if_neg hl, runsVia]
        simp [hl, putAll]

/-! ### The search on entry positions -/

/-- The entries of the states, `M` where there is none. -/
def distOf (M : ℤ) (l : List ℤ) (s : ℤ) : ℤ := if 0 ≤ s then l.getD s.toNat M else M

/-- To set a distance changes that of its node only. -/
theorem distOf_set {M : ℤ} {l : List ℤ} {s : ℤ} (h₀ : 0 ≤ s) (h : s.toNat < l.length) (d : ℤ) :
    distOf M (l.set s.toNat d) = Function.update (distOf M l) s d := by
  funext n
  unfold distOf
  by_cases e : n = s
  · subst e; simp [h₀, h]
  · rw [Function.update_of_ne e]
    split
    · rename_i hn
      rw [List.getD_eq_getElem?_getD, List.getElem?_set_ne (by omega), List.getD_eq_getElem?_getD]
    · rfl

/-- Entries that are all `M` are `M` everywhere. -/
theorem distOf_const {M : ℤ} {l : List ℤ} (h : ∀ d ∈ l, d = M) : distOf M l = fun _ => M := by
  funext s
  unfold distOf
  split
  · rw [List.getD_eq_getElem?_getD]
    cases hs : l[s.toNat]? with
    | none => rfl
    | some d => exact h d (List.mem_of_getElem? hs)
  · rfl

section Dist

variable {ok : PathLists × Dist ω → Prop} {record : ℕ → Prog (MPathAlgo (Dist ω)) Unit}
  {put : Path → PathLists × Dist ω → PathLists × Dist ω}

/-- The results with other entries. -/
def setDist (o : PathLists × Dist ω) (l : List ℤ) : PathLists × Dist ω :=
  (o.1, { o.2 with stateDistList := l })

/-- What `put` does is blind to the entries, and leaves them. -/
structure BlindToDist (ok : PathLists × Dist ω → Prop)
    (put : Path → PathLists × Dist ω → PathLists × Dist ω) : Prop where
  put_setDist : ∀ p o l, put p (setDist o l) = setDist (put p o) l
  ok_setDist : ∀ o l, ok o → ok (setDist o l)

/-- Runs can be recorded before or after a distance is set. -/
theorem BlindToDist.putAll_setDist (hb : BlindToDist ok put) (g : MGraph) (p : Path)
    (rs : List (List (ℤ × ℕ))) (o : PathLists × Dist ω) (l : List ℤ) :
    putAll put g p rs (setDist o l) = setDist (putAll put g p rs o) l := by
  unfold putAll
  induction rs generalizing o with
  | nil => rfl
  | cons r rs ih => rw [List.foldl_cons, List.foldl_cons, hb.put_setDist, ih]

/-- Recording leaves the distances. -/
theorem BlindToDist.dist_put (hb : BlindToDist ok put) (p : Path) (o : PathLists × Dist ω) :
    (put p o).2.stateDistList = o.2.stateDistList := by
  have := hb.put_setDist p o o.2.stateDistList
  rw [show setDist o o.2.stateDistList = o from rfl] at this
  rw [this]; rfl

/-- The entries stay while a search records. -/
theorem Records.withDist (hr : Records n ok record put) (hb : BlindToDist ok put) (l : List ℤ) :
    Records n (fun o => ok o ∧ o.2.stateDistList = l) record put where
  run m s k h hn ho := hr.run m s k h hn ho.1
  keeps p o ho := ⟨hr.keeps p o ho.1, by rw [hb.dist_put, ho.2]⟩

/-- To set a distance of a node that has one. -/
theorem run_setStateDist {m : MPathAlgo (Dist ω)} {s : ℤ} (h₀ : 0 ≤ s)
    (h : s.toNat < m.own.stateDistList.length) (d : ℤ) :
    (setStateDist s d).run m =
      .ok ⟨⟩ (m.withOut (setDist m.out (m.own.stateDistList.set s.toNat d))) := by
  obtain ⟨k, rfl⟩ := Int.eq_ofNat_of_zero_le h₀
  have : ArrayList.set m.own.stateDistList ((k : ℕ) : ℤ) d = .ok (m.own.stateDistList.set k d) :=
    ArrayList.set_ok d h
  simp only [setStateDist, EStateM.run_bind, EStateM.run_get, this, Prog.lift_ok, EStateM.run_pure,
    EStateM.run_set]
  rfl

/-- One turn of the loop: the edge is taken as long as it may be repeated and its end is close
enough. -/
theorem run_tryNear {m : MPathAlgo (Dist ω)} {s M : ℤ} {k i : ℕ} (h : m.At s k)
    (hi : i < (row m.graph.edgeList s).length)
    (hl : m.graph.edgeList.length ≤ m.own.stateDistList.length)
    (closeEnough : ℤ → ℤ → Bool) (b : Bool) {o : PathLists × Dist ω}
    {next : ℤ → ℕ → Prog (MPathAlgo (Dist ω)) Unit}
    (hnext : 0 < m.graph.budget (s, i) →
      closeEnough k (distOf M m.own.stateDistList (m.graph.multigraph.dst (s, i))) = true →
      (next (m.graph.multigraph.dst (s, i)) (k + 1)).run
        ((m.move (s, i)).withOut (setDist m.out
          (m.own.stateDistList.set (m.graph.multigraph.dst (s, i)).toNat k))) =
        .ok ⟨⟩ ((m.move (s, i)).withOut (setDist o
          (m.own.stateDistList.set (m.graph.multigraph.dst (s, i)).toNat k)))) :
    (tryNear closeEnough next s k (row m.graph.edgeList s) (row m.graph.edgeNumberList s)
      (row m.graph.edgeStepList s) b i).run m =
      if 0 < m.graph.budget (s, i) then
        if closeEnough k (distOf M m.own.stateDistList (m.graph.multigraph.dst (s, i))) then
          .ok true (m.withOut (setDist o m.own.stateDistList))
        else .ok true m
      else .ok b m := by
  obtain ⟨t, hrow, hb, hget⟩ := h.run_getRepeatTime hi
  obtain ⟨h₀, h₁⟩ := h.aligned.isNode_dst (p := (s, i)) hi
  generalize hd : m.graph.multigraph.dst (s, i) = d at *
  have hlt : d.toNat < m.own.stateDistList.length := by omega
  have hdist : ArrayList.get m.own.stateDistList d = .ok (distOf M m.own.stateDistList d) := by
    obtain ⟨j, rfl⟩ := Int.eq_ofNat_of_zero_le h₀
    exact ArrayList.get_ok (by simp [distOf, show j < m.own.stateDistList.length from hlt])
  simp only [tryNear, Prog.run_bind_ok hget, At.get_dst hi, hd, h.get_edgeNumber hi,
    h.get_stepNumber hi, Prog.lift_ok, pure_bind]
  rw [Prog.run_bind_get]
  simp only [hdist, Prog.lift_ok, pure_bind]
  by_cases ht : 0 < t
  · have hpos : 0 < m.graph.budget (s, i) := by omega
    rw [if_pos hpos]
    cases hc : closeEnough k (distOf M m.own.stateDistList d) with
    | false => simp [ht]
    | true =>
      have hmove := h.run_move i
      rw [hd] at hmove
      have hset : (setStateDist d k).run (m.move (s, i)) = .ok ⟨⟩
          ((m.move (s, i)).withOut (setDist m.out (m.own.stateDistList.set d.toNat k))) :=
        run_setStateDist (m := m.move (s, i)) h₀ hlt k
      -- on the way back the entry is set to what it was
      have hback : (setStateDist d (distOf M m.own.stateDistList d)).run ((m.withOut
          (setDist o (m.own.stateDistList.set d.toNat k))).spend (s, i)) =
          .ok ⟨⟩ ((m.withOut (setDist o m.own.stateDistList)).spend (s, i)) := by
        rw [run_setStateDist h₀ (by simpa [spend, withOut, setDist] using hlt)]
        have : (m.own.stateDistList.set d.toNat k).set d.toNat (distOf M m.own.stateDistList d) =
            m.own.stateDistList := by
          rw [List.set_set, distOf, if_pos h₀, List.getD_eq_getElem _ _ hlt,
            List.set_getElem_self hlt]
        simp only [spend, withOut, setDist, out, this]
      simp only [ht, decide_true, Bool.and_self, if_true]
      rw [Prog.run_bind_ok (At.run_spend hb ht), Prog.run_bind_ok hmove, Prog.run_bind_ok hset,
        Prog.run_bind_ok (hnext hpos hc), move_withOut,
        Prog.run_bind_ok ((h.withOut _).run_unmove i), Prog.run_bind_ok hback,
        Prog.run_bind_ok ((h.withOut _).run_unspend hrow)]
      rfl
  · rw [if_neg (show ¬ 0 < m.graph.budget (s, i) by omega)]
    simp [ht]

/-- **What a search on entry positions records.** -/
theorem run_dfsDist {M : ℤ} {closeEnough : ℤ → ℤ → Bool} (hr : Records n ok record put)
    (hbl : BlindToDist ok put) {depth : ℕ} {m : MPathAlgo (Dist ω)} {c : Cfg ℤ} {k : ℕ}
    (h : m.At c.state k) (hc : c.left = m.graph.budget)
    (hdist : c.dist = distOf M m.own.stateDistList) (hpos : c.pos = k)
    (hn : m.graph.edgeList.length = n) (hl : n ≤ m.own.stateDistList.length) (ho : ok m.out)
    (hd : c.rank m.graph.multigraph < depth) :
    (dfsDist closeEnough record depth c.state k).run m = .ok ⟨⟩ (m.withOut
      (putAll put m.graph m.path ((m.search closeEnough).runs depth c) m.out)) := by
  induction depth generalizing m c k with
  | zero => exact absurd hd (Nat.not_lt_zero _)
  | succ depth ih =>
    rw [dfsDist]
    simp only [EStateM.run_bind, EStateM.run_get, h.get_row rfl, h.get_row h.aligned.numbers,
      h.get_row h.aligned.steps, h.get_last, Prog.lift_ok, EStateM.run_pure]
    split
    · rename_i hcond
      rw [hr.run m _ _ h hn ho, runs_of_stop hcond]
      simp [putAll]
    rename_i hcond
    simp only [Bool.or_eq_true, not_or, Bool.not_eq_true] at hcond
    split
    · -- no edge leaves the state, and it is no stop state: nothing is recorded
      rename_i hzero
      have hdeg : m.graph.multigraph.deg c.state = 0 := hzero
      have hleaves : decide (m.stopStateNumSet.size = 0) = false := by simpa [hzero] using hcond.2
      have hruns : (m.search closeEnough).runs (depth + 1) c = [] := by
        rw [search, runs_explore_go hcond.1, hdeg, hleaves]
        rfl
      rw [hruns]
      rfl
    · refine run_neighbours (hr.withDist hbl m.own.stateDistList) h hn ⟨ho, rfl⟩ hcond.1
        fun o ho b i hi => ?_
      obtain ⟨pm, l, w⟩ := o
      obtain ⟨ho, rfl : l = m.own.stateDistList⟩ := ho
      have h₁ := h.withOut (pm, ⟨m.own.stateDistList, w⟩)
      have hnode := h.aligned.isNode_dst (p := (c.state, i)) hi
      refine (run_tryNear (M := M) (o := putAll put m.graph m.path
        (((m.search closeEnough).runs depth (c.step m.graph.multigraph (c.state, i))).map
          ((c.state, i) :: ·)) (pm, ⟨m.own.stateDistList, w⟩)) h₁ hi (hn ▸ hl) closeEnough b
        fun hleft hce => ?_).trans ?_
      · have hlt : (m.graph.multigraph.dst (c.state, i)).toNat < m.own.stateDistList.length := by
          have := hnode.1; have := hnode.2; omega
        have hrun := ih (k := k + 1) (c := c.step m.graph.multigraph (c.state, i))
          ((h₁.move hi).withOut (setDist (pm, ⟨m.own.stateDistList, w⟩)
            (m.own.stateDistList.set (m.graph.multigraph.dst (c.state, i)).toNat k)))
          (by rw [Cfg.step, hc]; exact (h₁.budget_move hi).symm)
          (by rw [Cfg.step, hdist, hpos]; exact (distOf_set hnode.1 hlt k).symm)
          (by rw [Cfg.step, hpos]; rfl) hn (by simpa [withOut, setDist] using hl)
          (hbl.ok_setDist (pm, ⟨m.own.stateDistList, w⟩) _ ho) (rank_step hi (by rw [hc]; exact hleft) hd)
        rw [out_withOut, hbl.putAll_setDist] at hrun
        refine hrun.trans ?_
        rw [← putAll_move]
        rfl
      · change (if 0 < m.graph.budget (c.state, i) then if closeEnough k (distOf M
          m.own.stateDistList (m.graph.multigraph.dst (c.state, i))) = true then _ else _ else _) = _
        rw [← hc, ← hdist, ← hpos, runsVia]
        by_cases hleft : 0 < c.left (c.state, i)
        · rw [if_pos hleft]
          cases hce : closeEnough c.pos (c.dist (m.graph.multigraph.dst (c.state, i)))
          · simp [hleft, putAll]
          · have hback := hbl.putAll_setDist m.graph m.path
              (((m.search closeEnough).runs depth (c.step m.graph.multigraph (c.state, i))).map
                ((c.state, i) :: ·)) (pm, ⟨m.own.stateDistList, w⟩) m.own.stateDistList
            simp only [hleft, decide_true, Bool.or_true, Bool.and_self, if_true]
            exact congrArg (fun o => EStateM.Result.ok true (m.withOut o)) hback.symm
        · simp [hleft, putAll]

end Dist

end MPathAlgo

end MBT
