import MBT.Draw.MDot
import MBT.Graph.GraphCalls
import MBT.Generate.ScenarioInfo

/-!
# Draw — MDraw

The coverage graph of each scenario: one list says which edges the paths of the scenario use, and
one dot object is filled, for each scenario anew.

* `addEdges_eq`: the edges of a graph that some calls have built, in the order of its states.
* `drawScenario_eq`: what a scenario is drawn from; nothing of the scenarios before is left.
* `drawCovGraph_edges`: every drawing has each edge once, red where no path of its scenario uses it.
-/

namespace MBT
open Exec Text

/-- `nodeNameMap.get(nodeNum)`, `none` where there is no such node. -/
def MGraph.getNodeName (g : MGraph) (nodeNum : ℤ) : Option String := g.nodeNameMap.lookup nodeNum

/-- A file that is drawn. -/
structure Drawing where
  fileName : String
  dot : MDot

namespace MDraw

/-- The text of a name in a concatenation. -/
def textOf (name : Option String) : String := name.getD "null"

/-- The label of an edge: its number, with its name where names are shown. -/
def edgeLabel (showEdgeName : Bool) (edgeNumber : ℤ) (edgeName : String) : String :=
  if showEdgeName then edgeNumber.repr ++ "_" ++ edgeName else edgeNumber.repr

/-- Used edges are black, the others red. -/
def edgeColor (used : Bool) : String := if used then "black" else "red"

/-- All edges are set to be unused. -/
def setUnused (edgeCount : ℤ) (isEdgeUsedList : List Bool) : Except Exn (List Bool) :=
  (List.range edgeCount.toNat).foldlM (fun used (j : ℕ) => ArrayList.set used j false) isEdgeUsedList

/-- The edges of the paths are set to be used. -/
def setUsed (edgePathList : List (List ℤ)) (isEdgeUsedList : List Bool) : Except Exn (List Bool) :=
  edgePathList.foldlM (fun used edgePath =>
    edgePath.foldlM (fun used edgeNumber => ArrayList.set used (edgeNumber - 1) true) used)
    isEdgeUsedList

/-- The turn of the loop over the edges that leave state `j`. -/
def addNeighbour (g : MGraph) (isEdgeUsedList : List Bool) (showEdgeName : Bool) (j : ℕ) (dot : MDot)
    (k : ℕ) : Except Exn MDot := do
  let beginNode := g.getNodeName j
  let endNode := g.getNodeName (← ArrayList.get (← ArrayList.get g.edgeList j) k)
  let edgeNumber ← ArrayList.get (← ArrayList.get g.edgeNumberList j) k
  let edgeName ← ArrayList.get (← ArrayList.get g.edgeNameList j) k
  let used ← ArrayList.get isEdgeUsedList (edgeNumber - 1)
  return dot.addEdge (textOf beginNode) (textOf endNode) (edgeLabel showEdgeName edgeNumber edgeName) "->"
    (edgeColor used) "bold"

/-- The edges are added to the dot object. -/
def addEdges (g : MGraph) (isEdgeUsedList : List Bool) (showEdgeName : Bool) (dot : MDot) :
    Except Exn MDot :=
  (List.range g.nodeCount.toNat).foldlM (fun dot (j : ℕ) => do
    let neighbours ← ArrayList.get g.edgeList j
    (List.range neighbours.length).foldlM (addNeighbour g isEdgeUsedList showEdgeName j) dot) dot

/-- Draws the start and stop states, and no other nodes. -/
def setStartAndStopNodes (dot : MDot) (startNodeList stopNodeList : List String) : MDot :=
  let started := startNodeList.foldl (fun dot name => dot.addNode name "ellipse" "filled" "yellow")
    dot.clearNodeMap
  stopNodeList.foldl (fun dot name => dot.addNode name "ellipse" "filled" "green") started

/-- The dot object and the list of used edges that the scenarios share, and what is drawn so far. -/
structure State where
  dot : MDot
  isEdgeUsedList : List Bool
  drawn : List Drawing

/-- The turn of the loop over the scenarios. -/
def drawScenario (g : MGraph) (scenariosPathsMap : HashMap String PathLists) (showEdgeName : Bool)
    (s : State) (info : ScenarioInfo) : Except Exn State := do
  let cleared := s.dot.clearNodeMap.clearEdgeMap
  let unused ← setUnused g.edgeCount s.isEdgeUsedList
  let pathsMap ← Prog.nonNull (scenariosPathsMap.lookup info.name)
  let used ← setUsed pathsMap.edgePath unused
  let filled ← addEdges g used showEdgeName cleared
  let dot := setStartAndStopNodes filled info.start info.stop
  return ⟨dot, used, s.drawn ++ [⟨info.name ++ "_cov", dot⟩]⟩

/-- The files that are drawn; none where the scenarios do not parse. -/
def drawCovGraph (g : MGraph) (scenInfoList : Option (List ScenarioInfo))
    (scenariosPathsMap : HashMap String PathLists) (showEdgeName : Bool) : Except Exn (List Drawing) :=
  match scenInfoList with
  | none => .ok []
  | some scenInfoList => do
    let isEdgeUsedList := List.replicate g.edgeCount.toNat false
    let s ← scenInfoList.foldlM (drawScenario g scenariosPathsMap showEdgeName) ⟨.new, isEdgeUsedList, []⟩
    return s.drawn

/-! ### Loops that return -/

section Loops
variable {α β ε : Type}

/-- A loop that keeps `P` and whose turns return where `P` holds. -/
theorem foldlM_eq_ok {P : β → Prop} {f : β → α → Except ε β} (g : β → α → β) {l : List α} {b : β}
    (hb : P b) (h : ∀ b, ∀ a ∈ l, P b → f b a = .ok (g b a) ∧ P (g b a)) :
    l.foldlM f b = .ok (l.foldl g b) ∧ P (l.foldl g b) := by
  induction l generalizing b with
  | nil => exact ⟨rfl, hb⟩
  | cons a l ih =>
    obtain ⟨hok, hnext⟩ := h b a List.mem_cons_self hb
    rw [List.foldlM_cons, hok, ok_bind, List.foldl_cons]
    exact ih hnext fun b a ha => h b a (List.mem_cons_of_mem _ ha)

/-- A loop over the indices of a list is one over its elements. -/
theorem foldlM_range_eq_ok {f : β → ℕ → Except ε β} (g : β → α → β) {l : List α} (b : β)
    (h : ∀ b k a, l[k]? = some a → f b k = .ok (g b a)) :
    (List.range l.length).foldlM f b = .ok (l.foldl g b) := by
  induction l using List.reverseRecOn with
  | nil => rfl
  | append_singleton l a ih =>
    have hinit : ∀ b k a, l[k]? = some a → f b k = .ok (g b a) := by
      intro b k a' hk
      refine h b k a' ?_
      rwa [List.getElem?_append_left (List.getElem?_eq_some_iff.mp hk).1]
    have hlast := h (l.foldl g b) l.length a List.getElem?_concat_length
    rw [List.length_append, List.length_singleton, List.range_succ, List.foldlM_append, ih hinit,
      ok_bind, List.foldlM_cons, hlast, List.foldl_append]
    rfl

end Loops

/-! ### The used edges -/

/-- The list with the entries of the edges set. -/
def markUsed (used : List Bool) (edgeNumbers : List ℤ) : List Bool :=
  edgeNumbers.foldl (fun used n => used.set (n - 1).toNat true) used

/-- To mark an edge adds no entry. -/
theorem length_markUsed (used : List Bool) (ns : List ℤ) : (markUsed used ns).length = used.length := by
  induction ns generalizing used with
  | nil => rfl
  | cons n ns ih =>
    rw [markUsed, List.foldl_cons, ← markUsed, ih, List.length_set]

/-- Marking returns where the numbers are those of entries. -/
theorem markUsed_eq {used : List Bool} {ns : List ℤ} (h : ∀ n ∈ ns, 1 ≤ n ∧ n ≤ used.length) :
    ns.foldlM (fun used n => ArrayList.set used (n - 1) true) used = .ok (markUsed used ns) := by
  have hloop := @foldlM_eq_ok _ _ Exn (fun u : List Bool => u.length = used.length)
    (fun used n => ArrayList.set used (n - 1) true) (fun used n => used.set (n - 1).toNat true) ns used
    rfl ?_
  · exact hloop.1
  · intro u n hn hlen
    obtain ⟨hpos, hle⟩ := h n hn
    refine ⟨?_, by rw [List.length_set, hlen]⟩
    rw [ArrayList.set, if_pos ⟨by omega, by omega⟩]

/-- All edges of the paths are marked. -/
theorem setUsed_eq {used : List Bool} {edgePathList : List (List ℤ)}
    (h : ∀ path ∈ edgePathList, ∀ n ∈ path, 1 ≤ n ∧ n ≤ used.length) :
    setUsed edgePathList used = .ok (markUsed used edgePathList.flatten) := by
  have hloop := @foldlM_eq_ok _ _ Exn (fun u : List Bool => u.length = used.length)
    (fun used edgePath => edgePath.foldlM (fun used n => ArrayList.set used (n - 1) true) used)
    markUsed edgePathList used rfl ?_
  · rw [setUsed, hloop.1, markUsed, List.foldl_flatten]
    rfl
  · intro u path hpath hlen
    refine ⟨markUsed_eq fun n hn => ?_, (length_markUsed u path).trans hlen⟩
    rw [hlen]
    exact h path hpath n hn

/-- Setting the first entries of a list. -/
theorem foldl_set_range {α : Type} (a : α) (l : List α) {k : ℕ} (hk : k ≤ l.length) :
    (List.range k).foldl (fun u j => u.set j a) l = List.replicate k a ++ l.drop k := by
  induction k with
  | zero => rfl
  | succ k ih =>
    have hdrop := List.drop_eq_getElem_cons hk
    rw [List.range_succ, List.foldl_append, ih (Nat.le_of_succ_le hk), List.foldl_cons, List.foldl_nil,
      hdrop, List.set_append_right _ _ (List.length_replicate.le), List.length_replicate, Nat.sub_self,
      List.set_cons_zero, List.replicate_succ', List.append_assoc]
    rfl

/-- No edge is marked at the beginning. -/
theorem setUnused_eq {edgeCount : ℤ} {used : List Bool} (h : used.length = edgeCount.toNat) :
    setUnused edgeCount used = .ok (List.replicate edgeCount.toNat false) := by
  have hloop := @foldlM_eq_ok _ _ Exn (fun u : List Bool => u.length = used.length)
    (fun used (j : ℕ) => ArrayList.set used j false) (fun used j => used.set j false)
    (List.range edgeCount.toNat) used rfl ?_
  · rw [setUnused, hloop.1, foldl_set_range false used h.ge, ← h, List.drop_length, List.append_nil]
  · intro u j hj hlen
    refine ⟨ArrayList.set_ok false ?_, by rw [List.length_set, hlen]⟩
    rw [hlen, h]
    exact List.mem_range.mp hj

/-- An edge is marked when its number is among those used. -/
theorem getElem?_markUsed {m : ℕ} {ns : List ℤ} (h : ∀ n ∈ ns, 1 ≤ n) {k : ℕ} (hk : k < m) :
    (markUsed (List.replicate m false) ns)[k]? = some (decide ((k : ℤ) + 1 ∈ ns)) := by
  induction ns using List.reverseRecOn with
  | nil =>
    rw [markUsed, List.foldl_nil, List.getElem?_replicate_of_lt hk]
    rfl
  | append_singleton ns n ih =>
    have hn := h n (List.mem_append_right ns List.mem_cons_self)
    have hlast : markUsed (List.replicate m false) (ns ++ [n]) =
        (markUsed (List.replicate m false) ns).set (n - 1).toNat true := by
      rw [markUsed, List.foldl_append]
      rfl
    rw [hlast, List.getElem?_set, length_markUsed, List.length_replicate,
      ih fun n hn => h n (List.mem_append_left _ hn)]
    by_cases heq : (n - 1).toNat = k
    · have hmem : (k : ℤ) + 1 ∈ ns ++ [n] := by
        have hnumber : (k : ℤ) + 1 = n := by omega
        rw [hnumber]
        exact List.mem_append_right ns List.mem_cons_self
      rw [if_pos heq, heq, if_pos hk, decide_eq_true hmem]
    · have hmem : (k : ℤ) + 1 ∈ ns ++ [n] ↔ (k : ℤ) + 1 ∈ ns := by
        rw [List.mem_append, List.mem_singleton]
        exact or_iff_left (by omega)
      rw [if_neg heq, decide_eq_decide.mpr hmem]

/-! ### The edges of a drawing -/

/-- The text and the attributes of an edge, given the paths of the scenario. -/
def edgeEntry (showEdgeName : Bool) (edgePathList : List (List ℤ)) (p : EdgeCall × ℕ) :
    String × String :=
  (MDot.edgeDesc (trim p.1.begNodeName) "->" (trim p.1.endNodeName),
    MDot.edgeDetail (edgeLabel showEdgeName (p.2 + 1) p.1.stepName)
      (if (p.2 : ℤ) + 1 ∈ edgePathList.flatten then "black" else "red") "bold")

/-- The edge is added to the dot object. -/
def addEdgeCall (showEdgeName : Bool) (edgePathList : List (List ℤ)) (dot : MDot) (p : EdgeCall × ℕ) :
    MDot :=
  dot.addEdge (trim p.1.begNodeName) (trim p.1.endNodeName)
    (edgeLabel showEdgeName (p.2 + 1) p.1.stepName) "->"
    (edgeColor (decide ((p.2 : ℤ) + 1 ∈ edgePathList.flatten))) "bold"

variable {showEdgeName : Bool} {edgePathList : List (List ℤ)}

/-- One entry is drawn for each edge. -/
theorem edgeEntries_foldl (l : List (EdgeCall × ℕ)) (dot : MDot) :
    (l.foldl (addEdgeCall showEdgeName edgePathList) dot).edgeEntries.Perm
      (l.map (edgeEntry showEdgeName edgePathList) ++ dot.edgeEntries) := by
  induction l generalizing dot with
  | nil => exact List.Perm.refl _
  | cons p l ih =>
    rw [List.foldl_cons, List.map_cons]
    refine (ih _).trans ?_
    have hline := MDot.edgeEntries_addEdge dot (trim p.1.begNodeName) (trim p.1.endNodeName)
      (edgeLabel showEdgeName (p.2 + 1) p.1.stepName) "->"
      (edgeColor (decide ((p.2 : ℤ) + 1 ∈ edgePathList.flatten))) "bold"
    have hentry : (MDot.edgeDesc (trim p.1.begNodeName) "->" (trim p.1.endNodeName),
        MDot.edgeDetail (edgeLabel showEdgeName (p.2 + 1) p.1.stepName)
          (edgeColor (decide ((p.2 : ℤ) + 1 ∈ edgePathList.flatten))) "bold") =
        edgeEntry showEdgeName edgePathList p := by
      rw [edgeEntry, edgeColor]
      simp only [decide_eq_true_eq]
    rw [hentry] at hline
    refine (hline.append_left _).trans ?_
    exact List.perm_middle

variable {g : MGraph} {states : List String} {edges : List EdgeCall}

open MGraph in
/-- The turn of the inner loop, at an edge. -/
theorem addNeighbour_eq (h : Holds g states edges) (hpaths : ∀ n ∈ edgePathList.flatten, 1 ≤ n)
    {j : ℕ} {name : String} (hj : states[j]? = some name) {k : ℕ} {p : EdgeCall × ℕ}
    (hk : (Holds.leaving name edges)[k]? = some p) (dot : MDot) :
    addNeighbour g (markUsed (List.replicate g.edgeCount.toNat false) edgePathList.flatten)
      showEdgeName j dot k = .ok (addEdgeCall showEdgeName edgePathList dot p) := by
  have hrow : ∀ {α : Type} (X : EdgeCall × ℕ → α),
      (edgeRows X states edges)[j]? = some ((Holds.leaving name edges).map X) := by
    intro α X
    rw [edgeRows, Intern.rowsOf, List.getElem?_map, hj]
    rfl
  have hget : ∀ {α : Type} (X : EdgeCall × ℕ → α),
      ((Holds.leaving name edges).map X)[k]? = some (X p) := by
    intro α X
    rw [List.getElem?_map, hk]
    rfl
  obtain ⟨hzip, hbeg⟩ := List.mem_filter.mp (List.mem_of_getElem? hk)
  have hbeg : trim p.1.begNodeName = name := of_decide_eq_true hbeg
  have hplace : p.2 < edges.length := by
    have := List.snd_lt_of_mem_zipIdx hzip
    omega
  have hend := (h.known p.1 (List.fst_mem_of_mem_zipIdx hzip)).2
  have hbegName : g.getNodeName j = some (trim p.1.begNodeName) := by
    rw [getNodeName, h.nodeName, if_pos (Int.natCast_nonneg j), Int.toNat_natCast, hj, hbeg]
  have hendName : g.getNodeName (target states p) = some (trim p.1.endNodeName) := by
    rw [getNodeName, h.nodeName, target, if_pos (Int.natCast_nonneg _), Int.toNat_natCast,
      List.getElem?_idxOf hend]
  have hused : ArrayList.get (markUsed (List.replicate g.edgeCount.toNat false) edgePathList.flatten)
      ((p.2 : ℤ) + 1 - 1) = .ok (decide ((p.2 : ℤ) + 1 ∈ edgePathList.flatten)) := by
    rw [add_sub_cancel_right]
    refine ArrayList.get_ok (getElem?_markUsed hpaths ?_)
    rw [h.edgeCount]
    omega
  rw [addNeighbour, h.targets, h.numbers, h.edgeNames]
  -- one list after the other, the row first
  rw [ArrayList.get_ok (hrow (target states)), ok_bind, ArrayList.get_ok (hget (target states)),
    ok_bind, ArrayList.get_ok (hrow fun p => (p.2 : ℤ) + 1), ok_bind,
    ArrayList.get_ok (hget fun p => (p.2 : ℤ) + 1), ok_bind,
    ArrayList.get_ok (hrow (·.1.stepName)), ok_bind, ArrayList.get_ok (hget (·.1.stepName)), ok_bind,
    hused, ok_bind, hbegName, hendName]
  rfl

open MGraph in
/-- **The edges of a graph**, state by state. -/
theorem addEdges_eq (h : Holds g states edges) (hpaths : ∀ n ∈ edgePathList.flatten, 1 ≤ n) (dot : MDot) :
    addEdges g (markUsed (List.replicate g.edgeCount.toNat false) edgePathList.flatten) showEdgeName dot =
      .ok ((states.flatMap fun name => Holds.leaving name edges).foldl
        (addEdgeCall showEdgeName edgePathList) dot) := by
  rw [addEdges, h.nodeCount, Int.toNat_natCast, List.foldl_flatMap]
  refine foldlM_range_eq_ok _ dot fun dot j name hj => ?_
  have hrow : ArrayList.get g.edgeList j = .ok ((Holds.leaving name edges).map (target states)) := by
    refine ArrayList.get_ok ?_
    rw [h.targets, edgeRows, Intern.rowsOf, List.getElem?_map, hj]
    rfl
  rw [hrow, ok_bind, List.length_map]
  exact foldlM_range_eq_ok _ dot fun dot k p hk => addNeighbour_eq h hpaths hj hk dot

/-! ### The scenarios -/

/-- What is drawn for a scenario, given its paths. -/
def covDrawing (states : List String) (edges : List EdgeCall) (showEdgeName : Bool)
    (edgePathList : List (List ℤ)) (info : ScenarioInfo) : Drawing :=
  ⟨info.name ++ "_cov", setStartAndStopNodes
    ((states.flatMap fun name => MGraph.Holds.leaving name edges).foldl
      (addEdgeCall showEdgeName edgePathList) .new) info.start info.stop⟩

/-- Nodes that are drawn leave the edges. -/
theorem edgeMap_setStartAndStopNodes (dot : MDot) (startNodeList stopNodeList : List String) :
    (setStartAndStopNodes dot startNodeList stopNodeList).edgeMap = dot.edgeMap := by
  have hnodes : ∀ (names : List String) (color : String) (dot : MDot),
      (names.foldl (fun dot name => dot.addNode name "ellipse" "filled" color) dot).edgeMap =
        dot.edgeMap := by
    intro names color
    induction names with
    | nil => exact fun _ => rfl
    | cons name names ih => exact fun dot => ih _
  rw [setStartAndStopNodes, hnodes, hnodes]
  rfl

/-- **One entry for each edge**, with its colour. -/
theorem edgeEntries_covDrawing (h : MGraph.Holds g states edges) (info : ScenarioInfo) :
    (covDrawing states edges showEdgeName edgePathList info).dot.edgeEntries.Perm
      (edges.zipIdx.map (edgeEntry showEdgeName edgePathList)) := by
  have hdot : (covDrawing states edges showEdgeName edgePathList info).dot.edgeEntries =
      ((states.flatMap fun name => MGraph.Holds.leaving name edges).foldl
        (addEdgeCall showEdgeName edgePathList) .new).edgeEntries := by
    rw [covDrawing, MDot.edgeEntries, edgeMap_setStartAndStopNodes]
    rfl
  have hedges : (states.flatMap fun name => MGraph.Holds.leaving name edges).Perm edges.zipIdx := by
    have hflat := h.flatten_edgeRows id
    rw [List.map_id, MGraph.edgeRows, Intern.rowsOf] at hflat
    simp only [List.map_id] at hflat
    exact hflat
  rw [hdot]
  refine (edgeEntries_foldl _ _).trans ?_
  rw [show MDot.new.edgeEntries = [] from rfl, List.append_nil]
  exact hedges.map _

variable {scenariosPathsMap : HashMap String PathLists} {info : ScenarioInfo}

/-- **A scenario** is drawn the same whatever was drawn before it. -/
theorem drawScenario_eq (h : MGraph.Holds g states edges) {l : PathLists}
    (hl : scenariosPathsMap.lookup info.name = some l)
    (hpaths : ∀ path ∈ l.edgePath, ∀ n ∈ path, 1 ≤ n ∧ n ≤ g.edgeCount) {s : State}
    (hs : s.isEdgeUsedList.length = g.edgeCount.toNat) :
    ∃ used, used.length = g.edgeCount.toNat ∧
      drawScenario g scenariosPathsMap showEdgeName s info =
        .ok ⟨(covDrawing states edges showEdgeName l.edgePath info).dot, used,
          s.drawn ++ [covDrawing states edges showEdgeName l.edgePath info]⟩ := by
  have hpositive : ∀ n ∈ l.edgePath.flatten, 1 ≤ n := by
    intro n hn
    obtain ⟨path, hpath, hn⟩ := List.mem_flatten.mp hn
    exact (hpaths path hpath n hn).1
  have hset : setUsed l.edgePath (List.replicate g.edgeCount.toNat false) =
      .ok (markUsed (List.replicate g.edgeCount.toNat false) l.edgePath.flatten) := by
    refine setUsed_eq fun path hpath n hn => ?_
    obtain ⟨hpos, hle⟩ := hpaths path hpath n hn
    rw [List.length_replicate]
    omega
  refine ⟨markUsed (List.replicate g.edgeCount.toNat false) l.edgePath.flatten, ?_, ?_⟩
  · rw [length_markUsed, List.length_replicate]
  · rw [drawScenario, setUnused_eq hs, ok_bind, hl]
    -- the dot object is cleared, so that only the list of what is drawn is taken over
    rw [Prog.nonNull, ok_bind, hset, ok_bind, addEdges_eq h hpositive, ok_bind]
    rfl

/-- The scenario has paths, over the numbers of the edges. -/
def HasPaths (g : MGraph) (scenariosPathsMap : HashMap String PathLists) (info : ScenarioInfo) : Prop :=
  ∃ l, scenariosPathsMap.lookup info.name = some l ∧
    ∀ path ∈ l.edgePath, ∀ n ∈ path, n ∈ g.edgeNumberList.flatten

/-- The paths of the scenario. -/
def pathsOf (scenariosPathsMap : HashMap String PathLists) (info : ScenarioInfo) : List (List ℤ) :=
  ((scenariosPathsMap.lookup info.name).map PathLists.edgePath).getD []

/-- The numbers of edges count from one. -/
theorem number_bounds (h : MGraph.Holds g states edges) {n : ℤ} (hn : n ∈ g.edgeNumberList.flatten) :
    1 ≤ n ∧ n ≤ g.edgeCount := by
  rw [h.numbers, (h.flatten_edgeRows _).mem_iff] at hn
  obtain ⟨p, hp, rfl⟩ := List.mem_map.mp hn
  have hplace := List.snd_lt_of_mem_zipIdx hp
  rw [h.edgeCount]
  omega

/-- **A run over the scenarios.** -/
theorem run_drawScenario (h : MGraph.Holds g states edges) {infos : List ScenarioInfo}
    (hinfos : ∀ info ∈ infos, HasPaths g scenariosPathsMap info) {s : State}
    (hs : s.isEdgeUsedList.length = g.edgeCount.toNat) :
    ∃ s', infos.foldlM (drawScenario g scenariosPathsMap showEdgeName) s = .ok s' ∧
      s'.drawn = s.drawn ++ infos.map fun info =>
        covDrawing states edges showEdgeName (pathsOf scenariosPathsMap info) info := by
  induction infos generalizing s with
  | nil => exact ⟨s, rfl, (List.append_nil _).symm⟩
  | cons info infos ih =>
    obtain ⟨l, hl, hnumbers⟩ := hinfos info List.mem_cons_self
    have hpaths : pathsOf scenariosPathsMap info = l.edgePath := by
      rw [pathsOf, hl]
      rfl
    obtain ⟨used, hused, hturn⟩ := @drawScenario_eq showEdgeName g states edges scenariosPathsMap info h
      l hl (fun path hpath n hn => number_bounds h (hnumbers path hpath n hn)) s hs
    have hrest := fun info hinfo => hinfos info (List.mem_cons_of_mem _ hinfo)
    rw [List.foldlM_cons, hturn, ok_bind]
    have hlength : (State.mk (covDrawing states edges showEdgeName l.edgePath info).dot used
        (s.drawn ++ [covDrawing states edges showEdgeName l.edgePath info])).isEdgeUsedList.length =
          g.edgeCount.toNat := hused
    obtain ⟨s', hrun, hdrawn⟩ := ih hrest hlength
    refine ⟨s', hrun, ?_⟩
    rw [hdrawn, List.map_cons, hpaths, List.append_assoc]
    rfl

/-- The files that are drawn for a graph that has the paths of every scenario. -/
theorem drawCovGraph_eq (h : MGraph.Holds g states edges) {infos : List ScenarioInfo}
    (hinfos : ∀ info ∈ infos, HasPaths g scenariosPathsMap info) :
    drawCovGraph g (some infos) scenariosPathsMap showEdgeName = .ok (infos.map fun info =>
      covDrawing states edges showEdgeName (pathsOf scenariosPathsMap info) info) := by
  obtain ⟨s, hrun, hdrawn⟩ := @run_drawScenario showEdgeName g states edges scenariosPathsMap h infos
    hinfos ⟨.new, List.replicate g.edgeCount.toNat false, []⟩ List.length_replicate
  rw [drawCovGraph, hrun, ok_bind, hdrawn]
  rfl

/-- **The coverage graphs**: for a graph that any calls have built, every scenario is drawn with each
edge once, red where none of its own paths uses it, as if it were drawn alone. -/
theorem drawCovGraph_edges (cs : List GraphCall) (infos : List ScenarioInfo)
    (scenariosPathsMap : HashMap String PathLists) (showEdgeName : Bool)
    (hinfos : ∀ info ∈ infos, HasPaths (MGraph.ofCalls cs) scenariosPathsMap info) :
    ∃ drawn, drawCovGraph (MGraph.ofCalls cs) (some infos) scenariosPathsMap showEdgeName = .ok drawn ∧
      List.Forall₂ (fun info d => d.fileName = info.name ++ "_cov" ∧
        (∃ l, scenariosPathsMap.lookup info.name = some l ∧ d.dot.edgeEntries.Perm
          ((MGraph.edgesOf cs).zipIdx.map (edgeEntry showEdgeName l.edgePath))) ∧
        drawCovGraph (MGraph.ofCalls cs) (some [info]) scenariosPathsMap showEdgeName = .ok [d])
        infos drawn := by
  have h := MGraph.holds_ofCalls cs
  refine ⟨_, drawCovGraph_eq h hinfos, ?_⟩
  rw [List.forall₂_map_right_iff, List.forall₂_same]
  intro info hinfo
  obtain ⟨l, hl, hnumbers⟩ := hinfos info hinfo
  have hpaths : pathsOf scenariosPathsMap info = l.edgePath := by
    rw [pathsOf, hl]
    rfl
  refine ⟨rfl, ⟨l, hl, ?_⟩, ?_⟩
  · rw [hpaths]
    exact edgeEntries_covDrawing h info
  · refine drawCovGraph_eq h fun info' hinfo' => ?_
    rw [List.mem_singleton.mp hinfo']
    exact hinfos info hinfo

/-- Two edges with the same states, the second on a path: two entries of one text, in two colours. -/
theorem drawCovGraph_edges_parallel : ∃ drawn, drawCovGraph (MGraph.ofCalls
      [.edge ⟨"Cart", "Paid", "card", 1, 1⟩, .edge ⟨"Cart", "Paid", "cash", 2, 1⟩])
      (some [⟨"Buy", ["Cart"], ["Paid"], [], [], "", "", []⟩])
      ((∅ : HashMap String PathLists).insert "Buy" (.ofPaths [⟨[0, 1], [2], [2]⟩])) true = .ok drawn ∧
    drawn.map (fun d => (d.fileName, d.dot.edgeEntries)) = [("Buy_cov",
      [("Cart -> Paid", "[label=\"1_card\",color=red,style=bold]"),
        ("Cart -> Paid", "[label=\"2_cash\",color=black,style=bold]")])] := by
  obtain ⟨drawn, hdrawn, -⟩ := drawCovGraph_edges
    [.edge ⟨"Cart", "Paid", "card", 1, 1⟩, .edge ⟨"Cart", "Paid", "cash", 2, 1⟩]
    [⟨"Buy", ["Cart"], ["Paid"], [], [], "", "", []⟩]
    ((∅ : HashMap String PathLists).insert "Buy" (.ofPaths [⟨[0, 1], [2], [2]⟩])) true (by
      intro info hinfo
      rw [List.mem_singleton.mp hinfo]
      exact ⟨.ofPaths [⟨[0, 1], [2], [2]⟩], rfl, by decide⟩)
  refine ⟨drawn, hdrawn, ?_⟩
  obtain rfl := Except.ok.inj (hdrawn.symm.trans (drawCovGraph_eq (MGraph.holds_ofCalls _) (by
    intro info hinfo
    rw [List.mem_singleton.mp hinfo]
    exact ⟨.ofPaths [⟨[0, 1], [2], [2]⟩], rfl, by decide⟩)))
  decide +kernel

end MDraw

end MBT
