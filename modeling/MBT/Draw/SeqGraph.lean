import MBT.Draw.MDraw
import MBT.Path.MGenPath

/-!
# Draw — SeqGraph

The sequence graph of each scenario, and how it stands to the coverage graph.

* `drawSeqGraph_eq`: the sequence graph is what the coverage graph would be if the paths of the
  scenario used all edges.
* `draws_paths`: once the paths of the scenarios are generated, both kinds of graphs are drawn; they
  differ exactly where some edge is on no path of the scenario.
-/

namespace MBT
open Exec Text

namespace MDraw

/-- The turn of the inner loop of `drawSeqGraph`, for the `k`-th edge that leaves state `j`. -/
def addSeqNeighbour (g : MGraph) (showEdgeName : Bool) (j : ℕ) (dot : MDot) (k : ℕ) : Except Exn MDot := do
  let beginNode := g.getNodeName j
  let endNode := g.getNodeName (← ArrayList.get (← ArrayList.get g.edgeList j) k)
  let edgeNumber ← ArrayList.get (← ArrayList.get g.edgeNumberList j) k
  let edgeName ← ArrayList.get (← ArrayList.get g.edgeNameList j) k
  return dot.addEdge (textOf beginNode) (textOf endNode) (edgeLabel showEdgeName edgeNumber edgeName) "->"
    "black" "bold"

/-- The edges are added first; all scenarios have the same ones. -/
def addSeqEdges (g : MGraph) (showEdgeName : Bool) (dot : MDot) : Except Exn MDot :=
  (List.range g.nodeCount.toNat).foldlM (fun dot (j : ℕ) => do
    let neighbours ← ArrayList.get g.edgeList j
    (List.range neighbours.length).foldlM (addSeqNeighbour g showEdgeName j) dot) dot

/-- The turn of the loop over the scenarios. -/
def drawSeqScenario (s : MDot × List Drawing) (info : ScenarioInfo) : MDot × List Drawing :=
  let dot := setStartAndStopNodes s.1 info.start info.stop
  (dot, s.2 ++ [⟨info.name, dot⟩])

/-- The files that are drawn; none where the scenarios do not parse. -/
def drawSeqGraph (g : MGraph) (scenInfoList : Option (List ScenarioInfo)) (showEdgeName : Bool) :
    Except Exn (List Drawing) := do
  let dot ← addSeqEdges g showEdgeName .new
  match scenInfoList with
  | none => return []
  | some scenInfoList => return (scenInfoList.foldl drawSeqScenario (dot, [])).2

/-! ### The edges of the sequence graph -/

/-- A loop whose turns return what those of another loop do. -/
theorem foldlM_of_ok {α β ε : Type} {f f' : β → α → Except ε β} {l : List α} {b c : β}
    (h : ∀ b, ∀ a ∈ l, ∀ c, f b a = .ok c → f' b a = .ok c) (hl : l.foldlM f b = .ok c) :
    l.foldlM f' b = .ok c := by
  induction l generalizing b with
  | nil => exact hl
  | cons a l ih =>
    rw [List.foldlM_cons] at hl ⊢
    obtain ⟨d, hd, hrest⟩ := bind_eq_ok.mp hl
    rw [h b a List.mem_cons_self d hd, ok_bind]
    exact ih (fun b a ha => h b a (List.mem_cons_of_mem _ ha)) hrest

variable {showEdgeName : Bool} {g : MGraph} {states : List String} {edges : List EdgeCall}

/-- The numbers of all edges, as the only path. -/
def allEdges (g : MGraph) : List (List ℤ) := [g.edgeNumberList.flatten]

/-- Every edge is on one of the paths. -/
theorem mem_allEdges (h : MGraph.Holds g states edges) {n : ℤ} :
    n ∈ (allEdges g).flatten ↔ ∃ k < edges.length, n = (k : ℤ) + 1 := by
  have hflat : (allEdges g).flatten = g.edgeNumberList.flatten := by simp [allEdges]
  rw [hflat, h.numbers, (h.flatten_edgeRows _).mem_iff, List.mem_map]
  constructor
  · rintro ⟨p, hp, rfl⟩
    have hplace := List.snd_lt_of_mem_zipIdx hp
    exact ⟨p.2, by omega, rfl⟩
  · rintro ⟨k, hk, rfl⟩
    exact ⟨(edges[k], k), List.mk_mem_zipIdx_iff_getElem?.mpr (List.getElem?_eq_getElem hk), rfl⟩

/-- Where all edges are set to be used, the turns of the two methods add the same edge. -/
theorem addSeqNeighbour_of_used {used : List Bool}
    (hused : ∀ n ∈ (allEdges g).flatten, ∀ b, ArrayList.get used (n - 1) = .ok b → b = true) {j k : ℕ}
    {dot dot' : MDot} (h : addNeighbour g used showEdgeName j dot k = .ok dot') :
    addSeqNeighbour g showEdgeName j dot k = .ok dot' := by
  rw [addNeighbour] at h
  obtain ⟨row, hrow, h⟩ := bind_eq_ok.mp h
  obtain ⟨target, htarget, h⟩ := bind_eq_ok.mp h
  obtain ⟨numbers, hnumbers, h⟩ := bind_eq_ok.mp h
  obtain ⟨number, hnumber, h⟩ := bind_eq_ok.mp h
  obtain ⟨names, hnames, h⟩ := bind_eq_ok.mp h
  obtain ⟨name, hname, h⟩ := bind_eq_ok.mp h
  obtain ⟨b, hb, h⟩ := bind_eq_ok.mp h
  have hmem : number ∈ (allEdges g).flatten := by
    rw [allEdges, List.flatten_singleton]
    exact List.mem_flatten.mpr ⟨numbers, ArrayList.mem_of_get hnumbers, ArrayList.mem_of_get hnumber⟩
  obtain rfl := hused number hmem b hb
  rw [addSeqNeighbour, hrow, ok_bind, htarget, ok_bind, hnumbers, ok_bind, hnumber, ok_bind, hnames,
    ok_bind, hname, ok_bind]
  exact h

/-- **The edges of the sequence graph** are those of a coverage graph whose paths use all edges. -/
theorem addSeqEdges_eq (h : MGraph.Holds g states edges) (dot : MDot) :
    addSeqEdges g showEdgeName dot = .ok ((states.flatMap fun name => MGraph.Holds.leaving name edges).foldl
      (addEdgeCall showEdgeName (allEdges g)) dot) := by
  have hpos : ∀ n ∈ (allEdges g).flatten, 1 ≤ n := by
    intro n hn
    obtain ⟨k, -, rfl⟩ := (mem_allEdges h).mp hn
    omega
  have hused : ∀ n ∈ (allEdges g).flatten, ∀ b, ArrayList.get
      (markUsed (List.replicate g.edgeCount.toNat false) (allEdges g).flatten) (n - 1) = .ok b →
        b = true := by
    intro n hn b hb
    obtain ⟨k, hk, rfl⟩ := (mem_allEdges h).mp hn
    have hcount : k < g.edgeCount.toNat := by
      rw [h.edgeCount]
      omega
    rw [add_sub_cancel_right, ArrayList.get_eq_ok, getElem?_markUsed hpos hcount] at hb
    rw [← Option.some.inj hb, decide_eq_true hn]
  refine foldlM_of_ok (fun dot j _ dot' hturn => ?_) (addEdges_eq h hpos dot)
  obtain ⟨row, hrow, hturn⟩ := bind_eq_ok.mp hturn
  rw [hrow, ok_bind]
  exact foldlM_of_ok (fun dot k _ dot' hedge => addSeqNeighbour_of_used hused hedge) hturn

/-! ### The scenarios -/

/-- The nodes do not depend on what was drawn before, and the edges stay. -/
theorem setStartAndStopNodes_congr {dot dot' : MDot} (h : dot.edgeMap = dot'.edgeMap)
    (startNodeList stopNodeList : List String) :
    setStartAndStopNodes dot startNodeList stopNodeList =
      setStartAndStopNodes dot' startNodeList stopNodeList := by
  have hclear : dot.clearNodeMap = dot'.clearNodeMap := by
    rw [MDot.clearNodeMap, MDot.clearNodeMap, h]
  rw [setStartAndStopNodes, hclear, setStartAndStopNodes]

/-- What is drawn for a scenario. -/
def seqDrawing (states : List String) (edges : List EdgeCall) (showEdgeName : Bool) (g : MGraph)
    (info : ScenarioInfo) : Drawing :=
  { covDrawing states edges showEdgeName (allEdges g) info with fileName := info.name }

/-- Each scenario is drawn with its own nodes over the same edges. -/
theorem foldl_drawSeqScenario (infos : List ScenarioInfo) (dot dot' : MDot) (drawn : List Drawing)
    (h : dot'.edgeMap = dot.edgeMap) :
    (infos.foldl drawSeqScenario (dot', drawn)).2 = drawn ++ infos.map fun info =>
      ⟨info.name, setStartAndStopNodes dot info.start info.stop⟩ := by
  induction infos generalizing dot' drawn with
  | nil => exact (List.append_nil drawn).symm
  | cons info infos ih =>
    have hedges : (setStartAndStopNodes dot' info.start info.stop).edgeMap = dot.edgeMap := by
      rw [edgeMap_setStartAndStopNodes, h]
    rw [List.foldl_cons, drawSeqScenario, ih _ _ hedges, setStartAndStopNodes_congr h, List.map_cons,
      List.append_assoc, List.singleton_append]

/-- **The sequence graphs.** -/
theorem drawSeqGraph_eq (h : MGraph.Holds g states edges) (infos : List ScenarioInfo) :
    drawSeqGraph g (some infos) showEdgeName =
      .ok (infos.map (seqDrawing states edges showEdgeName g)) := by
  rw [drawSeqGraph, addSeqEdges_eq h, ok_bind]
  exact congrArg Except.ok (foldl_drawSeqScenario infos _ _ [] rfl)

/-! ### The two graphs of a scenario -/

/-- Two texts that end in different colours. -/
theorem edgeDetail_ne (label label' : String) :
    MDot.edgeDetail label "red" "bold" ≠ MDot.edgeDetail label' "black" "bold" := by
  intro h
  rw [MDot.edgeDetail, MDot.edgeDetail, String.append_left_inj, String.append_left_inj,
    String.append_left_inj] at h
  have hlast := congrArg (fun s => s.toList.reverse.head?) h
  simp at hlast

variable {edgePathList : List (List ℤ)}

/-- **The two drawings of a scenario** are the same exactly where its paths use every edge. -/
theorem covDrawing_eq_iff (h : MGraph.Holds g states edges) (info : ScenarioInfo) :
    (covDrawing states edges showEdgeName edgePathList info).dot =
        (seqDrawing states edges showEdgeName g info).dot ↔
      ∀ n ∈ g.edgeNumberList.flatten, n ∈ edgePathList.flatten := by
  have hall : ∀ p ∈ edges.zipIdx, (p.2 : ℤ) + 1 ∈ (allEdges g).flatten := by
    intro p hp
    have hplace := List.snd_lt_of_mem_zipIdx hp
    exact (mem_allEdges h).mpr ⟨p.2, by omega, rfl⟩
  have hflat : (allEdges g).flatten = g.edgeNumberList.flatten := by simp [allEdges]
  constructor
  · intro hdot n hn
    by_contra hunused
    obtain ⟨k, hk, rfl⟩ := (mem_allEdges h).mp (hflat ▸ hn)
    -- the entry of an edge that is not used is red in the one drawing, and none is in the other
    have hentry := @edgeEntries_covDrawing showEdgeName edgePathList g states edges h info
    have hblack := @edgeEntries_covDrawing showEdgeName (allEdges g) g states edges h info
    rw [hdot] at hentry
    have hmem : edgeEntry showEdgeName edgePathList (edges[k], k) ∈
        edges.zipIdx.map (edgeEntry showEdgeName (allEdges g)) := by
      refine (hblack.symm.trans hentry).symm.mem_iff.mp (List.mem_map_of_mem ?_)
      exact List.mk_mem_zipIdx_iff_getElem?.mpr (List.getElem?_eq_getElem hk)
    obtain ⟨p, hp, heq⟩ := List.mem_map.mp hmem
    have hdetail := congrArg Prod.snd heq
    rw [edgeEntry, edgeEntry, if_pos (hall p hp), if_neg hunused] at hdetail
    exact edgeDetail_ne _ _ hdetail.symm
  · intro hused
    have hturn : ∀ p ∈ states.flatMap (fun name => MGraph.Holds.leaving name edges), ∀ dot,
        addEdgeCall showEdgeName edgePathList dot p = addEdgeCall showEdgeName (allEdges g) dot p := by
      intro p hp dot
      obtain ⟨name, -, hp⟩ := List.mem_flatMap.mp hp
      have hnumber := hall p (List.mem_filter.mp hp).1
      rw [addEdgeCall, addEdgeCall, decide_eq_true hnumber, decide_eq_true (hused _ (hflat ▸ hnumber))]
    have hfold : (states.flatMap fun name => MGraph.Holds.leaving name edges).foldl
        (addEdgeCall showEdgeName edgePathList) .new =
          (states.flatMap fun name => MGraph.Holds.leaving name edges).foldl
            (addEdgeCall showEdgeName (allEdges g)) .new :=
      List.foldl_ext _ _ _ fun dot p hp => hturn p hp dot
    rw [seqDrawing, covDrawing, covDrawing, hfold]

/-- The nodes are those of the scenario, whatever the edges. -/
theorem nodeMap_setStartAndStopNodes (dot dot' : MDot) (startNodeList stopNodeList : List String) :
    (setStartAndStopNodes dot startNodeList stopNodeList).nodeMap =
      (setStartAndStopNodes dot' startNodeList stopNodeList).nodeMap := by
  have hnodes : ∀ (names : List String) (color : String) {dot dot' : MDot},
      dot.nodeMap = dot'.nodeMap →
        (names.foldl (fun dot name => dot.addNode name "ellipse" "filled" color) dot).nodeMap =
          (names.foldl (fun dot name => dot.addNode name "ellipse" "filled" color) dot').nodeMap := by
    intro names color
    induction names with
    | nil => exact fun h => h
    | cons name names ih =>
      intro dot dot' h
      refine ih ?_
      simp only [MDot.addNode, h]
  exact hnodes stopNodeList "green" (hnodes startNodeList "yellow" rfl)

/-- An entry of the sequence graph. -/
def seqEntry (showEdgeName : Bool) (p : EdgeCall × ℕ) : String × String :=
  (MDot.edgeDesc (trim p.1.begNodeName) "->" (trim p.1.endNodeName),
    MDot.edgeDetail (edgeLabel showEdgeName (p.2 + 1) p.1.stepName) "black" "bold")

/-- The sequence drawing has one entry for each edge. -/
theorem edgeEntries_seqDrawing (h : MGraph.Holds g states edges) (info : ScenarioInfo) :
    (seqDrawing states edges showEdgeName g info).dot.edgeEntries.Perm
      (edges.zipIdx.map (seqEntry showEdgeName)) := by
  refine (edgeEntries_covDrawing h info).trans (List.Perm.of_eq (List.map_congr_left fun p hp => ?_))
  have hplace := List.snd_lt_of_mem_zipIdx hp
  rw [edgeEntry, if_pos ((mem_allEdges h).mpr ⟨p.2, by omega, rfl⟩), seqEntry]

/-! ### After the paths -/

/-- The two drawings of a scenario, given the paths that are kept under its name. -/
structure Draws (g : MGraph) (edges : List EdgeCall) (showEdgeName : Bool)
    (scenariosPathsMap : HashMap String PathLists) (info : ScenarioInfo) (cov seq : Drawing) : Prop where
  covName : cov.fileName = info.name ++ "_cov"
  seqName : seq.fileName = info.name
  nodes : cov.dot.nodeMap = seq.dot.nodeMap
  covEdges : cov.dot.edgeEntries.Perm
    (edges.zipIdx.map (edgeEntry showEdgeName (pathsOf scenariosPathsMap info)))
  seqEdges : seq.dot.edgeEntries.Perm (edges.zipIdx.map (seqEntry showEdgeName))
  same_iff : cov.dot = seq.dot ↔
    ∀ n ∈ g.edgeNumberList.flatten, ∃ path ∈ pathsOf scenariosPathsMap info, n ∈ path

/-- Both drawings of a scenario. -/
theorem draws (h : MGraph.Holds g states edges) (scenariosPathsMap : HashMap String PathLists)
    (info : ScenarioInfo) : Draws g edges showEdgeName scenariosPathsMap info
      (covDrawing states edges showEdgeName (pathsOf scenariosPathsMap info) info)
      (seqDrawing states edges showEdgeName g info) where
  covName := rfl
  seqName := rfl
  nodes := nodeMap_setStartAndStopNodes _ _ info.start info.stop
  covEdges := edgeEntries_covDrawing h info
  seqEdges := edgeEntries_seqDrawing h info
  same_iff := by
    rw [covDrawing_eq_iff h]
    simp only [List.mem_flatten]

/-- A graph that calls of `addEdge` build holds their edges. -/
theorem holds_ofEdges (es : List EdgeCall) :
    ∃ states, MGraph.Holds (.ofEdges es) states es := by
  have hcalls : MGraph.ofCalls (es.map GraphCall.edge) = .ofEdges es := by
    rw [MGraph.ofCalls, List.foldl_map]
    rfl
  have hedges : MGraph.edgesOf (es.map GraphCall.edge) = es := by
    rw [MGraph.edgesOf, List.filterMap_map]
    exact List.filterMap_some
  have h := MGraph.holds_ofCalls (es.map GraphCall.edge)
  rw [hcalls, hedges] at h
  exact ⟨_, h⟩

/-- **Drawing after the paths.**  Where the routes of the scenarios can be read, their paths are
generated and then both graphs of every scenario are drawn, from the same nodes and the same edges:
every edge of the model once, in the coverage graph red where none of the paths kept under the name
uses it.  The two are the same exactly where the paths use all edges. -/
theorem draws_paths (es : List EdgeCall) (order : ℕ → VisitOrder ℤ) (infos : List ScenarioInfo) (showEdgeName : Bool)
    (hread : ∀ info ∈ infos, MGenPath.RoutesRead (.ofEdges es) info) :
    ∃ scenariosPathsMap x' cov seq,
      (MGenPath.genPath order (some infos)).run (MGenPath.new (.ofEdges es)) =
        .ok (some scenariosPathsMap) x' ∧
      drawSeqGraph (.ofEdges es) (some infos) showEdgeName = .ok seq ∧
      drawCovGraph x'.graph (some infos) scenariosPathsMap showEdgeName = .ok cov ∧
      cov.length = infos.length ∧ seq.length = infos.length ∧
      ∀ (i : ℕ) info c s, infos[i]? = some info → cov[i]? = some c → seq[i]? = some s →
        Draws (.ofEdges es) es showEdgeName scenariosPathsMap info c s := by
  have hwf := MGraph.wf_ofEdges es
  obtain ⟨states, h⟩ := holds_ofEdges es
  rcases MGenPath.run_genPath hwf order infos with ⟨-, x', hrun, hx'⟩ | ⟨⟨info, hinfo, hnot⟩, -⟩
  · have hpaths : ∀ info ∈ infos, HasPaths (.ofEdges es) x'.scenariosPathsMap info :=
      fun info hinfo => hx'.exists_paths hwf hinfo
    refine ⟨_, x', _, _, hrun, drawSeqGraph_eq h infos, hx'.graph ▸ drawCovGraph_eq h hpaths, ?_, ?_, ?_⟩
    · rw [List.length_map]
    · rw [List.length_map]
    · intro i info c s hi hc hs
      rw [List.getElem?_map, hi] at hc hs
      obtain rfl := Option.some.inj hc
      obtain rfl := Option.some.inj hs
      exact draws h _ info
  · exact absurd (hread info hinfo) hnot

/-- `A → B → C`, and a scenario that stops at `B`. -/
def lineEdges : List EdgeCall := [⟨"A", "B", "go", 1, 1⟩, ⟨"B", "C", "on", 2, 1⟩]

/-- A scenario on one edge. -/
def lineInfo : ScenarioInfo := ⟨"Go", ["A"], ["B"], [], [], "all", "", []⟩

theorem draws_paths_line : ∃ scenariosPathsMap x' cov seq,
    (MGenPath.genPath (fun _ => .insertion) (some [lineInfo])).run
        (MGenPath.new (.ofEdges lineEdges)) = .ok (some scenariosPathsMap) x' ∧
      drawSeqGraph (.ofEdges lineEdges) (some [lineInfo]) true = .ok seq ∧
      drawCovGraph x'.graph (some [lineInfo]) scenariosPathsMap true = .ok cov ∧
      cov.length = [lineInfo].length ∧ seq.length = [lineInfo].length ∧
      ∀ (i : ℕ) info c s, [lineInfo][i]? = some info → cov[i]? = some c → seq[i]? = some s →
        Draws (.ofEdges lineEdges) lineEdges true scenariosPathsMap info c s :=
  draws_paths lineEdges (fun _ => .insertion) [lineInfo] true fun info hinfo r hr => by
    rw [List.mem_singleton.mp hinfo] at hr
    cases hr

end MDraw

end MBT
