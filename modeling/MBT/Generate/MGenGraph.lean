import MBT.Generate.MGenMbtXml
import MBT.Graph.GraphCalls
import MBT.Support.Split

/-!
# Generate — MGenGraph

The graph of the steps of a model: an edge for each pair of a begin and an end state of a step.

* `genGraphFromXML_eq`: the graph is the one that the calls for the pairs build.
* `genGraphFromXML_edges`: its states, its edges and their numbers.
-/

namespace MBT
open Exec Text Intern

namespace MGenGraph

/-- The states of a step: more than one where the text has a comma. -/
def stateArray (states : String) : List String :=
  if contains states "," then split states "," else [states]

/-- Adds the edges of a step, from each of its begin states to each of its end states. -/
def addEdge (graph : MGraph) (s : TestStep) : MGraph :=
  -- no repeat time specified means one time
  let repeatTime := if s.repeatTime = -1 then 1 else s.repeatTime
  (stateArray s.beginState).foldl (fun graph tmpBeginStep =>
    (stateArray s.endState).foldl (fun graph tmpEndStep =>
      graph.addEdge (trim tmpBeginStep) (trim tmpEndStep) s.name s.stepNumber repeatTime) graph) graph

/-- The graph of the elements `TESTSTEP` of an MBT XML. -/
def genGraphFromXML (testStepElemList : List TestStep) : MGraph :=
  testStepElemList.foldl addEdge .new

/-! ### Steps with lists of states -/

/-- A step whose states are lists of names with any surrounding blanks. -/
structure StepStates where
  step : TestStep
  begins : List String
  ends : List String
  begins_ne : begins ≠ []
  ends_ne : ends ≠ []
  names : ∀ p ∈ begins ++ ends, ',' ∉ p.toList ∧ trim p ≠ ""
  beginState : step.beginState = ",".intercalate begins
  endState : step.endState = ",".intercalate ends

/-- An edge that a step asks for. -/
structure StepEdge where
  begName : String
  endName : String
  step : TestStep

namespace StepStates

/-- The edges of a step, the begin states in the outer loop. -/
def edges (s : StepStates) : List StepEdge :=
  s.begins.flatMap fun b => s.ends.map fun e => ⟨trim b, trim e, s.step⟩

end StepStates

/-- The edges of the steps, in the order of the document. -/
def edgesOf (steps : List StepStates) : List StepEdge := steps.flatMap StepStates.edges

/-- The states of the steps, by their first occurrence at an edge. -/
def statesOf (steps : List StepStates) : List String :=
  interned ((edgesOf steps).flatMap fun d => [d.begName, d.endName])

/-- The call of `MGraph.addEdge` for an edge. -/
def StepEdge.call (d : StepEdge) : EdgeCall :=
  ⟨d.begName, d.endName, d.step.name, d.step.stepNumber,
    if d.step.repeatTime = -1 then 1 else d.step.repeatTime⟩

/-- To trim twice is to trim once. -/
theorem trim_trim (s : String) : trim (trim s) = trim s := by
  have hpre : ((s.toList.dropWhile (· ≤ ' ')).reverse.dropWhile (· ≤ ' ')).reverse <+:
      s.toList.dropWhile (· ≤ ' ') := by
    have hsuffix := List.dropWhile_suffix (· ≤ ' ') (l := (s.toList.dropWhile (· ≤ ' ')).reverse)
    have hpre := List.reverse_prefix.mpr hsuffix
    rwa [List.reverse_reverse] at hpre
  -- the first character of what is left is not cut a second time
  have hfirst : (trim s).toList.dropWhile (· ≤ ' ') = (trim s).toList := by
    rw [trim, String.toList_ofList]
    cases hl : ((s.toList.dropWhile (· ≤ ' ')).reverse.dropWhile (· ≤ ' ')).reverse with
    | nil => rfl
    | cons c l =>
      obtain ⟨r, hr⟩ := hpre
      rw [hl] at hr
      have hhead := List.head?_dropWhile_not (· ≤ ' ') s.toList
      rw [← hr] at hhead
      rw [List.dropWhile_cons_of_neg]
      simpa using hhead
  have hlast : (trim s).toList.reverse.dropWhile (· ≤ ' ') = (trim s).toList.reverse := by
    rw [trim, String.toList_ofList, List.reverse_reverse, List.dropWhile_idempotent]
  rw [trim, hfirst, hlast, List.reverse_reverse, String.ofList_toList]

/-- States that are joined by commas are read back. -/
theorem stateArray_intercalate {ps : List String} (hne : ps ≠ [])
    (hps : ∀ p ∈ ps, ',' ∉ p.toList ∧ trim p ≠ "") : stateArray (",".intercalate ps) = ps := by
  have hsplit : split (",".intercalate ps) "," = ps := by
    refine split_intercalate_eq rfl (fun p hp => (hps p hp).1) hne ?_
    intro hlast
    exact (hps "" (List.mem_of_getLast? hlast)).2 (by decide)
  rw [stateArray]
  split
  · exact hsplit
  · rename_i hcomma
    obtain ⟨x, ps, rfl⟩ := List.exists_cons_of_ne_nil hne
    cases ps with
    | nil => rw [String.intercalate_singleton]
    | cons y ps =>
      refine absurd (contains_of_isInfix ?_) hcomma
      rw [String.intercalate_cons_of_ne_nil (List.cons_ne_nil y ps), String.toList_append,
        String.toList_append]
      exact ⟨x.toList, _, rfl⟩

/-- The turn for a step makes the calls for its edges. -/
theorem addEdge_eq (graph : MGraph) (s : StepStates) :
    addEdge graph s.step = (s.edges.map fun d => GraphCall.edge d.call).foldl MGraph.call graph := by
  have hbegins := stateArray_intercalate s.begins_ne fun p hp => s.names p (List.mem_append_left _ hp)
  have hends := stateArray_intercalate s.ends_ne fun p hp => s.names p (List.mem_append_right _ hp)
  rw [addEdge, s.beginState, s.endState, hbegins, hends, StepStates.edges, List.foldl_map,
    List.foldl_flatMap]
  simp only [List.foldl_map]
  rfl

/-- The graph is built by one call for each pair of states. -/
theorem genGraphFromXML_eq (steps : List StepStates) :
    genGraphFromXML (steps.map StepStates.step) =
      .ofCalls ((edgesOf steps).map fun d => GraphCall.edge d.call) := by
  have hrun : ∀ graph : MGraph, (steps.map StepStates.step).foldl addEdge graph =
      ((edgesOf steps).map fun d => GraphCall.edge d.call).foldl MGraph.call graph := by
    induction steps with
    | nil => exact fun graph => rfl
    | cons s steps ih =>
      intro graph
      have hedges : edgesOf (s :: steps) = s.edges ++ edgesOf steps := List.flatMap_cons
      rw [List.map_cons, List.foldl_cons, addEdge_eq, ih, hedges, List.map_append, List.foldl_append]
  exact hrun .new

/-- The edge with the number leaves and enters the states, with the name, number and repeat time of a
step. -/
def HasEdge (g : MGraph) (number : ℤ) (d : StepEdge) : Prop := ∃ (b : ℤ) (i : ℕ),
  g.nodeNumMap.lookup d.begName = some b ∧
  (row g.edgeNumberList b)[i]? = some number ∧
  (row g.edgeList b)[i]? = g.nodeNumMap.lookup d.endName ∧
  (row g.edgeNameList b)[i]? = some d.step.name ∧
  (row g.edgeStepList b)[i]? = some d.step.stepNumber ∧
  (row g.edgeRepeatTimeList b)[i]? = some (max 1 d.step.repeatTime)

/-- The states of an edge are trimmed. -/
theorem trim_of_mem_edgesOf {steps : List StepStates} {d : StepEdge} (hd : d ∈ edgesOf steps) :
    trim d.begName = d.begName ∧ trim d.endName = d.endName := by
  obtain ⟨s, -, hd⟩ := List.mem_flatMap.mp hd
  obtain ⟨b, -, hd⟩ := List.mem_flatMap.mp hd
  obtain ⟨e, -, rfl⟩ := List.mem_map.mp hd
  exact ⟨trim_trim b, trim_trim e⟩

/-- What the graph of the steps holds. -/
theorem holds_steps (steps : List StepStates) :
    MGraph.Holds (genGraphFromXML (steps.map StepStates.step)) (statesOf steps)
      ((edgesOf steps).map StepEdge.call) := by
  have hcalls : MGraph.edgesOf ((edgesOf steps).map fun d => GraphCall.edge d.call) =
      (edgesOf steps).map StepEdge.call := by
    rw [MGraph.edgesOf, List.filterMap_map, ← List.filterMap_eq_map]
    rfl
  have hstates :
      MGraph.statesOf ((edgesOf steps).map fun d => GraphCall.edge d.call) = statesOf steps := by
    rw [MGraph.statesOf, statesOf, List.flatMap_map]
    refine congrArg interned (List.flatMap_congr fun d hd => ?_)
    rw [GraphCall.names, StepEdge.call, (trim_of_mem_edgesOf hd).1, (trim_of_mem_edgesOf hd).2]
  have hholds := MGraph.holds_ofCalls ((edgesOf steps).map fun d => GraphCall.edge d.call)
  rw [← genGraphFromXML_eq, hstates, hcalls] at hholds
  exact hholds

/-- Each edge that is asked for is in the graph, with its number. -/
theorem hasEdge_of_getElem? {steps : List StepStates} {k : ℕ} {d : StepEdge}
    (hk : (edgesOf steps)[k]? = some d) :
    HasEdge (genGraphFromXML (steps.map StepStates.step)) ((k : ℕ) + 1) d := by
  have hcall : ((edgesOf steps).map StepEdge.call)[k]? = some d.call := by
    rw [List.getElem?_map, hk]
    rfl
  obtain ⟨b, i, hb, hnumber, htarget, hname, hstep, hrepeat⟩ := (holds_steps steps).inserted hcall
  obtain ⟨hbeg, hend⟩ := trim_of_mem_edgesOf (List.mem_of_getElem? hk)
  rw [StepEdge.call] at hb htarget hname hstep hrepeat
  rw [hbeg] at hb
  rw [hend] at htarget
  refine ⟨b, i, hb, hnumber, htarget, hname, hstep, ?_⟩
  rw [hrepeat]
  dsimp only
  split
  · rename_i hone
    rw [hone]
    rfl
  · rfl

/-- **The graph of the steps**: its edges are those that the steps ask for, numbered from 1 in the
order of the document, and its states are numbered from 0 by their first occurrence. -/
theorem genGraphFromXML_edges (steps : List StepStates) :
    (∀ k d, (edgesOf steps)[k]? = some d →
      HasEdge (genGraphFromXML (steps.map StepStates.step)) ((k : ℕ) + 1) d) ∧
    (genGraphFromXML (steps.map StepStates.step)).edgeNumberList.flatten.Perm
      ((List.range (edgesOf steps).length).map fun k : ℕ => (k : ℤ) + 1) ∧
    (genGraphFromXML (steps.map StepStates.step)).nodeCount = (statesOf steps).length ∧
    ∀ name, (genGraphFromXML (steps.map StepStates.step)).nodeNumMap.lookup name =
      if name ∈ statesOf steps then some ((statesOf steps).idxOf name : ℤ) else none := by
  have hholds := holds_steps steps
  refine ⟨?_, ?_, hholds.nodeCount, hholds.nodeNum⟩
  · exact fun k d hk => hasEdge_of_getElem? hk
  · have hnumbered := hholds.numbered
    rw [List.length_map] at hnumbered
    exact hnumbered

end MGenGraph

end MBT
