import MBT.Graph.MGraph
import MBT.Support.Intern

/-!
# Graph — GraphCalls

A graph built by any `addNode` and `addEdge` calls, and what it was built from: the names of its
states in the order in which they first occur, and its edges in the order of their calls.

* `Holds`: the containers and counters of a graph, given its states and edges.
* `holds_ofCalls`: every sequence of calls builds a graph that holds what was called.
* `represents_ofCalls`: the invariant of the containers that the searches rely on.
-/

namespace MBT
open Exec Text Intern

/-- A call that builds a graph. -/
inductive GraphCall where
  | node (nodeName : String)
  | edge (e : EdgeCall)

namespace GraphCall

/-- The names of the call, as they are added. -/
def names : GraphCall → List String
  | node nodeName => [nodeName]
  | edge e => [trim e.begNodeName, trim e.endNodeName]

/-- The edge that a call adds, if it is one of `addEdge`. -/
def edge? : GraphCall → Option EdgeCall
  | node _ => none
  | edge e => some e

end GraphCall

namespace MGraph

/-- The graph after a call. -/
def call (g : MGraph) : GraphCall → MGraph
  | .node nodeName => (g.addNode nodeName).1
  | .edge e => g.addEdge e.begNodeName e.endNodeName e.stepName e.stepNumber e.repeatTime

/-- The graph that some calls build. -/
def ofCalls (cs : List GraphCall) : MGraph := cs.foldl call new

/-! ### What a graph holds -/

/-- The edges of a graph by their begin states, each with `X` of it and its place among the calls. -/
def edgeRows {α : Type} (X : EdgeCall × ℕ → α) (states : List String) (edges : List EdgeCall) :
    List (List α) :=
  rowsOf (fun p => trim p.1.begNodeName) X states edges.zipIdx

/-- The number of the state that the edge enters. -/
def target (states : List String) (p : EdgeCall × ℕ) : ℤ := states.idxOf (trim p.1.endNodeName)

/-- The repeat time that an edge gets. -/
def repeatTimeOf (p : EdgeCall × ℕ) : ℤ := if p.1.repeatTime < 1 then 1 else p.1.repeatTime

/-- The graph has the states and edges. -/
structure Holds (g : MGraph) (states : List String) (edges : List EdgeCall) : Prop where
  nodup : states.Nodup
  known : ∀ e ∈ edges, trim e.begNodeName ∈ states ∧ trim e.endNodeName ∈ states
  nodeNum : ∀ name, g.nodeNumMap.lookup name =
    if name ∈ states then some (states.idxOf name : ℤ) else none
  nodeName : ∀ n : ℤ, g.nodeNameMap.lookup n = if 0 ≤ n then states[n.toNat]? else none
  targets : g.edgeList = edgeRows (target states) states edges
  repeats : g.edgeRepeatTimeList = edgeRows repeatTimeOf states edges
  numbers : g.edgeNumberList = edgeRows (fun p => (p.2 : ℤ) + 1) states edges
  edgeNames : g.edgeNameList = edgeRows (·.1.stepName) states edges
  steps : g.edgeStepList = edgeRows (·.1.stepNumber) states edges
  stepNum : ∀ name, g.stepNumMap.lookup name =
    (edges.reverse.find? (·.stepName == name)).map EdgeCall.stepNumber
  edgeCount : g.edgeCount = edges.length + 1
  nodeCount : g.nodeCount = states.length

/-- An empty graph holds nothing. -/
theorem holds_new : Holds new [] [] where
  nodup := List.nodup_nil
  known := List.forall_mem_nil _
  nodeNum name := rfl
  nodeName n := by
    rw [List.getElem?_nil, ite_self]
    rfl
  targets := rfl
  repeats := rfl
  numbers := rfl
  edgeNames := rfl
  steps := rfl
  stepNum name := rfl
  edgeCount := rfl
  nodeCount := rfl

namespace Holds

variable {g : MGraph} {states : List String} {edges : List EdgeCall} {name : String}

/-- A name that is known has its number, and nothing changes. -/
theorem addNode_of_mem (h : Holds g states edges) (hname : name ∈ states) :
    g.addNode name = (g, (states.idxOf name : ℤ)) := by
  rw [MGraph.addNode, h.nodeNum, if_pos hname]

/-- A new state gets an empty row, and the other rows stay. -/
theorem edgeRows_intern {α : Type} (X : EdgeCall × ℕ → α) (h : Holds g states edges)
    (hname : name ∉ states) : edgeRows X (intern states name) edges = edgeRows X states edges ++ [[]] := by
  refine rowsOf_intern ?_ hname
  intro p hp
  exact (h.known p.1 (List.fst_mem_of_mem_zipIdx hp)).1

/-- `addNode` interns the name and returns its number. -/
theorem addNode (h : Holds g states edges) (name : String) :
    Holds (g.addNode name).1 (intern states name) edges ∧
      (g.addNode name).2 = ((intern states name).idxOf name : ℤ) := by
  by_cases hname : name ∈ states
  · rw [h.addNode_of_mem hname, intern_of_mem hname]
    exact ⟨h, rfl⟩
  · have hlookup : g.nodeNumMap.lookup name = none := by rw [h.nodeNum, if_neg hname]
    have hidx : (intern states name).idxOf name = states.length := by
      rw [intern_of_notMem hname, List.idxOf_append_of_notMem hname, List.idxOf_cons_self, Nat.add_zero]
    rw [MGraph.addNode, hlookup, hidx]
    refine ⟨?_, h.nodeCount⟩
    constructor
    · exact nodup_intern h.nodup name
    · intro e he
      obtain ⟨hbeg, hend⟩ := h.known e he
      exact ⟨mem_intern.mpr (.inl hbeg), mem_intern.mpr (.inl hend)⟩
    · intro name'
      dsimp only
      by_cases heq : name' = name
      · rw [heq, AList.lookup_insert, if_pos (mem_intern.mpr (.inr rfl)), hidx, h.nodeCount]
      · have hmem : name' ∈ intern states name ↔ name' ∈ states := by
          rw [mem_intern, or_iff_left heq]
        rw [AList.lookup_insert_ne heq, h.nodeNum]
        by_cases hold : name' ∈ states
        · rw [if_pos hold, if_pos (hmem.mpr hold), idxOf_intern hold]
        · rw [if_neg hold, if_neg (mt hmem.mp hold)]
    · intro n
      dsimp only
      rw [intern_of_notMem hname, h.nodeCount]
      by_cases heq : n = states.length
      · rw [heq, AList.lookup_insert, if_pos (Int.natCast_nonneg _), Int.toNat_natCast,
          List.getElem?_concat_length]
      · rw [AList.lookup_insert_ne heq, h.nodeName]
        by_cases hn : 0 ≤ n
        · rw [if_pos hn, if_pos hn]
          by_cases hlt : n.toNat < states.length
          · rw [List.getElem?_append_left hlt]
          · have hout : (states ++ [name]).length ≤ n.toNat := by
              rw [List.length_append, List.length_singleton]
              omega
            rw [List.getElem?_eq_none (Nat.not_lt.mp hlt), List.getElem?_eq_none hout]
        · rw [if_neg hn, if_neg hn]
    · dsimp only
      rw [h.targets, ← edgeRows_intern _ h hname]
      refine rowsOf_congr fun p hp => ?_
      rw [target, target, idxOf_intern (h.known p.1 (List.fst_mem_of_mem_zipIdx hp)).2]
    · dsimp only
      rw [h.repeats, edgeRows_intern _ h hname]
    · dsimp only
      rw [h.numbers, edgeRows_intern _ h hname]
    · dsimp only
      rw [h.edgeNames, edgeRows_intern _ h hname]
    · dsimp only
      rw [h.steps, edgeRows_intern _ h hname]
    · exact h.stepNum
    · exact h.edgeCount
    · dsimp only
      rw [h.nodeCount, intern_of_notMem hname, List.length_append, List.length_singleton]
      rfl

/-- An edge goes to the end of the row of the state it leaves. -/
theorem addAt_edgeRows {α : Type} (X : EdgeCall × ℕ → α) (hnodup : states.Nodup) {e : EdgeCall}
    (he : trim e.begNodeName ∈ states) :
    addAt (edgeRows X states edges) (states.idxOf (trim e.begNodeName) : ℤ) (X (e, edges.length)) =
      edgeRows X states (edges ++ [e]) := by
  rw [addAt, Int.toNat_natCast, edgeRows, edgeRows, List.zipIdx_append, Nat.zero_add,
    List.zipIdx_singleton]
  exact @rowsOf_concat _ _ _ _ states (fun p : EdgeCall × ℕ => trim p.1.begNodeName) X edges.zipIdx
    (e, edges.length) hnodup he

/-- An edge between states of the graph stands behind the edges before it. -/
theorem addAt_edge (h : Holds g states edges) {e : EdgeCall} (hbeg : trim e.begNodeName ∈ states)
    (hend : trim e.endNodeName ∈ states) :
    Holds { g with
      edgeList := addAt g.edgeList (states.idxOf (trim e.begNodeName)) (states.idxOf (trim e.endNodeName))
      edgeRepeatTimeList := addAt g.edgeRepeatTimeList (states.idxOf (trim e.begNodeName))
        (if e.repeatTime < 1 then 1 else e.repeatTime)
      edgeNameList := addAt g.edgeNameList (states.idxOf (trim e.begNodeName)) e.stepName
      edgeNumberList := addAt g.edgeNumberList (states.idxOf (trim e.begNodeName)) g.edgeCount
      edgeStepList := addAt g.edgeStepList (states.idxOf (trim e.begNodeName)) e.stepNumber
      stepNumMap := g.stepNumMap.insert e.stepName e.stepNumber
      edgeCount := g.edgeCount + 1 } states (edges ++ [e]) where
  nodup := h.nodup
  known := by
    intro e' he'
    rcases List.mem_append.mp he' with he' | he'
    · exact h.known e' he'
    · rw [List.mem_singleton.mp he']
      exact ⟨hbeg, hend⟩
  nodeNum := h.nodeNum
  nodeName := h.nodeName
  targets := by
    rw [h.targets]
    exact addAt_edgeRows (target states) h.nodup hbeg
  repeats := by
    rw [h.repeats]
    exact addAt_edgeRows repeatTimeOf h.nodup hbeg
  numbers := by
    rw [h.numbers, h.edgeCount]
    exact addAt_edgeRows (fun p => (p.2 : ℤ) + 1) h.nodup hbeg
  edgeNames := by
    rw [h.edgeNames]
    exact addAt_edgeRows (·.1.stepName) h.nodup hbeg
  steps := by
    rw [h.steps]
    exact addAt_edgeRows (·.1.stepNumber) h.nodup hbeg
  stepNum name := by
    rw [List.reverse_append, List.reverse_singleton, List.singleton_append, List.find?_cons]
    by_cases heq : name = e.stepName
    · rw [heq, AList.lookup_insert, beq_self_eq_true]
      rfl
    · rw [AList.lookup_insert_ne heq, h.stepNum, beq_eq_false_iff_ne.mpr (Ne.symm heq)]
  edgeCount := by
    rw [h.edgeCount, List.length_append, List.length_singleton]
    push_cast
    ring
  nodeCount := h.nodeCount

/-- An edge adds the names of its states, and stands behind the edges before it. -/
theorem addEdge (h : Holds g states edges) (e : EdgeCall) :
    Holds (g.addEdge e.begNodeName e.endNodeName e.stepName e.stepNumber e.repeatTime)
      (intern (intern states (trim e.begNodeName)) (trim e.endNodeName)) (edges ++ [e]) := by
  obtain ⟨hbeg, hbegNum⟩ := h.addNode (trim e.begNodeName)
  obtain ⟨hend, hendNum⟩ := hbeg.addNode (trim e.endNodeName)
  have hmem : trim e.begNodeName ∈ intern states (trim e.begNodeName) := mem_intern.mpr (.inr rfl)
  rw [← idxOf_intern hmem (trim e.endNodeName)] at hbegNum
  unfold MGraph.addEdge
  dsimp only
  rw [hbegNum, hendNum]
  exact hend.addAt_edge (mem_intern.mpr (.inl hmem)) (mem_intern.mpr (.inr rfl))

end Holds

/-! ### Any calls -/

/-- The names of the states that the calls add. -/
def statesOf (cs : List GraphCall) : List String := interned (cs.flatMap GraphCall.names)

/-- The edges that the calls add. -/
def edgesOf (cs : List GraphCall) : List EdgeCall := cs.filterMap GraphCall.edge?

/-- **What calls build**: a graph that holds the states and the edges that were called. -/
theorem holds_ofCalls (cs : List GraphCall) : Holds (ofCalls cs) (statesOf cs) (edgesOf cs) := by
  induction cs using List.reverseRecOn with
  | nil => exact holds_new
  | append_singleton cs c ih =>
    rw [ofCalls, List.foldl_append, ← ofCalls, statesOf, List.flatMap_append, edgesOf,
      List.filterMap_append]
    cases c with
    | node nodeName =>
      have hstates : interned (cs.flatMap GraphCall.names ++ [GraphCall.node nodeName].flatMap
          GraphCall.names) = intern (statesOf cs) nodeName := interned_concat _ _
      rw [hstates]
      exact (List.append_nil (edgesOf cs)).symm ▸ (ih.addNode nodeName).1
    | edge e =>
      have hstates : interned (cs.flatMap GraphCall.names ++ [GraphCall.edge e].flatMap
          GraphCall.names) = intern (intern (statesOf cs) (trim e.begNodeName)) (trim e.endNodeName) := by
        have hnames : [GraphCall.edge e].flatMap GraphCall.names =
            [trim e.begNodeName] ++ [trim e.endNodeName] := rfl
        rw [hnames, ← List.append_assoc, interned_concat, interned_concat]
        rfl
      rw [hstates]
      exact ih.addEdge e

/-! ### The invariant of the containers -/

namespace Holds

variable {g : MGraph} {states : List String} {edges : List EdgeCall} {name : String}

/-- The names with a number are the states. -/
theorem mem_nodeNumMap (h : Holds g states edges) : name ∈ g.nodeNumMap ↔ name ∈ states := by
  rw [← AList.lookup_isSome, h.nodeNum]
  by_cases hname : name ∈ states
  · rw [if_pos hname]
    exact iff_of_true rfl hname
  · rw [if_neg hname]
    exact iff_of_false Bool.false_ne_true hname

/-- The numbers with a name are those below `nodeCount`. -/
theorem mem_nodeNameMap (h : Holds g states edges) {n : ℤ} :
    n ∈ g.nodeNameMap ↔ 0 ≤ n ∧ n < g.nodeCount := by
  rw [← AList.lookup_isSome, h.nodeName, h.nodeCount]
  by_cases hn : 0 ≤ n
  · have hlt : n < (states.length : ℤ) ↔ n.toNat < states.length := by omega
    rw [if_pos hn, and_iff_right hn, hlt, ← not_iff_not, Option.not_isSome_iff_eq_none,
      List.getElem?_eq_none_iff, not_lt]
  · rw [if_neg hn]
    exact iff_of_false Bool.false_ne_true fun h => hn h.1

/-- The two maps are inverse to each other. -/
theorem nodeNum_iff (h : Holds g states edges) {n : ℤ} :
    g.nodeNumMap.lookup name = some n ↔ g.nodeNameMap.lookup n = some name := by
  rw [h.nodeNum, h.nodeName]
  constructor
  · intro hnum
    by_cases hname : name ∈ states
    · rw [if_pos hname] at hnum
      cases hnum
      rw [if_pos (Int.natCast_nonneg _), Int.toNat_natCast, List.getElem?_idxOf hname]
    · rw [if_neg hname] at hnum
      cases hnum
  · intro hget
    by_cases hn : 0 ≤ n
    · rw [if_pos hn] at hget
      obtain ⟨hlt, hget⟩ := List.getElem?_eq_some_iff.mp hget
      have hname : name ∈ states := hget ▸ List.getElem_mem hlt
      rw [if_pos hname, ← hget, h.nodup.idxOf_getElem, Int.toNat_of_nonneg hn]
    · rw [if_neg hn] at hget
      cases hget

/-- The rows together hold one entry for each edge. -/
theorem flatten_edgeRows {α : Type} (X : EdgeCall × ℕ → α) (h : Holds g states edges) :
    (edgeRows X states edges).flatten.Perm (edges.zipIdx.map X) := by
  refine flatten_rowsOf h.nodup ?_
  intro p hp
  exact (h.known p.1 (List.fst_mem_of_mem_zipIdx hp)).1

/-- The edges that leave a state, with their places among the calls. -/
def leaving (name : String) (edges : List EdgeCall) : List (EdgeCall × ℕ) :=
  edges.zipIdx.filter fun p => trim p.1.begNodeName = name

/-- The row of a state holds the entries of the edges that leave it, in order. -/
theorem row_edgeRows {α : Type} (X : EdgeCall × ℕ → α) (hname : name ∈ states) :
    row (edgeRows X states edges) (states.idxOf name) = (leaving name edges).map X := by
  rw [row_natCast, List.getD_eq_getElem?_getD, edgeRows, rowsOf, List.getElem?_map,
    List.getElem?_idxOf hname]
  rfl

/-- The edges are numbered from 1. -/
theorem numbered (h : Holds g states edges) :
    g.edgeNumberList.flatten.Perm ((List.range edges.length).map fun k : ℕ => (k : ℤ) + 1) := by
  have hzip : edges.zipIdx.map (fun p => (p.2 : ℤ) + 1) =
      (List.range edges.length).map fun k : ℕ => (k : ℤ) + 1 := by
    rw [List.range_eq_range', ← List.zipIdx_map_snd 0 edges, List.map_map]
    rfl
  rw [h.numbers, ← hzip]
  exact h.flatten_edgeRows _

/-- What the rows have at a place, for the edge there. -/
theorem rows_at (h : Holds g states edges) {name : String} (hname : name ∈ states) {i k : ℕ}
    {e : EdgeCall} (hi : (leaving name edges)[i]? = some (e, k)) :
    (row g.edgeNumberList (states.idxOf name))[i]? = some ((k : ℤ) + 1) ∧
    (row g.edgeList (states.idxOf name))[i]? = g.nodeNumMap.lookup (trim e.endNodeName) ∧
    (row g.edgeNameList (states.idxOf name))[i]? = some e.stepName ∧
    (row g.edgeStepList (states.idxOf name))[i]? = some e.stepNumber ∧
    (row g.edgeRepeatTimeList (states.idxOf name))[i]? = some (max 1 e.repeatTime) := by
  have hmem := List.mem_filter.mp (List.mem_of_getElem? hi)
  have hend := (h.known e (List.fst_mem_of_mem_zipIdx hmem.1)).2
  have hrow : ∀ {α : Type} (X : EdgeCall × ℕ → α),
      (row (edgeRows X states edges) (states.idxOf name))[i]? = some (X (e, k)) := by
    intro α X
    rw [row_edgeRows X hname, List.getElem?_map, hi]
    rfl
  refine ⟨?_, ?_, ?_, ?_, ?_⟩
  · rw [h.numbers, hrow]
  · rw [h.targets, hrow, h.nodeNum, if_pos hend]
    rfl
  · rw [h.edgeNames, hrow]
  · rw [h.steps, hrow]
  · rw [h.repeats, hrow, repeatTimeOf]
    dsimp only
    split
    · rw [max_eq_left (by omega)]
    · rw [max_eq_right (by omega)]

/-- Every edge that was added has a place. -/
theorem inserted (h : Holds g states edges) {k : ℕ} {e : EdgeCall} (hk : edges[k]? = some e) :
    ∃ (b : ℤ) (i : ℕ), g.nodeNumMap.lookup (trim e.begNodeName) = some b ∧
      (row g.edgeNumberList b)[i]? = some ((k : ℤ) + 1) ∧
      (row g.edgeList b)[i]? = g.nodeNumMap.lookup (trim e.endNodeName) ∧
      (row g.edgeNameList b)[i]? = some e.stepName ∧
      (row g.edgeStepList b)[i]? = some e.stepNumber ∧
      (row g.edgeRepeatTimeList b)[i]? = some (max 1 e.repeatTime) := by
  obtain ⟨hbeg, -⟩ := h.known e (List.mem_of_getElem? hk)
  have hmem : (e, k) ∈ leaving (trim e.begNodeName) edges :=
    List.mem_filter.mpr ⟨List.mk_mem_zipIdx_iff_getElem?.mpr hk, decide_eq_true rfl⟩
  obtain ⟨i, hi⟩ := List.getElem?_of_mem hmem
  refine ⟨states.idxOf (trim e.begNodeName), i, ?_, h.rows_at hbeg hi⟩
  rw [h.nodeNum, if_pos hbeg]

/-- Every place is that of an edge that was added. -/
theorem exists_inserted (h : Holds g states edges) {name : String} {b number : ℤ} {i : ℕ}
    (hb : g.nodeNumMap.lookup name = some b) (hi : (row g.edgeNumberList b)[i]? = some number) :
    ∃ (k : ℕ) (e : EdgeCall), edges[k]? = some e ∧ trim e.begNodeName = name ∧
      (row g.edgeList b)[i]? = g.nodeNumMap.lookup (trim e.endNodeName) ∧
      (row g.edgeNameList b)[i]? = some e.stepName ∧
      (row g.edgeStepList b)[i]? = some e.stepNumber ∧
      (row g.edgeRepeatTimeList b)[i]? = some (max 1 e.repeatTime) := by
  rw [h.nodeNum] at hb
  split at hb
  · rename_i hname
    cases hb
    rw [h.numbers, row_edgeRows _ hname, List.getElem?_map, Option.map_eq_some_iff] at hi
    obtain ⟨⟨e, k⟩, hi, -⟩ := hi
    obtain ⟨hmem, hbeg⟩ := List.mem_filter.mp (List.mem_of_getElem? hi)
    exact ⟨k, e, List.mk_mem_zipIdx_iff_getElem?.mp hmem, of_decide_eq_true hbeg,
      (h.rows_at hname hi).2⟩
  · cases hb

end Holds

/-- What the containers of a graph that some calls have built say. -/
structure Represents (g : MGraph) (cs : List GraphCall) : Prop where
  inverse : ∀ name n, g.nodeNumMap.lookup name = some n ↔ g.nodeNameMap.lookup n = some name
  names : ∀ name, name ∈ g.nodeNumMap ↔ ∃ c ∈ cs, name ∈ c.names
  nodes : ∀ n, n ∈ g.nodeNameMap ↔ 0 ≤ n ∧ n < g.nodeCount
  rows : (g.edgeList.length : ℤ) = g.nodeCount ∧ g.Aligned
  numbered : g.edgeNumberList.flatten.Perm
    ((List.range (g.edgeCount - 1).toNat).map fun k : ℕ => (k : ℤ) + 1)
  increasing : ∀ r ∈ g.edgeNumberList, r.Pairwise (· < ·)
  inserted : ∀ (k : ℕ) (e : EdgeCall), (edgesOf cs)[k]? = some e → ∃ (b : ℤ) (i : ℕ),
    g.nodeNumMap.lookup (trim e.begNodeName) = some b ∧
    (row g.edgeNumberList b)[i]? = some ((k : ℤ) + 1) ∧
    (row g.edgeList b)[i]? = g.nodeNumMap.lookup (trim e.endNodeName) ∧
    (row g.edgeNameList b)[i]? = some e.stepName ∧
    (row g.edgeStepList b)[i]? = some e.stepNumber ∧
    (row g.edgeRepeatTimeList b)[i]? = some (max 1 e.repeatTime)
  targets : ∀ r ∈ g.edgeList, ∀ n ∈ r, 0 ≤ n ∧ n < g.nodeCount
  positive : ∀ r ∈ g.edgeRepeatTimeList, ∀ t ∈ r, 1 ≤ t
  again : ∀ c ∈ cs, ∀ name ∈ c.names, (g.addNode name).1 = g

/-- **The representation invariant**: whatever calls build a graph, in whatever order. -/
theorem represents_ofCalls (cs : List GraphCall) : Represents (ofCalls cs) cs := by
  have h := holds_ofCalls cs
  have hstates : ∀ name, name ∈ statesOf cs ↔ ∃ c ∈ cs, name ∈ c.names := by
    intro name
    rw [statesOf, mem_interned, List.mem_flatMap]
  have hlength : ((ofCalls cs).edgeList.length : ℤ) = (ofCalls cs).nodeCount := by
    rw [h.targets, h.nodeCount, edgeRows, length_rowsOf]
  have htargets : ∀ r ∈ (ofCalls cs).edgeList, ∀ n ∈ r, 0 ≤ n ∧ n < (ofCalls cs).nodeCount := by
    rw [h.targets, h.nodeCount]
    refine forall_mem_rowsOf fun p hp => ⟨Int.natCast_nonneg _, ?_⟩
    have hend := (h.known p.1 (List.fst_mem_of_mem_zipIdx hp)).2
    exact Int.ofNat_lt.mpr (List.idxOf_lt_length_of_mem hend)
  refine ⟨fun name n => h.nodeNum_iff, ?_, fun n => h.mem_nodeNameMap, ⟨hlength, ?_⟩, ?_, ?_, ?_,
    htargets, ?_, ?_⟩
  · intro name
    rw [h.mem_nodeNumMap, hstates]
  · constructor
    · rw [h.repeats, h.targets]
      exact map_length_rowsOf _
    · rw [h.numbers, h.targets]
      exact map_length_rowsOf _
    · rw [h.edgeNames, h.targets]
      exact map_length_rowsOf _
    · rw [h.steps, h.targets]
      exact map_length_rowsOf _
    · intro r hr n hn
      rw [IsNode, hlength]
      exact htargets r hr n hn
  · have hcount : ((ofCalls cs).edgeCount - 1).toNat = (edgesOf cs).length := by
      rw [h.edgeCount]
      omega
    rw [hcount]
    exact h.numbered
  · intro r hr
    rw [h.numbers] at hr
    obtain ⟨name, -, rfl⟩ := List.mem_map.mp hr
    refine List.pairwise_map.mpr (List.Pairwise.filter _ ?_)
    have hsnd : ((edgesOf cs).zipIdx.map Prod.snd).Pairwise (· < ·) := by
      rw [List.zipIdx_map_snd]
      exact List.pairwise_lt_range'
    refine (List.pairwise_map.mp hsnd).imp ?_
    intro p q hpq
    exact Int.add_lt_add_right (Int.ofNat_lt.mpr hpq) 1
  · exact fun k e hk => h.inserted hk
  · rw [h.repeats]
    refine forall_mem_rowsOf fun p hp => ?_
    rw [repeatTimeOf]
    split <;> omega
  · intro c hc name hname
    rw [h.addNode_of_mem ((hstates name).mpr ⟨c, hc, hname⟩)]

end MGraph

end MBT
