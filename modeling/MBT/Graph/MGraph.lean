import MBT.Support.Exec
import MBT.Support.Multigraph
import MBT.Support.Text

/-!
# Graph — MGraph

The graph of a model: `MGraph` with `addNode` and `addEdge`.  The five adjacency lists hold, for
each state, the end states, the repeat times, the numbers, the names and the step numbers of the
edges that leave it.

* `Aligned`: the five lists have the same rows, each of the same length, and every end state is
  a state.  The searches keep it.
* `Wf`: what holds of a graph that `addEdge` calls have built (`wf_ofEdges`): `Aligned`, repeat
  times at least one, and no edge number twice (`eq_of_edgeNumber`).
* `multigraph`, `budget`: the graph as a `Multigraph` over state numbers, and its repeat times as
  the budget of its edges.
-/

namespace MBT
open Exec

/-- The class `MGraph`: nodes and steps by their names, and for each node one row in each of the
edge lists. -/
structure MGraph where
  nodeNumMap : HashMap String ℤ
  nodeNameMap : HashMap ℤ String
  edgeList : List (List ℤ)
  edgeRepeatTimeList : List (List ℤ)
  edgeNumberList : List (List ℤ)
  edgeNameList : List (List String)
  edgeStepList : List (List ℤ)
  stepNumMap : HashMap String ℤ
  edgeCount : ℤ
  nodeCount : ℤ

/-- The arguments of one `addEdge` call. -/
structure EdgeCall where
  begNodeName : String
  endNodeName : String
  stepName : String
  stepNumber : ℤ
  repeatTime : ℤ

/-! ### Rows -/

section Rows

variable {α : Type}

/-- The row of state `n`; no row where `n` is not a state. -/
def row (l : List (List α)) (n : ℤ) : List α := if 0 ≤ n then l.getD n.toNat [] else []

/-- `l.get(n).add(a)`. -/
def addAt (l : List (List α)) (n : ℤ) (a : α) : List (List α) := l.modify n.toNat (· ++ [a])

@[simp] theorem row_natCast (l : List (List α)) (k : ℕ) : row l k = l.getD k [] := by
  simp [row]

/-- A row is as long as the entry at its index says; outside the list it is empty. -/
theorem length_row (l : List (List α)) (n : ℤ) :
    (row l n).length = if 0 ≤ n then (l.map List.length).getD n.toNat 0 else 0 := by
  unfold row
  split
  · simp [List.getD_eq_getElem?_getD, List.getElem?_map]
    cases l[n.toNat]? <;> rfl
  · rfl

theorem length_row_congr {β : Type} {l : List (List α)} {l' : List (List β)}
    (h : l.map List.length = l'.map List.length) (n : ℤ) : (row l n).length = (row l' n).length := by
  rw [length_row, length_row, h]

/-- Adding at one index keeps the lengths of two lists equal. -/
theorem map_length_addAt {β : Type} {l : List (List α)} {l' : List (List β)} (n : ℤ) (a : α)
    (b : β) (h : l.map List.length = l'.map List.length) :
    (addAt l n a).map List.length = (addAt l' n b).map List.length := by
  apply List.ext_getElem?
  intro i
  have hi := congrArg (·[i]?) h
  simp only [List.getElem?_map, addAt, List.getElem?_modify] at hi ⊢
  cases h₁ : l[i]? <;> cases h₂ : l'[i]? <;> simp_all
  split <;> simp_all

/-- What holds of all entries and of the new one holds of all entries after. -/
theorem forall_mem_addAt {P : α → Prop} {l : List (List α)} {n : ℤ} {a : α}
    (h : ∀ r ∈ l, ∀ x ∈ r, P x) (ha : P a) : ∀ r ∈ addAt l n a, ∀ x ∈ r, P x := by
  intro r hr x hx
  obtain ⟨i, hi⟩ := List.mem_iff_getElem?.mp hr
  rw [addAt, List.getElem?_modify] at hi
  obtain ⟨r', hr', rfl⟩ := Option.map_eq_some_iff.mp hi
  have h' := h r' (List.mem_of_getElem? hr')
  split at hx
  · rcases List.mem_append.mp hx with hx | hx
    · exact h' x hx
    · exact List.mem_singleton.mp hx ▸ ha
  · exact h' x hx

/-- One entry is added and none is lost. -/
theorem flatten_addAt {l : List (List α)} {n : ℤ} (h : n.toNat < l.length) (a : α) :
    (addAt l n a).flatten.Perm (a :: l.flatten) := by
  unfold addAt
  generalize n.toNat = k at h ⊢
  induction l generalizing k with
  | nil => exact absurd h (Nat.not_lt_zero _)
  | cons r l ih =>
    cases k with
    | zero => simp [List.modify_zero_cons, List.perm_middle]
    | succ k =>
      rw [List.modify_succ_cons, List.flatten_cons, List.flatten_cons]
      exact ((ih k (Nat.lt_of_succ_lt_succ h)).append_left r).trans List.perm_middle

/-- Inside the list, a row is the list's entry. -/
theorem getElem?_row {l : List (List α)} {n : ℤ} (h₀ : 0 ≤ n) (h : n.toNat < l.length) :
    l[n.toNat]? = some (row l n) := by
  rw [row, if_pos h₀, List.getD_eq_getElem?_getD, List.getElem?_eq_getElem h]; rfl

/-! `l.get(s).set(i, a)`. -/

/-- To set an entry changes no length. -/
theorem map_length_modify_set (l : List (List α)) (k i : ℕ) (a : α) :
    (l.modify k (·.set i a)).map List.length = l.map List.length := by
  apply List.ext_getElem?
  intro j
  simp only [List.getElem?_map, List.getElem?_modify]
  cases l[j]? with
  | none => rfl
  | some r => simp only [Option.map_some]; split <;> simp

/-- To set an entry changes its own row only. -/
theorem row_modify_set {l : List (List α)} {s : ℤ} (h₀ : 0 ≤ s) (hk : s.toNat < l.length) (i : ℕ)
    (a : α) (n : ℤ) :
    row (l.modify s.toNat (·.set i a)) n = if n = s then (row l s).set i a else row l n := by
  unfold row
  simp only [List.getD_eq_getElem?_getD, List.getElem?_modify]
  by_cases hn : n = s
  · subst hn
    simp [h₀, List.getElem?_eq_getElem hk]
  · by_cases h₂ : 0 ≤ n
    · have : ¬ s.toNat = n.toNat := by omega
      simp [hn, h₂, this]
    · simp [hn, h₂]

/-- Setting an entry back restores the rows. -/
theorem modify_set_restore {l : List (List α)} {s : ℤ} {i : ℕ} {a b : α} (h₀ : 0 ≤ s)
    (h : (row l s)[i]? = some a) :
    (l.modify s.toNat (·.set i b)).modify s.toNat (·.set i a) = l := by
  apply List.ext_getElem?
  intro j
  simp only [List.getElem?_modify]
  by_cases hj : s.toNat = j
  · subst hj
    rw [row, if_pos h₀, List.getD_eq_getElem?_getD] at h
    cases hr : l[s.toNat]? with
    | none => simp
    | some r =>
      rw [hr, Option.getD_some] at h
      obtain ⟨hi, rfl⟩ := List.getElem?_eq_some_iff.mp h
      simp
  · simp [hj]

end Rows

namespace MGraph

/-- The constructor of `MGraph`. -/
def new : MGraph where
  nodeNumMap := ∅
  nodeNameMap := ∅
  edgeList := []
  edgeRepeatTimeList := []
  edgeNumberList := []
  edgeNameList := []
  edgeStepList := []
  stepNumMap := ∅
  edgeCount := 1
  nodeCount := 0

/-- The graph with the node `nodeName`, and the number of the node. -/
def addNode (g : MGraph) (nodeName : String) : MGraph × ℤ :=
  match g.nodeNumMap.lookup nodeName with
  | some nodeNum => (g, nodeNum)
  | none =>
    ({ g with
        nodeNumMap := g.nodeNumMap.insert nodeName g.nodeCount
        nodeNameMap := g.nodeNameMap.insert g.nodeCount nodeName
        edgeList := g.edgeList ++ [[]]
        edgeRepeatTimeList := g.edgeRepeatTimeList ++ [[]]
        edgeNumberList := g.edgeNumberList ++ [[]]
        edgeNameList := g.edgeNameList ++ [[]]
        edgeStepList := g.edgeStepList ++ [[]]
        nodeCount := g.nodeCount + 1 },
      g.nodeCount)

/-- Adds an edge between two named nodes, which get numbers if they have none. -/
def addEdge (g : MGraph) (begNodeName endNodeName stepName : String)
    (stepNumber repeatTime : ℤ) : MGraph :=
  let beg := g.addNode (Text.trim begNodeName)
  let fin := beg.1.addNode (Text.trim endNodeName)
  let repeatTime := if repeatTime < 1 then 1 else repeatTime
  { fin.1 with
    edgeList := addAt fin.1.edgeList beg.2 fin.2
    edgeRepeatTimeList := addAt fin.1.edgeRepeatTimeList beg.2 repeatTime
    edgeNameList := addAt fin.1.edgeNameList beg.2 stepName
    edgeNumberList := addAt fin.1.edgeNumberList beg.2 fin.1.edgeCount
    edgeStepList := addAt fin.1.edgeStepList beg.2 stepNumber
    stepNumMap := fin.1.stepNumMap.insert stepName stepNumber
    edgeCount := fin.1.edgeCount + 1 }

/-- The graph a list of `addEdge` calls builds. -/
def ofEdges (es : List EdgeCall) : MGraph :=
  es.foldl (fun g e => g.addEdge e.begNodeName e.endNodeName e.stepName e.stepNumber e.repeatTime)
    new

/-- The number of a node, or `-1`. -/
def getNodeNum (g : MGraph) (nodeName : String) : ℤ :=
  match g.nodeNumMap.lookup nodeName with
  | some nodeNum => nodeNum
  | none => -1

/-! ### Well-formed graphs -/

/-- `n` is the number of a node. -/
def IsNode (g : MGraph) (n : ℤ) : Prop := 0 ≤ n ∧ n < g.edgeList.length

instance (g : MGraph) (n : ℤ) : Decidable (g.IsNode n) := inferInstanceAs (Decidable (_ ∧ _))

/-- The five adjacency lists have the same rows, each of the same length, and every end state is
a state. -/
structure Aligned (g : MGraph) : Prop where
  repeats : g.edgeRepeatTimeList.map List.length = g.edgeList.map List.length
  numbers : g.edgeNumberList.map List.length = g.edgeList.map List.length
  names : g.edgeNameList.map List.length = g.edgeList.map List.length
  steps : g.edgeStepList.map List.length = g.edgeList.map List.length
  targets : ∀ r ∈ g.edgeList, ∀ n ∈ r, g.IsNode n

/-- What `addEdge` calls keep. -/
structure Wf (g : MGraph) : Prop extends g.Aligned where
  count : g.nodeCount = g.edgeList.length
  nodes : ∀ name n, g.nodeNumMap.lookup name = some n → g.IsNode n
  positive : ∀ r ∈ g.edgeRepeatTimeList, ∀ t ∈ r, 1 ≤ t
  distinct : g.edgeNumberList.flatten.Nodup
  fresh : ∀ r ∈ g.edgeNumberList, ∀ n ∈ r, n < g.edgeCount

/-- An empty graph is well formed. -/
theorem wf_new : new.Wf := by
  refine ⟨⟨rfl, rfl, rfl, rfl, ?_⟩, rfl, ?_, ?_, List.nodup_nil, ?_⟩ <;> simp [new]

/-- A node number of the grown graph is one of the graph's or the new one. -/
theorem Wf.addNode {g : MGraph} (h : g.Wf) (nodeName : String) :
    (g.addNode nodeName).1.Wf ∧ (g.addNode nodeName).1.IsNode (g.addNode nodeName).2 ∧
      ∀ n, g.IsNode n → (g.addNode nodeName).1.IsNode n := by
  unfold MGraph.addNode
  cases hn : g.nodeNumMap.lookup nodeName with
  | some n => exact ⟨h, h.nodes nodeName n hn, fun _ h => h⟩
  | none =>
    have lift : ∀ n : ℤ, g.IsNode n → 0 ≤ n ∧ n < ((g.edgeList ++ [[]]).length : ℤ) := by
      rintro n ⟨h₀, h₁⟩
      simp only [List.length_append, List.length_singleton]
      omega
    refine ⟨⟨⟨?_, ?_, ?_, ?_, ?_⟩, ?_, ?_, ?_, ?_, ?_⟩, ?_, lift⟩
    · simp [h.repeats]
    · simp [h.numbers]
    · simp [h.names]
    · simp [h.steps]
    · intro r hr n hn
      rcases List.mem_append.mp hr with hr | hr
      · exact lift n (h.targets r hr n hn)
      · rw [List.mem_singleton.mp hr] at hn; cases hn
    · simp [h.count]
    · intro name n hl
      by_cases e : name = nodeName
      · subst e
        rw [AList.lookup_insert] at hl
        have := h.count
        cases hl
        exact ⟨by omega, by simp only [List.length_append, List.length_singleton]; omega⟩
      · rw [AList.lookup_insert_ne e] at hl
        exact lift n (h.nodes name n hl)
    · simpa [or_imp, forall_and] using h.positive
    · simpa using h.distinct
    · simpa [or_imp, forall_and] using h.fresh
    · have := h.count
      exact ⟨by simp only; omega, by simp only [List.length_append, List.length_singleton]; omega⟩

/-- An added edge keeps a graph well formed. -/
theorem Wf.addEdge {g : MGraph} (h : g.Wf) (b e s : String) (n t : ℤ) :
    (g.addEdge b e s n t).Wf := by
  obtain ⟨h₁, hb, -⟩ := h.addNode (Text.trim b)
  obtain ⟨h₂, he, hlift⟩ := h₁.addNode (Text.trim e)
  replace hb := hlift _ hb
  unfold MGraph.addEdge
  dsimp only
  generalize (g.addNode (Text.trim b)).1.addNode (Text.trim e) = fin at h₂ he hb
  generalize (g.addNode (Text.trim b)).2 = beg at hb
  have len : (addAt fin.1.edgeList beg fin.2).length = fin.1.edgeList.length := by simp [addAt]
  have lift : ∀ n : ℤ, fin.1.IsNode n →
      0 ≤ n ∧ n < ((addAt fin.1.edgeList beg fin.2).length : ℤ) := fun n hn => by rwa [len]
  refine ⟨⟨?_, ?_, ?_, ?_, ?_⟩, ?_, ?_, ?_, ?_, ?_⟩
  · exact map_length_addAt _ _ _ h₂.repeats
  · exact map_length_addAt _ _ _ h₂.numbers
  · exact map_length_addAt _ _ _ h₂.names
  · exact map_length_addAt _ _ _ h₂.steps
  · exact forall_mem_addAt (fun r hr n hn => lift n (h₂.targets r hr n hn)) (lift _ he)
  · rw [len]; exact h₂.count
  · exact fun name n hl => lift n (h₂.nodes name n hl)
  · exact forall_mem_addAt h₂.positive (by split <;> omega)
  · have hk : beg.toNat < fin.1.edgeNumberList.length := by
      have := congrArg List.length h₂.numbers
      simp only [List.length_map] at this
      have := hb.1
      have := hb.2
      omega
    refine (flatten_addAt hk _).nodup_iff.mpr (List.nodup_cons.mpr ⟨fun hm => ?_, h₂.distinct⟩)
    obtain ⟨r, hr, hn⟩ := List.mem_flatten.mp hm
    exact lt_irrefl _ (h₂.fresh r hr _ hn)
  · refine forall_mem_addAt (fun r hr n hn => ?_) (lt_add_one _)
    exact (h₂.fresh r hr n hn).trans (lt_add_one _)

/-- A graph that calls of `addEdge` build is well formed. -/
theorem wf_ofEdges (es : List EdgeCall) : (ofEdges es).Wf := by
  suffices H : ∀ g : MGraph, g.Wf → (es.foldl (fun g e =>
      g.addEdge e.begNodeName e.endNodeName e.stepName e.stepNumber e.repeatTime) g).Wf from
    H new wf_new
  induction es with
  | nil => exact fun g h => h
  | cons e es ih => exact fun g h => ih _ (h.addEdge _ _ _ _ _)

/-! ### The graph as a multigraph -/

/-- The states and edges of `g`, an edge addressed by its position in the adjacency lists. -/
def multigraph (g : MGraph) : Multigraph ℤ where
  edges := (List.range g.edgeList.length).flatMap fun s : ℕ =>
    (List.range (row g.edgeList s).length).map fun i => ((s : ℤ), i)
  deg s := (row g.edgeList s).length
  dst p := (row g.edgeList p.1).getD p.2 (-1)
  mem_edges := by
    rintro ⟨s, i⟩ h
    have hs : 0 ≤ s ∧ s.toNat < g.edgeList.length := by
      by_contra hn
      have : row g.edgeList s = [] := by
        unfold row
        split
        · rename_i h₀
          exact List.getD_eq_default _ _ (by omega)
        · rfl
      simp [this] at h
    obtain ⟨k, rfl⟩ := Int.eq_ofNat_of_zero_le hs.1
    simp only [List.mem_flatMap, List.mem_map, List.mem_range]
    exact ⟨k, by simpa using hs.2, i, h, rfl⟩

/-- The repeat times as the budget of the edges. -/
def budget (g : MGraph) (p : ℤ × ℕ) : ℕ := ((row g.edgeRepeatTimeList p.1).getD p.2 0).toNat

/-- The number of the edge at a position. -/
def edgeNumber (g : MGraph) (p : ℤ × ℕ) : ℤ := (row g.edgeNumberList p.1).getD p.2 0

/-- The number of the step at a position. -/
def stepNumber (g : MGraph) (p : ℤ × ℕ) : ℤ := (row g.edgeStepList p.1).getD p.2 0

/-- The sum of the repeat times. -/
def repeatSum (g : MGraph) : ℕ := (g.multigraph.edges.map g.budget).sum

/-- `p` is the position of an edge. -/
def IsEdge (g : MGraph) (p : ℤ × ℕ) : Prop := p.2 < g.multigraph.deg p.1

/-- An edge leaves a node. -/
theorem isNode_of_isEdge {g : MGraph} {p : ℤ × ℕ} (h : g.IsEdge p) : g.IsNode p.1 := by
  obtain ⟨s, hs, h⟩ := List.mem_flatMap.mp (g.multigraph.mem_edges h)
  obtain ⟨i, -, rfl⟩ := List.mem_map.mp h
  have := List.mem_range.mp hs
  exact ⟨Int.natCast_nonneg s, by simpa using this⟩

namespace Aligned

variable {g : MGraph} (h : g.Aligned)
include h

/-- There is a repeat time for each edge. -/
theorem length_repeats (n : ℤ) : (row g.edgeRepeatTimeList n).length = g.multigraph.deg n :=
  length_row_congr h.repeats n

/-- There is an edge number for each edge. -/
theorem length_numbers (n : ℤ) : (row g.edgeNumberList n).length = g.multigraph.deg n :=
  length_row_congr h.numbers n

/-- There is a step number for each edge. -/
theorem length_steps (n : ℤ) : (row g.edgeStepList n).length = g.multigraph.deg n :=
  length_row_congr h.steps n

/-- An edge of a well-formed graph enters a node. -/
theorem isNode_dst {p : ℤ × ℕ} (hp : g.IsEdge p) : g.IsNode (g.multigraph.dst p) := by
  have hn := isNode_of_isEdge hp
  refine h.targets (row g.edgeList p.1) ?_ _ ?_
  · exact List.mem_of_getElem? (getElem?_row hn.1 ((Int.toNat_lt hn.1).mpr hn.2))
  · have hp' : p.2 < (row g.edgeList p.1).length := hp
    simp only [multigraph, List.getD_eq_getElem _ _ hp']
    exact List.getElem_mem hp'

end Aligned

/-- An edge is known by its number. -/
theorem Wf.eq_of_edgeNumber {g : MGraph} (h : g.Wf) {p q : ℤ × ℕ} (hp : g.IsEdge p)
    (hq : g.IsEdge q) (e : g.edgeNumber p = g.edgeNumber q) : p = q := by
  obtain ⟨hrows, hdisj⟩ := List.nodup_flatten.mp h.distinct
  have hlen : g.edgeNumberList.length = g.edgeList.length := by
    simpa using congrArg List.length h.numbers
  have hrow : ∀ p, g.IsEdge p → ∃ (hk : p.1.toNat < g.edgeNumberList.length)
      (hi : p.2 < (g.edgeNumberList[p.1.toNat]).length),
      0 ≤ p.1 ∧ g.edgeNumber p = (g.edgeNumberList[p.1.toNat])[p.2] := by
    intro p hp
    obtain ⟨h₀, h₁⟩ := isNode_of_isEdge hp
    have hk : p.1.toNat < g.edgeNumberList.length := by omega
    have hr : row g.edgeNumberList p.1 = g.edgeNumberList[p.1.toNat] := by
      rw [row, if_pos h₀, List.getD_eq_getElem _ _ hk]
    have hi : p.2 < (g.edgeNumberList[p.1.toNat]).length := by
      rw [← hr, h.length_numbers]; exact hp
    exact ⟨hk, hi, h₀, by simp only [edgeNumber, hr, List.getD_eq_getElem _ _ hi]⟩
  obtain ⟨hk, hi, h₀, e₁⟩ := hrow p hp
  obtain ⟨hk', hi', h₀', e₂⟩ := hrow q hq
  obtain ⟨s, i⟩ := p
  obtain ⟨s', j⟩ := q
  simp only at *
  rw [e₁, e₂] at e
  have hs : s.toNat = s'.toNat := by
    by_contra hne
    have hmem : (g.edgeNumberList[s.toNat])[i] ∈ g.edgeNumberList[s.toNat] := List.getElem_mem hi
    have hmem' : (g.edgeNumberList[s.toNat])[i] ∈ g.edgeNumberList[s'.toNat] :=
      e ▸ List.getElem_mem hi'
    rcases Nat.lt_or_gt_of_ne hne with hlt | hlt
    · exact List.pairwise_iff_getElem.mp hdisj _ _ hk hk' hlt hmem hmem'
    · exact List.pairwise_iff_getElem.mp hdisj _ _ hk' hk hlt hmem' hmem
  obtain rfl : s = s' := by omega
  rw [(hrows _ (List.getElem_mem hk)).getElem_inj_iff.mp e]

/-! ### Setting a repeat time -/

/-- `getEdgeRepeatTimeList().get(s).set(i, t)`. -/
def setRepeatTime (g : MGraph) (s : ℤ) (i : ℕ) (t : ℤ) : MGraph :=
  { g with edgeRepeatTimeList := g.edgeRepeatTimeList.modify s.toNat (·.set i t) }

@[simp] theorem multigraph_setRepeatTime (g : MGraph) (s : ℤ) (i : ℕ) (t : ℤ) :
    (g.setRepeatTime s i t).multigraph = g.multigraph := rfl

/-- To set a repeat time keeps the lists aligned. -/
theorem Aligned.setRepeatTime {g : MGraph} (h : g.Aligned) (s : ℤ) (i : ℕ) (t : ℤ) :
    (g.setRepeatTime s i t).Aligned :=
  ⟨(map_length_modify_set _ _ _ _).trans h.repeats, h.numbers, h.names, h.steps, h.targets⟩

/-- To set a repeat time changes the row of its node only. -/
theorem row_setRepeatTime {g : MGraph} (h : g.Aligned) {s : ℤ} (hs : g.IsNode s) (i : ℕ) (t n : ℤ) :
    row (g.setRepeatTime s i t).edgeRepeatTimeList n =
      if n = s then (row g.edgeRepeatTimeList s).set i t else row g.edgeRepeatTimeList n := by
  have hlen := congrArg List.length h.repeats
  simp only [List.length_map] at hlen
  obtain ⟨h₀, h₁⟩ := hs
  exact row_modify_set h₀ (by omega) i t n

/-- To set a repeat time changes the budget of its edge only. -/
theorem budget_setRepeatTime {g : MGraph} (h : g.Aligned) {s : ℤ} {i : ℕ} (he : g.IsEdge (s, i))
    (t : ℤ) : (g.setRepeatTime s i t).budget = Function.update g.budget (s, i) t.toNat := by
  have hi : i < (row g.edgeRepeatTimeList s).length := h.length_repeats s ▸ he
  funext ⟨n, j⟩
  simp only [budget, row_setRepeatTime h (isNode_of_isEdge he), Function.update_apply,
    Prod.mk.injEq, List.getD_eq_getElem?_getD]
  by_cases hn : n = s
  · subst hn
    by_cases hj : j = i
    · subst hj; simp [hi]
    · simp [hj, List.getElem?_set_ne (Ne.symm hj)]
  · simp [hn]

/-- Setting a repeat time back restores the graph. -/
theorem setRepeatTime_restore {g : MGraph} {s : ℤ} {i : ℕ} {t t' : ℤ} (h₀ : 0 ≤ s)
    (h : (row g.edgeRepeatTimeList s)[i]? = some t) :
    (g.setRepeatTime s i t').setRepeatTime s i t = g := by
  unfold MGraph.setRepeatTime
  simp only [modify_set_restore h₀ h]

end MGraph

end MBT
