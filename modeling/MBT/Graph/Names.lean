import MBT.Graph.MGraph

/-!
# Graph — Names

The states and steps that lists of names resolve to in a graph.  A name that names nothing is
skipped; where no start state is named, the start states are those that no edge enters.

* `stateSet`, `stepSet`, `startSet` build the sets, as `genStopStateNumSet` and its siblings do.
* `mem_stateSet`, `mem_stepSet`, `mem_startSet`: what they hold (`IsNamed`, `IsNamedStep`,
  `IsStart`).
-/

namespace MBT
open Exec

namespace MGraph

/-- The numbers of the named nodes that exist. -/
def stateSet (g : MGraph) (names : Option (List String)) : HashSet ℤ :=
  (names.getD []).foldl (fun s name =>
    let num := g.getNodeNum name
    if num ≠ -1 then s.add num else s) .empty

/-- The numbers of the named steps that exist. -/
def stepSet (g : MGraph) (names : Option (List String)) : HashSet ℤ :=
  (names.getD []).foldl (fun s name =>
    match g.stepNumMap.lookup name with
    | some num => s.add num
    | none => s) .empty

/-- `isStartStateArray`: whether no edge enters a state. -/
def isStartStateArray (g : MGraph) : Except Exn (List Bool) :=
  g.edgeList.foldlM (fun a r => r.foldlM (fun a idx => ArrayList.set a idx false) a)
    (List.replicate g.nodeCount.toNat true)

/-- The states that a search starts from: those named, or those that no edge enters. -/
def startSet (g : MGraph) : Option (List String) → Except Exn (HashSet ℤ)
  | some (name :: names) => .ok (g.stateSet (some (name :: names)))
  | _ => do
    let isStart ← g.isStartStateArray
    return (List.range g.nodeCount.toNat).foldl
      (fun s i => if isStart.getD i false then s.add i else s) .empty

/-- `s` is the number of a node one of the names names. -/
def IsNamed (g : MGraph) (names : Option (List String)) (s : ℤ) : Prop :=
  ∃ name ∈ names.getD [], g.nodeNumMap.lookup name = some s

/-- `t` is the number of a step one of the names names. -/
def IsNamedStep (g : MGraph) (names : Option (List String)) (t : ℤ) : Prop :=
  ∃ name ∈ names.getD [], g.stepNumMap.lookup name = some t

/-- `s` is a start state: a named one, or, where no name is given, one that no edge enters. -/
def IsStart (g : MGraph) (names : Option (List String)) (s : ℤ) : Prop :=
  if names.getD [] = [] then g.IsNode s ∧ ∀ p, g.IsEdge p → g.multigraph.dst p ≠ s
  else g.IsNamed names s

/-- The set holds the numbers of the names that the graph knows. -/
theorem mem_stateSet {g : MGraph} (h : g.Wf) {names : Option (List String)} {s : ℤ} :
    s ∈ (g.stateSet names).elems ↔ g.IsNamed names s := by
  unfold stateSet IsNamed
  rw [HashSet.mem_elems_foldl (Q := fun name => g.nodeNumMap.lookup name = some s)]
  · simp
  intro t name
  cases hl : g.nodeNumMap.lookup name with
  | none => simp [getNodeNum, hl]
  | some n =>
    have hn : n ≠ -1 := by have := (h.nodes name n hl).1; omega
    simp [getNodeNum, hl, hn, eq_comm]

/-- The set holds the numbers of the steps that the graph knows. -/
theorem mem_stepSet {g : MGraph} {names : Option (List String)} {t : ℤ} :
    t ∈ (g.stepSet names).elems ↔ g.IsNamedStep names t := by
  unfold stepSet IsNamedStep
  rw [HashSet.mem_elems_foldl (Q := fun name => g.stepNumMap.lookup name = some t)]
  · simp
  intro s name
  cases g.stepNumMap.lookup name <;> simp [eq_comm]

/-- Clearing the marks at `l` leaves the others. -/
theorem clear_ok {l : List ℤ} {a : List Bool} (h : ∀ n ∈ l, 0 ≤ n ∧ n.toNat < a.length) :
    ∃ b, l.foldlM (fun a n => ArrayList.set a n false) a = .ok b ∧ b.length = a.length ∧
      ∀ i < a.length, b.getD i false = (a.getD i false && decide ((i : ℤ) ∉ l)) := by
  induction l generalizing a with
  | nil => exact ⟨a, rfl, rfl, by simp⟩
  | cons n l ih =>
    obtain ⟨h₀, hn⟩ := h n List.mem_cons_self
    obtain ⟨k, rfl⟩ := Int.eq_ofNat_of_zero_le h₀
    obtain ⟨b, hb, hlen, hget⟩ := ih (a := a.set k false) fun n hn => by
      simpa using h n (List.mem_cons_of_mem _ hn)
    refine ⟨b, ?_, by simpa using hlen, fun i hi => ?_⟩
    · rw [List.foldlM_cons]
      rw [show ArrayList.set a ((k : ℕ) : ℤ) false = .ok (a.set k false) from
        ArrayList.set_ok false (by simpa using hn)]
      exact hb
    · rw [hget i (by simpa using hi)]
      by_cases e : i = k
      · subst e; simp [List.getD_eq_getElem?_getD, hi]
      · simp [List.getD_eq_getElem?_getD, List.getElem?_set_ne (Ne.symm e), e]

/-- A loop over rows is one over their entries. -/
theorem foldlM_rows {α β : Type} (f : β → α → Except Exn β) (l : List (List α)) (b : β) :
    l.foldlM (fun b r => r.foldlM f b) b = l.flatten.foldlM f b := by
  induction l generalizing b with
  | nil => rfl
  | cons r l ih => simp only [List.foldlM_cons, List.flatten_cons, List.foldlM_append, ih]

/-- The entries of the edge list are the nodes that edges enter. -/
theorem mem_flatten_edgeList {g : MGraph} {n : ℤ} :
    n ∈ g.edgeList.flatten ↔ ∃ p, g.IsEdge p ∧ g.multigraph.dst p = n := by
  simp only [List.mem_flatten]
  constructor
  · rintro ⟨r, hr, hn⟩
    obtain ⟨s, hs⟩ := List.mem_iff_getElem?.mp hr
    obtain ⟨i, hi⟩ := List.mem_iff_getElem?.mp hn
    have hrow : row g.edgeList (s : ℤ) = r := by simp [List.getD_eq_getElem?_getD, hs]
    have hlt : i < r.length := (List.getElem?_eq_some_iff.mp hi).1
    refine ⟨(s, i), ?_, ?_⟩
    · simpa [IsEdge, multigraph, hrow] using hlt
    · simp [multigraph, List.getD_eq_getElem?_getD, hs, hi]
  · rintro ⟨p, hp, rfl⟩
    have hn := isNode_of_isEdge hp
    refine ⟨row g.edgeList p.1, ?_, ?_⟩
    · exact List.mem_of_getElem? (getElem?_row hn.1 ((Int.toNat_lt hn.1).mpr hn.2))
    · have hp' : p.2 < (row g.edgeList p.1).length := hp
      simp only [multigraph, List.getD_eq_getElem _ _ hp', List.getElem_mem]

/-- The start states. -/
theorem mem_startSet {g : MGraph} (h : g.Wf) (names : Option (List String)) :
    ∃ s, g.startSet names = .ok s ∧ ∀ n, n ∈ s.elems ↔ g.IsStart names n := by
  have hcount : g.nodeCount.toNat = g.edgeList.length := by rw [h.count]; rfl
  -- without names: the states no edge enters
  have hfree : ∃ s, (do
      let isStart ← g.isStartStateArray
      return (List.range g.nodeCount.toNat).foldl
        (fun (s : HashSet ℤ) (i : ℕ) => if isStart.getD i false then s.add i else s) .empty) =
          Except.ok (ε := Exn) s ∧
      ∀ n, n ∈ s.elems ↔ g.IsNode n ∧ ∀ p, g.IsEdge p → g.multigraph.dst p ≠ n := by
    obtain ⟨b, hb, -, hget⟩ := clear_ok (l := g.edgeList.flatten)
      (a := List.replicate g.nodeCount.toNat true) fun n hn => by
        obtain ⟨r, hr, hn⟩ := List.mem_flatten.mp hn
        obtain ⟨h₀, h₁⟩ := h.targets r hr n hn
        exact ⟨h₀, by rw [List.length_replicate, hcount]; omega⟩
    refine ⟨_, by rw [isStartStateArray, foldlM_rows, hb]; rfl, fun n => ?_⟩
    rw [HashSet.mem_elems_foldl (Q := fun i => b.getD i false = true ∧ (i : ℤ) = n)
      fun s i => by cases b.getD i false <;> simp [eq_comm]]
    simp only [HashSet.elems_empty, List.not_mem_nil, false_or, List.mem_range]
    rw [List.length_replicate] at hget
    constructor
    · rintro ⟨i, hi, hbi, rfl⟩
      rw [hget i hi] at hbi
      simp only [Bool.and_eq_true, decide_eq_true_eq] at hbi
      refine ⟨⟨Int.natCast_nonneg i, by omega⟩, fun p hp e => hbi.2 ?_⟩
      exact mem_flatten_edgeList.mpr ⟨p, hp, e⟩
    · rintro ⟨⟨h₀, h₁⟩, hn⟩
      obtain ⟨i, rfl⟩ := Int.eq_ofNat_of_zero_le h₀
      have hi : i < g.nodeCount.toNat := by omega
      refine ⟨i, hi, ?_, rfl⟩
      rw [hget i hi]
      simp only [Bool.and_eq_true, decide_eq_true_eq]
      refine ⟨by simp [List.getD_eq_getElem?_getD, hi], fun hm => ?_⟩
      obtain ⟨p, hp, e⟩ := mem_flatten_edgeList.mp hm
      exact hn p hp e
  rcases names with _ | _ | ⟨name, names⟩
  · obtain ⟨s, hs, hmem⟩ := hfree
    exact ⟨s, hs, fun n => by rw [hmem]; simp [IsStart]⟩
  · obtain ⟨s, hs, hmem⟩ := hfree
    exact ⟨s, hs, fun n => by rw [hmem]; simp [IsStart]⟩
  · exact ⟨_, rfl, fun n => by rw [mem_stateSet h]; simp [IsStart]⟩

end MGraph

end MBT
