import MBT.Support.Search

/-!
# Support — Multigraph

Walks in a directed multigraph whose edges have a budget.

An edge is addressed by its position `(s, i)`: the `i`-th edge that leaves `s`.  Parallel edges
and self loops are positions like any other.  A *run* from `s` is a chained sequence of positions
that uses no position beyond its budget, passes no stop state before its end, and either ends in
a stop state or, where `leaves` is set, in a state all of whose edges are used up (`IsRun`).

`explore` is the search for runs.  It carries the position `pos` to be filled and a value `dist`
for each state, set to `pos` when the state is entered; a move is tried when its edge has budget
left and `allow` accepts the position and the value of the state it enters.

* `mem_explore`: the search lists the runs every move of which is allowed (`Allowed`).
* `allowed_le_iff`: with `allow k d := k ≤ d` from the constant `M`, these are the runs that
  enter no state twice and have at most `M` edges.
* `allowed_of_ge`: with `allow k d := d ≤ k` from values not above the position, every run.
* `IsRun.nodup_of_shortest`: a run to a stop state, with the fewest edges among those to the same
  state, enters no state twice.
-/

/-- A directed multigraph: how many edges leave a state, and where each of them ends. -/
structure Multigraph (S : Type*) where
  edges : List (S × ℕ)
  deg : S → ℕ
  dst : S × ℕ → S
  mem_edges : ∀ {p : S × ℕ}, p.2 < deg p.1 → p ∈ edges

namespace Multigraph

variable {S : Type*}

section Walks

variable (G : Multigraph S)

/-- The state in which the walk `r` from `s` ends. -/
def dest (s : S) (r : List (S × ℕ)) : S := r.foldl (fun _ p => G.dst p) s

/-- Each edge of `r` leaves the state the previous one entered, the first one `s`. -/
def Chained : S → List (S × ℕ) → Prop
  | _, [] => True
  | s, p :: r => p.1 = s ∧ p.2 < G.deg s ∧ Chained (G.dst p) r

@[simp] theorem dest_nil (s : S) : G.dest s [] = s := rfl

@[simp] theorem dest_cons (s : S) (p : S × ℕ) (r : List (S × ℕ)) :
    G.dest s (p :: r) = G.dest (G.dst p) r := rfl

@[simp] theorem dest_append (s : S) (r r' : List (S × ℕ)) :
    G.dest s (r ++ r') = G.dest (G.dest s r) r' := List.foldl_append

/-- A walk ends in the last state it comes to. -/
theorem dest_eq_getLast (s : S) (r : List (S × ℕ)) :
    G.dest s r = (s :: r.map G.dst).getLast (List.cons_ne_nil _ _) := by
  induction r generalizing s with
  | nil => rfl
  | cons p r ih => rw [dest_cons, ih]; rfl

theorem chained_append {s : S} {r r' : List (S × ℕ)} :
    G.Chained s (r ++ r') ↔ G.Chained s r ∧ G.Chained (G.dest s r) r' := by
  induction r generalizing s with
  | nil => simp [Chained]
  | cons p r ih => simp only [List.cons_append, Chained, ih, dest_cons, and_assoc]

variable [DecidableEq S]

/-- A run from `s` within the budget `b`. -/
structure IsRun (b : S × ℕ → ℕ) (stop : S → Bool) (leaves : Bool) (s : S)
    (r : List (S × ℕ)) : Prop where
  chained : G.Chained s r
  within : ∀ p, r.count p ≤ b p
  passes : ∀ q, q <+: r → q ≠ r → stop (G.dest s q) = false
  ends : stop (G.dest s r) = true ∨
    (leaves = true ∧ ∀ i < G.deg (G.dest s r), r.count (G.dest s r, i) = b (G.dest s r, i))

/-- Every move of `r` is allowed at its position, from the position `k` and the values `d`. -/
def Allowed (allow : ℤ → ℤ → Bool) : (S → ℤ) → ℤ → List (S × ℕ) → Prop
  | _, _, [] => True
  | d, k, p :: r => allow k (d (G.dst p)) = true ∧
      Allowed allow (Function.update d (G.dst p) k) (k + 1) r

end Walks

/-! ### The search for runs -/

/-- Where the search stands: the state, the budget left, the values of the states and the
position to be filled. -/
structure Cfg (S : Type*) where
  state : S
  left : S × ℕ → ℕ
  dist : S → ℤ
  pos : ℤ

variable [DecidableEq S] (G : Multigraph S)

/-- The configuration after the move `p`. -/
def Cfg.step (c : Cfg S) (p : S × ℕ) : Cfg S where
  state := G.dst p
  left := Function.update c.left p (c.left p - 1)
  dist := Function.update c.dist (G.dst p) c.pos
  pos := c.pos + 1

/-- All edges that leave the state of `c` are used up. -/
def Cfg.spent (c : Cfg S) : Bool := (List.range (G.deg c.state)).all fun i => c.left (c.state, i) = 0

/-- The search for runs. -/
def explore (stop : S → Bool) (leaves : Bool) (allow : ℤ → ℤ → Bool) :
    Search.Tree (Cfg S) (S × ℕ) where
  emits c := if stop c.state || (leaves && c.spent G) then 1 else 0
  next c := if stop c.state then [] else
    ((List.range (G.deg c.state)).filter fun i =>
      decide (0 < c.left (c.state, i)) && allow c.pos (c.dist (G.dst (c.state, i)))).map
      fun i => ((c.state, i), c.step G (c.state, i))

/-- The budget left on all edges. -/
def Cfg.rank (c : Cfg S) : ℕ := (G.edges.map c.left).sum

variable {G} {stop : S → Bool} {leaves : Bool} {allow : ℤ → ℤ → Bool}

/-- The moves of a search. -/
theorem mem_next_explore {c c' : Cfg S} {p : S × ℕ} :
    (p, c') ∈ (G.explore stop leaves allow).next c ↔
      stop c.state = false ∧ p.1 = c.state ∧ p.2 < G.deg c.state ∧ 0 < c.left p ∧
        allow c.pos (c.dist (G.dst p)) = true ∧ c' = c.step G p := by
  obtain ⟨s, i⟩ := p
  simp only [explore]
  split
  · rename_i h; simp [h]
  · rename_i h
    simp only [List.mem_map, List.mem_filter, List.mem_range, Bool.and_eq_true,
      decide_eq_true_eq, Prod.mk.injEq]
    constructor
    · rintro ⟨j, ⟨hj, hl, ha⟩, ⟨rfl, rfl⟩, rfl⟩
      exact ⟨by simpa using h, rfl, hj, hl, ha, rfl⟩
    · rintro ⟨-, rfl, hj, hl, ha, rfl⟩
      exact ⟨i, ⟨hj, hl, ha⟩, ⟨rfl, rfl⟩, rfl⟩

/-- A search uses edges up. -/
theorem ranked_explore : (G.explore stop leaves allow).Ranked (Cfg.rank G) := by
  rintro c ⟨p, c'⟩ h
  obtain ⟨-, h₁, h₂, hl, -, rfl⟩ := mem_next_explore.mp h
  refine List.sum_lt_sum _ _ (fun q _ => ?_) ⟨p, G.mem_edges (h₁ ▸ h₂), ?_⟩
  · simp only [Cfg.step, Function.update_apply]
    split
    · rename_i e; rw [e]; exact Nat.sub_le _ _
    · exact le_refl _
  · simp only [Cfg.step, Function.update_self]; omega

/-- A search offers each edge once. -/
theorem labelled_explore : (G.explore stop leaves allow).Labelled := by
  intro c
  simp only [explore]
  split
  · simp
  · rw [List.map_map]
    exact (List.nodup_range.filter _).map fun i j h => (Prod.mk.inj h).2

/-- It records a configuration at most once. -/
theorem emits_explore_le (c : Cfg S) : (G.explore stop leaves allow).emits c ≤ 1 := by
  simp only [explore]; split <;> simp

/-- The values and the position matter to a path only through the moves they allow. -/
theorem path_explore {r : List (S × ℕ)} {c c' : Cfg S} :
    (G.explore stop leaves allow).Path c r c' ↔
      G.Chained c.state r ∧ (∀ p, r.count p ≤ c.left p) ∧
        (∀ q, q <+: r → q ≠ r → stop (G.dest c.state q) = false) ∧
        G.Allowed allow c.dist c.pos r ∧ c' = r.foldl (Cfg.step G) c := by
  induction r generalizing c with
  | nil =>
    simp only [Search.Tree.path_nil_iff, Chained, List.count_nil, Nat.zero_le, implies_true,
      Allowed, List.foldl_nil, true_and, List.prefix_nil]
    exact ⟨fun h => ⟨fun q hq hq' => absurd hq hq', h.symm⟩, fun h => h.2.symm⟩
  | cons p r ih =>
    have hcount : (∀ q, (p :: r).count q ≤ c.left q) ↔
        0 < c.left p ∧ ∀ q, r.count q ≤ (c.step G p).left q := by
      simp only [Cfg.step, List.count_cons, Function.update_apply]
      constructor
      · intro h
        refine ⟨lt_of_lt_of_le (by simp) (h p), fun q => ?_⟩
        have hq := h q
        by_cases e : q = p
        · subst e; simp at hq ⊢; omega
        · simpa [e, Ne.symm e] using hq
      · rintro ⟨hp, h⟩ q
        have hq := h q
        by_cases e : q = p
        · subst e; simp at hq ⊢; omega
        · simpa [e, Ne.symm e] using hq
    have hpre : (∀ q, q <+: p :: r → q ≠ p :: r → stop (G.dest c.state q) = false) ↔
        stop c.state = false ∧
          ∀ q, q <+: r → q ≠ r → stop (G.dest (c.step G p).state q) = false := by
      constructor
      · intro h
        refine ⟨h [] (List.nil_prefix) (List.cons_ne_nil _ _).symm, fun q hq hne => ?_⟩
        exact h (p :: q) (List.cons_prefix_cons.mpr ⟨rfl, hq⟩) fun e => hne (List.cons.inj e).2
      · rintro ⟨h₀, h⟩ q hq hne
        rcases List.prefix_cons_iff.mp hq with rfl | ⟨t, rfl, ht⟩
        · exact h₀
        · exact h t ht fun e => hne (e ▸ rfl)
    rw [Search.Tree.path_cons_iff, hcount, hpre]
    simp only [mem_next_explore, Chained, Allowed, List.foldl_cons]
    constructor
    · rintro ⟨c₁, ⟨hs, h₁, h₂, hl, ha, rfl⟩, ht⟩
      obtain ⟨hc, hb, hq, hA, hc'⟩ := ih.mp ht
      exact ⟨⟨h₁, h₂, hc⟩, ⟨hl, hb⟩, ⟨hs, hq⟩, ⟨ha, hA⟩, hc'⟩
    · rintro ⟨⟨h₁, h₂, hc⟩, ⟨hl, hb⟩, ⟨hs, hq⟩, ⟨ha, hA⟩, hc'⟩
      exact ⟨_, ⟨hs, h₁, h₂, hl, ha, rfl⟩, ih.mpr ⟨hc, hb, hq, hA, hc'⟩⟩

/-- The state after some moves. -/
theorem state_foldl_step (c : Cfg S) (r : List (S × ℕ)) :
    (r.foldl (Cfg.step G) c).state = G.dest c.state r := by
  induction r generalizing c with
  | nil => rfl
  | cons p r ih => rw [List.foldl_cons, ih]; rfl

/-- The position after some moves. -/
theorem pos_foldl_step (c : Cfg S) (r : List (S × ℕ)) :
    (r.foldl (Cfg.step G) c).pos = c.pos + r.length := by
  induction r generalizing c with
  | nil => simp
  | cons p r ih =>
    rw [List.foldl_cons, ih, Cfg.step, List.length_cons]
    push_cast
    omega

/-- What is left of the edges after some moves. -/
theorem left_foldl_step (c : Cfg S) (r : List (S × ℕ)) (q : S × ℕ) :
    (r.foldl (Cfg.step G) c).left q = c.left q - r.count q := by
  induction r generalizing c with
  | nil => simp
  | cons p r ih =>
    rw [List.foldl_cons, ih, List.count_cons]
    simp only [Cfg.step, Function.update_apply]
    by_cases e : q = p
    · subst e; simp; omega
    · simp [e, Ne.symm e]

/-- **The search lists the allowed runs.** -/
theorem mem_explore {n : ℕ} {c : Cfg S} {r : List (S × ℕ)} (hn : c.rank G < n) :
    r ∈ (G.explore stop leaves allow).runs n c ↔
      G.IsRun c.left stop leaves c.state r ∧ G.Allowed allow c.dist c.pos r := by
  rw [Search.Tree.mem_runs ranked_explore hn]
  have hem : ∀ c' : Cfg S, 0 < (G.explore stop leaves allow).emits c' ↔
      stop c'.state = true ∨ (leaves = true ∧ ∀ i < G.deg c'.state, c'.left (c'.state, i) = 0) := by
    intro c'
    cases h : stop c'.state <;> simp [explore, Cfg.spent, h, Nat.pos_iff_ne_zero]
  constructor
  · rintro ⟨c', hp, he⟩
    obtain ⟨hc, hb, hq, hA, rfl⟩ := path_explore.mp hp
    refine ⟨⟨hc, hb, hq, ?_⟩, hA⟩
    have := (hem _).mp he
    simp only [state_foldl_step, left_foldl_step] at this
    exact this.imp id (And.imp id fun h i hi => Nat.le_antisymm (hb _) (Nat.sub_eq_zero_iff_le.mp (h i hi)))
  · rintro ⟨⟨hc, hb, hq, he⟩, hA⟩
    refine ⟨_, path_explore.mpr ⟨hc, hb, hq, hA, rfl⟩, (hem _).mpr ?_⟩
    simp only [state_foldl_step, left_foldl_step]
    exact he.imp id (And.imp id fun h i hi => by rw [h i hi, Nat.sub_self])

/-- A search lists no walk twice. -/
theorem nodup_explore (n : ℕ) (c : Cfg S) : ((G.explore stop leaves allow).runs n c).Nodup :=
  Search.Tree.nodup_runs labelled_explore emits_explore_le n c

/-- A search goes no further than a stop state. -/
theorem runs_explore_stop {n : ℕ} {c : Cfg S} (h : stop c.state = true) :
    (G.explore stop leaves allow).runs (n + 1) c = [[]] := by
  simp [Search.Tree.runs, explore, h]

/-- The runs below a state that is no stop state, by their first edge. -/
theorem runs_explore_go {n : ℕ} {c : Cfg S} (h : stop c.state = false) :
    (G.explore stop leaves allow).runs (n + 1) c =
      (if leaves && c.spent G then [[]] else []) ++
        (List.range (G.deg c.state)).flatMap fun i =>
          if decide (0 < c.left (c.state, i)) && allow c.pos (c.dist (G.dst (c.state, i))) then
            ((G.explore stop leaves allow).runs n (c.step G (c.state, i))).map ((c.state, i) :: ·)
          else [] := by
  have hem : List.replicate ((G.explore stop leaves allow).emits c) ([] : List (S × ℕ)) =
      if leaves && c.spent G then [[]] else [] := by
    simp only [explore, h, Bool.false_or]
    split <;> rfl
  have hnext : (G.explore stop leaves allow).next c =
      ((List.range (G.deg c.state)).filter fun i =>
        decide (0 < c.left (c.state, i)) && allow c.pos (c.dist (G.dst (c.state, i)))).map
        fun i => ((c.state, i), c.step G (c.state, i)) := by
    simp only [explore, h, Bool.false_eq_true, if_false]
  rw [Search.Tree.runs, hem, hnext]
  congr 1
  induction List.range (G.deg c.state) with
  | nil => rfl
  | cons i l ih =>
    rw [List.filter_cons, List.flatMap_cons]
    split
    · rw [List.map_cons, List.flatMap_cons, ih]
    · rw [ih, List.nil_append]

/-! ### Which runs are allowed -/

/-- Everything is allowed where nothing is forbidden. -/
theorem allowed_true (d : S → ℤ) (k : ℤ) (r : List (S × ℕ)) :
    G.Allowed (fun _ _ => true) d k r := by
  induction r generalizing d k with
  | nil => trivial
  | cons p r ih => exact ⟨rfl, ih _ _⟩

/-- Values not above the position never exclude a move. -/
theorem allowed_of_ge {d : S → ℤ} {k : ℤ} (h : ∀ x, d x ≤ k) (r : List (S × ℕ)) :
    G.Allowed (fun k d => decide (d ≤ k)) d k r := by
  induction r generalizing d k with
  | nil => trivial
  | cons p r ih =>
    refine ⟨by simpa using h _, ih fun x => ?_⟩
    rw [Function.update_apply]
    split
    · omega
    · exact (h x).trans (by omega)

/-- Nor do they in the search. -/
theorem runs_of_ge {n : ℕ} {c c' : Cfg S} (h : ∀ x, c.dist x ≤ c.pos) (hs : c.state = c'.state)
    (hl : c.left = c'.left) :
    (G.explore stop leaves fun k d => decide (d ≤ k)).runs n c =
      (G.explore stop leaves fun _ _ => true).runs n c' := by
  induction n generalizing c c' with
  | zero => rfl
  | succ n ih =>
    cases hstop : stop c.state with
    | true => rw [runs_explore_stop hstop, runs_explore_stop (hs ▸ hstop)]
    | false =>
      rw [runs_explore_go hstop, runs_explore_go (hs ▸ hstop), Cfg.spent, Cfg.spent, hl, hs]
      congr 1
      refine List.flatMap_congr fun i _ => ?_
      have hdist : decide (c.dist (G.dst (c'.state, i)) ≤ c.pos) = true := decide_eq_true (h _)
      have hnext : ∀ x, (c.step G (c'.state, i)).dist x ≤ (c.step G (c'.state, i)).pos := by
        intro x
        have := h x
        simp only [Cfg.step, Function.update_apply]
        split <;> omega
      rw [hdist, @ih (c.step G (c'.state, i)) (c'.step G (c'.state, i)) hnext rfl (by simp only [Cfg.step, hl])]

/-- Moves to shortest distances, in terms of the walk. -/
theorem allowed_le_aux {M : ℤ} {d : S → ℤ} {k : ℤ} (h : ∀ x, d x = M ∨ d x < k)
    (r : List (S × ℕ)) :
    G.Allowed (fun k d => decide (k ≤ d)) d k r ↔
      (r.map G.dst).Nodup ∧ (∀ p ∈ r, d (G.dst p) = M) ∧ (r = [] ∨ k + r.length ≤ M + 1) := by
  induction r generalizing d k with
  | nil => simp [Allowed]
  | cons p r ih =>
    have h' : ∀ x, Function.update d (G.dst p) k x = M ∨ Function.update d (G.dst p) k x < k + 1 := by
      intro x
      rw [Function.update_apply]
      split
      · omega
      · exact (h x).imp id fun h => by omega
    simp only [Allowed, ih h', decide_eq_true_eq, List.map_cons, List.nodup_cons, List.mem_map,
      List.forall_mem_cons, List.length_cons, Nat.cast_add, Nat.cast_one, reduceCtorEq, false_or]
    constructor
    · rintro ⟨hk, hnd, hM, hr⟩
      have hd : d (G.dst p) = M := (h _).resolve_right (by omega)
      have hnot : ∀ q ∈ r, G.dst q ≠ G.dst p := fun q hq e => by
        have := hM q hq
        rw [e, Function.update_self] at this
        rcases hr with rfl | hr
        · cases hq
        · have := List.length_pos_of_mem hq; omega
      refine ⟨⟨fun ⟨q, hq, e⟩ => hnot q hq e, hnd⟩, ⟨hd, fun q hq => ?_⟩, ?_⟩
      · have := hM q hq; rwa [Function.update_of_ne (hnot q hq)] at this
      · rcases hr with rfl | hr
        · simp; omega
        · omega
    · rintro ⟨⟨hnot, hnd⟩, ⟨hd, hM⟩, hr⟩
      refine ⟨by omega, hnd, fun q hq => ?_, ?_⟩
      · rw [Function.update_of_ne fun e => hnot ⟨q, hq, e⟩]; exact hM q hq
      · right; omega

/-- Values that only fall below the position where a state was entered: the allowed walks enter
no state twice. -/
theorem allowed_le_iff {M : ℤ} (r : List (S × ℕ)) :
    G.Allowed (fun k d => decide (k ≤ d)) (fun _ => M) 1 r ↔
      (r.map G.dst).Nodup ∧ (r = [] ∨ (r.length : ℤ) ≤ M) := by
  rw [allowed_le_aux fun _ => Or.inl rfl]
  simp only [implies_true, true_and]
  exact and_congr_right fun _ => or_congr_right (by omega)

/-! ### Shortest runs -/

/-- Cutting a detour out of a run to a stop state leaves a run to the same state. -/
theorem IsRun.cut {b : S × ℕ → ℕ} {s : S} {r₁ r₂ r₃ : List (S × ℕ)}
    (h : G.IsRun b stop false s (r₁ ++ r₂ ++ r₃)) (e : G.dest s (r₁ ++ r₂) = G.dest s r₁) :
    G.IsRun b stop false s (r₁ ++ r₃) := by
  have hc := (G.chained_append).mp h.chained
  refine ⟨?_, fun p => ?_, fun q hq hne => ?_, ?_⟩
  · exact (G.chained_append).mpr ⟨((G.chained_append).mp hc.1).1, e ▸ hc.2⟩
  · refine le_trans ?_ (h.within p)
    simp only [List.count_append]; omega
  · rcases List.prefix_or_prefix_of_prefix hq (List.prefix_append r₁ r₃) with hq₁ | ⟨t, rfl⟩
    · by_cases hr : q = r₁ ++ r₂ ++ r₃
      · have hl := congrArg List.length hr
        have := hq₁.length_le
        simp only [List.length_append] at hl
        obtain rfl : r₂ = [] := List.eq_nil_of_length_eq_zero (by omega)
        obtain rfl : r₃ = [] := List.eq_nil_of_length_eq_zero (by simp at hl; omega)
        exact absurd (by simpa using hr) hne
      · exact h.passes q (hq₁.trans (List.append_assoc r₁ r₂ r₃ ▸ List.prefix_append _ _)) hr
    · have ht := (List.prefix_append_right_inj r₁).mp hq
      have := h.passes (r₁ ++ r₂ ++ t) ((List.prefix_append_right_inj _).mpr ht)
        fun e' => hne (by rw [List.append_cancel_left e'])
      rwa [dest_append, e, ← dest_append] at this
  · have := h.ends
    rw [dest_append, e, ← dest_append] at this
    exact Or.inl (by simpa using this)

/-- Two entries of a list with the same image. -/
theorem exists_repeat {α β : Type*} {f : α → β} {r : List α} (h : ¬ (r.map f).Nodup) :
    ∃ r₁ p r₂ q r₃, r = r₁ ++ p :: r₂ ++ q :: r₃ ∧ f q = f p := by
  induction r with
  | nil => exact absurd List.nodup_nil h
  | cons a r ih =>
    by_cases ha : f a ∈ r.map f
    · obtain ⟨q, hq, e⟩ := List.mem_map.mp ha
      obtain ⟨r₂, r₃, rfl⟩ := List.append_of_mem hq
      exact ⟨[], a, r₂, q, r₃, rfl, e⟩
    · obtain ⟨r₁, p, r₂, q, r₃, rfl, e⟩ := ih fun hn => h (List.nodup_cons.mpr ⟨ha, hn⟩)
      exact ⟨a :: r₁, p, r₂, q, r₃, rfl, e⟩

/-- **A shortest run enters no state twice.** -/
theorem IsRun.nodup_of_shortest {b : S × ℕ → ℕ} {s : S} {r : List (S × ℕ)}
    (h : G.IsRun b stop false s r)
    (hmin : ∀ r', G.IsRun b stop false s r' → G.dest s r' = G.dest s r → r.length ≤ r'.length) :
    (r.map G.dst).Nodup := by
  by_contra hd
  obtain ⟨r₁, p, r₂, q, r₃, rfl, e⟩ := exists_repeat hd
  have hr : r₁ ++ p :: r₂ ++ q :: r₃ = (r₁ ++ [p]) ++ (r₂ ++ [q]) ++ r₃ := by simp
  rw [hr] at h hmin
  have he : G.dest s ((r₁ ++ [p]) ++ (r₂ ++ [q])) = G.dest s (r₁ ++ [p]) := by simp [e]
  -- the walk without the detour from `p` to `q` ends in the same state
  have := hmin _ (h.cut he) (by rw [dest_append _ _ _ r₃, ← he, ← dest_append])
  simp only [List.length_append, List.length_cons, List.length_nil] at this
  omega

end Multigraph
