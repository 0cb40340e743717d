import MBT.Support.Multigraph

/-!
# Support — Walks

Walks in a directed multigraph along accepted edges and within a budget, wherever they end.

`roam` is the search for them; `emits` says how often a configuration is recorded.  With one use of
each edge as the budget the walks are the *trails*.

* `mem_roam`, `count_roam`: which walks are recorded, and how often.
* `runs_roam`: what is recorded below a configuration, by the first edge.
* `exists_trail`: where a walk leads, a trail does.
-/

namespace Search.Tree

variable {σ α : Type*} {T : Tree σ α}

/-- A path is listed as often as its end is recorded. -/
theorem count_runs [BEq α] [LawfulBEq α] {μ : σ → ℕ} (hT : T.Labelled) (hμ : T.Ranked μ) {n : ℕ}
    {c c' : σ} {r : List α} (hn : μ c < n) (h : T.Path c r c') :
    (T.runs n c).count r = T.emits c' := by
  induction h generalizing n with
  | nil c =>
    obtain ⟨n, rfl⟩ := Nat.exists_eq_add_one_of_ne_zero (Nat.ne_zero_of_lt hn)
    have hnone : ∀ p : α × σ, ((T.runs n p.2).map (p.1 :: ·)).count [] = 0 := fun p =>
      List.count_eq_zero_of_not_mem (by simp)
    rw [runs, List.count_append, List.count_replicate_self, List.count_flatMap]
    simp [Function.comp_def, hnone]
  | @cons c c₁ c' a r h t ih =>
    obtain ⟨n, rfl⟩ := Nat.exists_eq_add_one_of_ne_zero (Nat.ne_zero_of_lt hn)
    have hother : ∀ p : α × σ, p.1 ≠ a → ((T.runs n p.2).map (p.1 :: ·)).count (a :: r) = 0 :=
      fun p hp => List.count_eq_zero_of_not_mem fun hm => by
        obtain ⟨_, -, e⟩ := List.mem_map.mp hm
        exact hp (List.cons.inj e).1
    have hself : ((T.runs n c₁).map (a :: ·)).count (a :: r) = (T.runs n c₁).count r :=
      List.count_map_of_injective _ _ (List.cons_injective) r
    have hnext := hT c
    obtain ⟨l, l', e⟩ := List.append_of_mem h
    rw [e, List.map_append, List.map_cons] at hnext
    obtain ⟨-, hl', hdisj⟩ := List.nodup_append.mp hnext
    -- no other move has the label `a`
    have hzero : ∀ q ∈ l ++ l', q.1 ≠ a := by
      intro q hq
      rcases List.mem_append.mp hq with hq | hq
      · exact hdisj _ (List.mem_map_of_mem hq) _ List.mem_cons_self
      · intro e
        exact (List.nodup_cons.mp hl').1 (List.mem_map.mpr ⟨q, hq, e⟩)
    have hsum : ∀ k : List (α × σ), (∀ q ∈ k, q.1 ≠ a) →
        (k.flatMap fun p => (T.runs n p.2).map (p.1 :: ·)).count (a :: r) = 0 := fun k hk =>
      List.count_eq_zero_of_not_mem fun hm => by
        obtain ⟨q, hq, hm⟩ := List.mem_flatMap.mp hm
        exact absurd (List.count_pos_iff.mpr hm) (by rw [hother q (hk q hq)]; exact lt_irrefl 0)
    have hempty : (List.replicate (T.emits c) ([] : List α)).count (a :: r) = 0 :=
      List.count_eq_zero_of_not_mem fun hm => by
        cases List.eq_of_mem_replicate hm
    rw [runs, e, List.flatMap_append, List.flatMap_cons, List.count_append, List.count_append,
      List.count_append, hself, hempty, hsum l fun q hq => hzero q (List.mem_append_left _ hq),
      hsum l' fun q hq => hzero q (List.mem_append_right _ hq),
      ih (Nat.lt_of_lt_of_le (hμ c (a, c₁) h) (Nat.le_of_lt_succ hn)), Nat.zero_add, Nat.zero_add,
      Nat.add_zero]

end Search.Tree

namespace Multigraph

variable {S : Type*} [DecidableEq S]

/-- A walk from `s` within the budget `b`, along edges that `ok` accepts. -/
structure IsWalk (G : Multigraph S) (ok : S × ℕ → Bool) (b : S × ℕ → ℕ) (s : S)
    (r : List (S × ℕ)) : Prop where
  chained : G.Chained s r
  within : ∀ p, r.count p ≤ b p
  accepted : ∀ p ∈ r, ok p = true

/-- A walk that uses no edge twice. -/
structure IsTrail (G : Multigraph S) (s : S) (r : List (S × ℕ)) : Prop where
  chained : G.Chained s r
  nodup : r.Nodup

/-- A trail that no unused edge can extend. -/
structure IsMaxTrail (G : Multigraph S) (s : S) (r : List (S × ℕ)) : Prop extends G.IsTrail s r where
  full : ∀ i < G.deg (G.dest s r), (G.dest s r, i) ∈ r

/-- The search for walks. -/
def roam (G : Multigraph S) (ok : S × ℕ → Bool) (emits : Cfg S → ℕ) :
    Search.Tree (Cfg S) (S × ℕ) where
  emits := emits
  next c := ((List.range (G.deg c.state)).filter fun i =>
    decide (0 < c.left (c.state, i)) && ok (c.state, i)).map fun i =>
      ((c.state, i), c.step G (c.state, i))

variable {G : Multigraph S} {ok : S × ℕ → Bool} {emits : Cfg S → ℕ}

/-- A move is one of the search for runs that nothing stops. -/
theorem mem_next_roam {c c' : Cfg S} {p : S × ℕ} : (p, c') ∈ (G.roam ok emits).next c ↔
    (p, c') ∈ (G.explore (fun _ => false) false fun _ _ => true).next c ∧ ok p = true := by
  rw [mem_next_explore]
  obtain ⟨s, i⟩ := p
  simp only [roam, List.mem_map, List.mem_filter, List.mem_range, Bool.and_eq_true,
    decide_eq_true_eq, Prod.mk.injEq]
  constructor
  · rintro ⟨j, ⟨hj, hl, ha⟩, ⟨rfl, rfl⟩, rfl⟩
    exact ⟨⟨trivial, rfl, hj, hl, trivial, rfl⟩, ha⟩
  · rintro ⟨⟨-, rfl, hj, hl, -, rfl⟩, ha⟩
    exact ⟨i, ⟨hj, hl, ha⟩, ⟨rfl, rfl⟩, rfl⟩

/-- A search uses edges up. -/
theorem ranked_roam : (G.roam ok emits).Ranked (Cfg.rank G) := fun c p hp =>
  ranked_explore c p (mem_next_roam.mp hp).1

/-- It offers each edge once. -/
theorem labelled_roam : (G.roam ok emits).Labelled := by
  intro c
  simp only [roam]
  rw [List.map_map]
  exact (List.nodup_range.filter _).map fun i j h => (Prod.mk.inj h).2

/-- Its paths are the walks along the edges that are allowed. -/
theorem path_roam {r : List (S × ℕ)} {c c' : Cfg S} : (G.roam ok emits).Path c r c' ↔
    G.IsWalk ok c.left c.state r ∧ c' = r.foldl (Cfg.step G) c := by
  have hfree : ∀ {r : List (S × ℕ)} {c : Cfg S}, (G.roam ok emits).Path c r c' ↔
      (G.explore (fun _ => false) false fun _ _ => true).Path c r c' ∧ ∀ p ∈ r, ok p = true := by
    intro r
    induction r with
    | nil =>
      intro c
      rw [Search.Tree.path_nil_iff, Search.Tree.path_nil_iff]
      exact (and_iff_left (List.forall_mem_nil _)).symm
    | cons p r ih =>
      intro c
      simp only [Search.Tree.path_cons_iff, mem_next_roam, ih, List.forall_mem_cons]
      constructor
      · rintro ⟨c₁, ⟨h, hp⟩, t, hr⟩
        exact ⟨⟨c₁, h, t⟩, hp, hr⟩
      · rintro ⟨⟨c₁, h, t⟩, hp, hr⟩
        exact ⟨c₁, ⟨h, hp⟩, t, hr⟩
  rw [hfree, path_explore]
  constructor
  · rintro ⟨⟨hc, hb, -, -, e⟩, ha⟩
    exact ⟨⟨hc, hb, ha⟩, e⟩
  · rintro ⟨⟨hc, hb, ha⟩, e⟩
    exact ⟨⟨hc, hb, fun _ _ _ => rfl, allowed_true _ _ _, e⟩, ha⟩

/-- **The search lists the walks whose ends are recorded.** -/
theorem mem_roam {n : ℕ} {c : Cfg S} {r : List (S × ℕ)} (hn : c.rank G < n) :
    r ∈ (G.roam ok emits).runs n c ↔
      G.IsWalk ok c.left c.state r ∧ 0 < emits (r.foldl (Cfg.step G) c) := by
  rw [Search.Tree.mem_runs ranked_roam hn]
  constructor
  · rintro ⟨c', h, he⟩
    obtain ⟨hw, rfl⟩ := path_roam.mp h
    exact ⟨hw, he⟩
  · rintro ⟨hw, he⟩
    exact ⟨_, path_roam.mpr ⟨hw, rfl⟩, he⟩

/-- How often it lists a walk. -/
theorem count_roam {n : ℕ} {c : Cfg S} {r : List (S × ℕ)} (hn : c.rank G < n)
    (h : G.IsWalk ok c.left c.state r) :
    ((G.roam ok emits).runs n c).count r = emits (r.foldl (Cfg.step G) c) :=
  Search.Tree.count_runs labelled_roam ranked_roam hn (path_roam.mpr ⟨h, rfl⟩)

/-- What is listed below a configuration, by the first edge. -/
theorem runs_roam {n : ℕ} {c : Cfg S} : (G.roam ok emits).runs (n + 1) c =
    List.replicate (emits c) [] ++ (List.range (G.deg c.state)).flatMap fun i =>
      if decide (0 < c.left (c.state, i)) && ok (c.state, i) then
        ((G.roam ok emits).runs n (c.step G (c.state, i))).map ((c.state, i) :: ·)
      else [] := by
  rw [Search.Tree.runs]
  congr 1
  simp only [roam]
  induction List.range (G.deg c.state) with
  | nil => rfl
  | cons i l ih =>
    rw [List.filter_cons, List.flatMap_cons]
    split
    · rw [List.map_cons, List.flatMap_cons, ih]
    · rw [ih, List.nil_append]

/-! ### Trails -/

/-- A walk with each edge once is a trail. -/
theorem isWalk_one {s : S} {r : List (S × ℕ)} :
    G.IsWalk (fun _ => true) (fun _ => 1) s r ↔ G.IsTrail s r :=
  ⟨fun h => ⟨h.chained, List.nodup_iff_count_le_one.mpr h.within⟩,
    fun h => ⟨h.chained, List.nodup_iff_count_le_one.mp h.nodup, fun _ _ => rfl⟩⟩

/-- Cutting the detours out of a walk leaves a trail to the same state. -/
theorem exists_trail {s : S} {r : List (S × ℕ)} (h : G.Chained s r) :
    ∃ r', G.IsTrail s r' ∧ G.dest s r' = G.dest s r := by
  induction hn : r.length using Nat.strong_induction_on generalizing r with
  | _ n ih =>
    by_cases hd : r.Nodup
    · exact ⟨r, ⟨h, hd⟩, rfl⟩
    · rw [← List.map_id r] at hd
      obtain ⟨r₁, p, r₂, q, r₃, rfl, e⟩ := exists_repeat hd
      obtain rfl : q = p := e
      have hc := (G.chained_append).mp h
      obtain ⟨hc₁, hq, hdeg, -⟩ := (G.chained_append).mp hc.1
      obtain ⟨-, -, hc₃⟩ := hc.2
      have hlt : (r₁ ++ q :: r₃).length < n := by
        simp only [List.length_append, List.length_cons] at hn ⊢
        omega
      have hcut : G.Chained s (r₁ ++ q :: r₃) := G.chained_append.mpr ⟨hc₁, hq, hdeg, hc₃⟩
      obtain ⟨r', ht, e⟩ := ih _ hlt hcut rfl
      exact ⟨r', ht, e.trans (by simp)⟩

end Multigraph
