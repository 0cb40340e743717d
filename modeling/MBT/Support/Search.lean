import Mathlib

/-!
# Support — Search

Depth-first enumeration of a tree that is given by its moves.

A `Tree` lists the labelled moves of a configuration, in the order they are tried, and says how
often a configuration is recorded on arrival.  `runs n c` is the list of label sequences the
enumeration records below `c`, to depth `n`; `Path c r c'` says that the moves `r` lead from `c`
to `c'`.

* `mem_runs`: where a rank falls at every move, `runs` lists exactly the paths to recorded
  configurations.
* `nodup_runs`: no path is listed twice, when no label is offered twice and no configuration is
  recorded twice.
-/

/-- The moves of a search, and how often it records each configuration it arrives at. -/
structure Search.Tree (σ α : Type*) where
  emits : σ → ℕ
  next : σ → List (α × σ)

namespace Search.Tree

variable {σ α : Type*} (T : Tree σ α)

/-- The label sequences recorded below `c`, to depth `n`, in the order they are found. -/
def runs : ℕ → σ → List (List α)
  | 0, _ => []
  | n + 1, c => List.replicate (T.emits c) [] ++
      (T.next c).flatMap fun p => (runs n p.2).map (p.1 :: ·)

/-- The moves `r` lead from `c` to `c'`. -/
inductive Path : σ → List α → σ → Prop where
  | nil (c : σ) : Path c [] c
  | cons {c c₁ c' : σ} {a : α} {r : List α} (h : (a, c₁) ∈ T.next c) (t : Path c₁ r c') :
      Path c (a :: r) c'

/-- `μ` falls at every move. -/
def Ranked (μ : σ → ℕ) : Prop := ∀ c p, p ∈ T.next c → μ p.2 < μ c

/-- No configuration offers a label twice. -/
def Labelled : Prop := ∀ c, ((T.next c).map Prod.fst).Nodup

variable {T}

/-- No moves lead nowhere else. -/
theorem path_nil_iff {c c' : σ} : T.Path c [] c' ↔ c = c' :=
  ⟨fun h => by cases h; rfl, fun h => h ▸ .nil c⟩

/-- The first move, then the others. -/
theorem path_cons_iff {c c' : σ} {a : α} {r : List α} :
    T.Path c (a :: r) c' ↔ ∃ c₁, (a, c₁) ∈ T.next c ∧ T.Path c₁ r c' :=
  ⟨fun h => by cases h with | cons h t => exact ⟨_, h, t⟩, fun ⟨_, h, t⟩ => .cons h t⟩

/-- `runs` lists the paths to recorded configurations, and no others. -/
theorem mem_runs {μ : σ → ℕ} (hμ : T.Ranked μ) :
    ∀ {n : ℕ} {c : σ} {r : List α}, μ c < n →
      (r ∈ T.runs n c ↔ ∃ c', T.Path c r c' ∧ 0 < T.emits c') := by
  intro n
  induction n with
  | zero => intro c r h; exact absurd h (Nat.not_lt_zero _)
  | succ n ih =>
    intro c r h
    have hn : ∀ p ∈ T.next c, μ p.2 < n := fun p hp =>
      (hμ c p hp).trans_le (Nat.le_of_lt_succ h)
    simp only [runs, List.mem_append, List.mem_replicate, List.mem_flatMap, List.mem_map]
    cases r with
    | nil => simp [path_nil_iff, Nat.pos_iff_ne_zero]
    | cons a r =>
      simp only [path_cons_iff, reduceCtorEq, and_false, false_or, List.cons.injEq]
      constructor
      · rintro ⟨p, hp, r', hr', rfl, rfl⟩
        obtain ⟨c', hc', he⟩ := (ih (hn p hp)).mp hr'
        exact ⟨c', ⟨p.2, hp, hc'⟩, he⟩
      · rintro ⟨c', ⟨c₁, hp, hc'⟩, he⟩
        exact ⟨(a, c₁), hp, r, (ih (hn _ hp)).mpr ⟨c', hc', he⟩, rfl, rfl⟩

/-- No path is listed twice. -/
theorem nodup_runs (hT : T.Labelled) (he : ∀ c, T.emits c ≤ 1) :
    ∀ (n : ℕ) (c : σ), (T.runs n c).Nodup := by
  intro n
  induction n with
  | zero => intro c; exact List.nodup_nil
  | succ n ih =>
    intro c
    refine List.nodup_append.mpr ⟨List.nodup_replicate.mpr (he c), ?_, ?_⟩
    · refine List.nodup_flatMap.mpr
        ⟨fun p _ => (ih p.2).map fun _ _ h => (List.cons.inj h).2, ?_⟩
      refine (List.pairwise_map.mp (hT c)).imp fun {p q} hpq => ?_
      -- two moves with different labels begin different sequences
      rintro r hp hq
      obtain ⟨_, -, rfl⟩ := List.mem_map.mp hp
      obtain ⟨_, -, h⟩ := List.mem_map.mp hq
      exact hpq (List.cons.inj h).1.symm
    · intro r hr r' hr' e
      obtain ⟨p, -, h⟩ := List.mem_flatMap.mp hr'
      obtain ⟨_, -, rfl⟩ := List.mem_map.mp h
      cases e ▸ List.eq_of_mem_replicate hr

end Search.Tree
