import Mathlib

/-!
# Support — Cover

Covering by few sets of a family, chosen greedily: the next set is the first of those that add the
most to the ones chosen.

* `Picks.fresh`, `Picks.length_le`: each choice adds an element, so there are no more choices than
  elements.
* `Picks.prefix_of_covers`: the greedy choices are determined.
* `minimal_iff`: they are as few as can be exactly when each of them can be exchanged into any
  completion of the choices before it (`Exchanges`).
-/

namespace Cover

variable {β : Type*} [DecidableEq β] (F : List (Finset β))

/-- The set at an index; no elements past the end. -/
def part (i : ℕ) : Finset β := F.getD i ∅

/-- What the sets at the indices `p` hold together. -/
def union (p : List ℕ) : Finset β := p.toFinset.biUnion (part F)

/-- The sets at the indices `p` hold all that the family holds. -/
def Covers (p : List ℕ) : Prop := ∀ i, part F i ⊆ union F p

/-- `i` is the first of the indices that add the most to `p`. -/
structure IsPick (p : List ℕ) (i : ℕ) : Prop where
  lt : i < F.length
  most : ∀ j, (union F p ∪ part F j).card ≤ (union F p ∪ part F i).card
  first : ∀ j < i, (union F p ∪ part F j).card < (union F p ∪ part F i).card

/-- Indices picked one after the other, as long as an element is missing. -/
inductive Picks : List ℕ → Prop where
  | nil : Picks []
  | snoc {p : List ℕ} {i : ℕ} (h : Picks p) (hc : ¬ Covers F p) (hi : IsPick F p i) :
      Picks (p ++ [i])

/-- Each pick can be exchanged into any completion of the picks before it, without making this
longer. -/
def Exchanges : Prop :=
  ∀ p i, Picks F p → ¬ Covers F p → IsPick F p i → ∀ t, Covers F (p ++ t) →
    ∃ t', i ∈ t' ∧ Covers F (p ++ t') ∧ t'.length ≤ t.length

variable {F} {p q : List ℕ} {i j : ℕ}

/-- What the sets at some indices hold. -/
theorem mem_union {x : β} : x ∈ union F p ↔ ∃ i ∈ p, x ∈ part F i := by
  simp [union]

@[simp] theorem union_snoc : union F (p ++ [i]) = union F p ∪ part F i := by
  ext x
  simp [mem_union, or_and_right, exists_or]

theorem Covers.mono (h : Covers F p) (hpq : ∀ i ∈ p, i ∈ q) : Covers F q := by
  intro i x hx
  obtain ⟨j, hj, hxj⟩ := mem_union.mp (h i hx)
  exact mem_union.mpr ⟨j, hpq j hj, hxj⟩

/-- There is one next pick. -/
theorem IsPick.unique (hi : IsPick F p i) (hj : IsPick F p j) : i = j := by
  rcases Nat.lt_trichotomy i j with h | h | h
  · exact absurd (hj.first i h) (hi.most j).not_gt
  · exact h
  · exact absurd (hi.first j h) (hj.most i).not_gt

/-- Where an element is missing, a pick adds one. -/
theorem IsPick.fresh (hi : IsPick F p i) (hc : ¬ Covers F p) : ∃ x ∈ part F i, x ∉ union F p := by
  simp only [Covers, not_forall] at hc
  obtain ⟨j, hj⟩ := hc
  obtain ⟨y, hy, hyp⟩ := Finset.not_subset.mp hj
  have hlt : (union F p).card < (union F p ∪ part F j).card :=
    Finset.card_lt_card ⟨Finset.subset_union_left, fun h => hyp (h (Finset.mem_union_right _ hy))⟩
  refine Finset.not_subset.mp fun hsub => ?_
  have hle := hi.most j
  rw [Finset.union_eq_left.mpr hsub] at hle
  exact absurd hlt hle.not_gt

namespace Picks

/-- What is picked after the indices `p`. -/
theorem of_prefix {g : List ℕ} (h : Picks F g) {p : List ℕ} {i : ℕ} (hp : p ++ [i] <+: g) :
    Picks F p ∧ ¬ Covers F p ∧ IsPick F p i := by
  induction h with
  | nil => exact absurd (List.prefix_nil.mp hp) (by simp)
  | @snoc q j h hc hi ih =>
    rcases List.prefix_concat_iff.mp hp with e | hp
    · obtain ⟨e₁, e₂⟩ := List.append_inj' e rfl
      rw [e₁, List.singleton_inj.mp e₂]
      exact ⟨h, hc, hi⟩
    · exact ih hp

/-- Each pick adds an element. -/
theorem fresh {g : List ℕ} (h : Picks F g) {p r : List ℕ} {i : ℕ} (e : g = p ++ i :: r) :
    ∃ x ∈ part F i, ∀ j ∈ p, x ∉ part F j := by
  obtain ⟨-, hc, hi⟩ := h.of_prefix (p := p) (i := i) ⟨r, by simp [e]⟩
  obtain ⟨x, hx, hxp⟩ := hi.fresh hc
  exact ⟨x, hx, fun j hj hxj => hxp (mem_union.mpr ⟨j, hj, hxj⟩)⟩

/-- A pick is an index of the family. -/
theorem lt_length {g : List ℕ} (h : Picks F g) : ∀ i ∈ g, i < F.length := by
  induction h with
  | nil => exact List.forall_mem_nil _
  | snoc h hc hi ih =>
    intro j hj
    rcases List.mem_append.mp hj with hj | hj
    · exact ih j hj
    · exact List.mem_singleton.mp hj ▸ hi.lt

/-- Nothing is picked twice. -/
theorem nodup {g : List ℕ} (h : Picks F g) : g.Nodup := by
  induction h with
  | nil => exact List.nodup_nil
  | @snoc p i h hc hi ih =>
    obtain ⟨x, hx, hxp⟩ := hi.fresh hc
    refine List.nodup_append.mpr ⟨ih, List.nodup_singleton i, fun j hj k hk => ?_⟩
    rintro rfl
    rw [List.mem_singleton.mp hk] at hj
    exact hxp (mem_union.mpr ⟨i, hj, hx⟩)

/-- There are no more picks than elements. -/
theorem length_le {g : List ℕ} (h : Picks F g) : g.length ≤ (union F g).card := by
  induction h with
  | nil => exact Nat.zero_le _
  | @snoc p i h hc hi ih =>
    obtain ⟨x, hx, hxp⟩ := hi.fresh hc
    have hlt : (union F p).card < (union F p ∪ part F i).card :=
      Finset.card_lt_card ⟨Finset.subset_union_left, fun h => hxp (h (Finset.mem_union_right _ hx))⟩
    rw [List.length_append, List.length_singleton, union_snoc]
    omega

/-- **The picks are determined**: those that cover begin with any others. -/
theorem prefix_of_covers {g : List ℕ} (hg : Picks F g) (hc : Covers F g) {p : List ℕ}
    (hp : Picks F p) : p <+: g := by
  induction hp with
  | nil => exact List.nil_prefix
  | @snoc p i h hc' hi ih =>
    obtain ⟨r, rfl⟩ := ih
    cases r with
    | nil => exact absurd hc (by simpa using hc')
    | cons j r =>
      obtain ⟨-, -, hj⟩ := hg.of_prefix (p := p) (i := j) ⟨r, by simp⟩
      obtain rfl := hi.unique hj
      exact ⟨r, by simp⟩

end Picks

/-- **When the picks are as few as can be.** -/
theorem minimal_iff {g : List ℕ} (hg : Picks F g) (hc : Covers F g) :
    (∀ t, Covers F t → g.length ≤ t.length) ↔ Exchanges F := by
  constructor
  · intro hmin p i hp hcp hi t ht
    obtain ⟨r, rfl⟩ := hg.prefix_of_covers hc (.snoc hp hcp hi)
    refine ⟨i :: r, List.mem_cons_self, by simpa using hc, ?_⟩
    have hle := hmin _ ht
    simp only [List.length_append, List.length_singleton] at hle
    rw [List.length_cons]
    omega
  · intro hex
    suffices H : ∀ r p, g = p ++ r → ∀ t, Covers F (p ++ t) → r.length ≤ t.length from
      H g [] rfl
    intro r
    induction r with
    | nil => exact fun _ _ _ _ => Nat.zero_le _
    | cons i r ih =>
      intro p e t ht
      obtain ⟨hp, hcp, hi⟩ := hg.of_prefix (p := p) (i := i) ⟨r, by simp [e]⟩
      obtain ⟨t', hit, ht', hle⟩ := hex p i hp hcp hi t ht
      obtain ⟨l, l', rfl⟩ := List.append_of_mem hit
      -- the pick leaves the completion, and goes to the picks
      have hrest : Covers F (p ++ [i] ++ (l ++ l')) := ht'.mono fun j hj => by
        simp only [List.mem_append, List.mem_cons, List.not_mem_nil, or_false] at hj ⊢
        tauto
      have hr := ih (p ++ [i]) (by simp [e]) (l ++ l') hrest
      simp only [List.length_append, List.length_cons] at hle hr ⊢
      omega

end Cover
