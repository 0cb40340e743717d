import Mathlib

/-!
# Support — Choices

The Cartesian product of a list of lists, in lexicographic order: the choice at the first position
varies slowest.

* `mem_choices_cons`, `mem_of_mem_choices`: what a choice is.
* `length_choices`: how many there are.
* `exists_choice`: two elements at different positions are chosen together.
-/

namespace Choices

variable {α : Type*}

/-- The lists with one element of each of the given lists. -/
def choices : List (List α) → List (List α)
  | [] => [[]]
  | l :: ls => l.flatMap fun a => (choices ls).map (a :: ·)

theorem mem_choices_cons {l : List α} {ls : List (List α)} {ch : List α} :
    ch ∈ choices (l :: ls) ↔ ∃ a ∈ l, ∃ ch' ∈ choices ls, a :: ch' = ch := by
  simp only [choices, List.mem_flatMap, List.mem_map]

/-- What is chosen at a position is one of the elements there. -/
theorem mem_of_mem_choices {ls : List (List α)} {ch : List α} (h : ch ∈ choices ls) {i : ℕ} {a : α}
    (ha : ch[i]? = some a) : ∃ l, ls[i]? = some l ∧ a ∈ l := by
  induction ls generalizing ch i with
  | nil => rw [List.mem_singleton.mp h] at ha; cases ha
  | cons l ls ih =>
    obtain ⟨b, hb, ch', hch', rfl⟩ := mem_choices_cons.mp h
    cases i with
    | zero => cases ha; exact ⟨l, rfl, hb⟩
    | succ i => exact ih hch' ha

/-- The numbers of the elements multiply. -/
theorem length_choices (ls : List (List α)) :
    (choices ls).length = (ls.map List.length).prod := by
  induction ls with
  | nil => rfl
  | cons l ls ih =>
    simp only [choices, List.length_flatMap, List.length_map, ih, List.map_const', List.sum_replicate,
      List.map_cons, List.prod_cons, smul_eq_mul]

variable {ls : List (List α)}

/-- There is a choice where no list is empty. -/
theorem exists_mem_choices (h : ∀ l ∈ ls, l ≠ []) : ∃ ch, ch ∈ choices ls := by
  induction ls with
  | nil => exact ⟨[], List.mem_singleton_self _⟩
  | cons l ls ih =>
    obtain ⟨a, ha⟩ := List.exists_mem_of_ne_nil l (h l List.mem_cons_self)
    obtain ⟨ch, hch⟩ := ih fun l hl => h l (List.mem_cons_of_mem _ hl)
    exact ⟨a :: ch, mem_choices_cons.mpr ⟨a, ha, ch, hch, rfl⟩⟩

/-- Each element of each list is chosen by some choice. -/
theorem exists_choice_at (h : ∀ l ∈ ls, l ≠ []) {i : ℕ} {l : List α} (hl : ls[i]? = some l) {a : α}
    (ha : a ∈ l) : ∃ ch ∈ choices ls, ch[i]? = some a := by
  induction ls generalizing i with
  | nil => cases hl
  | cons k ls ih =>
    have h' : ∀ l ∈ ls, l ≠ [] := fun l hl => h l (List.mem_cons_of_mem _ hl)
    cases i with
    | zero =>
      obtain ⟨ch, hch⟩ := exists_mem_choices h'
      cases hl
      exact ⟨a :: ch, mem_choices_cons.mpr ⟨a, ha, ch, hch, rfl⟩, rfl⟩
    | succ i =>
      obtain ⟨b, hb⟩ := List.exists_mem_of_ne_nil k (h k List.mem_cons_self)
      obtain ⟨ch, hch, hi⟩ := ih h' hl
      exact ⟨b :: ch, mem_choices_cons.mpr ⟨b, hb, ch, hch, rfl⟩, hi⟩

/-- Two elements at different positions are chosen together. -/
theorem exists_choice (h : ∀ l ∈ ls, l ≠ []) {i j : ℕ} (hij : i < j) {l k : List α}
    (hl : ls[i]? = some l) (hk : ls[j]? = some k) {a b : α} (ha : a ∈ l) (hb : b ∈ k) :
    ∃ ch ∈ choices ls, ch[i]? = some a ∧ ch[j]? = some b := by
  induction ls generalizing i j with
  | nil => cases hl
  | cons k₀ ls ih =>
    have h' : ∀ l ∈ ls, l ≠ [] := fun l hl => h l (List.mem_cons_of_mem _ hl)
    obtain ⟨j, rfl⟩ := Nat.exists_eq_succ_of_ne_zero (Nat.ne_of_gt (Nat.zero_lt_of_lt hij))
    cases i with
    | zero =>
      obtain ⟨ch, hch, hj⟩ := exists_choice_at h' hk hb
      cases hl
      exact ⟨a :: ch, mem_choices_cons.mpr ⟨a, ha, ch, hch, rfl⟩, rfl, hj⟩
    | succ i =>
      obtain ⟨c, hc⟩ := List.exists_mem_of_ne_nil k₀ (h k₀ List.mem_cons_self)
      obtain ⟨ch, hch, hi, hj⟩ := ih h' (Nat.lt_of_succ_lt_succ hij) hl hk
      exact ⟨c :: ch, mem_choices_cons.mpr ⟨c, hc, ch, hch, rfl⟩, hi, hj⟩

end Choices
