import Mathlib

/-!
# Support — Best

Keeping the best of a sequence, in a linear order given as a test.

* `Ranking.best`: the loop that starts from the worst value and takes what beats the value it
  has.  `best_eq_iff`: an element has the best value iff no other one beats it.
* `Ranking.offer`: the loop that keeps a best value for each key, and the elements that were as
  good as the best of their key when they came.  `filter_offer`: those as good as the best at the
  end are the same as among all elements.
-/

/-- A linear order as a test (`le a b`: `a` is as good as `b`), and the value a search for the
best starts from. -/
structure Ranking (α : Type*) where
  le : α → α → Bool
  worst : α
  total : ∀ a b, le a b = true ∨ le b a = true
  trans : ∀ {a b c}, le a b = true → le b c = true → le a c = true
  antisymm : ∀ {a b}, le a b = true → le b a = true → a = b

namespace Ranking

variable {α ι κ : Type*} (R : Ranking α)

theorem refl (a : α) : R.le a a = true := (R.total a a).elim id id

/-- Of two elements one ranks no worse. -/
theorem le_of_not {a b : α} (h : R.le a b = false) : R.le b a = true :=
  (R.total a b).resolve_left (by simp [h])

/-! ### The best value -/

/-- The loop `if (wanted(x) && best is beaten by size(x)) best = size(x)`, from `d`. -/
def best (wanted : ι → Bool) (size : ι → α) (l : List ι) (d : α) : α :=
  l.foldl (fun d x => if wanted x && !R.le d (size x) then size x else d) d

variable {R} {wanted : ι → Bool} {size : ι → α}

/-- What ranks no worse than the best. -/
theorem le_best {l : List ι} {a d : α} : R.le a (R.best wanted size l d) = true ↔
    R.le a d = true ∧ ∀ x ∈ l, wanted x = true → R.le a (size x) = true := by
  unfold best
  induction l generalizing d with
  | nil => simp
  | cons x l ih =>
    rw [List.foldl_cons, ih, List.forall_mem_cons, ← and_assoc]
    refine and_congr_left fun _ => ?_
    cases hx : wanted x
    · simp
    · cases hd : R.le d (size x)
      · -- `x` beats `d`
        simp only [Bool.not_false, Bool.and_self, if_true, true_implies]
        exact ⟨fun h => ⟨R.trans h (R.le_of_not hd), h⟩, fun h => h.2⟩
      · simp only [Bool.not_true, Bool.and_false, Bool.false_eq_true, if_false, true_implies]
        exact ⟨fun h => ⟨h, R.trans h hd⟩, fun h => h.1⟩

/-- An element has the best value iff none beats it, and the first value does not. -/
theorem best_eq_iff {l : List ι} {x : ι} {d : α} (hx : x ∈ l) (hw : wanted x = true) :
    R.best wanted size l d = size x ↔
      R.le (size x) d = true ∧ ∀ y ∈ l, wanted y = true → R.le (size x) (size y) = true := by
  rw [← le_best]
  constructor
  · rintro h
    rw [h]
    exact R.refl _
  · exact fun h => R.antisymm ((le_best.mp (R.refl _)).2 x hx hw) h

/-- Some element of a list that is not empty is best. -/
theorem exists_best (size : ι → α) {l : List ι} (h : l ≠ []) :
    ∃ x ∈ l, ∀ y ∈ l, R.le (size x) (size y) = true := by
  induction l with
  | nil => exact absurd rfl h
  | cons x l ih =>
    by_cases hl : l = []
    · exact ⟨x, List.mem_cons_self, fun y hy => by
        rw [hl] at hy; rw [List.mem_singleton.mp hy]; exact R.refl _⟩
    obtain ⟨y, hy, hbest⟩ := ih hl
    rcases R.total (size x) (size y) with hxy | hyx
    · refine ⟨x, List.mem_cons_self, fun z hz => ?_⟩
      rcases List.mem_cons.mp hz with rfl | hz
      · exact R.refl _
      · exact R.trans hxy (hbest z hz)
    · refine ⟨y, List.mem_cons_of_mem _ hy, fun z hz => ?_⟩
      rcases List.mem_cons.mp hz with rfl | hz
      · exact hyx
      · exact hbest z hz

/-! ### The best value of each key -/

variable [DecidableEq κ] (R) (key : ι → κ) (size)

/-- An element comes: it is kept if it is as good as the best of its key. -/
def offer (st : (κ → α) × List ι) (x : ι) : (κ → α) × List ι :=
  if R.le (size x) (st.1 (key x)) then
    (Function.update st.1 (key x) (size x), st.2 ++ [x])
  else st

variable {R} {key} {size}

/-- What ranks no worse than the best of a key. -/
theorem le_foldl_offer {l : List ι} {st : (κ → α) × List ι} {a : α} {k : κ} :
    R.le a ((l.foldl (R.offer size key) st).1 k) = true ↔
      R.le a (st.1 k) = true ∧ ∀ x ∈ l, key x = k → R.le a (size x) = true := by
  induction l generalizing st with
  | nil => simp
  | cons x l ih =>
    rw [List.foldl_cons, ih, List.forall_mem_cons, ← and_assoc]
    refine and_congr_left fun _ => ?_
    unfold offer
    split
    · rename_i hx
      by_cases hk : k = key x
      · subst hk
        simp only [Function.update_self, true_implies]
        exact ⟨fun h => ⟨R.trans h hx, h⟩, fun h => h.2⟩
      · simp [Function.update_of_ne hk, Ne.symm hk]
    · rename_i hx
      refine ⟨fun h => ⟨h, ?_⟩, fun h => h.1⟩
      rintro rfl
      exact R.trans h (R.le_of_not (by simpa using hx))

/-- Only what is offered is kept. -/
theorem mem_foldl_offer {l : List ι} {st : (κ → α) × List ι} {x : ι}
    (h : x ∈ (l.foldl (R.offer size key) st).2) : x ∈ st.2 ++ l := by
  induction l generalizing st with
  | nil => simpa using h
  | cons y l ih =>
    have := ih h
    unfold offer at this
    split at this
    · simpa using this
    · rcases List.mem_append.mp this with h | h
      · exact List.mem_append_left _ h
      · exact List.mem_append_right _ (List.mem_cons_of_mem _ h)

/-- The best values do not depend on what is kept. -/
theorem fst_foldl_offer (l : List ι) (b : κ → α) (t t' : List ι) :
    (l.foldl (R.offer size key) (b, t)).1 = (l.foldl (R.offer size key) (b, t')).1 := by
  induction l generalizing b t t' with
  | nil => rfl
  | cons x l ih =>
    simp only [List.foldl_cons, offer]
    split
    · exact ih _ _ _
    · exact ih _ _ _

/-- What has been kept before stays in front. -/
theorem snd_foldl_offer (l : List ι) (b : κ → α) (t : List ι) :
    (l.foldl (R.offer size key) (b, t)).2 = t ++ (l.foldl (R.offer size key) (b, [])).2 := by
  induction l generalizing b t with
  | nil => exact (List.append_nil t).symm
  | cons x l ih =>
    simp only [List.foldl_cons, offer]
    split
    · rw [ih _ (t ++ [x]), ih _ ([] ++ [x]), List.nil_append, List.append_assoc]
    · exact ih _ _

/-- What is as good as the best of its key at the end has been kept. -/
theorem filter_offer {l : List ι} {st : (κ → α) × List ι} {f : κ → α}
    (hf : (l.foldl (R.offer size key) st).1 = f) :
    (l.foldl (R.offer size key) st).2.filter (fun x => R.le (size x) (f (key x))) =
      (st.2 ++ l).filter fun x => R.le (size x) (f (key x)) := by
  induction l generalizing st with
  | nil => simp
  | cons x l ih =>
    rw [List.foldl_cons] at hf ⊢
    rw [ih hf]
    cases hx : R.le (size x) (st.1 (key x)) with
    | true => simp [offer, hx]
    | false =>
      -- an element that was beaten when it came is beaten at the end
      have hlast : R.le (size x) (f (key x)) = false := by
        by_contra h
        rw [Bool.not_eq_false, ← hf] at h
        have := (le_foldl_offer.mp h).1
        simp [offer, hx] at this
      simp [offer, hx, hlast]

end Ranking
