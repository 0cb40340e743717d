import Mathlib.Data.List.Basic

/-!
# Support — History

What holds of each event of a sequence and the events before it.

* `along_cons`, `along_append`: one event, or one part of a sequence, after another.
-/

namespace History

variable {α : Type}

/-- Behind a past, each event goes with the ones before it. -/
def Along (P : List α → α → Prop) (past l : List α) : Prop :=
  ∀ before x after, l = before ++ x :: after → P (past ++ before) x

variable {P : List α → α → Prop} {past : List α}

theorem along_nil : Along P past [] := by
  intro before x after h
  cases before <;> cases h

theorem along_cons {x : α} {l : List α} :
    Along P past (x :: l) ↔ P past x ∧ Along P (past ++ [x]) l := by
  constructor
  · intro h
    refine ⟨?_, fun before y after hl => ?_⟩
    · have hx := h [] x l rfl
      rw [List.append_nil] at hx
      exact hx
    · have hy := h (x :: before) y after (by rw [hl]; rfl)
      rw [List.append_assoc]
      exact hy
  · rintro ⟨hx, h⟩ before y after hl
    cases before with
    | nil =>
      cases hl
      rw [List.append_nil]
      exact hx
    | cons z before =>
      cases hl
      have hy := h before y after rfl
      rw [List.append_assoc] at hy
      exact hy

theorem along_append {l m : List α} :
    Along P past (l ++ m) ↔ Along P past l ∧ Along P (past ++ l) m := by
  induction l generalizing past with
  | nil =>
    rw [List.nil_append, List.append_nil]
    exact ⟨fun h => ⟨along_nil, h⟩, And.right⟩
  | cons x l ih => rw [List.cons_append, along_cons, along_cons, ih, and_assoc, List.append_assoc]; rfl

/-- A sequence of events that go with every past. -/
theorem along_of_forall {l : List α} (h : ∀ x ∈ l, ∀ past, P past x) : Along P past l := by
  rintro before x after rfl
  exact h x (List.mem_append_right _ List.mem_cons_self) _

end History
