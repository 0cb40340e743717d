import Mathlib.Data.List.Basic

/-!
# Support — Latch

A state that some of the lines of a text set and the others leave as it is.

* `after_eq`: behind a text it is what the last line that sets it has set.
-/

namespace Latch

variable {α β : Type} (event : α → Option β)

/-- The state behind a list. -/
def after (b : β) (l : List α) : β := l.foldl (fun b a => (event a).getD b) b

/-- What the last element that sets the state sets it to. -/
def last (l : List α) : Option β := (l.filterMap event).getLast?

theorem last_cons (a : α) (l : List α) : last event (a :: l) = (last event l).or (event a) := by
  rw [last, List.filterMap_cons, last]
  cases event a with
  | none => exact Option.or_none.symm
  | some b => rw [List.getLast?_cons, Option.or_some]

/-- The latch shows the last event. -/
theorem after_eq (b : β) (l : List α) : after event b l = (last event l).getD b := by
  induction l generalizing b with
  | nil => rfl
  | cons a l ih =>
    rw [after, List.foldl_cons]
    refine (ih ((event a).getD b)).trans ?_
    rw [last_cons]
    cases last event l <;> rfl

/-- What holds of each element and those before it, at a list with a first one. -/
theorem forall_split_cons {P : List α → α → Prop} {a : α} {l : List α} :
    (∀ before x rest, a :: l = before ++ x :: rest → P before x) ↔
      P [] a ∧ ∀ before x rest, l = before ++ x :: rest → P (a :: before) x := by
  constructor
  · intro h
    refine ⟨h [] a l rfl, fun before x rest hl => h (a :: before) x rest ?_⟩
    rw [hl]
    rfl
  · rintro ⟨ha, h⟩ before x rest hl
    cases before with
    | nil =>
      cases hl
      exact ha
    | cons b before =>
      cases hl
      exact h before x rest rfl

end Latch
