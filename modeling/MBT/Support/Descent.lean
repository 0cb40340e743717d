import Mathlib.Data.Set.Finite.Lemmas
import Mathlib.Order.Preorder.Finite
import Mathlib.Logic.Relation
import Mathlib.Order.WellFounded

/-!
# Support — Descent

Recursions that read what they descend to while they go: a state has a list of steps, of which each
fails or leads to a state that is visited before the next step is taken.

* `ends_iff_acc`, `ends_iff`: such a recursion ends exactly when no infinite chain of states is
  visited.
* `not_chain`: a relation on a finite set without a cycle has no infinite chain.
-/

namespace Descent

variable {σ ε : Type} (steps : σ → List (Except ε σ)) (overflow : ε)

/-- The recursion, at most so deep. -/
def visit : ℕ → σ → Except ε Unit
  | 0, _ => .error overflow
  | n + 1, s => (steps s).forM fun c => c >>= visit n

/-- From some depth on the recursion does not overflow. -/
def Ends (s : σ) : Prop := ∃ N, ∀ n, N ≤ n → visit steps overflow n s ≠ .error overflow

/-- The recursion ends without a failure. -/
def Passes (s : σ) : Prop := ∃ n, visit steps overflow n s = .ok ()

/-- The second state is visited from the first one: all steps before it pass. -/
def Next (s t : σ) : Prop :=
  ∃ before after, steps s = before ++ .ok t :: after ∧
    ∀ c ∈ before, ∃ t', c = .ok t' ∧ Passes steps overflow t'

variable {steps : σ → List (Except ε σ)} {overflow : ε}

theorem forM_cons {α : Type} (f : α → Except ε Unit) (a : α) (l : List α) :
    (a :: l).forM f = f a >>= fun _ => l.forM f := rfl

theorem forM_append {α : Type} (f : α → Except ε Unit) (l m : List α) :
    (l ++ m).forM f = l.forM f >>= fun _ => m.forM f := by
  induction l with
  | nil => rfl
  | cons a l ih =>
    rw [List.cons_append, forM_cons, forM_cons, ih]
    cases f a <;> rfl

/-- A first child that is found is visited first. -/
theorem forM_cons_ok (t : σ) (l : List (Except ε σ)) (f : σ → Except ε Unit) :
    ((.ok t :: l).forM fun c => c >>= f) = f t >>= fun _ => l.forM fun c => c >>= f := rfl

/-- Visits that agree where the first ones do not overflow give loops that do. -/
theorem forM_agree {f g : σ → Except ε Unit}
    (h : ∀ t, f t = .error overflow ∨ g t = f t) (l : List (Except ε σ)) :
    (l.forM fun c => c >>= f) = .error overflow ∨
      (l.forM fun c => c >>= g) = l.forM fun c => c >>= f := by
  induction l with
  | nil => exact .inr rfl
  | cons c l ih =>
    cases c with
    | error e => exact .inr rfl
    | ok t =>
      rw [forM_cons_ok, forM_cons_ok]
      rcases h t with ht | ht
      · rw [ht]
        exact .inl rfl
      · rw [ht]
        cases f t with
        | error e => exact .inr rfl
        | ok u => exact ih

/-- One more level changes nothing where the recursion did not overflow. -/
theorem visit_succ (n : ℕ) (s : σ) :
    visit steps overflow n s = .error overflow ∨
      visit steps overflow (n + 1) s = visit steps overflow n s := by
  induction n generalizing s with
  | zero => exact .inl rfl
  | succ n ih => exact forM_agree ih (steps s)

/-- More depth changes nothing where less was enough. -/
theorem visit_of_le {m n : ℕ} (h : m ≤ n) {s : σ} (hs : visit steps overflow m s ≠ .error overflow) :
    visit steps overflow n s = visit steps overflow m s := by
  induction n, h using Nat.le_induction with
  | base => rfl
  | succ n _ ih =>
    rcases visit_succ n s with hn | hn
    · exact absurd (ih.symm.trans hn) hs
    · exact hn.trans ih

/-- What ends at one depth ends. -/
theorem ends_of_visit {n : ℕ} {s : σ} (h : visit steps overflow n s ≠ .error overflow) :
    Ends steps overflow s := by
  refine ⟨n, fun m hm => ?_⟩
  rw [visit_of_le hm h]
  exact h

/-- The loop ends when each state it visits does. -/
theorem exists_forM {l : List (Except ε σ)} (hl : ∀ e, .error e ∈ l → e ≠ overflow)
    (h : ∀ before t after, l = before ++ .ok t :: after →
      (∀ c ∈ before, ∃ t', c = .ok t' ∧ Passes steps overflow t') → Ends steps overflow t) :
    ∃ N, ∀ n, N ≤ n → (l.forM fun c => c >>= visit steps overflow n) ≠ .error overflow := by
  induction l with
  | nil => exact ⟨0, fun n _ hn => by cases hn⟩
  | cons c l ih =>
    cases c with
    | error e =>
      refine ⟨0, fun n _ hn => ?_⟩
      exact hl e List.mem_cons_self (Except.error.inj hn)
    | ok t =>
      obtain ⟨N, hN⟩ := h [] t l rfl (List.forall_mem_nil _)
      cases hr : visit steps overflow N t with
      | error e =>
        refine ⟨N, fun n hn hover => ?_⟩
        have hne := hN N le_rfl
        rw [forM_cons_ok, visit_of_le hn hne, hr] at hover
        exact hne (hr.trans hover)
      | ok u =>
        have hpass : Passes steps overflow t := ⟨N, hr⟩
        obtain ⟨M, hM⟩ := ih (fun e he => hl e (List.mem_cons_of_mem _ he))
          fun before t' after heq hbefore => by
            refine h (.ok t :: before) t' after (by rw [heq]; rfl) ?_
            exact List.forall_mem_cons.mpr ⟨⟨t, rfl, hpass⟩, hbefore⟩
        refine ⟨max M N, fun n hn => ?_⟩
        rw [forM_cons_ok, visit_of_le ((le_max_right M N).trans hn) (hN N le_rfl), hr]
        exact hM n ((le_max_left M N).trans hn)

/-- What a loop that does not overflow visits does not overflow. -/
theorem visit_of_forM {n : ℕ} {before after : List (Except ε σ)} {t : σ}
    (h : ((before ++ .ok t :: after).forM fun c => c >>= visit steps overflow n) ≠ .error overflow)
    (hbefore : ∀ c ∈ before, ∃ t', c = .ok t' ∧ Passes steps overflow t') :
    visit steps overflow n t ≠ .error overflow := by
  induction before with
  | nil =>
    intro ht
    rw [List.nil_append, forM_cons_ok, ht] at h
    exact h rfl
  | cons c before ih =>
    rw [List.forall_mem_cons] at hbefore
    obtain ⟨⟨t', rfl, m, hm⟩, hbefore⟩ := hbefore
    rw [List.cons_append, forM_cons_ok] at h
    have hne : visit steps overflow n t' ≠ .error overflow := by
      intro hover
      rw [hover] at h
      exact h rfl
    have hpass : visit steps overflow n t' = .ok () := by
      rw [← visit_of_le (le_max_left n m) hne, visit_of_le (le_max_right n m) (by rw [hm]; rintro ⟨⟩),
        hm]
    rw [hpass] at h
    exact ih h hbefore

/-- **When a recursion ends.**  It ends exactly on the states from which the visited states are well
founded. -/
theorem ends_iff_acc (hsteps : ∀ s e, .error e ∈ steps s → e ≠ overflow) {s : σ} :
    Ends steps overflow s ↔ Acc (fun t s => Next steps overflow s t) s := by
  constructor
  · rintro ⟨N, hN⟩
    have hvisit := hN N le_rfl
    clear hN
    induction N generalizing s with
    | zero => exact absurd rfl hvisit
    | succ N ih =>
      refine .intro s ?_
      rintro t ⟨before, after, heq, hbefore⟩
      rw [visit, heq] at hvisit
      exact ih (visit_of_forM hvisit hbefore)
  · intro hacc
    induction hacc with
    | intro s _ ih =>
      obtain ⟨N, hN⟩ := exists_forM (hsteps s) fun before t after heq hbefore =>
        ih t ⟨before, after, heq, hbefore⟩
      exact ends_of_visit (n := N + 1) (hN N le_rfl)

/-- It ends exactly when no infinite chain of states is visited. -/
theorem ends_iff (hsteps : ∀ s e, .error e ∈ steps s → e ≠ overflow) {s : σ} :
    Ends steps overflow s ↔
      ¬ ∃ chain : ℕ → σ, chain 0 = s ∧ ∀ n, Next steps overflow (chain n) (chain (n + 1)) := by
  rw [ends_iff_acc hsteps, ← not_iff_not, not_not]
  exact not_acc_iff_exists_descending_chain

/-! ### Functions that recurse so -/

section Outcome

variable {α β : Type}

/-- What is left of a result when its value does not matter. -/
def outcome (x : Except ε β) : Except ε Unit := x.map fun _ => ()

/-- How two computations end, one after the other. -/
theorem outcome_bind (x : Except ε α) (f : α → Except ε β) :
    outcome (x >>= f) = x >>= fun a => outcome (f a) := by
  cases x <;> rfl

/-- An outcome keeps the error. -/
theorem outcome_eq_error {x : Except ε β} {e : ε} : outcome x = .error e ↔ x = .error e := by
  cases x with
  | error e' => exact ⟨fun h => congrArg _ (Except.error.inj h), fun h => congrArg _ (Except.error.inj h)⟩
  | ok b => exact iff_of_false (by rintro ⟨⟩) (by rintro ⟨⟩)

/-- How a loop ends. -/
theorem outcome_mapM (f : α → Except ε β) (l : List α) :
    outcome (l.mapM f) = l.forM fun a => outcome (f a) := by
  induction l with
  | nil => rfl
  | cons a l ih =>
    rw [List.mapM_cons, forM_cons, outcome_bind, ← ih]
    cases f a with
    | error e => rfl
    | ok b => cases l.mapM f <;> rfl

/-- A loop over states none of which fails to be reached. -/
theorem forM_map_ok (g : α → σ) (f : σ → Except ε Unit) (l : List α) :
    ((l.map fun a => .ok (g a)).forM fun c => c >>= f) = l.forM fun a => f (g a) := by
  induction l with
  | nil => rfl
  | cons a l ih => rw [List.map_cons, forM_cons_ok, ih, forM_cons]

/-- A function that recurses as the steps say overflows where the recursion does. -/
theorem ends_iff_of_outcome {gen : ℕ → σ → Except ε β}
    (h : ∀ n s, outcome (gen n s) = visit steps overflow n s) (s : σ) :
    (∃ N, ∀ n, N ≤ n → gen n s ≠ .error overflow) ↔ Ends steps overflow s := by
  refine exists_congr fun N => forall₂_congr fun n _ => not_congr ?_
  rw [← h, outcome_eq_error]

end Outcome

/-! ### Finite sets without a cycle -/

section Finite

variable {α : Type} {r : α → α → Prop}

/-- A chain in a finite set comes back to where it was. -/
theorem not_chain {S : Set α} (hS : S.Finite) (hr : ∀ a b, r a b → a ∈ S)
    (hacyclic : ∀ a, ¬ Relation.TransGen r a a) :
    ¬ ∃ chain : ℕ → α, ∀ n, r (chain n) (chain (n + 1)) := by
  rintro ⟨chain, hchain⟩
  obtain ⟨i, j, hij, heq⟩ := hS.exists_lt_map_eq_of_forall_mem fun n => hr _ _ (hchain n)
  have hpath := Nat.rel_of_forall_rel_succ_of_lt (Relation.TransGen r)
    (fun n => .single (hchain n)) hij
  rw [← heq] at hpath
  exact hacyclic _ hpath

end Finite

end Descent
