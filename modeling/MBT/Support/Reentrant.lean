import Mathlib

/-!
# Support — Reentrant

A lock that a thread may take again while it has it, and gives back as often as it took it.

* `lock_times`, `unlock_times`: what the thread that uses the lock alone does with it.
* `lock_other_iff`: another thread gets the lock exactly when it is given back as often as taken.
-/

namespace Reentrant

/-- Why a thread does not get the lock, or cannot give it back. -/
inductive Fault where
  | blocked
  | maximumCount
  | notOwner
  deriving DecidableEq

/-- The lock; who has it took it once and `again` more times. -/
inductive Lock (T : Type) where
  | free
  | held (owner : T) (again : ℕ)
  deriving DecidableEq

/-- How often one thread may hold it. -/
def maxCount : ℕ := 65535

namespace Lock

variable {T : Type} [DecidableEq T]

/-- How often the thread holds the lock. -/
def holdCount (l : Lock T) (t : T) : ℕ :=
  match l with
  | free => 0
  | held owner again => if owner = t then again + 1 else 0

/-- A thread that finds the lock with another waits. -/
def lock (l : Lock T) (t : T) : Except Fault (Lock T) :=
  match l with
  | free => .ok (held t 0)
  | held owner again =>
    if owner = t then
      if again + 1 < maxCount then .ok (held owner (again + 1)) else .error .maximumCount
    else .error .blocked

/-- The owner gives the lock back once. -/
def unlock (l : Lock T) (t : T) : Except Fault (Lock T) :=
  match l with
  | free => .error .notOwner
  | held owner 0 => if owner = t then .ok free else .error .notOwner
  | held owner (again + 1) => if owner = t then .ok (held owner again) else .error .notOwner

/-- The lock that one thread has taken `n` times. -/
def times (t : T) : ℕ → Lock T
  | 0 => free
  | n + 1 => held t n

variable {t t' : T} {n : ℕ}

@[simp] theorem holdCount_times (t : T) (n : ℕ) : (times t n).holdCount t = n := by
  cases n with
  | zero => rfl
  | succ n => exact if_pos rfl

/-- The owner gets the lock once more. -/
theorem lock_times (h : n < maxCount) : (times t n).lock t = .ok (times t (n + 1)) := by
  cases n with
  | zero => rfl
  | succ n => rw [times, lock, if_pos rfl, if_pos h, times]

/-- Not more often than it counts. -/
theorem lock_times_max (h : maxCount ≤ n) : (times t n).lock t = .error .maximumCount := by
  cases n with
  | zero => cases h
  | succ n => rw [times, lock, if_pos rfl, if_neg (Nat.not_lt.mpr h)]

/-- One time less is held. -/
theorem unlock_times (t : T) (n : ℕ) : (times t (n + 1)).unlock t = .ok (times t n) := by
  cases n with
  | zero => exact if_pos rfl
  | succ n => exact if_pos rfl

/-- Another thread gets the lock exactly where it is given back. -/
theorem lock_other_iff (h : t' ≠ t) : (∃ l, (times t n).lock t' = .ok l) ↔ n = 0 := by
  cases n with
  | zero => exact iff_of_true ⟨held t' 0, rfl⟩ rfl
  | succ n =>
    refine iff_of_false ?_ (Nat.succ_ne_zero n)
    rintro ⟨l, hl⟩
    rw [times, lock, if_neg h.symm] at hl
    cases hl

end Lock

end Reentrant
