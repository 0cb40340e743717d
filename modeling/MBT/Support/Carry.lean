import Mathlib

/-!
# Support — Carry

Rounds that share a list which is filtered in each round but never emptied.

In the round of `k` the elements `part k` are appended to the list, the list is filtered by
`keep k`, and what is left is given out.  What is left is also there in the next round.

* `carry_eq_flatMap`: where the filter of each round drops what the round before has left, the
  rounds give out what each of them contributes.
* `isChain_of_nodup_carry`: conversely, where nothing is given out twice, each filter drops what
  the round before has left.
* `count_carry`: how often an element is given out.
-/

namespace Carry

variable {κ α : Type*} (keep : κ → α → Bool) (part : κ → List α)

/-- A round: the list and what has been given out. -/
def step (x : List α × List α) (k : κ) : List α × List α :=
  let t := (x.1 ++ part k).filter (keep k)
  (t, x.2 ++ t)

/-- What the rounds `ks` give out, from the list `t`. -/
def carry : List α → List κ → List α
  | _, [] => []
  | t, k :: ks => (t ++ part k).filter (keep k) ++ carry ((t ++ part k).filter (keep k)) ks

/-- What the round of `k` gives out from the empty list. -/
def own (k : κ) : List α := (part k).filter (keep k)

variable {keep part}

/-- What the loop over the rounds has given out. -/
theorem foldl_step (ks : List κ) (t m : List α) :
    (ks.foldl (step keep part) (t, m)).2 = m ++ carry keep part t ks := by
  induction ks generalizing t m with
  | nil => simp [carry]
  | cons k ks ih => rw [List.foldl_cons, step, ih, carry, List.append_assoc]

/-- What is given out comes from the list or from a round. -/
theorem mem_of_mem_carry {ks : List κ} {t : List α} {x : α} (h : x ∈ carry keep part t ks) :
    x ∈ t ∨ ∃ k ∈ ks, x ∈ part k := by
  induction ks generalizing t with
  | nil => cases h
  | cons k ks ih =>
    have hround : x ∈ (t ++ part k).filter (keep k) → x ∈ t ∨ ∃ k' ∈ k :: ks, x ∈ part k' :=
      fun hx => (List.mem_append.mp (List.mem_of_mem_filter hx)).imp id
        fun hx => ⟨k, List.mem_cons_self, hx⟩
    rcases List.mem_append.mp h with hx | hx
    · exact hround hx
    · rcases ih hx with hx | ⟨k', hk', hx⟩
      · exact hround hx
      · exact .inr ⟨k', List.mem_cons_of_mem k hk', hx⟩

/-- So does what is left in the list. -/
theorem mem_of_mem_foldl_step {ks : List κ} {t m : List α} {x : α}
    (h : x ∈ (ks.foldl (step keep part) (t, m)).1) : x ∈ t ∨ ∃ k ∈ ks, x ∈ part k := by
  induction ks generalizing t m with
  | nil => exact .inl h
  | cons k ks ih =>
    rcases ih h with hx | ⟨k', hk', hx⟩
    · exact (List.mem_append.mp (List.mem_of_mem_filter hx)).imp id
        fun hx => ⟨k, List.mem_cons_self, hx⟩
    · exact .inr ⟨k', List.mem_cons_of_mem k hk', hx⟩

/-- The filter of each round drops what the round before has left. -/
def Drops (keep : κ → α → Bool) (part : κ → List α) (k k' : κ) : Prop :=
  (own keep part k).filter (keep k') = []

/-- Where each round drops what is left, the rounds give out their own. -/
theorem carry_eq_flatMap {ks : List κ} {t : List α} (h₀ : ∀ k ∈ ks.head?, t.filter (keep k) = [])
    (h : ks.IsChain (Drops keep part)) : carry keep part t ks = ks.flatMap (own keep part) := by
  induction ks generalizing t with
  | nil => rfl
  | cons k ks ih =>
    have ht : (t ++ part k).filter (keep k) = own keep part k := by
      rw [List.filter_append, h₀ k rfl, List.nil_append, own]
    rw [carry, ht, List.flatMap_cons, ih (List.isChain_cons.mp h).1 (List.isChain_cons.mp h).2]

/-- Where nothing is given out twice, each round drops what is left. -/
theorem isChain_of_nodup_carry {ks : List κ} {t : List α} (h : (t ++ carry keep part t ks).Nodup) :
    (∀ k ∈ ks.head?, t.filter (keep k) = []) ∧ ks.IsChain (Drops keep part) := by
  induction ks generalizing t with
  | nil => exact ⟨by simp, .nil⟩
  | cons k ks ih =>
    rw [carry] at h
    -- an element left in the list would be given out again
    have h₀ : t.filter (keep k) = [] := by
      refine List.eq_nil_iff_forall_not_mem.mpr fun x hx => ?_
      obtain ⟨hxt, hxk⟩ := List.mem_filter.mp hx
      refine List.disjoint_of_nodup_append h hxt (List.mem_append_left _ ?_)
      exact List.mem_filter.mpr ⟨List.mem_append_left _ hxt, hxk⟩
    have ht : (t ++ part k).filter (keep k) = own keep part k := by
      rw [List.filter_append, h₀, List.nil_append, own]
    rw [ht] at h
    obtain ⟨h₁, h₂⟩ := ih (List.nodup_append.mp h).2.1
    exact ⟨by simpa using h₀, List.isChain_cons.mpr ⟨h₁, h₂⟩⟩

/-- The rounds in a row, from the first on, that keep an element. -/
def stays (keep : κ → α → Bool) (x : α) (ks : List κ) : ℕ := (ks.takeWhile (keep · x)).length

theorem stays_cons (k : κ) (ks : List κ) (x : α) :
    stays keep x (k :: ks) = if keep k x then stays keep x ks + 1 else 0 := by
  rw [stays, List.takeWhile_cons]
  split <;> rfl

/-- **How often an element is given out** that no round but that of `s` adds: each time it is in the
list at the beginning, in the rounds from the first on, and each time the round of `s` adds it, in the
rounds from this one on. -/
theorem count_carry [DecidableEq κ] [DecidableEq α] {ks : List κ} (hks : ks.Nodup) {s : κ} {x : α}
    (hpart : ∀ k ∈ ks, k ≠ s → x ∉ part k) (t : List α) :
    (carry keep part t ks).count x = t.count x * stays keep x ks +
      (part s).count x * stays keep x (ks.dropWhile (· ≠ s)) := by
  induction ks generalizing t with
  | nil => rfl
  | cons k ks ih =>
    obtain ⟨hk, hks⟩ := List.nodup_cons.mp hks
    rw [carry, List.count_append, ih hks fun k' hk' => hpart k' (List.mem_cons_of_mem k hk'), stays_cons]
    by_cases hs : k = s
    · -- the round of `s`, which is visited once
      subst hs
      have hrest : ks.dropWhile (· ≠ k) = [] :=
        List.dropWhile_eq_nil_iff.mpr fun k' hk' => decide_eq_true fun e => hk (e ▸ hk')
      have hfirst : (k :: ks).dropWhile (· ≠ k) = k :: ks := by simp
      have hnil : stays keep x ([] : List κ) = 0 := rfl
      rw [hrest, hfirst, stays_cons, hnil, mul_zero, add_zero]
      split
      · rename_i hkeep
        rw [List.count_filter hkeep, List.count_append]
        ring
      · rename_i hkeep
        rw [List.count_eq_zero_of_not_mem fun hx => hkeep (List.mem_filter.mp hx).2]
        simp
    · have hrest : (k :: ks).dropWhile (· ≠ s) = ks.dropWhile (· ≠ s) := by simp [hs]
      rw [hrest]
      split
      · rename_i hkeep
        rw [List.count_filter hkeep, List.count_append,
          List.count_eq_zero_of_not_mem (hpart k List.mem_cons_self hs)]
        ring
      · rename_i hkeep
        rw [List.count_eq_zero_of_not_mem fun hx => hkeep (List.mem_filter.mp hx).2]
        simp

end Carry
