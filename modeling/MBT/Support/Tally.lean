import Mathlib

/-!
# Support — Tally

Lists of counted keys, and how often such a list has each key.

* `tally_set`, `tally_flatten_set`: where one of the counted keys is replaced, in a list or in a list
  of lists.
* `tally_filter`: those that are counted zero times do not matter.
* `tally_map`: what becomes of the tally of a list of keys where the keys are mapped.
-/

namespace Tally

variable {κ α : Type} [DecidableEq κ]

/-- A key, counted some times. -/
structure Counted (κ : Type) where
  count : ℕ
  key : κ
  deriving DecidableEq

namespace Counted

/-- How often the key is counted here. -/
def times (c : Counted κ) (k : κ) : ℕ := if c.key = k then c.count else 0

/-- What counts nothing counts nothing for any key. -/
theorem times_of_count_eq_zero {c : Counted κ} (h : c.count = 0) (k : κ) : c.times k = 0 := by
  rw [times, h, ite_self]

/-- Counted once more. -/
theorem times_succ [BEq κ] [LawfulBEq κ] (n : ℕ) (k k' : κ) :
    (⟨n + 1, k⟩ : Counted κ).times k' = (⟨n, k⟩ : Counted κ).times k' + [k].count k' := by
  simp only [times, List.count_singleton, beq_iff_eq]
  split <;> rfl

end Counted

/-- How often the list has the key. -/
def tally (l : List (Counted κ)) (k : κ) : ℕ := (l.map fun c => c.times k).sum

@[simp] theorem tally_nil (k : κ) : tally ([] : List (Counted κ)) k = 0 := rfl

@[simp] theorem tally_cons (c : Counted κ) (l : List (Counted κ)) (k : κ) :
    tally (c :: l) k = c.times k + tally l k := by
  rw [tally, List.map_cons, List.sum_cons, tally]

@[simp] theorem tally_append (l l' : List (Counted κ)) (k : κ) :
    tally (l ++ l') k = tally l k + tally l' k := by
  rw [tally, List.map_append, List.sum_append, tally, tally]

/-- One entry in the place of another. -/
theorem tally_set {l : List (Counted κ)} {i : ℕ} {c : Counted κ} (h : l[i]? = some c)
    (c' : Counted κ) (k : κ) : tally (l.set i c') k + c.times k = tally l k + c'.times k := by
  induction l generalizing i with
  | nil => cases h
  | cons d l ih =>
    cases i with
    | zero =>
      obtain rfl := Option.some.inj h
      rw [List.set_cons_zero, tally_cons, tally_cons]
      omega
    | succ i =>
      have hset := ih h
      rw [List.set_cons_succ, tally_cons, tally_cons]
      omega

/-- One of the lists is replaced. -/
theorem tally_flatten_set {ls : List (List (Counted κ))} {i : ℕ} {l : List (Counted κ)}
    (h : ls[i]? = some l) (l' : List (Counted κ)) (k : κ) :
    tally (ls.set i l').flatten k + tally l k = tally ls.flatten k + tally l' k := by
  induction ls generalizing i with
  | nil => cases h
  | cons m ls ih =>
    cases i with
    | zero =>
      obtain rfl := Option.some.inj h
      rw [List.set_cons_zero, List.flatten_cons, List.flatten_cons, tally_append, tally_append]
      omega
    | succ i =>
      have hset := ih h
      rw [List.set_cons_succ, List.flatten_cons, List.flatten_cons, tally_append, tally_append]
      omega

/-- Only those with a count matter. -/
theorem tally_filter (l : List (Counted κ)) (k : κ) :
    tally (l.filter fun c => 0 < c.count) k = tally l k := by
  induction l with
  | nil => rfl
  | cons c l ih =>
    rw [tally_cons, List.filter_cons]
    split
    · rw [tally_cons, ih]
    · rename_i hcount
      have hzero : c.count = 0 := by simpa using hcount
      rw [ih, Counted.times_of_count_eq_zero hzero, Nat.zero_add]

/-- Entries that count nothing. -/
theorem tally_eq_zero {l : List (Counted κ)} (h : ∀ c ∈ l, c.count = 0) (k : κ) : tally l k = 0 := by
  induction l with
  | nil => rfl
  | cons c l ih =>
    obtain ⟨hc, hl⟩ := List.forall_mem_cons.mp h
    rw [tally_cons, Counted.times_of_count_eq_zero hc, ih hl]

/-- The keys, each as often as it is counted. -/
def expand (l : List (Counted κ)) : List κ := l.flatMap fun c => .replicate c.count c.key

/-- To count what the entries stand for. -/
theorem count_expand [BEq κ] [LawfulBEq κ] (l : List (Counted κ)) (k : κ) :
    (expand l).count k = tally l k := by
  induction l with
  | nil => rfl
  | cons c l ih =>
    rw [tally_cons, ← ih, expand, List.flatMap_cons, List.count_append, List.count_replicate, Counted.times]
    simp only [beq_iff_eq]
    rfl

/-- An entry counts for its key. -/
theorem count_le_tally {l : List (Counted κ)} {c : Counted κ} (hc : c ∈ l) : c.count ≤ tally l c.key := by
  have htimes : c.times c.key = c.count := if_pos rfl
  rw [← htimes, tally]
  exact List.single_le_sum (fun _ _ => Nat.zero_le _) _ (List.mem_map.mpr ⟨c, hc, rfl⟩)

/-- The keys with a count are those of the list. -/
theorem mem_iff_of_tally [BEq κ] [LawfulBEq κ] {l : List (Counted κ)} {ks : List κ}
    (h : ∀ k, tally l k = ks.count k) (k : κ) : k ∈ ks ↔ ∃ c ∈ l, 0 < c.count ∧ c.key = k := by
  rw [← List.count_pos_iff, ← h, ← count_expand, List.count_pos_iff, expand, List.mem_flatMap]
  refine exists_congr fun c => and_congr_right fun _ => ?_
  rw [List.mem_replicate, Nat.pos_iff_ne_zero, eq_comm (b := c.key)]

/-- The count of another key. -/
def Counted.map {κ' : Type} (f : κ → κ') (c : Counted κ) : Counted κ' := ⟨c.count, f c.key⟩

/-- The mapped keys are counted as the keys were, added up where they meet. -/
theorem tally_map {κ' : Type} [BEq κ] [LawfulBEq κ] [DecidableEq κ'] [BEq κ'] [LawfulBEq κ']
    {l : List (Counted κ)} {ks : List κ} (h : ∀ k, tally l k = ks.count k) (f : κ → κ') (k : κ') :
    tally (l.map (Counted.map f)) k = (ks.map f).count k := by
  have hperm : (expand l).Perm ks := List.perm_iff_count.mpr fun k => by rw [count_expand, h]
  have hmap : expand (l.map (Counted.map f)) = (expand l).map f := by
    rw [expand, expand, List.flatMap_map, List.map_flatMap]
    simp only [List.map_replicate]
    rfl
  rw [← count_expand, hmap]
  exact (hperm.map f).count_eq k

end Tally
