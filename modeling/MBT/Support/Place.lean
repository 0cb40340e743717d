import MBT.Support.Split

/-!
# Support — Place

The first place of a word in a text that is put together from parts.

* `find_append`: in front of a character that the word has at most at its start, the word stands in
  the first part or not before the second.
* `find_skip`: a part without the first character of the word is passed over.
* `find_word`: a word that ends with its first character is found behind a text without it.
* `slice_eq_iff`: where a cut has to end to give the part that follows its start.
-/

namespace Text

variable {w p s x y : List Char} {h c : Char}

/-- Where nothing is found there is no infix. -/
theorem find_eq_none_iff : find w s = none ↔ ¬ w <:+: s := by
  constructor
  · rintro hnone ⟨x, y, rfl⟩
    have hlen : x.length ≤ (x ++ w ++ y).length := by
      rw [List.append_assoc, List.length_append]
      exact Nat.le_add_right _ _
    refine prefix_of_find_eq_none hnone hlen ?_
    rw [List.append_assoc, List.drop_left]
    exact List.prefix_append _ _
  · intro hnot
    cases hfind : find w s with
    | none => rfl
    | some i =>
      have hpre := List.isPrefixOf_iff_prefix.mp (isPrefixOf_of_find hfind)
      exact absurd (hpre.isInfix.trans (List.drop_suffix i s).isInfix) hnot

/-- `contains` tests for an infix. -/
theorem contains_iff {s t : String} : contains s t = true ↔ t.toList <:+: s.toList :=
  ⟨isInfix_of_contains, contains_of_isInfix⟩

/-- `endsWith` tests for a suffix. -/
theorem endsWith_iff {s t : String} : endsWith s t = true ↔ t.toList <:+ s.toList :=
  List.isSuffixOf_iff_suffix

/-- `startsWith` tests for a prefix. -/
theorem startsWith_iff {s t : String} : startsWith s t = true ↔ t.toList <+: s.toList :=
  List.isPrefixOf_iff_prefix

/-- Trimming leaves a part of the text. -/
theorem trim_isInfix (s : String) : (trim s).toList <:+: s.toList := by
  rw [trim, String.toList_ofList]
  have hend := List.reverse_prefix.mpr (List.dropWhile_suffix (· ≤ ' ')
    (l := (s.toList.dropWhile (· ≤ ' ')).reverse))
  rw [List.reverse_reverse] at hend
  exact hend.isInfix.trans (List.dropWhile_suffix _).isInfix

/-- What is found begins within the text. -/
theorem find_lt {i : ℕ} (hfind : find (h :: p) s = some i) : i < s.length := by
  have hpre := List.isPrefixOf_iff_prefix.mp (isPrefixOf_of_find hfind)
  by_contra hle
  rw [List.drop_eq_nil_of_le (Nat.not_lt.mp hle)] at hpre
  cases List.prefix_nil.mp hpre

/-- It is found at the beginning exactly when it is a prefix. -/
theorem find_eq_zero_iff : find w s = some 0 ↔ w <+: s := by
  constructor
  · exact fun hfind => List.isPrefixOf_iff_prefix.mp (isPrefixOf_of_find hfind)
  · intro hpre
    cases s with
    | nil => rw [find, if_pos (List.prefix_nil.mp hpre)]
    | cons c s => rw [find, if_pos (List.isPrefixOf_iff_prefix.mpr hpre)]

/-- Before the first place it does not occur. -/
theorem not_prefix_of_lt_find {i j : ℕ} (hfind : find w s = some i) (hj : j < i) :
    ¬ w <+: s.drop j := by
  induction s generalizing i j with
  | nil =>
    rw [find] at hfind
    split at hfind
    · cases hfind
      cases hj
    · cases hfind
  | cons c s ih =>
    rw [find] at hfind
    split at hfind
    · cases hfind
      cases hj
    · rename_i hp
      obtain ⟨k, hk, rfl⟩ := Option.map_eq_some_iff.mp hfind
      cases j with
      | zero => exact fun hpre => hp (List.isPrefixOf_iff_prefix.mpr hpre)
      | succ j => exact ih hk (Nat.lt_of_succ_lt_succ hj)

/-- A prefix without a character ends before it. -/
theorem prefix_append_cons_iff (hc : c ∉ p) : p <+: x ++ c :: y ↔ p <+: x := by
  constructor
  · intro hpre
    rcases List.prefix_or_prefix_of_prefix hpre (List.prefix_append x (c :: y)) with h | ⟨q, rfl⟩
    · exact h
    · cases q with
      | nil => rw [List.append_nil]
      | cons d q =>
        have hd := (List.cons_prefix_cons.mp ((List.prefix_append_right_inj x).mp hpre)).1
        exact absurd (List.mem_append_right x (hd ▸ List.mem_cons_self)) hc
  · exact fun hpre => hpre.trans (List.prefix_append _ _)

/-- A word stands in the first part or not before the second. -/
theorem find_append (hc : c ∉ p) : find (h :: p) (x ++ c :: y) =
    (find (h :: p) x).or ((find (h :: p) (c :: y)).map (· + x.length)) := by
  induction x with
  | nil =>
    rw [List.nil_append]
    change _ = (find (h :: p) (c :: y)).map (· + 0)
    simp only [Nat.add_zero, Option.map_id_fun', id]
  | cons d x ih =>
    have hpre : (h :: p).isPrefixOf (d :: (x ++ c :: y)) = (h :: p).isPrefixOf (d :: x) := by
      rw [Bool.eq_iff_iff, List.isPrefixOf_iff_prefix, List.isPrefixOf_iff_prefix,
        List.cons_prefix_cons, List.cons_prefix_cons, prefix_append_cons_iff hc]
    rw [List.cons_append, find, find, hpre, ih]
    split
    · rfl
    · cases find (h :: p) x with
      | some i => rfl
      | none =>
        rw [Option.none_or, Option.map_none, Option.none_or, Option.map_map]
        rfl

/-- A part that does not have the first character of a word is passed over. -/
theorem find_skip (hx : h ∉ x) : find (h :: p) (x ++ y) = (find (h :: p) y).map (· + x.length) := by
  induction x with
  | nil =>
    change _ = (find (h :: p) y).map (· + 0)
    simp only [Nat.add_zero, Option.map_id_fun', id, List.nil_append]
  | cons d x ih =>
    rw [List.mem_cons, not_or] at hx
    rw [List.cons_append, find, List.isPrefixOf, beq_eq_false_iff_ne.mpr hx.1, Bool.false_and,
      if_neg Bool.false_ne_true, ih hx.2, Option.map_map]
    rfl

/-- A word between two equal characters that it does not have ends at the first of them. -/
theorem prefix_word (hp : h ∉ p) (hpre : p ++ [h] <+: x ++ h :: y) : p ++ [h] <+: x ++ [h] := by
  obtain ⟨q, rfl⟩ := (prefix_append_cons_iff hp).mp ((List.prefix_append p [h]).trans hpre)
  rw [List.append_assoc, List.prefix_append_right_inj] at hpre ⊢
  cases q with
  | nil => exact List.prefix_rfl
  | cons d q =>
    rw [List.cons_append, List.cons_prefix_cons] at hpre ⊢
    exact ⟨hpre.1, List.nil_prefix⟩

/-- A quoted word does not begin within another. -/
theorem not_prefix_word (hp : h ∉ p) (hx : ¬ h :: (p ++ [h]) <:+: c :: (x ++ [h])) :
    ¬ h :: (p ++ [h]) <+: c :: (x ++ h :: y) := by
  intro hpre
  rw [List.cons_prefix_cons] at hpre
  refine hx (List.IsPrefix.isInfix ?_)
  rw [List.cons_prefix_cons]
  exact ⟨hpre.1, prefix_word hp hpre.2⟩

/-- Behind a text that does not have a word, even with its last character, it begins nowhere in
it. -/
theorem startsIn_word (hp : h ∉ p) (hx : ¬ h :: (p ++ [h]) <:+: x ++ [h]) :
    Pattern.startsIn (h :: (p ++ [h])) x (h :: y) = 0 := by
  induction x with
  | nil => rfl
  | cons c x ih =>
    rw [Pattern.startsIn, if_neg (mt List.isPrefixOf_iff_prefix.mp (not_prefix_word hp hx)),
      ih fun hin => hx (hin.trans (List.suffix_cons c (x ++ [h])).isInfix)]

/-- Behind such a text the word is found where it stands. -/
theorem find_word (hp : h ∉ p) (hx : ¬ h :: (p ++ [h]) <:+: x ++ [h]) :
    find (h :: (p ++ [h])) (x ++ (h :: (p ++ [h]) ++ y)) = some x.length := by
  induction x with
  | nil => exact find_eq_zero_iff.mpr (List.prefix_append _ _)
  | cons c x ih =>
    have hnot : ¬ h :: (p ++ [h]) <+: c :: (x ++ (h :: (p ++ [h]) ++ y)) := not_prefix_word hp hx
    rw [List.cons_append, find, if_neg (mt List.isPrefixOf_iff_prefix.mp hnot),
      ih fun hin => hx (hin.trans (List.suffix_cons c (x ++ [h])).isInfix)]
    rfl

/-- The place of such a word behind two parts, the first without its first character. -/
theorem indexOf_word {s t : String} {z : List Char} (ht : t.toList = h :: (p ++ [h])) (hp : h ∉ p)
    (hs : s.toList = z ++ (x ++ (t.toList ++ y))) (hz : h ∉ z) (hx : ¬ t.toList <:+: x ++ [h]) :
    indexOf s t 0 = (z ++ x).length := by
  rw [ht] at hs hx
  have hfind : find t.toList s.toList = some (x.length + z.length) := by
    rw [ht, hs, find_skip hz, find_word hp hx]
    rfl
  rw [indexOf, Int.toNat_zero, List.drop_zero, hfind, List.length_append, Nat.add_comm z.length]
  exact Int.zero_add _

/-- A part without the first character of the word holds nothing of it. -/
theorem infix_append_iff (hx : h ∉ x) : h :: p <:+: x ++ y ↔ h :: p <:+: y := by
  have hfind := find_skip (p := p) (y := y) hx
  rw [← not_iff_not, ← find_eq_none_iff, ← find_eq_none_iff, hfind, Option.map_eq_none_iff]

/-- A cut gives the part that follows its start exactly when it ends with it. -/
theorem slice_eq_iff {s : String} {q r : List Char} {e : ℤ} (hs : s.toList = x ++ (q ++ r)) :
    slice s x.length e = some (String.ofList q) ↔ e = (x ++ q).length := by
  constructor
  · intro hslice
    rw [slice] at hslice
    split at hslice
    · rename_i hbounds
      have hlen := congrArg (fun t => t.toList.length) (Option.some.inj hslice)
      rw [String.toList_ofList, String.toList_ofList, List.length_drop, List.length_take,
        Int.toNat_natCast, String.length_toList] at hlen
      rw [List.length_append]
      omega
    · cases hslice
  · rintro rfl
    exact slice_middle hs

end Text
