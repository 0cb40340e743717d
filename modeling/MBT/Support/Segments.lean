import MBT.Support.Split

/-!
# Support — the segments of a list in a text

A text that lists names is cut at a separator and each piece is trimmed.  A reader that stops at the
first empty piece keeps every name exactly where the empty pieces stand last.

* `takeWhile_eq_filter_iff`: where stopping at the first rejected element loses none.
* `takeWhile_split_iff`: the same for the pieces of a text.
-/

namespace Text
open Pattern

/-! ### Stopping early -/

variable {α : Type} {p : α → Bool}

/-- A prefix is all exactly when nothing that counts comes behind what does not. -/
theorem takeWhile_eq_filter_iff {l : List α} :
    l.takeWhile p = l.filter p ↔ l.Pairwise fun a b => p a = false → p b = false := by
  induction l with
  | nil => exact ⟨fun _ => List.Pairwise.nil, fun _ => rfl⟩
  | cons a l ih =>
    rw [List.pairwise_cons]
    by_cases ha : p a = true
    · rw [List.takeWhile_cons_of_pos ha, List.filter_cons_of_pos ha, List.cons_inj_right, ih]
      constructor
      · intro h
        refine ⟨fun b _ hfalse => ?_, h⟩
        rw [ha] at hfalse
        cases hfalse
      · exact And.right
    · rw [List.takeWhile_cons_of_neg ha, List.filter_cons_of_neg ha]
      have hfalse : p a = false := by simpa using ha
      constructor
      · intro h
        have hnone := List.filter_eq_nil_iff.mp h.symm
        have hrest : ∀ b ∈ l, p b = false := fun b hb => by simpa using hnone b hb
        refine ⟨fun b hb _ => hrest b hb, ?_⟩
        rw [List.pairwise_iff_forall_sublist]
        intro b c hbc _
        exact hrest c (hbc.subset (List.mem_cons_of_mem _ List.mem_cons_self))
      · rintro ⟨h, -⟩
        refine (List.filter_eq_nil_iff.mpr fun b hb => ?_).symm
        rw [h b hb hfalse]
        exact Bool.false_ne_true

/-! ### Blanks at the two ends -/

/-- What `trim` cuts. -/
def Blank (w : List Char) : Prop := ∀ c ∈ w, c ≤ ' '

/-- Trimming drops the blanks at both ends. -/
theorem trim_eq (s : String) :
    trim s = String.ofList ((s.toList.dropWhile (· ≤ ' ')).rdropWhile (· ≤ ' ')) := rfl

theorem trim_blank_append {w : List Char} (hw : Blank w) (s : List Char) :
    trim (String.ofList (w ++ s)) = trim (String.ofList s) := by
  rw [trim_eq, trim_eq, String.toList_ofList, String.toList_ofList, List.dropWhile_append_of_pos]
  intro c hc
  exact decide_eq_true (hw c hc)

theorem rdropWhile_append_blank {w : List Char} (hw : Blank w) (s : List Char) :
    (s ++ w).rdropWhile (· ≤ ' ') = s.rdropWhile (· ≤ ' ') := by
  rw [List.rdropWhile, List.rdropWhile, List.reverse_append, List.dropWhile_append_of_pos]
  intro c hc
  exact decide_eq_true (hw c (List.mem_reverse.mp hc))

theorem trim_append_blank {w : List Char} (hw : Blank w) (s : List Char) :
    trim (String.ofList (s ++ w)) = trim (String.ofList s) := by
  rw [trim_eq, trim_eq, String.toList_ofList, String.toList_ofList, List.dropWhile_append]
  split
  · rename_i hs
    -- nothing but blanks on both sides
    have hdrop : w.dropWhile (· ≤ ' ') = [] :=
      List.dropWhile_eq_nil_iff.mpr fun c hc => decide_eq_true (hw c hc)
    rw [hdrop, List.isEmpty_iff.mp hs]
  · rw [rdropWhile_append_blank hw]

/-- A text is its trimmed part between blanks. -/
theorem exists_toList_trim (s : String) :
    ∃ v w, Blank v ∧ Blank w ∧ s.toList = v ++ ((trim s).toList ++ w) := by
  refine ⟨s.toList.takeWhile (· ≤ ' '), (s.toList.dropWhile (· ≤ ' ')).rtakeWhile (· ≤ ' '), ?_, ?_, ?_⟩
  · intro c hc
    have hblank := List.mem_takeWhile_imp hc
    exact of_decide_eq_true hblank
  · intro c hc
    rw [List.rtakeWhile, List.mem_reverse] at hc
    have hblank := List.mem_takeWhile_imp hc
    exact of_decide_eq_true hblank
  · rw [trim_eq, String.toList_ofList, List.rdropWhile, List.rtakeWhile, ← List.reverse_append,
      List.takeWhile_append_dropWhile, List.reverse_reverse, List.takeWhile_append_dropWhile]

/-! ### Pieces -/

variable {a : Char}

theorem parts_ne_nil (a : Char) (s : List Char) : parts [a] 0 s ≠ [] := by
  intro h
  have hlen := length_parts_char a s
  rw [h] at hlen
  cases hlen

theorem parts_char_self (s : List Char) : parts [a] 0 (a :: s) = [] :: parts [a] 0 s :=
  parts_separator a [] s

/-- Another character belongs to the first part. -/
theorem parts_char_of_ne {c : Char} (h : c ≠ a) (s : List Char) :
    parts [a] 0 (c :: s) = (parts [a] 0 s).modifyHead (c :: ·) :=
  @parts_append [a] [c] s (startsIn_eq_zero (fun hmem => h (List.mem_singleton.mp hmem).symm) s)

/-- What a text without separators at the end adds to the last piece. -/
theorem parts_append_end {w : List Char} (hw : a ∉ w) (s : List Char) :
    ∃ ps p, parts [a] 0 s = ps ++ [p] ∧ parts [a] 0 (s ++ w) = ps ++ [p ++ w] := by
  induction s with
  | nil =>
    refine ⟨[], [], rfl, ?_⟩
    have h := @parts_append [a] w [] (startsIn_eq_zero hw [])
    rw [List.append_nil] at h
    rw [List.nil_append, h, parts, List.modifyHead_cons, List.append_nil]
    rfl
  | cons c s ih =>
    obtain ⟨ps, p, hs, hsw⟩ := ih
    by_cases hc : c = a
    · refine ⟨[] :: ps, p, ?_, ?_⟩
      · rw [hc, parts_char_self, hs]
        rfl
      · rw [hc, List.cons_append, parts_char_self, hsw]
        rfl
    · rw [List.cons_append, parts_char_of_ne hc, parts_char_of_ne hc, hs, hsw]
      cases ps with
      | nil => exact ⟨[], c :: p, rfl, rfl⟩
      | cons q ps => exact ⟨(c :: q) :: ps, p, rfl, rfl⟩

/-- The trimmed pieces of a text. -/
def segments (a : Char) (s : String) : List String :=
  (parts [a] 0 s.toList).map fun p => trim (String.ofList p)

example : segments ',' " Start,, Stop ,\t" = ["Start", "", "Stop", ""] := by decide

/-- The segments of a trimmed text. -/
theorem segments_trim (ha : ¬ a ≤ ' ') (s : String) : segments a (trim s) = segments a s := by
  obtain ⟨v, w, hv, hw, hs⟩ := exists_toList_trim s
  have hav : a ∉ v := fun h => ha (hv a h)
  have haw : a ∉ w := fun h => ha (hw a h)
  rw [segments, segments, hs, parts_append (startsIn_eq_zero hav _)]
  obtain ⟨ps, p, ht, htw⟩ := parts_append_end haw (trim s).toList
  rw [ht, htw]
  have hlast := trim_append_blank hw p
  cases ps with
  | nil =>
    rw [List.nil_append, List.nil_append, List.modifyHead_cons, List.map_singleton,
      List.map_singleton, trim_blank_append hv, hlast]
  | cons q ps =>
    rw [List.cons_append, List.cons_append, List.modifyHead_cons, List.map_cons, List.map_cons,
      trim_blank_append hv, List.map_append, List.map_append, List.map_singleton,
      List.map_singleton, hlast]

/-- What `split` leaves out of the pieces is empty. -/
theorem exists_split {sep : String} (hsep : sep.toList = [a]) (s : String) :
    ∃ es, (∀ e ∈ es, e = "") ∧ segments a s = (split s sep).map trim ++ es := by
  rw [split, hsep, segments]
  split
  · rename_i hlen
    have hcount : s.toList.count a = 0 := by
      rw [length_parts_char] at hlen
      exact Nat.succ.inj hlen
    have hparts := parts_of_occurrences
      ((startsIn_nil [a] s.toList).symm.trans (startsIn_eq_zero (List.count_eq_zero.mp hcount) []))
    refine ⟨[], fun e he => absurd he List.not_mem_nil, ?_⟩
    rw [hparts, List.append_nil, List.map_singleton, List.map_singleton, String.ofList_toList]
  · refine ⟨((parts [a] 0 s.toList).rtakeWhile List.isEmpty).map fun p => trim (String.ofList p),
      ?_, ?_⟩
    · intro e he
      obtain ⟨p, hp, rfl⟩ := List.mem_map.mp he
      rw [List.rtakeWhile, List.mem_reverse] at hp
      rw [List.isEmpty_iff.mp (List.mem_takeWhile_imp hp)]
      rfl
    · rw [List.map_map, List.rtakeWhile]
      conv_lhs => rw [← List.reverse_reverse (parts [a] 0 s.toList),
        ← List.takeWhile_append_dropWhile (p := List.isEmpty) (l := (parts [a] 0 s.toList).reverse)]
      rw [List.reverse_append, List.map_append]
      rfl

/-! ### Names -/

/-- The names that a text lists. -/
def allNames (a : Char) (s : String) : List String := (segments a s).filter (· ≠ "")

/-- No empty piece stands before another piece. -/
def EmptyLast (a : Char) (s : String) : Prop :=
  (segments a s).Pairwise fun x y => x = "" → y = ""

instance (a : Char) (s : String) : Decidable (EmptyLast a s) :=
  inferInstanceAs (Decidable (List.Pairwise _ _))

variable {sep : String}

/-- The names that splitting gives are those that the text lists. -/
theorem filter_split (hsep : sep.toList = [a]) (ha : ¬ a ≤ ' ') (s : String) :
    ((split (trim s) sep).map trim).filter (· ≠ "") = allNames a s := by
  obtain ⟨es, hes, hs⟩ := exists_split hsep (trim s)
  have hnone : es.filter (· ≠ "") = [] := by
    refine List.filter_eq_nil_iff.mpr fun e he => ?_
    rw [hes e he]
    decide
  rw [allNames, ← segments_trim ha, hs, List.filter_append, hnone, List.append_nil]

/-- **Where a reader that stops at the first empty piece reads every name.** -/
theorem takeWhile_split_iff (hsep : sep.toList = [a]) (ha : ¬ a ≤ ' ') (s : String) :
    ((split (trim s) sep).map trim).takeWhile (· ≠ "") = allNames a s ↔ EmptyLast a s := by
  obtain ⟨es, hes, hs⟩ := exists_split hsep (trim s)
  rw [← filter_split hsep ha, takeWhile_eq_filter_iff, EmptyLast, ← segments_trim ha, hs,
    List.pairwise_append]
  simp only [decide_eq_false_iff_not, ne_eq, not_not]
  constructor
  · intro h
    refine ⟨h, ?_, fun x _ e he _ => hes e he⟩
    rw [List.pairwise_iff_forall_sublist]
    intro x y hxy _
    exact hes y (hxy.subset (List.mem_cons_of_mem _ List.mem_cons_self))
  · exact And.left

/-- A reader that stops early reads no name where there is none. -/
theorem takeWhile_split_eq_nil (hsep : sep.toList = [a]) (ha : ¬ a ≤ ' ') {s : String}
    (h : allNames a s = []) : ((split (trim s) sep).map trim).takeWhile (· ≠ "") = [] := by
  rw [← filter_split hsep ha] at h
  refine List.eq_nil_iff_forall_not_mem.mpr fun x hx => ?_
  have hne := List.mem_takeWhile_imp hx
  exact List.filter_eq_nil_iff.mp h x ((List.takeWhile_prefix _).mem hx) hne

end Text
