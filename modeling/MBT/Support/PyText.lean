import MBT.Support.Split

/-!
# Support — PyText

The operations of the script language on character strings, where an index may be counted from the
end.

* `rtakeWhile_append_stop`, `rdropWhile_append_stop`: a text is cut at the last character that fails a
  test.
* `drop_lastIndexOf`: what is behind the last place of a character.
* `ink_strip`: `strip` cuts blanks only.
* `inked_unique`: a text is cut in one way in front of a word.
-/

namespace PyText
open Exec

/-- The characters that `strip` cuts. -/
def isSpace (c : Char) : Bool :=
  c = ' ' || c = '\t' || c = '\n' || c = '\r' || c = '\x0b' || c = '\x0c'

/-- `str.strip`. -/
def strip (s : String) : String :=
  String.ofList ((s.toList.dropWhile isSpace).rdropWhile isSpace)

/-- The index that a bound of a slice stands for, in a text of `n` characters. -/
def clamp (n : ℕ) (i : ℤ) : ℕ := if i < 0 then (i + n).toNat else min i.toNat n

/-- `s[i:j]`. -/
def slice (s : String) (i j : ℤ) : String :=
  String.ofList ((s.toList.take (clamp s.length j)).drop (clamp s.length i))

/-- `s[i]`, `none` where it is out of range. -/
def item (s : String) (i : ℤ) : Option Char :=
  if i < -(s.length : ℤ) then none
  else if i < 0 then s.toList[(i + s.length).toNat]? else s.toList[i.toNat]?

/-- `s.rfind(c, 0, stop)`. -/
def rfind (s : String) (c : Char) (stop : ℤ) : ℤ :=
  ArrayList.lastIndexOf (s.toList.take (clamp s.length stop)) c

/-! ### Words -/

variable {p : Char → Bool} {s t : List Char}

theorem rtakeWhile_append (h : ∀ c ∈ t, p c = true) : (s ++ t).rtakeWhile p = s.rtakeWhile p ++ t := by
  induction t using List.reverseRecOn with
  | nil => rw [List.append_nil, List.append_nil]
  | append_singleton t c ih =>
    have hc := h c (List.mem_append_right t List.mem_cons_self)
    rw [← List.append_assoc, List.rtakeWhile_concat_pos _ _ _ hc,
      ih fun c hc => h c (List.mem_append_left _ hc), List.append_assoc]

/-- It ends at a character that does not count. -/
theorem rtakeWhile_append_stop {c : Char} (hc : p c = false) :
    (s ++ c :: t).rtakeWhile p = t.rtakeWhile p := by
  induction t using List.reverseRecOn with
  | nil => exact List.rtakeWhile_concat_neg _ _ _ (by rw [hc]; exact Bool.false_ne_true)
  | append_singleton t d ih =>
    have hassoc : s ++ c :: (t ++ [d]) = (s ++ c :: t) ++ [d] := by
      rw [List.append_assoc]
      rfl
    rw [hassoc, List.rtakeWhile_concat, List.rtakeWhile_concat, ih]

/-- What is dropped from the end ends there too. -/
theorem rdropWhile_append_stop {c : Char} (hc : p c = false) (ht : ∀ c ∈ t, p c = true) :
    (s ++ c :: t).rdropWhile p = s ++ [c] := by
  induction t using List.reverseRecOn with
  | nil => exact List.rdropWhile_concat_neg _ _ _ (by rw [hc]; exact Bool.false_ne_true)
  | append_singleton t d ih =>
    have hassoc : s ++ c :: (t ++ [d]) = (s ++ c :: t) ++ [d] := by
      rw [List.append_assoc]
      rfl
    rw [hassoc, List.rdropWhile_concat_pos _ _ _ (ht d (List.mem_append_right t List.mem_cons_self))]
    exact ih fun c hc => ht c (List.mem_append_left _ hc)

/-- What is no blank. -/
def ink (s : List Char) : List Char := s.filter fun c => !isSpace c

theorem ink_append (s t : List Char) : ink (s ++ t) = ink s ++ ink t := List.filter_append ..

/-- A text without ink is blank. -/
theorem ink_eq_nil_iff : ink s = [] ↔ ∀ c ∈ s, isSpace c = true := by
  rw [ink, List.filter_eq_nil_iff]
  simp only [Bool.not_eq_true, Bool.not_eq_false']

/-- A text that is all ink has no blank. -/
theorem ink_eq_self_iff : ink s = s ↔ ∀ c ∈ s, isSpace c = false := by
  rw [ink, List.filter_eq_self]
  simp only [Bool.not_eq_true']

/-- Dropping blanks in front leaves the ink. -/
theorem ink_dropWhile (s : List Char) : ink (s.dropWhile isSpace) = ink s := by
  conv_rhs => rw [← List.takeWhile_append_dropWhile (p := isSpace) (l := s), ink_append]
  rw [ink_eq_nil_iff.mpr fun c hc => List.mem_takeWhile_imp hc, List.nil_append]

/-- Dropping blanks at the end leaves the ink. -/
theorem ink_rdropWhile (s : List Char) : ink (s.rdropWhile isSpace) = ink s := by
  conv_rhs => rw [← @List.rdropWhile_append_rtakeWhile _ isSpace s, ink_append]
  rw [ink_eq_nil_iff.mpr fun c hc => List.mem_rtakeWhile_imp hc, List.append_nil]

/-- Stripping leaves the ink. -/
theorem ink_strip (s : String) : ink (strip s).toList = ink s.toList := by
  rw [strip, String.toList_ofList, ink_rdropWhile, ink_dropWhile]

theorem rtakeWhile_eq_self (h : ∀ c ∈ t, p c = true) : t.rtakeWhile p = t := by
  have happend := @rtakeWhile_append p [] t h
  rwa [List.nil_append] at happend

/-- Where the last place of a character is, and what is behind it. -/
theorem drop_lastIndexOf (v : List Char) (a : Char) :
    ∃ k ≤ v.length, ArrayList.lastIndexOf v a + 1 = k ∧ v.drop k = v.rtakeWhile (· ≠ a) := by
  by_cases ha : a ∈ v
  · obtain ⟨y, x, hrev, hy⟩ := List.eq_append_cons_of_mem (List.mem_reverse.mpr ha)
    have hv : v = x.reverse ++ a :: y.reverse := by
      rw [← List.reverse_reverse v, hrev, List.reverse_append, List.reverse_cons, List.append_assoc]
      rfl
    have hidx : v.reverse.idxOf a = y.length := by
      rw [hrev, List.idxOf_append_of_notMem hy, List.idxOf_cons_self, Nat.add_zero]
    have hlen : v.length = x.length + 1 + y.length := by
      rw [hv, List.length_append, List.length_cons, List.length_reverse, List.length_reverse]
      omega
    refine ⟨x.length + 1, by omega, ?_, ?_⟩
    · rw [ArrayList.lastIndexOf, if_pos ha, hidx]
      omega
    · have hall : ∀ c ∈ y.reverse, decide (c ≠ a) = true := by
        rintro c hc
        refine decide_eq_true ?_
        rintro rfl
        exact hy (List.mem_reverse.mp hc)
      rw [hv, rtakeWhile_append_stop (by simp), rtakeWhile_eq_self hall, ← List.singleton_append,
        ← List.append_assoc]
      exact List.drop_left' (by simp)
  · refine ⟨0, Nat.zero_le _, ?_, ?_⟩
    · rw [ArrayList.lastIndexOf, if_neg ha]
      rfl
    · rw [List.drop_zero, rtakeWhile_eq_self]
      rintro c hc
      refine decide_eq_true ?_
      rintro rfl
      exact ha hc

/-! ### Texts that begin and end with a word -/

/-- The text begins with a character that is no blank. -/
def Inked (s : List Char) : Prop := ∃ c r, s = c :: r ∧ isSpace c = false

theorem Inked.append (h : Inked s) (t : List Char) : Inked (s ++ t) := by
  obtain ⟨c, r, rfl, hc⟩ := h
  exact ⟨c, r ++ t, rfl, hc⟩

/-- A text without blanks begins with none. -/
theorem inked_of_ink (hne : t ≠ []) (h : ∀ c ∈ t, isSpace c = false) : Inked t := by
  obtain ⟨c, r, rfl⟩ := List.exists_cons_of_ne_nil hne
  exact ⟨c, r, rfl, h c List.mem_cons_self⟩

/-- A text is cut in one way in front of a word. -/
theorem inked_unique {s' t' : List Char} (h : s ++ t = s' ++ t') (ht : Inked t) (ht' : Inked t')
    (hink : ink s = ink s') : s = s' ∧ t = t' := by
  have hempty : ∀ {z u : List Char}, Inked (z ++ u) → ink z = [] → z = [] := by
    rintro z u ⟨c, r, heq, hc⟩ hz
    cases z with
    | nil => rfl
    | cons d z =>
      obtain ⟨rfl, -⟩ := List.cons.inj heq
      have hd := ink_eq_nil_iff.mp hz d List.mem_cons_self
      rw [hc] at hd
      cases hd
  rcases List.append_eq_append_iff.mp h with ⟨z, rfl, rfl⟩ | ⟨z, rfl, rfl⟩
  · rw [ink_append, List.self_eq_append_right] at hink
    rw [hempty ht hink, List.append_nil]
    exact ⟨rfl, rfl⟩
  · rw [ink_append, List.append_right_eq_self] at hink
    rw [hempty ht' hink, List.append_nil]
    exact ⟨rfl, rfl⟩

/-- The ink of a reversed text. -/
theorem ink_reverse (s : List Char) : ink s.reverse = (ink s).reverse := List.filter_reverse

/-- And in one way behind a word. -/
theorem inked_unique_end {s' t' : List Char} (h : s ++ t = s' ++ t') (hs : Inked s.reverse)
    (hs' : Inked s'.reverse) (hink : ink t = ink t') : s = s' ∧ t = t' := by
  have hrev : t.reverse ++ s.reverse = t'.reverse ++ s'.reverse := by
    rw [← List.reverse_append, h, List.reverse_append]
  have hcut := inked_unique hrev hs hs' (by rw [ink_reverse, ink_reverse, hink])
  exact ⟨List.reverse_inj.mp hcut.2, List.reverse_inj.mp hcut.1⟩

/-- A word is cut off from the blanks around it. -/
theorem strip_around {v w : List Char} (hv : ∀ c ∈ v, isSpace c = true) (hw : ∀ c ∈ w, isSpace c = true)
    (hs : Inked s) (hs' : Inked s.reverse) : strip (String.ofList (v ++ (s ++ w))) = String.ofList s := by
  obtain ⟨c, r, hcr, hc⟩ := hs
  obtain ⟨d, q, hdq, hd⟩ := hs'
  have hfront : (v ++ (s ++ w)).dropWhile isSpace = s ++ w := by
    rw [List.dropWhile_append_of_pos hv, hcr, List.cons_append,
      List.dropWhile_cons_of_neg (by rw [hc]; exact Bool.false_ne_true)]
  have hback : (s ++ w).rdropWhile isSpace = s := by
    have hs : s = q.reverse ++ [d] := by
      rw [← List.reverse_reverse s, hdq, List.reverse_cons]
    rw [hs, List.append_assoc, List.singleton_append]
    exact rdropWhile_append_stop hd hw
  rw [strip, String.toList_ofList, hfront, hback]

/-! ### Stripping -/

/-- A text without the blanks at its ends. -/
def stripped (l : List Char) : List Char := (l.dropWhile isSpace).rdropWhile isSpace

variable {w l : List Char}

theorem stripped_blank_append (hw : ∀ c ∈ w, isSpace c = true) (l : List Char) :
    stripped (w ++ l) = stripped l := by
  rw [stripped, List.dropWhile_append_of_pos hw, stripped]

theorem rdropWhile_append_blank (l : List Char) (hw : ∀ c ∈ w, isSpace c = true) :
    (l ++ w).rdropWhile isSpace = l.rdropWhile isSpace := by
  rw [List.rdropWhile, List.reverse_append, List.dropWhile_append_of_pos, List.rdropWhile]
  exact fun c hc => hw c (List.mem_reverse.mp hc)

/-- Of blanks nothing is left. -/
theorem stripped_blank (hw : ∀ c ∈ w, isSpace c = true) : stripped w = [] := by
  have h := stripped_blank_append hw []
  rwa [List.append_nil] at h

theorem stripped_append_blank (l : List Char) (hw : ∀ c ∈ w, isSpace c = true) :
    stripped (l ++ w) = stripped l := by
  rw [stripped, List.dropWhile_append]
  split
  · rename_i hl
    have hl : l.dropWhile isSpace = [] := List.isEmpty_iff.mp hl
    have hnil := stripped_blank hw
    rw [stripped] at hnil
    rw [hnil, stripped, hl]
    rfl
  · rw [rdropWhile_append_blank _ hw, stripped]

/-- Only the end of an inked text is stripped. -/
theorem Inked.stripped_eq (h : Inked l) : stripped l = l.rdropWhile isSpace := by
  obtain ⟨c, r, rfl, hc⟩ := h
  rw [stripped, List.dropWhile_cons_of_neg (by rw [hc]; exact Bool.false_ne_true)]

/-- What is in front of a word is kept. -/
theorem Inked.rdropWhile_append (s : List Char) (h : Inked l) :
    (s ++ l).rdropWhile isSpace = s ++ l.rdropWhile isSpace := by
  obtain ⟨c, r, rfl, hc⟩ := h
  have hne : ¬ (c :: r).reverse.dropWhile isSpace = [] := by
    intro hnil
    have hall := List.dropWhile_eq_nil_iff.mp hnil c (List.mem_reverse.mpr List.mem_cons_self)
    rw [hc] at hall
    cases hall
  rw [List.rdropWhile, List.reverse_append, List.dropWhile_append,
    if_neg fun h => hne (List.isEmpty_iff.mp h),
    List.reverse_append, List.reverse_reverse, List.rdropWhile]

/-- Stripping a text strips its characters. -/
theorem strip_ofList (s : List Char) : strip (String.ofList s) = String.ofList (stripped s) := by
  rw [strip, String.toList_ofList, stripped]

end PyText
