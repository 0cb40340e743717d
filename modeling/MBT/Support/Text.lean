import Mathlib

/-!
# Support — Text

The library's operations on character strings, as far as the sources use them.

* `lines_record`: a text without line breaks, ended by one, is the first line.
* `breakless_of_mem_lines`: no line contains a line break.
* `int_repr_injective`: a number is known by its digits.
-/

namespace Text

/-- `s` without the characters up to the blank at its two ends. -/
def trim (s : String) : String :=
  String.ofList ((s.toList.dropWhile (· ≤ ' ')).reverse.dropWhile (· ≤ ' ')).reverse

/-- `s` with its letters `A` to `Z` in lower case. -/
def toLowerCase (s : String) : String := String.ofList (s.toList.map Char.toLower)

/-- `s` from the character at `beginIndex` on. -/
def substring (s : String) (beginIndex : ℕ) : String := String.ofList (s.toList.drop beginIndex)

/-- `s` with `goal` in the place of each `target`, from left to right; `skip` characters of a
`target` are still to be left out. -/
def replaceChars (target goal : List Char) : ℕ → List Char → List Char
  | _, [] => []
  | 0, c :: s =>
    if target.isPrefixOf (c :: s) then goal ++ replaceChars target goal (target.length - 1) s
    else c :: replaceChars target goal 0 s
  | skip + 1, _ :: s => replaceChars target goal skip s

/-- `String.replace`. -/
def replace (s target goal : String) : String :=
  String.ofList (replaceChars target.toList goal.toList 0 s.toList)

example : trim " \tPaid state\n" = "Paid state" := by decide

/-- `String.startsWith`. -/
def startsWith (s start : String) : Bool := start.toList.isPrefixOf s.toList

/-- `String.endsWith`. -/
def endsWith (s ending : String) : Bool := ending.toList.isSuffixOf s.toList

/-- The characters from `beginIndex` to before `endIndex`; `none` where the library throws. -/
def slice (s : String) (beginIndex endIndex : ℤ) : Option String :=
  if 0 ≤ beginIndex ∧ beginIndex ≤ endIndex ∧ endIndex ≤ s.length then
    some (String.ofList ((s.toList.take endIndex.toNat).drop beginIndex.toNat))
  else none

/-! ### Splitting at a plain separator -/

/-- The parts of a text between the separators, found from left to right; `skip` characters of a
separator are still to be left out. -/
def parts (sep : List Char) : ℕ → List Char → List (List Char)
  | _, [] => [[]]
  | 0, c :: s =>
    if sep.isPrefixOf (c :: s) then [] :: parts sep (sep.length - 1) s
    else (parts sep 0 s).modifyHead (c :: ·)
  | skip + 1, _ :: s => parts sep skip s

/-- `split`: the empty parts at the end are left out, but a text without a separator is kept. -/
def split (s sep : String) : List String :=
  let ps := parts sep.toList 0 s.toList
  if ps.length = 1 then [s]
  else (ps.reverse.dropWhile List.isEmpty).reverse.map String.ofList

example : split "a,,b,," "," = ["a", "", "b"] := by decide

/-! ### Lines -/

/-- The lines of a text: one ends at `\n`, `\r` or `\r\n`, the last also at the end. -/
def lines : List Char → List (List Char)
  | [] => []
  | '\n' :: s => [] :: lines s
  | '\r' :: '\n' :: s => [] :: lines s
  | '\r' :: s => [] :: lines s
  | c :: s =>
    match lines s with
    | [] => [[c]]
    | l :: ls => (c :: l) :: ls

/-- The lines of a file. -/
def readLines (s : String) : List String := (lines s.toList).map String.ofList

/-- The text contains no line break. -/
def Breakless (s : String) : Prop := ∀ c ∈ s.toList, c ≠ '\n' ∧ c ≠ '\r'

instance (s : String) : Decidable (Breakless s) :=
  List.decidableBAll (fun c => c ≠ '\n' ∧ c ≠ '\r') s.toList

theorem breakless_append {s t : String} : Breakless (s ++ t) ↔ Breakless s ∧ Breakless t := by
  simp only [Breakless, String.toList_append, List.forall_mem_append]

theorem lines_cons {c : Char} (h : c ≠ '\n' ∧ c ≠ '\r') (s : List Char) :
    lines (c :: s) = match lines s with
      | [] => [[c]]
      | l :: ls => (c :: l) :: ls := by
  rw [lines]
  · exact h.1
  · exact fun _ h' => absurd h' h.2
  · exact h.2

/-- A line end ends the first line. -/
theorem lines_record {l : List Char} (h : ∀ c ∈ l, c ≠ '\n' ∧ c ≠ '\r') (s : List Char) :
    lines (l ++ '\n' :: s) = l :: lines s := by
  induction l with
  | nil => rw [List.nil_append, lines]
  | cons c l ih =>
    rw [List.cons_append, lines_cons (h c List.mem_cons_self),
      ih fun c hc => h c (List.mem_cons_of_mem _ hc)]

/-- No line contains a line break. -/
theorem breakless_of_mem_lines {s l : List Char} (h : l ∈ lines s) :
    ∀ c ∈ l, c ≠ '\n' ∧ c ≠ '\r' := by
  induction s using lines.induct generalizing l with
  | case1 => cases h
  | case2 s ih | case3 s ih =>
    rw [lines] at h
    rcases List.mem_cons.mp h with rfl | h
    · intro c hc; cases hc
    · exact ih h
  | case4 s hs ih =>
    rw [lines] at h
    · rcases List.mem_cons.mp h with rfl | h
      · intro c hc; cases hc
      · exact ih h
    · exact hs
  | case5 c s h₁ h₂ h₃ hs ih =>
    rw [lines_cons ⟨h₁, h₃⟩, hs] at h
    rw [List.mem_singleton.mp h]
    intro d hd
    rw [List.mem_singleton.mp hd]
    exact ⟨h₁, h₃⟩
  | case6 c s h₁ h₂ h₃ k ks hs ih =>
    rw [lines_cons ⟨h₁, h₃⟩, hs] at h
    rw [hs] at ih
    rcases List.mem_cons.mp h with rfl | h
    · intro d hd
      rcases List.mem_cons.mp hd with rfl | hd
      · exact ⟨h₁, h₃⟩
      · exact ih List.mem_cons_self d hd
    · exact ih (List.mem_cons_of_mem _ h)

/-- A line has no line break. -/
theorem breakless_of_mem_readLines {s l : String} (h : l ∈ readLines s) : Breakless l := by
  obtain ⟨k, hk, rfl⟩ := List.mem_map.mp h
  rw [Breakless, String.toList_ofList]
  exact breakless_of_mem_lines hk

/-- A line in front is read first. -/
theorem readLines_record {l : String} (h : Breakless l) (s : String) :
    readLines (l ++ "\n" ++ s) = l :: readLines s := by
  have hs : (l ++ "\n" ++ s).toList = l.toList ++ '\n' :: s.toList := by
    rw [String.toList_append, String.toList_append, List.append_assoc]
    rfl
  rw [readLines, hs, lines_record h, List.map_cons, String.ofList_toList, readLines]

/-! ### Numbers -/

/-- A number is written with digits and a sign. -/
theorem eq_or_isDigit_of_mem_repr {n : ℤ} {c : Char} (h : c ∈ n.repr.toList) :
    c = '-' ∨ c.isDigit := by
  have hnat : ∀ {m : ℕ}, c ∈ m.repr.toList → c.isDigit := by
    intro m hm
    rw [Nat.toList_repr] at hm
    exact Nat.isDigit_of_mem_toDigits (by decide) (by decide) hm
  rw [Int.repr_eq_if] at h
  split at h
  · exact .inr (hnat h)
  · rw [String.toList_append] at h
    rcases List.mem_append.mp h with h | h
    · exact .inl (List.mem_singleton.mp h)
    · exact .inr (hnat h)

/-- A number has no line break. -/
theorem breakless_repr (n : ℤ) : Breakless n.repr := by
  intro c hc
  rcases eq_or_isDigit_of_mem_repr hc with rfl | h
  · decide
  · refine ⟨?_, ?_⟩
    · rintro rfl; cases h
    · rintro rfl; cases h

/-- Different numbers are written differently. -/
theorem nat_repr_injective {m n : ℕ} (h : m.repr = n.repr) : m = n := by
  have h' := congrArg (fun s : String => Nat.ofDigitChars 10 s.toList 0) h
  simpa only [Nat.toList_repr, Nat.ofDigitChars_ten_toDigits] using h'

/-- A number is known by its digits. -/
theorem int_repr_injective {m n : ℤ} (h : m.repr = n.repr) : m = n := by
  have hneg : ∀ {a b : ℕ}, a.repr ≠ "-" ++ b.repr := by
    intro a b he
    have hc : '-' ∈ a.repr.toList := by
      rw [he, String.toList_append]
      exact List.mem_append_left _ (List.mem_singleton_self _)
    rw [Nat.toList_repr] at hc
    exact absurd (Nat.isDigit_of_mem_toDigits (by decide) (by decide) hc) (by decide)
  rw [Int.repr_eq_if, Int.repr_eq_if] at h
  split at h <;> split at h
  · have := nat_repr_injective h
    omega
  · exact absurd h hneg
  · exact absurd h.symm hneg
  · rw [String.append_right_inj] at h
    have := nat_repr_injective h
    omega

end Text
