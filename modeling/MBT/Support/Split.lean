import MBT.Support.Pattern

/-!
# Support — Split

Texts put together with a separator and split again, and places looked up in a text.

* `parts_intercalate`: the parts of texts put together with a separator that cannot begin inside
  them are the texts.
* `split_intercalate`: what `split` leaves of them is all but the empty ones at the end.
* `indexOf_next`: the next place of a character, behind a part that does not have it.
-/

namespace Text
open Exec Pattern

/-! ### Parts -/

theorem parts_skip (sep s : List Char) (k : ℕ) : parts sep k s = parts sep 0 (s.drop k) := by
  induction s generalizing k with
  | nil => rw [List.drop_nil]; cases k <;> rfl
  | cons c s ih =>
    cases k with
    | zero => rfl
    | succ k => exact ih k

/-- Where the separator does not begin in `x`, the first part begins with `x`. -/
theorem parts_append {sep x r : List Char} (h : startsIn sep x r = 0) :
    parts sep 0 (x ++ r) = (parts sep 0 r).modifyHead (x ++ ·) := by
  induction x with
  | nil =>
    have hid : (([] : List Char) ++ ·) = id := rfl
    rw [hid, List.modifyHead_id]
    rfl
  | cons c x ih =>
    rw [startsIn, Nat.add_eq_zero_iff] at h
    have hc : sep.isPrefixOf (c :: (x ++ r)) = false := by
      cases hp : sep.isPrefixOf (c :: (x ++ r)) with
      | false => rfl
      | true => rw [hp] at h; cases h.1
    rw [List.cons_append, parts, hc, if_neg Bool.false_ne_true, ih h.2, List.modifyHead_modifyHead]
    rfl

theorem startsIn_nil (t x : List Char) : startsIn t x [] = occurrences t x := by
  have h := occurrences_append t x []
  rw [List.append_nil] at h
  exact h.symm

/-- A text without the separator is its only part. -/
theorem parts_of_occurrences {sep s : List Char} (h : occurrences sep s = 0) :
    parts sep 0 s = [s] := by
  rw [← List.append_nil s, parts_append ((startsIn_nil sep s).trans h)]
  rfl

/-- A separator in front ends an empty part. -/
theorem parts_separator (a : Char) (t r : List Char) :
    parts (a :: t) 0 ((a :: t) ++ r) = [] :: parts (a :: t) 0 r := by
  rw [List.cons_append, parts, isPrefixOf_append, if_pos rfl, parts_skip, List.length_cons,
    Nat.add_sub_cancel, List.drop_left]

theorem intercalate_cons (sep x : List Char) (ps : List (List Char)) :
    sep.intercalate (x :: ps) = x ++ ps.flatMap (sep ++ ·) := by
  induction ps generalizing x with
  | nil => simp
  | cons y ps ih =>
    rw [List.intercalate_cons_cons, ih, List.flatMap_cons, List.append_assoc, List.append_assoc]

theorem notMem_append {s t : String} {c : Char} :
    c ∉ (s ++ t).toList ↔ c ∉ s.toList ∧ c ∉ t.toList := by
  rw [String.toList_append, List.mem_append, not_or]

/-- Nor is one of neither the parts nor the separator. -/
theorem notMem_intercalate {sep : String} {ps : List String} {c : Char} (hsep : c ∉ sep.toList)
    (hps : ∀ p ∈ ps, c ∉ p.toList) : c ∉ (sep.intercalate ps).toList := by
  rw [String.toList_intercalate]
  cases ps with
  | nil => exact List.not_mem_nil
  | cons x ps =>
    rw [List.map_cons, intercalate_cons, List.mem_append, List.flatMap_map, List.mem_flatMap]
    rintro (hx | ⟨p, hp, h⟩)
    · exact hps x List.mem_cons_self hx
    · rcases List.mem_append.mp h with h | h
      · exact hsep h
      · exact hps p (List.mem_cons_of_mem x hp) h

/-- A text behind can only complete more occurrences. -/
theorem startsIn_nil_le (t x r : List Char) : startsIn t x [] ≤ startsIn t x r := by
  induction x with
  | nil => exact le_rfl
  | cons c x ih =>
    rw [startsIn, startsIn, List.append_nil]
    refine Nat.add_le_add ?_ ih
    split
    · rename_i hp
      have hlong : t <+: c :: (x ++ r) :=
        (List.isPrefixOf_iff_prefix.mp hp).trans (List.prefix_append (c :: x) r)
      rw [if_pos (List.isPrefixOf_iff_prefix.mpr hlong)]
    · exact Nat.zero_le _

/-- The parts of texts put together, where the separator begins in none of them. -/
theorem parts_intercalate {a : Char} {t x : List Char} {ps : List (List Char)}
    (hx : ∀ r, startsIn (a :: t) x (a :: r) = 0) (hps : ∀ p ∈ ps, a ∉ p) :
    parts (a :: t) 0 ((a :: t).intercalate (x :: ps)) = x :: ps := by
  induction ps generalizing x with
  | nil =>
    rw [List.intercalate_singleton, parts_of_occurrences]
    exact Nat.le_zero.mp ((startsIn_nil _ x) ▸ (startsIn_nil_le _ x [a]).trans_eq (hx []))
  | cons y ps ih =>
    have hy := ih (fun r => startsIn_eq_zero (hps y List.mem_cons_self) (a :: r))
      fun p hp => hps p (List.mem_cons_of_mem _ hp)
    have hfirst := hx (t ++ (a :: t).intercalate (y :: ps))
    rw [← List.cons_append] at hfirst
    rw [List.intercalate_cons_cons, List.append_assoc, parts_append hfirst, parts_separator, hy]
    exact congrArg (· :: y :: ps) (List.append_nil x)

/-- A longer separator begins nowhere where a beginning of it does not. -/
theorem startsIn_append {t x r : List Char} (u : List Char) (h : startsIn t x r = 0) :
    startsIn (t ++ u) x r = 0 := by
  induction x with
  | nil => rfl
  | cons c x ih =>
    rw [startsIn, Nat.add_eq_zero_iff] at h ⊢
    refine ⟨if_neg fun hp => ?_, ih h.2⟩
    have ht := (List.prefix_append t u).trans (List.isPrefixOf_iff_prefix.mp hp)
    rw [List.isPrefixOf_iff_prefix.mpr ht] at h
    cases h.1

/-! ### What split leaves -/

/-- A text without separators is one part. -/
theorem split_of_occurrences {s sep : String} (h : occurrences sep.toList s.toList = 0) :
    split s sep = [s] := by
  rw [split, parts_of_occurrences h]
  rfl

/-- Parts without the separator's first character are split up again, the empty ones at the end
apart. -/
theorem split_intercalate {sep x : String} {ps : List String} {a : Char} {t : List Char}
    (hsep : sep.toList = a :: t) (hx : ∀ r, startsIn (a :: t) x.toList (a :: r) = 0)
    (hps : ∀ p ∈ ps, a ∉ p.toList) (hne : ps ≠ []) :
    split (sep.intercalate (x :: ps)) sep = (x :: ps).rdropWhile (· = "") := by
  have hparts : parts sep.toList 0 (sep.intercalate (x :: ps)).toList =
      (x :: ps).map String.toList := by
    rw [String.toList_intercalate, hsep, List.map_cons]
    refine parts_intercalate hx fun p hp => ?_
    obtain ⟨q, hq, rfl⟩ := List.mem_map.mp hp
    exact hps q hq
  have hlen : (x :: ps).length ≠ 1 := by
    rw [List.length_cons]
    exact fun h => hne (List.length_eq_zero_iff.mp (Nat.succ.inj h))
  have hempty : (List.isEmpty ∘ String.toList) = fun s : String => decide (s = "") := by
    funext s
    rw [Function.comp_apply, Bool.eq_iff_iff, List.isEmpty_iff, decide_eq_true_iff,
      String.toList_eq_nil_iff]
  rw [split, hparts, List.length_map, if_neg hlen, ← List.map_reverse, List.dropWhile_map,
    ← List.map_reverse, List.map_map, hempty]
  refine (congrArg (List.map · _) ?_).trans (List.map_id _)
  funext s
  exact String.ofList_toList

/-- An empty part at the end is dropped. -/
theorem length_rdropWhile_lt {l : List String} (h : l.getLast? = some "") :
    (l.rdropWhile (· = "")).length < l.length := by
  obtain ⟨l, rfl⟩ := List.getLast?_eq_some_iff.mp h
  have hdrop : (l ++ [""]).rdropWhile (· = "") = l.rdropWhile (· = "") :=
    List.rdropWhile_concat_pos _ _ _ (decide_eq_true rfl)
  rw [hdrop, List.length_append]
  exact Nat.lt_succ_of_le (List.rdropWhile_prefix _ _).length_le

theorem rdropWhile_eq_self {l : List String} (h : l.getLast? ≠ some "") :
    l.rdropWhile (· = "") = l := by
  rw [List.rdropWhile_eq_self_iff]
  intro hl hlast
  rw [List.getLast?_eq_some_getLast hl, of_decide_eq_true hlast] at h
  exact h rfl

/-- Where the last is not empty, every text is left. -/
theorem split_intercalate_eq {sep : String} {ps : List String} {a : Char} {t : List Char}
    (hsep : sep.toList = a :: t) (hps : ∀ p ∈ ps, a ∉ p.toList) (hne : ps ≠ [])
    (hlast : ps.getLast? ≠ some "") : split (sep.intercalate ps) sep = ps := by
  obtain ⟨x, ps, rfl⟩ := List.exists_cons_of_ne_nil hne
  have hx := startsIn_eq_zero (t := t) (hps x List.mem_cons_self)
  cases ps with
  | nil =>
    rw [String.intercalate_singleton, split_of_occurrences]
    rw [hsep, ← startsIn_nil]
    exact hx []
  | cons y ps =>
    rw [split_intercalate hsep (fun r => hx (a :: r)) (fun p hp => hps p (List.mem_cons_of_mem x hp))
      (List.cons_ne_nil y ps), rdropWhile_eq_self hlast]

theorem rdropWhile_cons {α : Type} (p : α → Bool) (x : α) (l : List α) :
    (x :: l).rdropWhile p = if l.rdropWhile p = [] then [x].rdropWhile p else x :: l.rdropWhile p := by
  rw [List.rdropWhile, List.reverse_cons, List.dropWhile_append, List.rdropWhile]
  by_cases h : l.reverse.dropWhile p = []
  · rw [h]
    rfl
  · have hne : (l.reverse.dropWhile p).reverse ≠ [] := fun e => h (List.reverse_eq_nil_iff.mp e)
    rw [if_neg hne, if_neg fun e => h (List.isEmpty_iff.mp e), List.reverse_append]
    rfl

/-- The first part begins the text. -/
theorem prefix_of_parts {sep s p : List Char} {ps : List (List Char)} {k : ℕ}
    (h : parts sep k s = p :: ps) : p <+: s.drop k := by
  induction s generalizing k p ps with
  | nil =>
    have hnil : parts sep k [] = [[]] := by cases k <;> rfl
    rw [hnil] at h
    cases h
    exact List.nil_prefix
  | cons c s ih =>
    cases k with
    | succ k => exact ih h
    | zero =>
      rw [parts] at h
      split at h
      · cases h
        exact List.nil_prefix
      · cases hparts : parts sep 0 s with
        | nil =>
          rw [hparts] at h
          cases h
        | cons q qs =>
          rw [hparts] at h
          cases h
          exact List.cons_prefix_cons.mpr ⟨rfl, ih hparts⟩

/-- The text begins with its first piece. -/
theorem prefix_of_split {s sep p : String} {ps : List String} (h : split s sep = p :: ps) :
    p.toList <+: s.toList := by
  rw [split] at h
  split at h
  · cases h
    exact List.prefix_rfl
  · obtain ⟨q, qs, hq, rfl, -⟩ := List.map_eq_cons_iff.mp h
    rw [String.toList_ofList]
    have hprefix : q :: qs <+: parts sep.toList 0 s.toList := hq ▸ List.rdropWhile_prefix _ _
    obtain ⟨rs, hparts⟩ := hprefix
    exact prefix_of_parts hparts.symm

/-! ### Splitting at one character -/

/-- There is one part more than separators. -/
theorem length_parts_char (a : Char) (s : List Char) : (parts [a] 0 s).length = s.count a + 1 := by
  induction s with
  | nil => rfl
  | cons c s ih =>
    rw [parts, List.isPrefixOf, List.isPrefixOf_nil_left, Bool.and_true]
    by_cases h : a = c
    · subst h
      rw [beq_self_eq_true, if_pos rfl, List.length_cons, List.count_cons_self]
      exact congrArg (· + 1) ih
    · rw [beq_eq_false_iff_ne.mpr h, if_neg Bool.false_ne_true, List.length_modifyHead, ih,
        List.count_cons_of_ne (Ne.symm h)]

/-- A part holds no separator. -/
theorem notMem_of_mem_parts {a : Char} {s p : List Char} (h : p ∈ parts [a] 0 s) : a ∉ p := by
  induction s generalizing p with
  | nil =>
    rw [List.mem_singleton.mp h]
    exact List.not_mem_nil
  | cons c s ih =>
    rw [parts, List.isPrefixOf, List.isPrefixOf_nil_left, Bool.and_true] at h
    by_cases hc : a = c
    · rw [beq_iff_eq.mpr hc, if_pos rfl] at h
      rcases List.mem_cons.mp h with rfl | h
      · exact List.not_mem_nil
      · exact ih h
    · rw [beq_eq_false_iff_ne.mpr hc, if_neg Bool.false_ne_true] at h
      cases hparts : parts [a] 0 s with
      | nil => rw [hparts] at h; cases h
      | cons q qs =>
        rw [hparts] at h ih
        rcases List.mem_cons.mp h with rfl | h
        · rw [List.mem_cons, not_or]
          exact ⟨hc, ih List.mem_cons_self⟩
        · exact ih (List.mem_cons_of_mem _ h)

/-- No piece has the character at which the text was split. -/
theorem notMem_of_mem_split {s sep p : String} {a : Char} (hsep : sep.toList = [a])
    (h : p ∈ split s sep) : a ∉ p.toList := by
  rw [split, hsep] at h
  split at h
  · rename_i hlen
    rw [length_parts_char] at hlen
    rw [List.mem_singleton.mp h]
    exact List.count_eq_zero.mp (Nat.succ.inj hlen)
  · obtain ⟨q, hq, rfl⟩ := List.mem_map.mp h
    rw [String.toList_ofList]
    have hq := (List.dropWhile_suffix _).mem (List.mem_reverse.mp hq)
    exact notMem_of_mem_parts (List.mem_reverse.mp hq)

/-- Together the pieces have everything but the separators. -/
theorem flatten_parts_char (a : Char) (s : List Char) :
    (parts [a] 0 s).flatten = s.filter (· ≠ a) := by
  induction s with
  | nil => rfl
  | cons c s ih =>
    rw [parts, List.isPrefixOf, List.isPrefixOf_nil_left, Bool.and_true]
    by_cases h : a = c
    · subst h
      rw [beq_self_eq_true, if_pos rfl, List.filter_cons_of_neg (by simp), ← ih]
      rfl
    · have hc : decide (c ≠ a) = true := decide_eq_true (Ne.symm h)
      rw [beq_eq_false_iff_ne.mpr h, if_neg Bool.false_ne_true, List.filter_cons, if_pos hc, ← ih]
      cases hparts : parts [a] 0 s with
      | nil =>
        have hlen := length_parts_char a s
        rw [hparts] at hlen
        cases hlen
      | cons q qs => rfl

/-- Empty parts hold no characters. -/
theorem flatten_rdropWhile_isEmpty {α : Type} (l : List (List α)) :
    (l.reverse.dropWhile List.isEmpty).reverse.flatten = l.flatten := by
  induction l using List.reverseRecOn with
  | nil => rfl
  | append_singleton l p ih =>
    rw [List.reverse_append, List.reverse_singleton, List.singleton_append, List.dropWhile_cons]
    split
    · rename_i hp
      rw [ih, List.flatten_append, List.isEmpty_iff.mp hp]
      simp
    · rw [List.reverse_cons, List.reverse_reverse]

/-- The parts hold all characters but the separators. -/
theorem flatten_split {s sep : String} {a : Char} (hsep : sep.toList = [a]) :
    ((split s sep).map String.toList).flatten = s.toList.filter (· ≠ a) := by
  rw [split, hsep]
  split
  · rename_i hlen
    rw [length_parts_char, Nat.add_eq_right] at hlen
    rw [List.map_singleton, List.flatten_singleton, List.filter_eq_self.mpr]
    rintro c hc
    exact decide_eq_true fun h => List.count_eq_zero.mp hlen (h ▸ hc)
  · have hid : (String.toList ∘ String.ofList) = id := funext fun l => String.toList_ofList
    rw [List.map_map, hid, List.map_id, flatten_rdropWhile_isEmpty, flatten_parts_char]

/-- The characters of a part are those of the text. -/
theorem mem_of_mem_parts {sep s p : List Char} {k : ℕ} {c : Char} (h : p ∈ parts sep k s)
    (hc : c ∈ p) : c ∈ s := by
  induction s generalizing k p with
  | nil =>
    have hnil : parts sep k [] = [[]] := by cases k <;> rfl
    rw [hnil, List.mem_singleton] at h
    rw [h] at hc
    cases hc
  | cons d s ih =>
    cases k with
    | succ k => exact List.mem_cons_of_mem d (ih h hc)
    | zero =>
      rw [parts] at h
      split at h
      · rcases List.mem_cons.mp h with rfl | h
        · cases hc
        · exact List.mem_cons_of_mem d (ih h hc)
      · cases hparts : parts sep 0 s with
        | nil => rw [hparts] at h; cases h
        | cons q qs =>
          rw [hparts] at h
          rcases List.mem_cons.mp h with rfl | h
          · rcases List.mem_cons.mp hc with rfl | hc
            · exact List.mem_cons_self
            · exact List.mem_cons_of_mem d (ih (hparts ▸ List.mem_cons_self) hc)
          · exact List.mem_cons_of_mem d (ih (hparts ▸ List.mem_cons_of_mem q h) hc)

/-- A piece has no character that the text has not. -/
theorem mem_of_mem_split {s sep p : String} {c : Char} (h : p ∈ split s sep) (hc : c ∈ p.toList) :
    c ∈ s.toList := by
  rw [split] at h
  split at h
  · rwa [List.mem_singleton.mp h] at hc
  · obtain ⟨q, hq, rfl⟩ := List.mem_map.mp h
    rw [String.toList_ofList] at hc
    have hq := (List.dropWhile_suffix _).mem (List.mem_reverse.mp hq)
    exact mem_of_mem_parts (List.mem_reverse.mp hq) hc

/-- So are those of a slice. -/
theorem mem_of_mem_slice {s t : String} {i j : ℤ} {c : Char} (h : slice s i j = some t)
    (hc : c ∈ t.toList) : c ∈ s.toList := by
  rw [slice] at h
  split at h
  · cases h
    rw [String.toList_ofList] at hc
    exact List.mem_of_mem_take (List.mem_of_mem_drop hc)
  · cases h

/-- And those of the trimmed text. -/
theorem mem_of_mem_trim {s : String} {c : Char} (h : c ∈ (trim s).toList) : c ∈ s.toList := by
  rw [trim, String.toList_ofList] at h
  have h := (List.dropWhile_suffix _).mem (List.mem_reverse.mp h)
  exact (List.dropWhile_suffix _).mem (List.mem_reverse.mp h)

/-! ### Places -/

/-- The first place at which `t` begins. -/
def find (t : List Char) : List Char → Option ℕ
  | [] => if t = [] then some 0 else none
  | c :: s => if t.isPrefixOf (c :: s) then some 0 else (find t s).map (· + 1)

/-- `indexOf(t, fromIndex)` of a string, `-1` where there is no such place. -/
def indexOf (s t : String) (fromIndex : ℤ) : ℤ :=
  match find t.toList (s.toList.drop fromIndex.toNat) with
  | some i => fromIndex.toNat + i
  | none => -1

example : indexOf "a(\"b\")" "\"" 3 = 4 := by decide

/-- `String.contains`. -/
def contains (s t : String) : Bool := indexOf s t 0 ≠ -1

/-- `replaceFirst(regex, goal)` of a string, as `replaceAll` over an engine. -/
def replaceFirst (engine : String → String → String → Except Exn String) (s regex goal : String) :
    Except Exn String :=
  match literal regex.toList with
  | some (c :: t) =>
    match find (c :: t) s.toList with
    | none => .ok s
    | some i => do
      let goal ← expand (c :: t) false goal.toList
      return String.ofList (s.toList.take i ++ goal ++ s.toList.drop (i + (c :: t).length))
  | _ => engine s regex goal

/-- What is found is at the place where it is found. -/
theorem isPrefixOf_of_find {t s : List Char} {i : ℕ} (h : find t s = some i) :
    t.isPrefixOf (s.drop i) = true := by
  induction s generalizing i with
  | nil =>
    rw [find] at h
    split at h
    · rename_i ht
      rw [ht]
      rfl
    · cases h
  | cons c s ih =>
    rw [find] at h
    split at h
    · rename_i hp
      cases h
      exact hp
    · obtain ⟨j, hj, rfl⟩ := Option.map_eq_some_iff.mp h
      exact ih hj

/-- What is contained is an infix. -/
theorem isInfix_of_contains {s t : String} (h : contains s t = true) : t.toList <:+: s.toList := by
  have hne : indexOf s t 0 ≠ -1 := of_decide_eq_true h
  rw [indexOf, Int.toNat_zero, List.drop_zero] at hne
  cases hfind : find t.toList s.toList with
  | none =>
    rw [hfind] at hne
    exact absurd rfl hne
  | some i =>
    have hpre := List.isPrefixOf_iff_prefix.mp (isPrefixOf_of_find hfind)
    exact hpre.isInfix.trans (List.drop_suffix i _).isInfix

/-- What is not found begins nowhere. -/
theorem prefix_of_find_eq_none {t s : List Char} (h : find t s = none) {i : ℕ}
    (hi : i ≤ s.length) : ¬ t <+: s.drop i := by
  induction s generalizing i with
  | nil =>
    rw [find] at h
    split at h
    · cases h
    · rename_i ht
      rw [List.drop_nil]
      exact fun hpre => ht (List.prefix_nil.mp hpre)
  | cons c s ih =>
    rw [find] at h
    split at h
    · cases h
    · rename_i hp
      cases i with
      | zero => exact fun hpre => hp (List.isPrefixOf_iff_prefix.mpr hpre)
      | succ i => exact ih (Option.map_eq_none_iff.mp h) (Nat.le_of_succ_le_succ hi)

/-- An infix is contained. -/
theorem contains_of_isInfix {s t : String} (h : t.toList <:+: s.toList) : contains s t = true := by
  obtain ⟨p, q, heq⟩ := h
  refine decide_eq_true ?_
  rw [indexOf, Int.toNat_zero, List.drop_zero]
  cases hfind : find t.toList s.toList with
  | none =>
    have hlen : p.length ≤ s.toList.length := by
      rw [← heq, List.length_append, List.length_append]
      exact (Nat.le_add_right _ _).trans (Nat.le_add_right _ _)
    refine absurd ?_ (prefix_of_find_eq_none hfind hlen)
    rw [← heq, List.append_assoc, List.drop_left]
    exact List.prefix_append _ _
  | some i =>
    dsimp only
    omega

theorem find_char_append {a : Char} {q : List Char} (hq : a ∉ q) (r : List Char) :
    find [a] (q ++ a :: r) = some q.length := by
  induction q with
  | nil => rw [List.nil_append, find, List.isPrefixOf, beq_self_eq_true]; rfl
  | cons c q ih =>
    rw [List.mem_cons, not_or] at hq
    rw [List.cons_append, find, List.isPrefixOf, beq_eq_false_iff_ne.mpr hq.1, ih hq.2]
    rfl

/-- A character that is not there is not found. -/
theorem find_char_of_notMem {a : Char} {q : List Char} (hq : a ∉ q) : find [a] q = none := by
  induction q with
  | nil => rfl
  | cons c q ih =>
    rw [List.mem_cons, not_or] at hq
    rw [find, List.isPrefixOf, beq_eq_false_iff_ne.mpr hq.1, ih hq.2]
    rfl

variable {s t : String} {a : Char} {p q r : List Char}

/-- The next place of a character. -/
theorem indexOf_next (ht : t.toList = [a]) (hs : s.toList = p ++ (q ++ a :: r)) (hq : a ∉ q) :
    indexOf s t p.length = (p ++ q).length := by
  rw [indexOf, hs, ht, Int.toNat_natCast, List.drop_left, find_char_append hq]
  dsimp only
  rw [List.length_append, Nat.cast_add]

/-- No place where there is no more. -/
theorem indexOf_none (ht : t.toList = [a]) (hs : s.toList = p ++ q) (hq : a ∉ q) :
    indexOf s t p.length = -1 := by
  rw [indexOf, hs, ht, Int.toNat_natCast, List.drop_left, find_char_of_notMem hq]

/-- The part between two places. -/
theorem slice_middle (hs : s.toList = p ++ (q ++ r)) :
    slice s p.length (p ++ q).length = some (String.ofList q) := by
  have hlen : (p ++ q).length ≤ s.length := by
    rw [← String.length_toList, hs, ← List.append_assoc, @List.length_append _ (p ++ q)]
    exact Nat.le_add_right _ _
  have hle : p.length ≤ (p ++ q).length := by
    rw [List.length_append]
    exact Nat.le_add_right _ _
  rw [slice, if_pos ⟨Int.natCast_nonneg _, Int.ofNat_le.mpr hle, Int.ofNat_le.mpr hlen⟩, hs,
    Int.toNat_natCast, Int.toNat_natCast, ← List.append_assoc, List.take_left, List.drop_left]

/-! ### Equations of texts -/

/-- A text is cut in one way at the first place of a character. -/
theorem cut_inj {a : Char} {p p' r r' : List Char} (hp : a ∉ p) (hp' : a ∉ p')
    (h : p ++ a :: r = p' ++ a :: r') : p = p' ∧ r = r' := by
  have hlen : p.length = p'.length := by
    rw [← Option.some_inj, ← find_char_append hp r, h, find_char_append hp' r']
  obtain ⟨hpre, hrest⟩ := List.append_inj h hlen
  exact ⟨hpre, (List.cons.inj hrest).2⟩

theorem flatten_replicate_append (w : List Char) (n : ℕ) :
    (List.replicate n w).flatten ++ w = w ++ (List.replicate n w).flatten := by
  rw [← List.flatten_concat, ← List.replicate_succ', List.replicate_succ, List.flatten_cons]

/-- The texts that are the same with `m c` behind them as with `e m` before them, where `c` is a
character that `m` does not have. -/
theorem shifted_iff {a e m : List Char} {c : Char} (hc : c ∉ m) (hm : m ≠ []) :
    a ++ (m ++ [c]) = e ++ (m ++ a) ↔
      e = [c] ∧ ∃ n, a = c :: (List.replicate n (m ++ [c])).flatten := by
  constructor
  · intro h
    have hlen := congrArg List.length h
    simp only [List.length_append, List.length_singleton] at hlen
    obtain ⟨d, rfl⟩ : ∃ d, e = [d] := List.length_eq_one_iff.mp (by omega)
    clear hlen
    -- Either `a` ends within the first `d m`, or it begins with a whole one.
    induction hn : a.length using Nat.strong_induction_on generalizing a with
    | h n ih =>
      have hd : [d] ++ (m ++ a) = (d :: m) ++ a := rfl
      rw [hd] at h
      rcases List.prefix_or_prefix_of_prefix (List.prefix_append a (m ++ [c]))
          (h ▸ List.prefix_append (d :: m) a) with hle | hle
      · rcases List.prefix_cons_iff.mp hle with rfl | ⟨m', rfl, m'', rfl⟩
        · rw [List.nil_append, List.append_nil] at h
          obtain ⟨x, m, rfl⟩ := List.exists_cons_of_ne_nil hm
          obtain ⟨rfl, htail⟩ := List.cons.inj h
          have hmem : c ∈ x :: m := htail ▸ List.mem_append_right m (List.mem_singleton_self c)
          exact absurd hmem hc
        · have h : (m' ++ m'') ++ [c] = m'' ++ d :: m' := by
            rw [List.cons_append, List.cons_append, List.append_assoc m' m'' (d :: m')] at h
            exact List.append_cancel_left (List.cons.inj h).2
          have hlast := congrArg List.getLast? h
          rw [List.getLast?_concat, List.getLast?_append, List.getLast?_cons] at hlast
          cases m' using List.reverseRecOn with
          | nil =>
            cases hlast
            exact ⟨rfl, 0, rfl⟩
          | append_singleton m' y =>
            rw [List.getLast?_concat] at hlast
            cases hlast
            exact absurd (List.mem_append_left m'' (List.mem_append_right m' List.mem_cons_self)) hc
      · obtain ⟨a', rfl⟩ := hle
        rw [List.append_assoc] at h
        obtain ⟨rfl', k, rfl⟩ := ih a'.length (by
          rw [← hn, List.length_append, List.length_cons]
          omega) (List.append_cancel_left h) rfl
        cases rfl'
        refine ⟨rfl, k + 1, ?_⟩
        rw [List.replicate_succ, List.flatten_cons]
        simp
  · rintro ⟨rfl, n, rfl⟩
    have hcomm := flatten_replicate_append (m ++ [c]) n
    rw [List.cons_append, hcomm]
    simp

end Text
