import MBT.Support.Place
import MBT.View.HandleVars

/-!
# View — ParamLines

A line of a script with one call `getParams(n)`.  Four scans cut the name `n` out of it: two collect
the names, two put the values in.  Each looks for the first places of some words in the whole line,
so what they find depends on what else stands on the line.

* `setValueParam_eq_ok`, `assertParam_eq_ok`: when the name is cut out.
* `extracted_iff`: when all four scans cut out the name.
-/

namespace MBT
open Exec Text MDataAlgo

namespace MQTestView

/-- The trimmed line is one call of `getParams` with `a` before it and `b` behind it. -/
structure Calls (line a n b : String) : Prop where
  trimmed : trim line = a ++ ("getParams(" ++ (n ++ (")" ++ b)))
  before : ¬ contains a "getParams("
  after : ¬ contains b "getParams("
  name : '(' ∉ n.toList ∧ ')' ∉ n.toList

/-- The four forms of such a line. -/
inductive Form where
  | setValue
  | setValueQuoted
  | assertEquals
  | assertEqualsQuoted

/-- The line has the form. -/
def Form.Is (line a b : String) : Form → Prop
  | .setValue => endsWith a "setValue(" ∧ startsWith b ")"
  | .setValueQuoted => endsWith a "setValue(\"" ∧ startsWith b "\")"
  | .assertEquals => startsWith (trim line) "assertEquals" ∧ startsWith b ","
  | .assertEqualsQuoted => startsWith (trim line) "assertEquals" ∧ startsWith b "\","

/-- Nothing else on the line is taken for a part of the call. -/
def Form.Clear (line a b : String) : Form → Prop
  | .setValue => ¬ isStepStart line ∧ ¬ isStepEnd line ∧ ¬ contains a "))"
  | .setValueQuoted => ¬ isStepStart line ∧ ¬ isStepEnd line ∧
      ¬ contains a "))" ∧ ¬ contains b "))" ∧ ¬ contains a ")\")"
  | .assertEquals => ¬ endsWith a "setValue(" ∧ ¬ endsWith a "setValue(\"" ∧
      ¬ contains a ")," ∧ ¬ contains a ")\"," ∧ ¬ contains b ")\","
  | .assertEqualsQuoted => ¬ endsWith a "setValue(" ∧ ¬ endsWith a "setValue(\"" ∧
      ¬ contains a ")," ∧ ¬ contains b ")," ∧ ¬ contains a ")\","

/-- All four scans take `n` out of the line, and the two that put values in put them there. -/
structure Extracted (line n : String) : Prop where
  inStep : ∀ stepVarMap name vars, stepVarMap.lookup name = some vars →
    stepParamLine (stepVarMap, name) line = .ok (stepVarMap.insert name (vars.add n), name)
  inContent : ∀ paramSet, contentParamLine paramSet line = .ok (paramSet.add n)
  align : ∀ stepsVarMap i s, s.flag = true →
    alignLine stepsVarMap i s line = .ok (s.fillLine line n)
  convert : ∀ row value s, row.lookup n = some value → ∃ dataPath,
    convertLine (some row) s line = .ok (dataPath, s.2 ++ (fill line n value ++ "\n"))

/-! ### The place of the call -/

section Calls

/-- `getParams(` without its first character. -/
def etParams : List Char := ['e', 't', 'P', 'a', 'r', 'a', 'm', 's', '(']

/-- The characters of the call. -/
theorem toList_getParams : "getParams(".toList = 'g' :: etParams := by decide

/-- Behind its first letter the call has neither that letter nor a bracket. -/
theorem notMem_etParams : 'g' ∉ etParams ∧ ')' ∉ etParams := by decide

variable {line a n b : String}

/-- The characters of a line with one call. -/
theorem Calls.toList (h : Calls line a n b) : (trim line).toList =
    a.toList ++ 'g' :: (etParams ++ (n.toList ++ ')' :: b.toList)) := by
  rw [h.trimmed, String.toList_append, String.toList_append, toList_getParams, String.toList_append,
    String.toList_append]
  rfl

/-- The end of the name. -/
def nameEnd (a n : String) : ℕ := a.toList.length + 10 + n.toList.length

/-- The first place of a word that begins with a bracket: before the call, or from the end of the
name on. -/
theorem Calls.find_bracket (h : Calls line a n b) {p : List Char} (hp : 'g' ∉ p) :
    find (')' :: p) (trim line).toList = (find (')' :: p) a.toList).or
      ((find (')' :: p) (')' :: b.toList)).map (· + nameEnd a n)) := by
  have hskip : ')' ∉ 'g' :: (etParams ++ n.toList) := by
    rw [List.mem_cons, List.mem_append]
    rintro (hg | hname | hname)
    · cases hg
    · exact notMem_etParams.2 hname
    · exact h.name.2 hname
  have hrest : find (')' :: p) ('g' :: (etParams ++ (n.toList ++ ')' :: b.toList))) =
      (find (')' :: p) (')' :: b.toList)).map (· + (10 + n.toList.length)) := by
    have hfind := find_skip (p := p) (y := ')' :: b.toList) hskip
    rw [List.cons_append, List.append_assoc, List.length_cons, List.length_append] at hfind
    rw [hfind, Nat.add_right_comm]
    rfl
  rw [h.toList, find_append hp, hrest, Option.map_map]
  congr 2
  funext k
  rw [Function.comp_apply, nameEnd]
  omega

/-- The call stands at one place. -/
theorem Calls.place_unique (h : Calls line a n b) {i : ℕ}
    (hi : 'g' :: etParams <+: (trim line).toList.drop i) : i = a.toList.length := by
  have hno {s : String} (hs : ¬ contains s "getParams(") : find ('g' :: etParams) s.toList = none := by
    refine find_eq_none_iff.mpr fun hpart => hs (contains_iff.mpr ?_)
    rw [toList_getParams]
    exact hpart
  have hfirst : find ('g' :: etParams) (trim line).toList = some a.toList.length := by
    rw [h.toList, find_append notMem_etParams.1, hno h.before,
      find_eq_zero_iff.mpr (List.cons_prefix_cons.mpr ⟨rfl, List.prefix_append _ _⟩)]
    exact congrArg some (Nat.zero_add _)
  -- behind its first character there is no other call
  have hrest : find ('g' :: etParams) (etParams ++ (n.toList ++ ')' :: b.toList)) = none := by
    have hn : find ('g' :: etParams) n.toList = none := by
      refine find_eq_none_iff.mpr fun hpart => h.name.1 (hpart.subset ?_)
      decide
    have hb : find ('g' :: etParams) (')' :: b.toList) = none := by
      rw [find, hno h.after]
      rfl
    rw [find_skip notMem_etParams.1, find_append notMem_etParams.2, hn, hb]
    rfl
  rcases Nat.lt_trichotomy i a.toList.length with hlt | heq | hgt
  · exact absurd hi (not_prefix_of_lt_find hfirst hlt)
  · exact heq
  · obtain ⟨j, rfl⟩ := Nat.exists_eq_add_of_lt hgt
    refine absurd ?_ (find_eq_none_iff.mp hrest)
    have hdrop : (trim line).toList.drop (a.toList.length + j + 1) =
        (etParams ++ (n.toList ++ ')' :: b.toList)).drop j := by
      rw [h.toList, Nat.add_assoc, ← List.drop_drop, List.drop_left, List.drop_succ_cons]
    rw [hdrop] at hi
    exact hi.isInfix.trans (List.drop_suffix _ _).isInfix

/-- Where a word that ends with the beginning of a call stands. -/
theorem Calls.place_of_find (h : Calls line a n b) {u : List Char} {i : ℕ}
    (hi : find (u ++ 'g' :: etParams) (trim line).toList = some i) :
    i + u.length = a.toList.length ∧ u <:+ a.toList := by
  have hpre := List.isPrefixOf_iff_prefix.mp (isPrefixOf_of_find hi)
  have hcall : 'g' :: etParams <+: (trim line).toList.drop (i + u.length) := by
    obtain ⟨y, hy⟩ := hpre
    rw [← List.drop_drop, ← hy, List.append_assoc, List.drop_left]
    exact List.prefix_append _ _
  have hplace := h.place_unique hcall
  refine ⟨hplace, ?_⟩
  have hle : i ≤ a.toList.length := hplace ▸ Nat.le_add_right _ _
  have hu : u <+: a.toList.drop i := by
    have hlong := (List.prefix_append u _).trans hpre
    rw [h.toList, List.drop_append_of_le_length hle] at hlong
    refine List.prefix_of_prefix_length_le hlong (List.prefix_append _ _) ?_
    rw [List.length_drop, ← hplace]
    omega
  rw [hu.eq_of_length (by rw [List.length_drop, ← hplace]; omega)]
  exact List.drop_suffix _ _

/-- The call is found behind a part of the text before it. -/
theorem Calls.find_of_suffix (h : Calls line a n b) {u : List Char} (hu : u <:+ a.toList) :
    ∃ i, find (u ++ 'g' :: etParams) (trim line).toList = some i := by
  refine Option.ne_none_iff_exists'.mp fun hnone => find_eq_none_iff.mp hnone ?_
  obtain ⟨x, hx⟩ := hu
  refine ⟨x, n.toList ++ ')' :: b.toList, ?_⟩
  rw [h.toList, ← hx]
  simp only [List.append_assoc, List.cons_append]

/-- The place of a word that ends with the beginning of a call. -/
theorem Calls.indexOf_call (h : Calls line a n b) {u w : String}
    (hw : w.toList = u.toList ++ 'g' :: etParams) :
    indexOf (trim line) w 0 = if endsWith a u then (a.toList.length : ℤ) - u.toList.length else -1 := by
  rw [indexOf, Int.toNat_zero, List.drop_zero, hw]
  cases hfind : find (u.toList ++ 'g' :: etParams) (trim line).toList with
  | none =>
    rw [if_neg]
    intro hu
    obtain ⟨i, hi⟩ := h.find_of_suffix (endsWith_iff.mp hu)
    rw [hfind] at hi
    cases hi
  | some i =>
    obtain ⟨hplace, hu⟩ := h.place_of_find hfind
    rw [if_pos (endsWith_iff.mpr hu)]
    dsimp only
    omega

/-- A word that begins with a bracket stands first at the end of the name. -/
theorem Calls.indexOf_eq_nameEnd (h : Calls line a n b) {w : String} {p : List Char}
    (hw : w.toList = ')' :: p) (hp : 'g' ∉ p) :
    indexOf (trim line) w 0 = nameEnd a n ↔ ¬ contains a w ∧ w.toList <+: ')' :: b.toList := by
  rw [indexOf, Int.toNat_zero, List.drop_zero, contains_iff, hw, h.find_bracket hp,
    ← find_eq_none_iff]
  cases hfind : find (')' :: p) a.toList with
  | some i =>
    have hi := find_lt hfind
    rw [nameEnd]
    dsimp only [Option.or]
    refine iff_of_false (fun heq => ?_) fun hnone => ?_
    · omega
    · cases hnone.1
  | none =>
    rw [Option.none_or, and_iff_right rfl, ← find_eq_zero_iff]
    cases hrest : find (')' :: p) (')' :: b.toList) with
    | none =>
      refine iff_of_false (fun heq => ?_) fun hnone => ?_
      · dsimp only [Option.map] at heq
        omega
      · cases hnone
    | some j =>
      rw [Option.some_inj]
      dsimp only [Option.map]
      omega

/-- A word that begins with a bracket does not stand on the line. -/
theorem Calls.indexOf_eq_neg (h : Calls line a n b) {w : String} {p : List Char}
    (hw : w.toList = ')' :: p) (hp : 'g' ∉ p) :
    indexOf (trim line) w 0 = -1 ↔ ¬ contains a w ∧ ¬ w.toList <:+: ')' :: b.toList := by
  rw [indexOf, Int.toNat_zero, List.drop_zero, contains_iff, hw, h.find_bracket hp,
    ← find_eq_none_iff, ← find_eq_none_iff]
  cases find (')' :: p) a.toList with
  | some i =>
    dsimp only [Option.or]
    refine iff_of_false (fun heq => ?_) fun hnone => ?_
    · omega
    · cases hnone.1
  | none =>
    rw [Option.none_or, and_iff_right rfl]
    cases find (')' :: p) (')' :: b.toList) with
    | none => exact iff_of_true rfl rfl
    | some j =>
      dsimp only [Option.map]
      refine iff_of_false (fun heq => ?_) fun hnone => ?_
      · omega
      · cases hnone

/-! ### The name that is cut out -/

/-- Cut from the call on, up to `first`, or to `second` where there is none, the name comes out. -/
def Ends (first second a b : String) : Prop :=
  (¬ contains a first ∧ first.toList <+: ')' :: b.toList) ∨
    ((¬ contains a first ∧ ¬ first.toList <:+: ')' :: b.toList) ∧
      ¬ contains a second ∧ second.toList <+: ')' :: b.toList)

/-- A word that begins with a bracket and has no `g`. -/
def Closing (w : String) : Prop := ∃ p, w.toList = ')' :: p ∧ 'g' ∉ p

/-- When the name is cut out between a beginning and an end. -/
theorem Calls.cut_eq_ok (h : Calls line a n b) {first second : String} (hfirst : Closing first)
    (hsecond : Closing second) :
    inBounds (slice (trim line) ((a.toList.length : ℤ) + 10)
      (if indexOf (trim line) first 0 = -1 then indexOf (trim line) second 0
        else indexOf (trim line) first 0)) = .ok n ↔ Ends first second a b := by
  obtain ⟨p, hp, hgp⟩ := hfirst
  obtain ⟨q, hq, hgq⟩ := hsecond
  have hcut {x : Option String} : inBounds x = .ok n ↔ x = some n := by
    cases x with
    | none => exact iff_of_false (fun h => by cases h) fun h => by cases h
    | some m => rw [inBounds, Except.ok.injEq, Option.some_inj]
  have hline : (trim line).toList =
      (a.toList ++ 'g' :: etParams) ++ (n.toList ++ ')' :: b.toList) := by
    rw [h.toList, List.append_assoc, List.cons_append]
  have hlen : (((a.toList ++ 'g' :: etParams).length : ℕ) : ℤ) = (a.toList.length : ℤ) + 10 := by
    rw [List.length_append]
    rfl
  have hend : ((a.toList ++ 'g' :: etParams ++ n.toList).length : ℤ) = nameEnd a n := by
    rw [List.length_append, Nat.cast_add, hlen, nameEnd]
    push_cast
    rfl
  rw [hcut, ← hlen]
  conv_lhs => rw [← String.ofList_toList (s := n)]
  rw [slice_eq_iff hline, hend, Ends, ← h.indexOf_eq_nameEnd hp hgp, ← h.indexOf_eq_neg hp hgp,
    ← h.indexOf_eq_nameEnd hq hgq]
  split
  · rename_i hneg
    rw [hneg]
    refine (or_iff_right ?_).symm.trans (or_congr_right (and_iff_right rfl).symm)
    omega
  · rename_i hneg
    exact (or_iff_left fun hand => hneg hand.1).symm

/-- When the line sets a value. -/
theorem Calls.isSetValue_iff (h : Calls line a n b) :
    isSetValue line = true ↔ endsWith a "setValue(" = true ∨ endsWith a "setValue(\"" = true := by
  have hle {u : String} (hu : endsWith a u = true) : u.toList.length ≤ a.toList.length :=
    (endsWith_iff.mp hu).length_le
  have hcontains {u w : String} (hw : w.toList = u.toList ++ 'g' :: etParams) :
      contains (trim line) w = true ↔ endsWith a u = true := by
    rw [contains, decide_eq_true_iff, h.indexOf_call hw]
    split
    · rename_i hu
      have := hle hu
      exact iff_of_true (by omega) hu
    · rename_i hu
      exact iff_of_false (fun hne => hne rfl) hu
  have hbare : "setValue(getParams(".toList = "setValue(".toList ++ 'g' :: etParams := by decide
  have hquoted : "setValue(\"getParams(".toList = "setValue(\"".toList ++ 'g' :: etParams := by
    decide
  rw [isSetValue, Bool.or_eq_true, hcontains hbare, hcontains hquoted]

/-- The end of the name, as a scan finds it that looks for `first` before `second`. -/
def endPlace (first second line : String) : ℤ :=
  if indexOf (trim line) first 0 = -1 then indexOf (trim line) second 0
  else indexOf (trim line) first 0

/-- What is cut out of a line that sets a value. -/
theorem Calls.setValueParam_eq (h : Calls line a n b) (hset : isSetValue line = true) :
    setValueParam line = inBounds (slice (trim line) ((a.toList.length : ℤ) + 10)
      (endPlace "))" ")\")" line)) := by
  have hbare := h.indexOf_call (u := "setValue(") (w := "setValue(getParams(") (by decide)
  have hquoted := h.indexOf_call (u := "setValue(\"") (w := "setValue(\"getParams(") (by decide)
  have hbegins : (if indexOf (trim line) "setValue(getParams(" 0 = -1
      then indexOf (trim line) "setValue(\"getParams(" 0 + 20
      else indexOf (trim line) "setValue(getParams(" 0 + 19) = (a.toList.length : ℤ) + 10 := by
    have hlen : "setValue(".toList.length = 9 ∧ "setValue(\"".toList.length = 10 := by decide
    by_cases hb : endsWith a "setValue(" = true
    · have hle := (endsWith_iff.mp hb).length_le
      rw [if_pos hb] at hbare
      rw [hbare, if_neg] <;> omega
    · have hq := (h.isSetValue_iff.mp hset).resolve_left hb
      rw [if_neg hb] at hbare
      rw [if_pos hq] at hquoted
      rw [hbare, hquoted, if_pos rfl]
      omega
  rw [setValueParam, hbegins, endPlace]

/-- What is cut out of a line that asserts. -/
theorem Calls.assertParam_eq (h : Calls line a n b) (first second : String) :
    assertParam first second line = inBounds (slice (trim line) ((a.toList.length : ℤ) + 10)
      (endPlace first second line)) := by
  have hcall := h.indexOf_call (u := "") (w := "getParams(") (by decide)
  have hends : endsWith a "" = true := endsWith_iff.mpr List.nil_suffix
  have hlen : "".toList.length = 0 := rfl
  rw [if_pos hends] at hcall
  rw [assertParam, hcall, hlen, if_neg (by omega), Nat.cast_zero, Int.sub_zero, endPlace]

/-! ### The words that end a name -/

/-- The ends of a line that sets a value. -/
theorem closing_set : Closing "))" ∧ Closing ")\")" :=
  ⟨⟨[')'], by decide, by decide⟩, ['"', ')'], by decide, by decide⟩

/-- The ends of a line that asserts. -/
theorem closing_assert : Closing ")," ∧ Closing ")\"," :=
  ⟨⟨[','], by decide, by decide⟩, ['"', ','], by decide, by decide⟩

/-- When the name is cut out of a line that sets a value. -/
theorem Calls.setValueParam_eq_ok (h : Calls line a n b) (hset : isSetValue line = true) :
    setValueParam line = .ok n ↔ Ends "))" ")\")" a b := by
  rw [h.setValueParam_eq hset, endPlace, h.cut_eq_ok closing_set.1 closing_set.2]

/-- When it is cut out of a line that asserts. -/
theorem Calls.assertParam_eq_ok (h : Calls line a n b) {first second : String}
    (hfirst : Closing first) (hsecond : Closing second) :
    assertParam first second line = .ok n ↔ Ends first second a b := by
  rw [h.assertParam_eq, endPlace, h.cut_eq_ok hfirst hsecond]

/-! ### The four scans -/

/-- A scan that looks for `first` before `second` takes `n` out of the line. -/
structure Taken (first second line n : String) : Prop where
  setValue : isSetValue line = true → setValueParam line = .ok n
  assertEquals : ¬ isSetValue line = true →
    isAssert line = true ∧ assertParam first second line = .ok n

/-- The line has a call. -/
theorem Calls.contains_call (h : Calls line a n b) : contains line "getParams(" = true := by
  refine contains_iff.mpr (List.IsInfix.trans ?_ (trim_isInfix line))
  rw [toList_getParams, h.toList]
  exact ⟨a.toList, n.toList ++ ')' :: b.toList, by simp only [List.append_assoc, List.cons_append]⟩

/-- When the line asserts. -/
theorem Calls.isAssert_iff (h : Calls line a n b) :
    isAssert line = true ↔ startsWith (trim line) "assertEquals" = true := by
  rw [isAssert, Bool.and_eq_true]
  exact and_iff_left h.contains_call

/-- The test of `GetParamInStep` for a line that compares. -/
theorem Calls.isAssertInStep (h : Calls line a n b) :
    (startsWith (trim line) "assertEquals" && contains (trim line) "getParams") = isAssert line := by
  rw [Bool.eq_iff_iff, h.isAssert_iff, Bool.and_eq_true]
  refine and_iff_left (contains_iff.mpr ?_)
  have hword : 'g' :: etParams = "getParams".toList ++ ['('] := by decide
  refine ⟨a.toList, '(' :: (n.toList ++ ')' :: b.toList), ?_⟩
  rw [h.toList]
  change _ = a.toList ++ (('g' :: etParams) ++ _)
  rw [hword]
  simp only [List.append_assoc, List.cons_append, List.nil_append]

/-- Sets of one element tell it. -/
theorem add_empty_inj {m n : String} (h : HashSet.empty.add m = HashSet.empty.add n) : m = n := by
  have helems := congrArg HashSet.elems h
  cases helems
  rfl

/-- A state in which filling in the parameter `n` is seen. -/
def watching (n : String) : AlignState := ⟨(∅ : Row).insert n "x", "", "", "", true⟩

/-- Filling the parameter in is seen. -/
theorem fillLine_watching (line n : String) : ((watching n).fillLine line n).dataPathTmp ≠ "" := by
  rw [AlignState.fillLine, watching, AList.lookup_insert]
  intro hnil
  have hlist := congrArg String.toList hnil
  change (addDataPath "" n "x").toList = [] at hlist
  rw [addDataPath] at hlist
  split at hlist
  · rename_i hend
    exact absurd hend (by decide)
  · split at hlist
    · rw [String.empty_append, String.toList_append] at hlist
      exact absurd hlist (by simp)
    · rename_i hnot
      refine hnot ⟨fun hpart => ?_, fun hsuffix => ?_⟩
      · have := List.infix_nil.mp (contains_iff.mp hpart)
        simp at this
      · have := List.suffix_nil.mp (endsWith_iff.mp hsuffix)
        simp at this

/-- Filling another in is not. -/
theorem fillLine_watching_other {line m n : String} (hmn : m ≠ n) :
    ((watching n).fillLine line m).dataPathTmp = "" := by
  have hnone : (watching n).stepVar.lookup m = none := by
    rw [watching, AList.lookup_insert_ne hmn]
    rfl
  rw [AlignState.fillLine, hnone]
  rfl

/-- Filling in does not end a step. -/
theorem flag_fillLine (s : AlignState) (line var : String) : (s.fillLine line var).flag = s.flag := by
  rw [AlignState.fillLine]
  cases s.stepVar.lookup var with
  | none => rfl
  | some value => rfl

/-- What the scan of a text takes is cut out. -/
theorem taken_of_inContent {line n : String}
    (h : contentParamLine .empty line = .ok (HashSet.empty.add n)) :
    Taken ")," ")\"," line n := by
  rw [contentParamLine] at h
  refine ⟨fun hset => ?_, fun hset => ?_⟩
  · rw [if_pos hset] at h
    obtain ⟨m, hm, hpure⟩ := bind_eq_ok.mp h
    rw [hm, add_empty_inj (Except.ok.inj hpure)]
  · rw [if_neg hset] at h
    split at h
    · rename_i hassert
      obtain ⟨m, hm, hpure⟩ := bind_eq_ok.mp h
      rw [hm, add_empty_inj (Except.ok.inj hpure)]
      exact ⟨hassert, rfl⟩
    · cases h

/-- What is filled in is cut out. -/
theorem taken_of_align {line n : String} (hstart : ¬ isStepStart line) (hend : ¬ isStepEnd line)
    (h : alignLine ∅ 0 (watching n) line = .ok ((watching n).fillLine line n)) :
    Taken ")\"," ")," line n := by
  have hsame {m : String} (h : (watching n).fillLine line m = (watching n).fillLine line n) : m = n := by
    by_contra hmn
    have hpath := fillLine_watching line n
    rw [← h] at hpath
    exact hpath (fillLine_watching_other hmn)
  have hflag {x : Bool} : (x && (watching n).flag) = x := Bool.and_true x
  rw [alignLine, if_neg hstart, if_neg hend, hflag, hflag] at h
  refine ⟨fun hset => ?_, fun hset => ?_⟩
  · rw [if_pos hset] at h
    obtain ⟨m, hm, hpure⟩ := bind_eq_ok.mp h
    rw [hm, hsame (Except.ok.inj hpure)]
  · rw [if_neg hset] at h
    split at h
    · rename_i hassert
      obtain ⟨m, hm, hpure⟩ := bind_eq_ok.mp h
      rw [hm, hsame (Except.ok.inj hpure)]
      exact ⟨hassert, rfl⟩
    · have hpath := fillLine_watching line n
      rw [← Except.ok.inj h] at hpath
      exact absurd rfl hpath

/-- A line whose parameter is scanned starts no step. -/
theorem not_isStepStart_of_inStep {line n : String}
    (h : stepParamLine ((∅ : HashMap String (HashSet String)).insert "" .empty, "") line =
      .ok (((∅ : HashMap String (HashSet String)).insert "" .empty).insert "" (HashSet.empty.add n), "")) :
    ¬ isStepStart line := by
  intro hstart
  rw [stepParamLine, if_pos hstart] at h
  obtain ⟨name, -, hpure⟩ := bind_eq_ok.mp h
  obtain ⟨hmap, rfl⟩ := Prod.mk.inj (Except.ok.inj hpure)
  have hlookup := congrArg (AList.lookup "") hmap
  rw [AList.lookup_insert, AList.lookup_insert] at hlookup
  cases hlookup

/-- A line whose parameter is filled in ends none. -/
theorem not_isStepEnd_of_align {line n : String} (hstart : ¬ isStepStart line)
    (h : alignLine ∅ 0 (watching n) line = .ok ((watching n).fillLine line n)) :
    ¬ isStepEnd line := by
  intro hend
  rw [alignLine, if_neg hstart, if_pos hend] at h
  have hflag := congrArg AlignState.flag (Except.ok.inj h)
  rw [flag_fillLine] at hflag
  exact Bool.false_ne_true hflag

/-- The scans take the name out of the line exactly when it starts and ends no step and both orders
of looking for the end of the name find it. -/
theorem Calls.extracted_iff_taken (h : Calls line a n b) : Extracted line n ↔
    ¬ isStepStart line ∧ ¬ isStepEnd line ∧ Taken ")," ")\"," line n ∧ Taken ")\"," ")," line n := by
  constructor
  · intro hex
    have hstart := not_isStepStart_of_inStep (hex.inStep _ "" .empty (AList.lookup_insert _))
    have halign := hex.align ∅ 0 (watching n) rfl
    exact ⟨hstart, not_isStepEnd_of_align hstart halign, taken_of_inContent (hex.inContent .empty),
      taken_of_align hstart (not_isStepEnd_of_align hstart halign) halign⟩
  · rintro ⟨hstart, hend, hcollect, hfill⟩
    by_cases hset : isSetValue line = true
    · have hcollect := hcollect.setValue hset
      refine ⟨fun stepVarMap name vars hlookup => ?_, fun paramSet => ?_,
        fun stepsVarMap i s hflag => ?_, fun row value s hvalue => ?_⟩
      · rw [stepParamLine, if_neg hstart, if_pos hset, hcollect, ok_bind, hlookup]
        rfl
      · rw [contentParamLine, if_pos hset, hcollect]
        rfl
      · rw [alignLine, if_neg hstart, if_neg hend, hset, hflag, Bool.true_and, if_pos rfl, hcollect]
        rfl
      · rw [convertLine, if_pos hset, hcollect, ok_bind, Prog.nonNull, ok_bind, hvalue]
        exact ⟨_, rfl⟩
    · obtain ⟨hassert, hcollect⟩ := hcollect.assertEquals hset
      have hfill := (hfill.assertEquals hset).2
      refine ⟨fun stepVarMap name vars hlookup => ?_, fun paramSet => ?_,
        fun stepsVarMap i s hflag => ?_, fun row value s hvalue => ?_⟩
      · rw [stepParamLine, if_neg hstart, if_neg hset, h.isAssertInStep, if_pos hassert, hcollect,
          ok_bind, hlookup]
        rfl
      · rw [contentParamLine, if_neg hset, if_pos hassert, hcollect]
        rfl
      · rw [alignLine, if_neg hstart, if_neg hend, hflag, Bool.and_true, if_neg hset, Bool.and_true,
          if_pos hassert, hfill]
        rfl
      · rw [convertLine, if_neg hset, if_pos hassert, hcollect, ok_bind, Prog.nonNull, ok_bind,
          hvalue]
        exact ⟨_, rfl⟩

/-! ### The forms of a line -/

/-- Two words that a text starts with are comparable. -/
theorem not_startsWith {s u v : String} (hu : startsWith s u = true)
    (huv : ¬ (u.toList <+: v.toList ∨ v.toList <+: u.toList)) : ¬ startsWith s v = true :=
  fun hv => huv (List.prefix_or_prefix_of_prefix (startsWith_iff.mp hu) (startsWith_iff.mp hv))

theorem isPrefix_bracket {w u : String} (hw : w.toList = ')' :: u.toList) :
    w.toList <+: ')' :: b.toList ↔ startsWith b u = true := by
  rw [hw, List.cons_prefix_cons, startsWith_iff]
  exact and_iff_right rfl

/-- The name comes out when what follows it is what is looked for, and is not found elsewhere. -/
theorem ends_first {first second u v : String} (hfirst : first.toList = ')' :: u.toList)
    (hsecond : second.toList = ')' :: v.toList) (hu : startsWith b u = true)
    (huv : ¬ (u.toList <+: v.toList ∨ v.toList <+: u.toList)) :
    Ends first second a b ↔ ¬ contains a first := by
  rw [Ends, isPrefix_bracket hfirst, isPrefix_bracket hsecond, and_iff_left hu]
  exact or_iff_left fun h => not_startsWith hu huv h.2.2

theorem ends_second {first second u v : String} (hfirst : first.toList = ')' :: u.toList)
    (hsecond : second.toList = ')' :: v.toList) (hv : startsWith b v = true)
    (huv : ¬ (v.toList <+: u.toList ∨ u.toList <+: v.toList)) :
    Ends first second a b ↔ ¬ contains a first ∧ ¬ contains b first ∧ ¬ contains a second := by
  have hu := not_startsWith hv huv
  have hpart : first.toList <:+: ')' :: b.toList ↔ contains b first = true := by
    rw [List.infix_cons_iff, isPrefix_bracket hfirst, contains_iff]
    exact or_iff_right hu
  rw [Ends, isPrefix_bracket hfirst, isPrefix_bracket hsecond, and_iff_left hv, hpart,
    or_iff_right fun h => hu h.2, and_assoc]

theorem ends_none {first second u v w : String} (hfirst : first.toList = ')' :: u.toList)
    (hsecond : second.toList = ')' :: v.toList) (hw : startsWith b w = true)
    (hwu : ¬ (w.toList <+: u.toList ∨ u.toList <+: w.toList))
    (hwv : ¬ (w.toList <+: v.toList ∨ v.toList <+: w.toList)) : ¬ Ends first second a b := by
  rw [Ends, isPrefix_bracket hfirst, isPrefix_bracket hsecond]
  rintro (h | h)
  · exact not_startsWith hw hwu h.2
  · exact not_startsWith hw hwv h.2.2

/-- When a name is cut out of a line that sets a value. -/
theorem taken_iff_of_set {first second line n : String} (hset : isSetValue line = true) :
    Taken first second line n ↔ setValueParam line = .ok n :=
  ⟨fun h => h.setValue hset, fun h => ⟨fun _ => h, fun hnot => absurd hset hnot⟩⟩

/-- When a name is cut out of a line that asserts. -/
theorem taken_iff_of_assert {first second line n : String} (hset : ¬ isSetValue line = true)
    (hassert : isAssert line = true) :
    Taken first second line n ↔ assertParam first second line = .ok n :=
  ⟨fun h => (h.assertEquals hset).2, fun h => ⟨fun h => absurd h hset, fun _ => ⟨hassert, h⟩⟩⟩

/-- A line that sets a field to the parameter. -/
theorem Calls.extracted_iff_set (h : Calls line a n b) (hset : isSetValue line = true) :
    Extracted line n ↔ ¬ isStepStart line ∧ ¬ isStepEnd line ∧ Ends "))" ")\")" a b := by
  rw [h.extracted_iff_taken, taken_iff_of_set hset, taken_iff_of_set hset, and_self,
    h.setValueParam_eq_ok hset]

/-- A line that compares with the parameter. -/
theorem Calls.extracted_iff_assert (h : Calls line a n b)
    (hassert : startsWith (trim line) "assertEquals" = true) (hset : ¬ isSetValue line = true) :
    Extracted line n ↔ Ends ")," ")\"," a b ∧ Ends ")\"," ")," a b := by
  have hstart : ¬ isStepStart line = true := not_startsWith hassert (by decide)
  have hend : ¬ isStepEnd line = true := not_startsWith hassert (by decide)
  obtain ⟨hbare, hquoted⟩ := closing_assert
  rw [h.extracted_iff_taken, and_iff_right hstart, and_iff_right hend,
    taken_iff_of_assert hset (h.isAssert_iff.mpr hassert),
    taken_iff_of_assert hset (h.isAssert_iff.mpr hassert), h.assertParam_eq_ok hbare hquoted,
    h.assertParam_eq_ok hquoted hbare]

/-- A line that compares, but is taken for one that sets a field. -/
theorem Calls.not_extracted_of_set (h : Calls line a n b) (hset : isSetValue line = true) {w : String}
    (hw : startsWith b w = true) (hbare : ¬ (w.toList <+: ")".toList ∨ ")".toList <+: w.toList))
    (hquoted : ¬ (w.toList <+: "\")".toList ∨ "\")".toList <+: w.toList)) : ¬ Extracted line n := by
  rw [h.extracted_iff_set hset]
  exact fun hex => ends_none (u := ")") (v := "\")") (by decide) (by decide) hw hbare hquoted hex.2.2

/-- **When all four scans take the name out of the line.** -/
theorem extracted_iff (line a n b : String) (form : Form) (h : Calls line a n b)
    (hform : form.Is line a b) : Extracted line n ↔ form.Clear line a b := by
  cases form with
  | setValue =>
    have hset := h.isSetValue_iff.mpr (.inl hform.1)
    rw [h.extracted_iff_set hset, Form.Clear,
      ends_first (u := ")") (v := "\")") (by decide) (by decide) hform.2 (by decide)]
  | setValueQuoted =>
    have hset := h.isSetValue_iff.mpr (.inr hform.1)
    rw [h.extracted_iff_set hset, Form.Clear,
      ends_second (u := ")") (v := "\")") (by decide) (by decide) hform.2 (by decide)]
  | assertEquals =>
    rw [Form.Clear, ← and_assoc, ← not_or, ← h.isSetValue_iff]
    by_cases hset : isSetValue line = true
    · refine iff_of_false ?_ fun hclear => hclear.1 hset
      exact h.not_extracted_of_set hset hform.2 (by decide) (by decide)
    · rw [and_iff_right hset, h.extracted_iff_assert hform.1 hset,
        ends_first (u := ",") (v := "\",") (by decide) (by decide) hform.2 (by decide),
        ends_second (u := "\",") (v := ",") (by decide) (by decide) hform.2 (by decide)]
      constructor
      · rintro ⟨hfirst, hbefore, hafter, -⟩
        exact ⟨hfirst, hbefore, hafter⟩
      · rintro ⟨hfirst, hbefore, hafter⟩
        exact ⟨hfirst, hbefore, hafter, hfirst⟩
  | assertEqualsQuoted =>
    rw [Form.Clear, ← and_assoc, ← not_or, ← h.isSetValue_iff]
    by_cases hset : isSetValue line = true
    · refine iff_of_false ?_ fun hclear => hclear.1 hset
      exact h.not_extracted_of_set hset hform.2 (by decide) (by decide)
    · rw [and_iff_right hset, h.extracted_iff_assert hform.1 hset,
        ends_second (u := ",") (v := "\",") (by decide) (by decide) hform.2 (by decide),
        ends_first (u := "\",") (v := ",") (by decide) (by decide) hform.2 (by decide)]
      constructor
      · rintro ⟨⟨hbefore, hafter, hfirst⟩, -⟩
        exact ⟨hbefore, hafter, hfirst⟩
      · rintro ⟨hbefore, hafter, hfirst⟩
        exact ⟨⟨hbefore, hafter, hfirst⟩, hfirst⟩

end Calls

theorem extracted_iff_quoted :
    Extracted "  m.getUin().setValue(\"getParams(uin)\");" "uin" ↔
      Form.setValueQuoted.Clear "  m.getUin().setValue(\"getParams(uin)\");"
        "m.getUin().setValue(\"" "\");" :=
  extracted_iff _ _ _ _ .setValueQuoted
    ⟨by decide +kernel, by decide +kernel, by decide +kernel, by decide⟩
    ⟨by decide +kernel, by decide +kernel⟩

/-- From a line with another closing bracket before the call nothing is cut out: the end that is
found lies before the beginning. -/
theorem not_extracted_nested :
    Calls "m.getList(x.get(0)).setValue(getParams(uin));" "m.getList(x.get(0)).setValue(" "uin" ");" ∧
      Form.setValue.Is "m.getList(x.get(0)).setValue(getParams(uin));"
        "m.getList(x.get(0)).setValue(" ");" ∧
      ¬ Extracted "m.getList(x.get(0)).setValue(getParams(uin));" "uin" := by
  have hset : isSetValue "m.getList(x.get(0)).setValue(getParams(uin));" = true := by decide +kernel
  have hthrows : setValueParam "m.getList(x.get(0)).setValue(getParams(uin));" =
      .error .indexOutOfBounds := by decide +kernel
  refine ⟨⟨by decide +kernel, by decide +kernel, by decide +kernel, by decide⟩,
    ⟨by decide +kernel, by decide +kernel⟩, fun hex => ?_⟩
  generalize "m.getList(x.get(0)).setValue(getParams(uin));" = line at hset hthrows hex
  have hcontent := hex.inContent .empty
  rw [contentParamLine, if_pos hset, hthrows] at hcontent
  cases hcontent

/-! ### Well-formed lines -/

/-- The bracket that is open where the call stands. -/
def Form.opening : Form → String
  | .setValue | .setValueQuoted => "setValue("
  | .assertEquals | .assertEqualsQuoted => "assertEquals("

/-- The line has the form, and no other bracket and no comma before the call. -/
structure WellFormed (line a n b : String) (form : Form) : Prop where
  calls : Calls line a n b
  is_form : form.Is line a b
  plain : ∃ u v, a = u ++ (form.opening ++ v) ∧ ∀ c ∈ u.toList ++ v.toList, c ∉ ['(', ')', ',']

/-- What the scan that fills in the rows of the scenario looks for first stands nowhere behind the
call. -/
def Form.Whole (b : String) : Form → Prop
  | .setValue | .assertEquals => True
  | .setValueQuoted => ¬ contains b "))"
  | .assertEqualsQuoted => ¬ contains b "),"

section WellFormed

variable {line a n b : String} {form : Form}

/-- Before the call there is no closing bracket. -/
theorem WellFormed.bracket (h : WellFormed line a n b form) : ')' ∉ a.toList := by
  obtain ⟨u, v, rfl, hplain⟩ := h.plain
  intro hmem
  simp only [String.toList_append, List.mem_append] at hmem
  rcases hmem with hmem | hmem | hmem
  · exact hplain _ (List.mem_append_left _ hmem) (by decide)
  · cases form <;> exact absurd hmem (by decide)
  · exact hplain _ (List.mem_append_right _ hmem) (by decide)

/-- A line that compares sets no field. -/
theorem WellFormed.not_isSetValue (h : WellFormed line a n b form)
    (hform : form.opening = "assertEquals(") : ¬ isSetValue line = true := by
  rw [h.calls.isSetValue_iff, endsWith_iff, endsWith_iff]
  obtain ⟨u, v, rfl, hplain⟩ := h.plain
  have hcut {z : List Char}
      (hsuffix : "setValue".toList ++ '(' :: z <:+ (u ++ (form.opening ++ v)).toList) : False := by
    obtain ⟨x, hx⟩ := hsuffix
    have hopen : "assertEquals(".toList = "assertEquals".toList ++ ['('] := by decide
    have hone (c : Char) (hc : c ∈ u.toList ++ v.toList) : c ≠ '(' := by
      rintro rfl
      exact hplain _ hc List.mem_cons_self
    have hu : '(' ∉ u.toList ++ "assertEquals".toList := by
      rw [List.mem_append, not_or]
      exact ⟨fun hmem => hone _ (List.mem_append_left _ hmem) rfl, by decide⟩
    have hv : '(' ∉ v.toList := fun hmem => hone _ (List.mem_append_right _ hmem) rfl
    have hsplit : (u.toList ++ "assertEquals".toList) ++ '(' :: v.toList =
        (x ++ "setValue".toList) ++ '(' :: z := by
      rw [List.append_assoc x, hx, hform, String.toList_append, String.toList_append, hopen]
      simp only [List.append_assoc, List.cons_append, List.nil_append]
    -- the bracket is the only one
    have hwords := ((List.append_cons_inj_of_notMem hu hv).mp hsplit).1
    have hset : "setValue".toList <:+ u.toList ++ "assertEquals".toList :=
      hwords ▸ List.suffix_append _ _
    exact absurd (List.suffix_or_suffix_of_suffix hset (List.suffix_append _ _)) (by decide)
  have hbare : "setValue(".toList = "setValue".toList ++ ['('] := by decide
  have hquoted : "setValue(\"".toList = "setValue".toList ++ ['(', '"'] := by decide
  rintro (hsuffix | hsuffix)
  · exact hcut (hbare ▸ hsuffix)
  · exact hcut (hquoted ▸ hsuffix)

/-- A cut that ends where a word with a bracket begins gives the name, or more than it. -/
theorem Calls.exists_cut (h : Calls line a n b) (ha : ')' ∉ a.toList) {first second : String}
    (hfirst : Closing first) (hsecond : Closing second)
    (hfound : first.toList <:+: ')' :: b.toList ∨ second.toList <:+: ')' :: b.toList) :
    ∃ m, inBounds (slice (trim line) ((a.toList.length : ℤ) + 10)
      (if indexOf (trim line) first 0 = -1 then indexOf (trim line) second 0
        else indexOf (trim line) first 0)) = .ok m ∧ (m = n ∨ ')' ∈ m.toList) := by
  -- where a word is found, and what is cut out up to it
  have hplace {w : String} (hw : Closing w) (hne : indexOf (trim line) w 0 ≠ -1) :
      ∃ m, inBounds (slice (trim line) ((a.toList.length : ℤ) + 10) (indexOf (trim line) w 0)) =
        .ok m ∧ (m = n ∨ ')' ∈ m.toList) := by
    obtain ⟨p, hp, hg⟩ := hw
    have hnone : find (')' :: p) a.toList = none :=
      find_eq_none_iff.mpr fun hpart => ha (hpart.subset List.mem_cons_self)
    have hindex : indexOf (trim line) w 0 = (find (')' :: p) (')' :: b.toList)).elim (-1)
        fun j => ((j + nameEnd a n : ℕ) : ℤ) := by
      rw [indexOf, Int.toNat_zero, List.drop_zero, hp, h.find_bracket hg, hnone, Option.none_or]
      cases find (')' :: p) (')' :: b.toList) with
      | none => rfl
      | some j => exact Int.zero_add _
    cases hfind : find (')' :: p) (')' :: b.toList) with
    | none =>
      rw [hfind] at hindex
      exact absurd hindex hne
    | some j =>
      rw [hfind] at hindex
      have hj : j ≤ (')' :: b.toList).length := Nat.le_of_lt (find_lt hfind)
      have hline : (trim line).toList = (a.toList ++ 'g' :: etParams) ++
          ((n.toList ++ (')' :: b.toList).take j) ++ (')' :: b.toList).drop j) := by
        rw [h.toList, List.append_assoc n.toList, List.take_append_drop, List.append_assoc,
          List.cons_append]
      have hlen : ((a.toList ++ 'g' :: etParams).length : ℤ) = (a.toList.length : ℤ) + 10 := by
        rw [List.length_append]
        rfl
      have hend : indexOf (trim line) w 0 = ((a.toList ++ 'g' :: etParams) ++
          (n.toList ++ (')' :: b.toList).take j)).length := by
        simp only [hindex, List.length_append, List.length_take_of_le hj, nameEnd]
        change ((_ : ℕ) : ℤ) = ((a.toList.length + 10 + (n.toList.length + j) : ℕ) : ℤ)
        omega
      refine ⟨String.ofList (n.toList ++ (')' :: b.toList).take j), ?_, ?_⟩
      · rw [← hlen, (slice_eq_iff hline).mpr hend, inBounds]
      · cases j with
        | zero =>
          rw [List.take_zero, List.append_nil, String.ofList_toList]
          exact .inl rfl
        | succ j =>
          rw [List.take_succ_cons, String.toList_ofList]
          exact .inr (List.mem_append_right _ List.mem_cons_self)
  have hneg {w : String} (hw : Closing w) (hfound : w.toList <:+: ')' :: b.toList) :
      indexOf (trim line) w 0 ≠ -1 := by
    obtain ⟨p, hp, hg⟩ := hw
    intro hnone
    exact ((h.indexOf_eq_neg hp hg).mp hnone).2 hfound
  split
  · rename_i hnone
    exact hplace hsecond (hneg hsecond (hfound.resolve_left fun hf => hneg hfirst hf hnone))
  · rename_i hne
    exact hplace hfirst hne

/-- The scans that put the rows of the scenario in cut out the name, or a text with a bracket. -/
theorem WellFormed.exists_taken (h : WellFormed line a n b form) : ∃ m,
    Taken ")," ")\"," line m ∧ (m = n ∨ ')' ∈ m.toList) := by
  have hset (hset : isSetValue line = true)
      (hfound : "))".toList <:+: ')' :: b.toList ∨ ")\")".toList <:+: ')' :: b.toList) : ∃ m,
        Taken ")," ")\"," line m ∧ (m = n ∨ ')' ∈ m.toList) := by
    obtain ⟨m, hm, hname⟩ := h.calls.exists_cut h.bracket closing_set.1 closing_set.2 hfound
    refine ⟨m, (taken_iff_of_set hset).mpr ?_, hname⟩
    rw [h.calls.setValueParam_eq hset]
    exact hm
  have hassert (hset : ¬ isSetValue line = true) (hassert : startsWith (trim line) "assertEquals" = true)
      (hfound : "),".toList <:+: ')' :: b.toList ∨ ")\",".toList <:+: ')' :: b.toList) : ∃ m,
        Taken ")," ")\"," line m ∧ (m = n ∨ ')' ∈ m.toList) := by
    obtain ⟨m, hm, hname⟩ := h.calls.exists_cut h.bracket closing_assert.1 closing_assert.2 hfound
    refine ⟨m, (taken_iff_of_assert hset (h.calls.isAssert_iff.mpr hassert)).mpr ?_, hname⟩
    rw [h.calls.assertParam_eq]
    exact hm
  have hfound {w u : String} (hw : w.toList = ')' :: u.toList) (hu : startsWith b u = true) :
      w.toList <:+: ')' :: b.toList := ((isPrefix_bracket hw).mpr hu).isInfix
  have hform := h.is_form
  cases form with
  | setValue =>
    exact hset (h.calls.isSetValue_iff.mpr (.inl hform.1))
      (.inl (hfound (u := ")") (by decide) hform.2))
  | setValueQuoted =>
    exact hset (h.calls.isSetValue_iff.mpr (.inr hform.1))
      (.inr (hfound (u := "\")") (by decide) hform.2))
  | assertEquals =>
    exact hassert (h.not_isSetValue rfl) hform.1 (.inl (hfound (u := ",") (by decide) hform.2))
  | assertEqualsQuoted =>
    exact hassert (h.not_isSetValue rfl) hform.1 (.inr (hfound (u := "\",") (by decide) hform.2))

/-- The name itself is cut out exactly when the end that is looked for first stands nowhere behind
the call. -/
theorem WellFormed.taken_iff (h : WellFormed line a n b form) :
    Taken ")," ")\"," line n ↔ form.Whole b := by
  have ha {w : String} (hw : Closing w) : ¬ contains a w := by
    obtain ⟨p, hp, -⟩ := hw
    rw [contains_iff, hp]
    exact fun hpart => h.bracket (hpart.subset List.mem_cons_self)
  have hform := h.is_form
  cases form with
  | setValue =>
    have hset := h.calls.isSetValue_iff.mpr (.inl hform.1)
    rw [taken_iff_of_set hset, h.calls.setValueParam_eq_ok hset,
      ends_first (u := ")") (v := "\")") (by decide) (by decide) hform.2 (by decide)]
    exact iff_of_true (ha closing_set.1) trivial
  | setValueQuoted =>
    have hset := h.calls.isSetValue_iff.mpr (.inr hform.1)
    rw [taken_iff_of_set hset, h.calls.setValueParam_eq_ok hset,
      ends_second (u := ")") (v := "\")") (by decide) (by decide) hform.2 (by decide),
      and_iff_right (ha closing_set.1), and_iff_left (ha closing_set.2), Form.Whole]
  | assertEquals =>
    rw [taken_iff_of_assert (h.not_isSetValue rfl) (h.calls.isAssert_iff.mpr hform.1),
      h.calls.assertParam_eq_ok closing_assert.1 closing_assert.2,
      ends_first (u := ",") (v := "\",") (by decide) (by decide) hform.2 (by decide)]
    exact iff_of_true (ha closing_assert.1) trivial
  | assertEqualsQuoted =>
    rw [taken_iff_of_assert (h.not_isSetValue rfl) (h.calls.isAssert_iff.mpr hform.1),
      h.calls.assertParam_eq_ok closing_assert.1 closing_assert.2,
      ends_second (u := ",") (v := "\",") (by decide) (by decide) hform.2 (by decide),
      and_iff_right (ha closing_assert.1), and_iff_left (ha closing_assert.2), Form.Whole]

end WellFormed

end MQTestView

end MBT
