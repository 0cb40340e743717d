import MBT.Support.Latch
import MBT.Support.Place

/-!
# Generate — MGenMbt

The MBT source that is generated from the user's: line by line, with the names of the classes
replaced, the steps numbered, the single quotes of the annotations made double ones and the
parameters made marks.

* `genLines_eq_iff`: the lines that come out are the intended ones exactly when none throws and the
  flags say of each line with a quote whether it is annotated.
* `rewrites_iff`: which sources have the quotes of their annotations rewritten, and no others.
-/

namespace MBT.MGenMbt
open Exec Text Pattern

/-! ### The lines -/

/-- The names of the classes, and the engine for those that are no plain texts. -/
structure Classes where
  userMbtClass : String
  userActionClass : String
  sysMbtClass : String
  sysActionClass : String
  engine : String → String → String → Except Exn String

/-- What the loop remembers between two lines. -/
structure State where
  stepIdx : ℕ
  isScenario : Bool
  isTestStep : Bool

/-- The state before the first line. -/
def State.init : State := ⟨1, false, false⟩

/-- The first part of a turn: at most one branch is taken. -/
def track (n : Classes) (st : State) (line : String) : Except Exn (String × State) :=
  if contains line ("public class " ++ n.userMbtClass) then do
    let line ← replaceFirst n.engine line ("public class " ++ n.userMbtClass)
      ("public class " ++ n.sysMbtClass)
    return (line, st)
  else if contains line n.userActionClass then do
    let line ← replaceAll n.engine line n.userActionClass n.sysActionClass
    return (line, st)
  else if startsWith (trim line) "@MTestStep" then
    .ok ("    @MStepNumber(value = " ++ st.stepIdx.repr ++ ")\n" ++ line,
      { st with stepIdx := st.stepIdx + 1, isTestStep := true })
  else if contains line "@MScenario" then .ok (line, { st with isScenario := true })
  else if contains line "public" then .ok (line, { st with isScenario := false, isTestStep := false })
  else .ok (line, st)

/-- Inside an annotation single quotes become escaped double quotes. -/
def rewrite (annotated : Bool) (line : String) : String :=
  if annotated then replace line "'" "\\\"" else line

/-! ### The parameters -/

/-- The characters that `.` does not match. -/
def isTerminator (c : Char) : Bool :=
  c = '\n' || c = '\r' || c = '\u0085' || c = '\u2028' || c = '\u2029'

/-- The length of the match of `word.get\(.*?\)` at the start of a text. -/
def matchLength (word s : List Char) : Option ℕ :=
  if word.isPrefixOf s then
    match s.drop word.length with
    | [] => none
    | c :: r =>
      if isTerminator c then none
      else if ['g', 'e', 't', '('].isPrefixOf r then
        match (r.drop 4).dropWhile fun c => c ≠ ')' && !isTerminator c with
        | ')' :: r' => some (s.length - r'.length)
        | _ => none
      else none
  else none

/-- The groups that `find` comes upon, from left to right; `skip` characters of a match are still to
be left out. -/
def groups (word : List Char) : ℕ → List Char → List (List Char)
  | _, [] => []
  | 0, c :: s =>
    match matchLength word (c :: s) with
    | some k => (c :: s).take k :: groups word (k - 1) s
    | none => groups word 0 s
  | skip + 1, _ :: s => groups word skip s

/-- A turn of the loop over the matches. -/
def replaceGroup (word mark line : String) (paramInfo : List Char) : Except Exn String := do
  let varName ← inBounds (slice (String.ofList paramInfo) 15 (paramInfo.length - 2))
  return replace line (word ++ ".get(\"" ++ varName ++ "\")")
    ("\"\x7b" ++ mark ++ "(" ++ varName ++ ")\x7d\"")

/-- Replaces each call on a parameter by the mark that the name in it gets. -/
def replaceParam (word mark line : String) : Except Exn String :=
  (groups word.toList 0 line.toList).foldlM (replaceGroup word mark) line

/-- Replaces the calls on both parameters of a line. -/
def replaceParams (line : String) : Except Exn String := do
  let line ← replaceParam "scenParam" "MBT_SCEN_PARAM" line
  replaceParam "stepParam" "MBT_STEP_PARAM" line

example : replaceParams "run(scenParam.get(\"user\"), stepParam.get(\"no\"));" =
    .ok "run(\"\x7bMBT_SCEN_PARAM(user)\x7d\", \"\x7bMBT_STEP_PARAM(no)\x7d\");" := by
  decide +kernel

/-- `genMbt` between the reading and the writing. -/
def genLines (n : Classes) : State → List String → Except Exn (List String)
  | _, [] => .ok []
  | st, line :: userMbtLines => do
    let (line, st) ← track n st line
    let line ← replaceParams (rewrite (st.isScenario || st.isTestStep) line)
    let sysMbtLines ← genLines n st userMbtLines
    return line :: sysMbtLines

/-- The source that is generated from the user's. -/
def genMbt (n : Classes) (userMbtLines : List String) : Except Exn String := do
  let sysMbtLines ← genLines n State.init userMbtLines
  return String.join (sysMbtLines.map (· ++ "\n"))

/-! ### Annotations -/

/-- A line of the user's source, and whether it belongs to an annotation. -/
structure Line where
  text : String
  annotated : Bool

/-- The text of an annotation of a step or a scenario begins here. -/
def startsAnnotation (line : String) : Bool :=
  startsWith (trim line) "@MTestStep" || startsWith (trim line) "@MScenario"

/-- A source in which each annotation starts on a line that begins with it and ends before the line
that begins with `public`. -/
structure UserMbt where
  lines : List Line
  starts : (⟨"", false⟩ :: lines).IsChain fun before line =>
    line.annotated = true → before.annotated = false → startsAnnotation line.text = true
  ends : ∀ line ∈ lines, line.annotated = true → startsWith (trim line.text) "public" = false

/-- The lines with the quotes of the annotations rewritten, and no others. -/
def intended (n : Classes) : State → List Line → Except Exn (List String)
  | _, [] => .ok []
  | st, l :: lines => do
    let (line, st) ← track n st l.text
    let line ← replaceParams (rewrite l.annotated line)
    let sysMbtLines ← intended n st lines
    return line :: sysMbtLines

/-- The single quotes of the annotations are rewritten, and no others. -/
def UserMbt.Rewrites (n : Classes) (src : UserMbt) : Prop := ∃ sysMbtLines,
  genLines n State.init (src.lines.map (·.text)) = .ok sysMbtLines ∧
    intended n State.init src.lines = .ok sysMbtLines

/-! ### One line -/

section Line

variable (n : Classes)

/-- The first part of a turn without the number. -/
def rename (line : String) : Except Exn String :=
  if contains line ("public class " ++ n.userMbtClass) then
    replaceFirst n.engine line ("public class " ++ n.userMbtClass) ("public class " ++ n.sysMbtClass)
  else if contains line n.userActionClass then
    replaceAll n.engine line n.userActionClass n.sysActionClass
  else .ok line

/-- A line with the name of a class neither starts nor ends anything. -/
def hidden (line : String) : Bool :=
  contains line ("public class " ++ n.userMbtClass) || contains line n.userActionClass

/-- The flags are set on a line that starts an annotation for the code, and cleared on one that has
`public` in it. -/
def event (line : String) : Option Bool :=
  if hidden n line then none
  else if startsWith (trim line) "@MTestStep" || contains line "@MScenario" then some true
  else if contains line "public" then some false
  else none

/-- The line belongs to an annotation. -/
def State.flag (st : State) : Bool := st.isScenario || st.isTestStep

/-- The line of a step's number holds no character but its own. -/
theorem notMem_number {c : Char} {i : ℕ} (hbefore : c ∉ "    @MStepNumber(value = ".toList)
    (hafter : c ∉ ")\n".toList) (hdigit : c.isDigit = false) :
    c ∉ ("    @MStepNumber(value = " ++ i.repr ++ ")\n").toList := by
  rw [notMem_append, notMem_append]
  refine ⟨⟨hbefore, fun h => ?_⟩, hafter⟩
  rw [Nat.toList_repr] at h
  rw [Nat.isDigit_of_mem_toDigits (by decide) (by decide) h] at hdigit
  cases hdigit

/-- A turn finds out the same of a line whatever the flags are. -/
theorem track_eq (st : State) (line : String) : ∃ number st',
    's' ∉ number.toList ∧ '\'' ∉ number.toList ∧ st'.flag = (event n line).getD st.flag ∧
      track n st line = (rename n line).map fun line => (number ++ line, st') := by
  rw [track, rename, event, hidden]
  by_cases hmbt : contains line ("public class " ++ n.userMbtClass) = true
  · rw [if_pos hmbt, if_pos hmbt, hmbt]
    refine ⟨"", st, List.not_mem_nil, List.not_mem_nil, rfl, ?_⟩
    cases replaceFirst n.engine line ("public class " ++ n.userMbtClass)
      ("public class " ++ n.sysMbtClass) with
    | error e => rfl
    | ok line => exact congrArg Except.ok (Prod.ext String.empty_append.symm rfl)
  rw [if_neg hmbt, if_neg hmbt, Bool.eq_false_iff.mpr hmbt, Bool.false_or]
  by_cases haction : contains line n.userActionClass = true
  · rw [if_pos haction, if_pos haction, haction]
    refine ⟨"", st, List.not_mem_nil, List.not_mem_nil, rfl, ?_⟩
    cases replaceAll n.engine line n.userActionClass n.sysActionClass with
    | error e => rfl
    | ok line => exact congrArg Except.ok (Prod.ext String.empty_append.symm rfl)
  rw [if_neg haction, if_neg haction, if_neg haction]
  by_cases hstep : startsWith (trim line) "@MTestStep" = true
  · rw [if_pos hstep, hstep, Bool.true_or, if_pos rfl]
    exact ⟨_, { st with stepIdx := st.stepIdx + 1, isTestStep := true },
      notMem_number (by decide) (by decide) (by decide),
      notMem_number (by decide) (by decide) (by decide), Bool.or_true st.isScenario, rfl⟩
  rw [if_neg hstep, Bool.eq_false_iff.mpr hstep, Bool.false_or]
  by_cases hscenario : contains line "@MScenario" = true
  · rw [if_pos hscenario, if_pos hscenario]
    exact ⟨"", _, List.not_mem_nil, List.not_mem_nil, rfl,
      congrArg Except.ok (Prod.ext String.empty_append.symm rfl)⟩
  rw [if_neg hscenario, if_neg hscenario]
  by_cases hpublic : contains line "public" = true
  · rw [if_pos hpublic, if_pos hpublic]
    exact ⟨"", _, List.not_mem_nil, List.not_mem_nil, rfl,
      congrArg Except.ok (Prod.ext String.empty_append.symm rfl)⟩
  rw [if_neg hpublic, if_neg hpublic]
  exact ⟨"", st, List.not_mem_nil, List.not_mem_nil, rfl,
    congrArg Except.ok (Prod.ext String.empty_append.symm rfl)⟩

end Line

/-! ### The parameters of a line -/

theorem groups_append {w x : List Char} (hx : 's' ∉ x) (y : List Char) :
    groups ('s' :: w) 0 (x ++ y) = groups ('s' :: w) 0 y := by
  induction x with
  | nil => rfl
  | cons c x ih =>
    rw [List.mem_cons, not_or] at hx
    have hmatch : matchLength ('s' :: w) (c :: (x ++ y)) = none := by
      rw [matchLength, List.isPrefixOf, beq_eq_false_iff_ne.mpr hx.1]
      rfl
    rw [List.cons_append, groups, hmatch]
    exact ih hx.2

theorem replace_append {p t goal : String} {c : Char} {w : List Char} (ht : t.toList = c :: w)
    (hp : c ∉ p.toList) (line : String) :
    replace (p ++ line) t goal = p ++ replace line t goal := by
  rw [replace, replace, ht, String.toList_append, replaceChars_append _ (startsIn_eq_zero hp _),
    String.ofList_append, String.ofList_toList]

variable {word mark : String} {w : List Char} {p : String}

theorem replaceGroup_append (hword : word.toList = 's' :: w) (hp : 's' ∉ p.toList) (line : String)
    (g : List Char) :
    replaceGroup word mark (p ++ line) g = (p ++ ·) <$> replaceGroup word mark line g := by
  rw [replaceGroup, replaceGroup]
  cases inBounds (slice (String.ofList g) 15 (g.length - 2)) with
  | error e => rfl
  | ok varName =>
    have htarget : (word ++ ".get(\"" ++ varName ++ "\")").toList =
        's' :: (w ++ ".get(\"".toList ++ varName.toList ++ "\")".toList) := by
      simp only [String.toList_append, hword, List.cons_append]
    exact congrArg Except.ok (replace_append htarget hp line)

theorem foldlM_replaceGroup_append (hword : word.toList = 's' :: w) (hp : 's' ∉ p.toList)
    (gs : List (List Char)) (line : String) :
    gs.foldlM (replaceGroup word mark) (p ++ line) =
      (p ++ ·) <$> gs.foldlM (replaceGroup word mark) line := by
  induction gs generalizing line with
  | nil => rfl
  | cons g gs ih =>
    rw [List.foldlM_cons, List.foldlM_cons, replaceGroup_append hword hp]
    cases replaceGroup word mark line g with
    | error e => rfl
    | ok line => exact ih line

theorem replaceParam_append (hword : word.toList = 's' :: w) (hp : 's' ∉ p.toList) (line : String) :
    replaceParam word mark (p ++ line) = (p ++ ·) <$> replaceParam word mark line := by
  rw [replaceParam, replaceParam, String.toList_append, hword, groups_append hp]
  exact foldlM_replaceGroup_append hword hp _ line

/-- A number before a line does not matter to its parameters. -/
theorem replaceParams_append (hp : 's' ∉ p.toList) (line : String) :
    replaceParams (p ++ line) = (p ++ ·) <$> replaceParams line := by
  rw [replaceParams, replaceParams, replaceParam_append (by rfl) hp]
  cases replaceParam "scenParam" "MBT_SCEN_PARAM" line with
  | error e => rfl
  | ok line => exact replaceParam_append (by rfl) hp line

theorem rewrite_append (hp : '\'' ∉ p.toList) (annotated : Bool) (line : String) :
    rewrite annotated (p ++ line) = p ++ rewrite annotated line := by
  cases annotated with
  | false => rfl
  | true => exact replace_append rfl hp line

/-- The parameters have the single quotes that they had. -/
theorem count_replaceGroup {line out : String} {g : List Char} (hword : word.toList = 's' :: w)
    (hquote : '\'' ∉ word.toList) (hmark : '\'' ∉ mark.toList)
    (h : replaceGroup word mark line g = .ok out) :
    out.toList.count '\'' = line.toList.count '\'' := by
  obtain ⟨varName, -, hout⟩ := bind_eq_ok.mp h
  have htarget : (word ++ ".get(\"" ++ varName ++ "\")").toList =
      's' :: (w ++ ".get(\"".toList ++ varName.toList ++ "\")".toList) := by
    simp only [String.toList_append, hword, List.cons_append]
  rw [← Except.ok.inj hout, replace, String.toList_ofList, htarget]
  refine count_replaceChars ?_ _
  rw [← htarget]
  simp only [String.toList_append, List.count_append, List.count_eq_zero_of_not_mem hquote,
    List.count_eq_zero_of_not_mem hmark]
  rfl

/-- Replacing a parameter changes no single quotes. -/
theorem count_replaceParam {line out : String} (hword : word.toList = 's' :: w)
    (hquote : '\'' ∉ word.toList) (hmark : '\'' ∉ mark.toList)
    (h : replaceParam word mark line = .ok out) :
    out.toList.count '\'' = line.toList.count '\'' := by
  rw [replaceParam] at h
  generalize groups word.toList 0 line.toList = gs at h
  induction gs generalizing line with
  | nil =>
    cases h
    rfl
  | cons g gs ih =>
    rw [List.foldlM_cons] at h
    obtain ⟨line', hline, h⟩ := bind_eq_ok.mp h
    rw [ih h, count_replaceGroup hword hquote hmark hline]

/-- Replacing both changes none. -/
theorem count_replaceParams {line out : String} (h : replaceParams line = .ok out) :
    out.toList.count '\'' = line.toList.count '\'' := by
  obtain ⟨line', hscen, hstep⟩ := bind_eq_ok.mp h
  rw [count_replaceParam rfl (by decide) (by decide) hstep,
    count_replaceParam rfl (by decide) (by decide) hscen]

/-- After the rewriting there are none. -/
theorem count_rewrite (line : String) : (rewrite true line).toList.count '\'' = 0 := by
  rw [rewrite, if_pos rfl, replace, String.toList_ofList]
  exact List.count_eq_zero_of_not_mem (notMem_replaceChars (by decide) _)

theorem rewrite_eq_self {line : String} (h : '\'' ∉ line.toList) (annotated : Bool) :
    rewrite annotated line = line := by
  have hline := rewrite_append h annotated ""
  have hempty : rewrite annotated "" = "" := by cases annotated <;> rfl
  rwa [hempty, String.append_empty] at hline

/-- A line with a quote comes out the same only where the two agree on it. -/
theorem replaceParams_rewrite_iff {line : String} {flag annotated : Bool} :
    (∃ out, replaceParams (rewrite flag line) = .ok out ∧
      replaceParams (rewrite annotated line) = .ok out) ↔
    (∃ out, replaceParams (rewrite annotated line) = .ok out) ∧
      ('\'' ∈ line.toList → flag = annotated) := by
  constructor
  · rintro ⟨out, hflag, hannotated⟩
    refine ⟨⟨out, hannotated⟩, fun hquote => ?_⟩
    have hcount : (rewrite flag line).toList.count '\'' =
        (rewrite annotated line).toList.count '\'' :=
      (count_replaceParams hflag).symm.trans (count_replaceParams hannotated)
    have hpos := List.count_pos_iff.mpr hquote
    cases flag <;> cases annotated
    · rfl
    · rw [count_rewrite] at hcount
      exact absurd hcount hpos.ne'
    · rw [count_rewrite] at hcount
      exact absurd hcount hpos.ne
    · rfl
  · rintro ⟨⟨out, hannotated⟩, h⟩
    refine ⟨out, ?_, hannotated⟩
    by_cases hquote : '\'' ∈ line.toList
    · rw [h hquote, hannotated]
    · rw [rewrite_eq_self hquote, ← hannotated, rewrite_eq_self hquote]

/-! ### All lines -/

section Lines

variable (n : Classes)

/-- Nothing is thrown on a line: the names of the classes are replaced, and the text between the
parentheses of a parameter has at least two characters. -/
def Processed (l : Line) : Prop := ∃ line out,
  rename n l.text = .ok line ∧ replaceParams (rewrite l.annotated line) = .ok out

/-- There is a single quote on a line, the names of the classes replaced. -/
def Quoted (l : Line) : Prop := ∃ line, rename n l.text = .ok line ∧ '\'' ∈ line.toList

/-- The last line that starts or ends an annotation for the code starts one. -/
def Opened (lines : List Line) : Prop :=
  Latch.last (event n) (lines.map (·.text)) = some true

/-- What a turn and the turns behind it give. -/
theorem turn_eq_ok {number line : String} {flag : Bool} {x : Except Exn (List String)}
    {outs : List String} (hs : 's' ∉ number.toList) (hquote : '\'' ∉ number.toList) :
    (do
      let line ← replaceParams (rewrite flag (number ++ line))
      let sysMbtLines ← x
      return line :: sysMbtLines) = .ok outs ↔
    ∃ out rest, replaceParams (rewrite flag line) = .ok out ∧ x = .ok rest ∧
      outs = (number ++ out) :: rest := by
  rw [rewrite_append hquote, replaceParams_append hs]
  cases replaceParams (rewrite flag line) with
  | error e =>
    constructor
    · intro h
      cases h
    · rintro ⟨out, rest, h, -⟩
      cases h
  | ok out =>
    cases x with
    | error e =>
      constructor
      · intro h
        cases h
      · rintro ⟨out', rest, -, h, -⟩
        cases h
    | ok rest =>
      constructor
      · intro h
        cases h
        exact ⟨out, rest, rfl, rfl, rfl⟩
      · rintro ⟨out', rest', hout, hrest, rfl⟩
        cases hout
        cases hrest
        rfl

/-- The lines come out as intended exactly when none throws and the flags are right on each line with
a quote. -/
theorem genLines_eq_iff (st : State) (lines : List Line) :
    (∃ outs, genLines n st (lines.map (·.text)) = .ok outs ∧ intended n st lines = .ok outs) ↔
      (∀ l ∈ lines, Processed n l) ∧ ∀ before l rest, lines = before ++ l :: rest → Quoted n l →
        Latch.after (event n) st.flag ((before ++ [l]).map (·.text)) = l.annotated := by
  induction lines generalizing st with
  | nil =>
    refine iff_of_true ⟨[], rfl, rfl⟩ ⟨List.forall_mem_nil _, fun before l rest h => ?_⟩
    exact absurd h.symm (List.append_ne_nil_of_right_ne_nil before (List.cons_ne_nil l rest))
  | cons l lines ih =>
    obtain ⟨number, st', hs, hquote, hflag, htrack⟩ := track_eq n st l.text
    rw [List.forall_mem_cons, Latch.forall_split_cons]
    have hrest : (∀ before x rest, lines = before ++ x :: rest → Quoted n x →
        Latch.after (event n) st.flag ((l :: before ++ [x]).map (·.text)) = x.annotated) ↔
        ∀ before x rest, lines = before ++ x :: rest → Quoted n x →
          Latch.after (event n) st'.flag ((before ++ [x]).map (·.text)) = x.annotated := by
      rw [hflag]
      exact Iff.rfl
    have hhead : Latch.after (event n) st.flag (List.map (·.text) ([] ++ [l])) = st'.flag :=
      hflag.symm
    rw [hrest, hhead, List.map_cons, genLines, intended, htrack]
    cases hrename : rename n l.text with
    | error e =>
      constructor
      · rintro ⟨outs, h, -⟩
        cases h
      · rintro ⟨⟨⟨line, out, h, -⟩, -⟩, -⟩
        rw [hrename] at h
        cases h
    | ok line =>
      have hquoted : Quoted n l ↔ '\'' ∈ line.toList := by
        constructor
        · rintro ⟨line', h, hmem⟩
          rw [hrename] at h
          cases h
          exact hmem
        · exact fun hmem => ⟨line, hrename, hmem⟩
      have hprocessed : Processed n l ↔
          ∃ out, replaceParams (rewrite l.annotated line) = .ok out := by
        constructor
        · rintro ⟨line', out, h, hout⟩
          rw [hrename] at h
          cases h
          exact ⟨out, hout⟩
        · rintro ⟨out, hout⟩
          exact ⟨line, out, hrename, hout⟩
      rw [hquoted, hprocessed]
      refine Iff.trans (exists_congr fun outs => and_congr (turn_eq_ok hs hquote)
        (turn_eq_ok hs hquote)) ?_
      constructor
      · rintro ⟨outs, ⟨out, rest, hout, hrest, rfl⟩, out', rest', hout', hrest', heq⟩
        obtain ⟨hfirst, rfl⟩ := List.cons.inj heq
        rw [String.append_right_inj] at hfirst
        rw [← hfirst] at hout'
        obtain ⟨hann, hagree⟩ := replaceParams_rewrite_iff.mp ⟨out, hout, hout'⟩
        obtain ⟨hall, hflags⟩ := (ih st').mp ⟨rest, hrest, hrest'⟩
        exact ⟨⟨hann, hall⟩, hagree, hflags⟩
      · rintro ⟨⟨hann, hall⟩, hagree, hflags⟩
        obtain ⟨out, hout, hout'⟩ := replaceParams_rewrite_iff.mpr ⟨hann, hagree⟩
        obtain ⟨rest, hrest, hrest'⟩ := (ih st').mpr ⟨hall, hflags⟩
        exact ⟨_, ⟨out, rest, hout, hrest, rfl⟩, out, rest, hout', hrest', rfl⟩

/-- **Which sources have the quotes of their annotations rewritten, and no others.**  Those on whose
lines nothing is thrown, and where a line with a quote is annotated exactly when the last line up to
it that starts or ends an annotation for the code starts one. -/
theorem rewrites_iff (src : UserMbt) : src.Rewrites n ↔ (∀ l ∈ src.lines, Processed n l) ∧
    ∀ before l rest, src.lines = before ++ l :: rest → Quoted n l →
      (Opened n (before ++ [l]) ↔ l.annotated = true) := by
  have hflag : ∀ lines annotated, Latch.after (event n) State.init.flag lines = annotated ↔
      (Latch.last (event n) lines = some true ↔ annotated = true) := by
    intro lines annotated
    rw [Latch.after_eq]
    cases Latch.last (event n) lines with
    | none => cases annotated <;> decide
    | some b => cases b <;> cases annotated <;> decide
  rw [UserMbt.Rewrites, genLines_eq_iff]
  refine and_congr_right fun _ => forall₃_congr fun before l rest => ?_
  exact imp_congr_right fun _ => imp_congr_right fun _ => hflag _ _

end Lines

/-- The classes of a source, with an engine that changes nothing. -/
def dealClasses : Classes := ⟨"Deal", "DealActions", "Deal2", "DealActions2", fun line _ _ => .ok line⟩

/-- The name of a parameter is the word that ends an annotation for the code. -/
def publicParam : UserMbt where
  lines := [⟨"@MScenario(option = \"\x7b'start' : 'Paid'\x7d\",", true⟩,
    ⟨"    param = \"[\x7b'name' : 'public', 'value' : '1'\x7d]\")", true⟩,
    ⟨"public void pay()", false⟩]
  starts := by decide +kernel
  ends := by decide +kernel

theorem not_rewrites_public : ¬ publicParam.Rewrites dealClasses := by
  have hne : genLines dealClasses State.init (publicParam.lines.map (·.text)) ≠
      intended dealClasses State.init publicParam.lines := by
    decide +kernel
  rintro ⟨outs, hgen, hintended⟩
  exact hne (hgen.trans hintended.symm)

end MBT.MGenMbt
