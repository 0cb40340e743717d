import MBT.Support.PyText

/-!
# Precision — GetCppFunc

Which lines of a C++ file belong to which function: the lines are scanned from the last to the
first, and a function is recorded when a separator is met above its declaration.

* `scan_funcs`: what the scan records of a file whose functions all stand below a blank line.
* `lookup_of_adjacent`: a function with no blank line above it is not recorded.
* `getFuncInfo_iff`: every line of a function has its name exactly where each function stands below
  a blank line and has a name.
-/

namespace MBT
open Exec Text PyText

namespace GetCppFunc

/-- `while sFuncDecl[iEndPos - 1] == " ": iEndPos -= 1`, from the position `n - len(sFuncDecl)`.  The
text has a parenthesis, which the loop does not pass. -/
def skipSpaces (sFuncDecl : String) : ℕ → ℤ
  | 0 => -(sFuncDecl.length : ℤ)
  | n + 1 =>
    let iEndPos : ℤ := n + 1 - sFuncDecl.length
    if item sFuncDecl (iEndPos - 1) = some ' ' then skipSpaces sFuncDecl n else iEndPos

/-- The name in the text of a declaration: the word before the first bracket. -/
def getFuncName (sFuncDecl : String) : String :=
  let iEndPos := indexOf sFuncDecl "(" 0
  if iEndPos = -1 then ""
  else
    let iEndPos := skipSpaces sFuncDecl (iEndPos + sFuncDecl.length).toNat
    let iBeginPos := rfind sFuncDecl ' ' iEndPos
    strip (slice sFuncDecl (iBeginPos + 1) iEndPos)

example : getFuncName "int Order::pay (int sum)" = "Order::pay" := by decide +kernel

/-- The variables of the loop of `getFuncInfo`. -/
structure Scan where
  oFuncInfo : HashMap ℤ String
  sFuncDecl : String
  iBodyBeginLine : ℤ
  iBodyEndLine : ℤ

/-- `oFuncInfo[iTmpIdx + 1] = sFuncName` for each index of the body. -/
def setLines (oFuncInfo : HashMap ℤ String) (sFuncName : String) (iBodyBeginLine iBodyEndLine : ℤ) :
    HashMap ℤ String :=
  (List.range (iBodyEndLine + 1 - iBodyBeginLine).toNat).foldl
    (fun info (k : ℕ) => info.insert (iBodyBeginLine + k + 1) sFuncName) oFuncInfo

/-- The lines that end the text of a declaration. -/
def isSeparator (sLine : String) : Bool :=
  strip sLine = "" || strip sLine = "*/" || strip sLine = "\x7d"

/-- The turn of the loop for the line at an index. -/
def step (sLine : String) (iLineIdx : ℕ) (st : Scan) : Scan :=
  if startsWith sLine "\x7d" then { st with iBodyEndLine := iLineIdx }
  else if startsWith sLine "\x7b" && st.iBodyEndLine ≠ -1 then
    { st with iBodyBeginLine := iLineIdx, sFuncDecl := "" }
  else if st.iBodyBeginLine ≠ -1 then
    if !isSeparator sLine then { st with sFuncDecl := strip sLine ++ st.sFuncDecl }
    else
      let sFuncName := getFuncName st.sFuncDecl
      let oFuncInfo :=
        if sFuncName ≠ "" then setLines st.oFuncInfo sFuncName st.iBodyBeginLine st.iBodyEndLine
        else st.oFuncInfo
      ⟨oFuncInfo, "", -1, -1⟩
  else st

/-- The turns for the lines from an index on, the last line first. -/
def scan (iLineIdx : ℕ) (oCppLines : List String) (st : Scan) : Scan :=
  (oCppLines.zipIdx iLineIdx).foldr (fun p st => step p.1 p.2 st) st

/-- The functions of a file, by the numbers of their lines. -/
def getFuncInfo (oCppLines : List String) : HashMap ℤ String :=
  (scan 0 oCppLines ⟨∅, "", -1, -1⟩).oFuncInfo

/-! ### Files of functions -/

/-- A line that is gathered into the text of a declaration. -/
structure DeclLine (s : String) : Prop where
  opens : startsWith s "\x7b" = false
  closes : startsWith s "\x7d" = false
  gathered : isSeparator s = false

/-- A line with a parenthesis that does not start with a brace. -/
theorem declLine_of_paren {s : String} (hparen : '(' ∈ s.toList) (hopens : startsWith s "\x7b" = false)
    (hcloses : startsWith s "\x7d" = false) : DeclLine s := by
  refine ⟨hopens, hcloses, ?_⟩
  have hink : '(' ∈ (strip s).toList := by
    have hmem : '(' ∈ ink s.toList := List.mem_filter.mpr ⟨hparen, rfl⟩
    rw [← ink_strip] at hmem
    exact List.mem_of_mem_filter hmem
  have hne : ∀ t : String, '(' ∉ t.toList → strip s ≠ t := by
    rintro t ht rfl
    exact ht hink
  have h₁ := hne "" (by decide)
  have h₂ := hne "*/" (by decide)
  have h₃ := hne "\x7d" (by decide)
  rw [isSeparator, decide_eq_false h₁, decide_eq_false h₂, decide_eq_false h₃]
  rfl

/-- A function definition. -/
structure Func where
  decl : List String
  brace : String
  body : List String
  close : String
  decl_ne_nil : decl ≠ []
  declLine : ∀ l ∈ decl, DeclLine l
  braceLine : startsWith brace "\x7b" = true
  bodyLine : ∀ l ∈ body, startsWith l "\x7b" = false ∧ startsWith l "\x7d" = false
  closeLine : startsWith close "\x7d" = true

namespace Func

/-- The lines of a definition. -/
def lines (f : Func) : List String := f.decl ++ f.brace :: (f.body ++ [f.close])

/-- The text of the declaration as it is gathered. -/
def text (f : Func) : String := f.decl.foldr (fun l text => strip l ++ text) ""

/-- The name that is found for a definition. -/
def name (f : Func) : String := getFuncName f.text

/-- A definition whose declaration is one line. -/
def ofLine (decl brace : String) (body : List String) (close : String) (hparen : '(' ∈ decl.toList)
    (hopens : startsWith decl "\x7b" = false) (hcloses : startsWith decl "\x7d" = false)
    (braceLine : startsWith brace "\x7b" = true)
    (bodyLine : ∀ l ∈ body, startsWith l "\x7b" = false ∧ startsWith l "\x7d" = false)
    (closeLine : startsWith close "\x7d" = true) : Func :=
  ⟨[decl], brace, body, close, List.cons_ne_nil _ _,
    fun _ hl => List.mem_singleton.mp hl ▸ declLine_of_paren hparen hopens hcloses, braceLine, bodyLine,
    closeLine⟩

end Func

/-- A file of function definitions, each with the blank lines above it. -/
structure CppFile where
  funcs : List (List String × Func)
  trailing : List String
  blank : ∀ p ∈ funcs, ∀ l ∈ p.1, strip l = ""
  blank_trailing : ∀ l ∈ trailing, strip l = ""

/-- The lines of some functions. -/
def linesOf (funcs : List (List String × Func)) : List String := funcs.flatMap fun p => p.1 ++ p.2.lines

/-- The lines of a file. -/
def CppFile.lines (file : CppFile) : List String := linesOf file.funcs ++ file.trailing

/-- The name of the function whose braces and body cover line `n`, counted from 1; the functions
begin at the index. -/
def nameAt : ℕ → List (List String × Func) → ℤ → Option String
  | _, [], _ => none
  | i, p :: ps, n =>
    let iBegin := i + p.1.length + p.2.decl.length
    let iEnd := iBegin + p.2.body.length + 1
    if (iBegin : ℤ) + 1 ≤ n ∧ n ≤ (iEnd : ℤ) + 1 then some p.2.name else nameAt (iEnd + 1) ps n

/-! ### One line -/

/-- Nothing is being gathered. -/
def idle (info : HashMap ℤ String) : Scan := ⟨info, "", -1, -1⟩

/-- The lines of the functions once a separator is met. -/
def Scan.recorded (st : Scan) : HashMap ℤ String :=
  if getFuncName st.sFuncDecl ≠ "" then
    setLines st.oFuncInfo (getFuncName st.sFuncDecl) st.iBodyBeginLine st.iBodyEndLine
  else st.oFuncInfo

variable {st : Scan} {l : String} {i : ℕ}

theorem scan_append (i : ℕ) (ls ls' : List String) (st : Scan) :
    scan i (ls ++ ls') st = scan i ls (scan (i + ls.length) ls' st) := by
  rw [scan, scan, scan, List.zipIdx_append, List.foldr_append]

theorem scan_cons (i : ℕ) (l : String) (ls : List String) (st : Scan) :
    scan i (l :: ls) st = step l i (scan (i + 1) ls st) := rfl

/-- A closing brace ends a body. -/
theorem step_close (h : startsWith l "\x7d" = true) : step l i st = { st with iBodyEndLine := i } := by
  rw [step, if_pos h]

/-- An opening brace is no closing one. -/
theorem not_close_of_open (h : startsWith l "\x7b" = true) : startsWith l "\x7d" = false := by
  rw [startsWith] at h ⊢
  cases hl : l.toList with
  | nil => rfl
  | cons c s =>
    rw [hl] at h
    have hc : c = '\x7b' := by
      have hpre := List.isPrefixOf_iff_prefix.mp h
      exact (List.cons_prefix_cons.mp hpre).1.symm
    rw [hc]
    rfl

/-- An opening brace begins the body that has an end. -/
theorem step_open (h : startsWith l "\x7b" = true) (hend : st.iBodyEndLine ≠ -1) :
    step l i st = { st with iBodyBeginLine := i, sFuncDecl := "" } := by
  have hclose : ¬ startsWith l "\x7d" = true := by
    rw [not_close_of_open h]
    exact Bool.false_ne_true
  rw [step, if_neg hclose, if_pos]
  rw [h, decide_eq_true hend]
  rfl

/-- Any other line belongs to the declaration, or ends it. -/
theorem step_other (hopen : startsWith l "\x7b" = false) (hclose : startsWith l "\x7d" = false) :
    step l i st =
      if st.iBodyBeginLine ≠ -1 then
        if !isSeparator l then { st with sFuncDecl := strip l ++ st.sFuncDecl }
        else idle st.recorded
      else st := by
  have hclose' : ¬ startsWith l "\x7d" = true := by
    rw [hclose]
    exact Bool.false_ne_true
  have hopen' : ¬ (startsWith l "\x7b" && decide (st.iBodyEndLine ≠ -1)) = true := by
    rw [hopen]
    exact Bool.false_ne_true
  rw [step, if_neg hclose', if_neg hopen']
  rfl

/-- A line of a declaration is gathered. -/
theorem step_decl (h : DeclLine l) (hbegin : st.iBodyBeginLine ≠ -1) :
    step l i st = { st with sFuncDecl := strip l ++ st.sFuncDecl } := by
  rw [step_other h.opens h.closes, if_pos hbegin, h.gathered]
  rfl

/-- A blank line starts with no brace. -/
theorem blank_not_brace (h : strip l = "") {b : Char} (hb : isSpace b = false) :
    startsWith l (String.singleton b) = false := by
  rw [startsWith, String.toList_singleton]
  cases hl : l.toList with
  | nil => rfl
  | cons c s =>
    have hspaces : ink l.toList = [] := by
      rw [← ink_strip, h]
      rfl
    rw [hl, ink_eq_nil_iff] at hspaces
    have hc := hspaces c List.mem_cons_self
    have hne : (b == c) = false := by
      rw [beq_eq_false_iff_ne]
      rintro rfl
      rw [hb] at hc
      cases hc
    rw [List.isPrefixOf, hne, Bool.false_and]

/-- A blank line ends a declaration. -/
theorem step_blank (h : strip l = "") :
    step l i st =
      if st.iBodyBeginLine ≠ -1 then idle st.recorded else st := by
  have hsep : isSeparator l = true := by
    rw [isSeparator, decide_eq_true h]
    rfl
  have hopen : startsWith l "\x7b" = false := @blank_not_brace l h '\x7b' rfl
  have hclose : startsWith l "\x7d" = false := @blank_not_brace l h '\x7d' rfl
  rw [step_other hopen hclose, hsep]
  rfl

/-! ### Recording -/

/-- The lines of a body get its name. -/
theorem lookup_setLines (info : HashMap ℤ String) (name : String) (b e n : ℤ) :
    (setLines info name b e).lookup n = if b + 1 ≤ n ∧ n ≤ e + 1 then some name else info.lookup n := by
  have hfold : ∀ k : ℕ, ((List.range k).foldl (fun info j => info.insert (b + (j : ℤ) + 1) name)
      info).lookup n = if b + 1 ≤ n ∧ n ≤ b + k then some name else info.lookup n := by
    intro k
    induction k with
    | zero =>
      rw [if_neg (by omega)]
      rfl
    | succ k ih =>
      rw [List.range_succ, List.foldl_append, List.foldl_cons, List.foldl_nil]
      by_cases hn : n = b + k + 1
      · rw [hn, AList.lookup_insert, if_pos (by omega)]
      · rw [AList.lookup_insert_ne hn, ih]
        by_cases hin : b + 1 ≤ n ∧ n ≤ b + k
        · rw [if_pos hin, if_pos (by omega)]
        · rw [if_neg hin, if_neg (by omega)]
  rw [setLines, hfold]
  by_cases hin : b + 1 ≤ n ∧ n ≤ e + 1
  · rw [if_pos hin, if_pos (by omega)]
  · rw [if_neg hin, if_neg (by omega)]

/-! ### Functions below blank lines -/

/-- Blank lines between the functions change nothing. -/
theorem scan_blank_idle {ls : List String} (h : ∀ l ∈ ls, strip l = "") (i : ℕ)
    (info : HashMap ℤ String) :
    scan i ls (idle info) = idle info := by
  induction ls generalizing i with
  | nil => rfl
  | cons l ls ih =>
    rw [scan_cons, ih (fun l hl => h l (List.mem_cons_of_mem _ hl)),
      step_blank (h l List.mem_cons_self), if_neg (fun hne => hne rfl)]

/-- The lines of a body change nothing. -/
theorem scan_body {ls : List String}
    (h : ∀ l ∈ ls, startsWith l "\x7b" = false ∧ startsWith l "\x7d" = false)
    (i : ℕ) {st : Scan} (hbegin : st.iBodyBeginLine = -1) : scan i ls st = st := by
  induction ls generalizing i with
  | nil => rfl
  | cons l ls ih =>
    obtain ⟨hopen, hclose⟩ := h l List.mem_cons_self
    rw [scan_cons, ih (fun l hl => h l (List.mem_cons_of_mem _ hl)), step_other hopen hclose,
      if_neg (fun hne => hne hbegin)]

/-- The lines of a declaration are gathered in order. -/
theorem scan_decl {ls : List String} (h : ∀ l ∈ ls, DeclLine l) (i : ℕ) {st : Scan}
    (hbegin : st.iBodyBeginLine ≠ -1) :
    scan i ls st = { st with sFuncDecl := ls.foldr (fun l text => strip l ++ text) st.sFuncDecl } := by
  induction ls generalizing i with
  | nil => rfl
  | cons l ls ih =>
    rw [scan_cons, ih (fun l hl => h l (List.mem_cons_of_mem _ hl))]
    exact step_decl (h l List.mem_cons_self) hbegin

/-- **A function**, met where nothing is being gathered. -/
theorem scan_func (f : Func) (i : ℕ) (info : HashMap ℤ String) :
    scan i f.lines (idle info) = ⟨info, f.text, (i + f.decl.length : ℕ),
      (i + f.decl.length + f.body.length + 1 : ℕ)⟩ := by
  have hclose : ∀ j, scan j [f.close] (idle info) = ⟨info, "", -1, j⟩ := fun j => step_close f.closeLine
  rw [Func.lines, scan_append, scan_cons, scan_append, hclose,
    scan_body f.bodyLine _ rfl, step_open f.braceLine (by dsimp only; omega),
    scan_decl f.declLine _ (by dsimp only; omega)]
  dsimp only
  rw [Func.text]
  congr 2
  omega

/-- The blank lines above a function record it. -/
theorem scan_blank {ls : List String} (h : ∀ l ∈ ls, strip l = "") (hne : ls ≠ []) (i : ℕ) {st : Scan}
    (hbegin : st.iBodyBeginLine ≠ -1) : scan i ls st = idle st.recorded := by
  obtain ⟨ls, l, rfl⟩ := (List.eq_nil_or_concat ls).resolve_left hne
  rw [List.concat_eq_append] at h ⊢
  have hlast : scan (i + ls.length) [l] st = idle st.recorded := by
    have hturn := @step_blank st l (i + ls.length) (h l (List.mem_append_right ls List.mem_cons_self))
    rw [if_pos hbegin] at hturn
    exact hturn
  rw [scan_append, hlast]
  exact scan_blank_idle (fun l hl => h l (List.mem_append_left _ hl)) i _

/-- How many lines a definition has. -/
theorem length_lines (f : Func) : f.lines.length = f.decl.length + f.body.length + 1 + 1 := by
  rw [Func.lines, List.length_append, List.length_cons, List.length_append, List.length_singleton]
  omega

/-- No line up to the index belongs to the functions that begin there. -/
theorem nameAt_below (funcs : List (List String × Func)) {i : ℕ} {n : ℤ} (hn : n ≤ i) :
    nameAt i funcs n = none := by
  induction funcs generalizing i with
  | nil => rfl
  | cons p funcs ih =>
    rw [nameAt, if_neg (by omega)]
    exact ih (by omega)

/-- **The scan of functions that stand below blank lines.** -/
theorem scan_funcs {funcs : List (List String × Func)} (hblank : ∀ p ∈ funcs, ∀ l ∈ p.1, strip l = "")
    (hne : ∀ p ∈ funcs, p.1 ≠ []) {trailing : List String} (htrailing : ∀ l ∈ trailing, strip l = "")
    (i : ℕ) :
    ∃ info, scan i (linesOf funcs ++ trailing) (idle ∅) = idle info ∧
      ∀ n, info.lookup n = (nameAt i funcs n).filter (· ≠ "") := by
  induction funcs generalizing i with
  | nil =>
    refine ⟨∅, scan_blank_idle htrailing i ∅, fun n => ?_⟩
    rfl
  | cons p funcs ih =>
    obtain ⟨info, hrest, hinfo⟩ := ih (fun p hp => hblank p (List.mem_cons_of_mem _ hp))
      (fun p hp => hne p (List.mem_cons_of_mem _ hp)) (i + p.1.length + p.2.lines.length)
    have hlength : i + p.1.length + p.2.lines.length =
        i + p.1.length + p.2.decl.length + p.2.body.length + 1 + 1 := by
      rw [length_lines]
      omega
    refine ⟨(scan (i + p.1.length) p.2.lines (idle info)).recorded, ?_, fun n => ?_⟩
    · rw [linesOf, List.flatMap_cons, List.append_assoc, List.append_assoc, scan_append, scan_append,
        ← linesOf, hrest]
      refine scan_blank (hblank p List.mem_cons_self) (hne p List.mem_cons_self) i ?_
      rw [scan_func]
      dsimp only
      omega
    · rw [scan_func, Scan.recorded, nameAt, ← hlength, Func.name]
      dsimp only
      by_cases hname : getFuncName p.2.text = ""
      · -- the lines of a function without a name are nobody's
        rw [if_neg (fun h => h hname), hinfo, hname]
        split
        · rw [nameAt_below funcs (by omega)]
          rfl
        · rfl
      · rw [if_pos hname, lookup_setLines, hinfo]
        split
        · rw [Option.filter_some, decide_eq_true hname]
          rfl
        · rfl

/-! ### A function below no blank line -/

/-- What a turn can do. -/
theorem step_cases (l : String) (i : ℕ) (st : Scan) :
    (startsWith l "\x7d" = true ∧ step l i st = { st with iBodyEndLine := i }) ∨
    (startsWith l "\x7b" = true ∧ st.iBodyEndLine ≠ -1 ∧
      step l i st = { st with iBodyBeginLine := i, sFuncDecl := "" }) ∨
    (∃ text, step l i st = { st with sFuncDecl := text }) ∨
    (st.iBodyBeginLine ≠ -1 ∧ step l i st = idle st.recorded) := by
  by_cases hclose : startsWith l "\x7d" = true
  · exact .inl ⟨hclose, step_close hclose⟩
  by_cases hopen : startsWith l "\x7b" = true ∧ st.iBodyEndLine ≠ -1
  · exact .inr (.inl ⟨hopen.1, hopen.2, step_open hopen.1 hopen.2⟩)
  have hopen' : ¬ (startsWith l "\x7b" && decide (st.iBodyEndLine ≠ -1)) = true := by
    rw [Bool.and_eq_true, decide_eq_true_eq]
    exact hopen
  rw [step, if_neg hclose, if_neg hopen']
  by_cases hbegin : st.iBodyBeginLine ≠ -1
  · rw [if_pos hbegin]
    by_cases hgathered : (!isSeparator l) = true
    · rw [if_pos hgathered]
      exact .inr (.inr (.inl ⟨_, rfl⟩))
    · rw [if_neg hgathered]
      exact .inr (.inr (.inr ⟨hbegin, rfl⟩))
  · rw [if_neg hbegin]
    exact .inr (.inr (.inl ⟨st.sFuncDecl, rfl⟩))

/-- Recording names the lines of the body only. -/
theorem lookup_recorded {n : ℤ} (h : n ≤ st.iBodyBeginLine ∨ st.iBodyEndLine + 1 < n) :
    st.recorded.lookup n = st.oFuncInfo.lookup n := by
  rw [Scan.recorded]
  split
  · rw [lookup_setLines, if_neg (by omega)]
  · rfl

/-- The lines up to `j` are nobody's yet, and the function that is gathered begins behind them. -/
structure Above (j : ℕ) (st : Scan) : Prop where
  unrecorded : ∀ n ≤ (j : ℤ), st.oFuncInfo.lookup n = none
  begins : st.iBodyBeginLine = -1 ∨ (j : ℤ) ≤ st.iBodyBeginLine
  ends : st.iBodyEndLine = -1 → st.iBodyBeginLine = -1

/-- Recording names no line up to the bound. -/
theorem Above.recorded {j : ℕ} (h : Above j st) (hbegin : st.iBodyBeginLine ≠ -1) :
    Above j (idle st.recorded) := by
  refine ⟨fun n hn => ?_, .inl rfl, fun _ => rfl⟩
  have hle := h.begins.resolve_left hbegin
  have hsame : (idle st.recorded).oFuncInfo.lookup n = st.oFuncInfo.lookup n :=
    lookup_recorded (by omega)
  rw [hsame]
  exact h.unrecorded n hn

/-- Nor does a turn behind the bound. -/
theorem Above.step {j : ℕ} (h : Above j st) (l : String) (hi : startsWith l "\x7b" = true → j ≤ i) :
    Above j (step l i st) := by
  rcases step_cases l i st with ⟨-, heq⟩ | ⟨hopen, hend, heq⟩ | ⟨text, heq⟩ | ⟨hbegin, heq⟩
  · rw [heq]
    refine ⟨h.unrecorded, h.begins, fun hend => ?_⟩
    dsimp only at hend
    omega
  · rw [heq]
    exact ⟨h.unrecorded, .inr (Int.ofNat_le.mpr (hi hopen)), fun h => absurd h hend⟩
  · rw [heq]
    exact ⟨h.unrecorded, h.begins, h.ends⟩
  · rw [heq]
    exact h.recorded hbegin

/-- A run over lines that open no body above `j`. -/
theorem Above.scan {j : ℕ} {ls : List String} (h : Above j st)
    (hi : j ≤ i ∨ ∀ l ∈ ls, startsWith l "\x7b" = false) : Above j (scan i ls st) := by
  induction ls generalizing i with
  | nil => exact h
  | cons l ls ih =>
    have hrest : Above j (GetCppFunc.scan (i + 1) ls st) := by
      refine ih ?_
      rcases hi with hi | hi
      · exact .inl (Nat.le_succ_of_le hi)
      · exact .inr fun l hl => hi l (List.mem_cons_of_mem _ hl)
    rw [scan_cons]
    refine hrest.step l fun hopen => ?_
    rcases hi with hi | hi
    · exact hi
    · rw [hi l List.mem_cons_self] at hopen
      cases hopen

/-- No turn at a declaration line records. -/
theorem oFuncInfo_scan_decl {ls : List String} (h : ∀ l ∈ ls, DeclLine l) (i : ℕ) (st : Scan) :
    (scan i ls st).oFuncInfo = st.oFuncInfo := by
  induction ls generalizing i with
  | nil => rfl
  | cons l ls ih =>
    rw [scan_cons, ← ih (fun l hl => h l (List.mem_cons_of_mem _ hl)) (i + 1)]
    have hl := h l List.mem_cons_self
    rw [step_other hl.opens hl.closes, hl.gathered]
    split <;> rfl

/-- The lines of a function are not recorded while it is gathered. -/
theorem lookup_scan_func (f : Func) {i : ℕ} (h : Above (i + f.lines.length) st) {n : ℤ}
    (hn : n ≤ (i + f.lines.length : ℕ)) : (scan i f.lines st).oFuncInfo.lookup n = none := by
  rw [Func.lines, scan_append, oFuncInfo_scan_decl f.declLine, scan_cons]
  have hbody : Above (i + f.lines.length) (scan (i + f.decl.length + 1) (f.body ++ [f.close]) st) := by
    refine h.scan (.inr fun l hl => ?_)
    rcases List.mem_append.mp hl with hl | hl
    · exact (f.bodyLine l hl).1
    · rw [List.mem_singleton.mp hl, ← Bool.not_eq_true]
      intro hopen
      have hclose := not_close_of_open hopen
      rw [f.closeLine] at hclose
      cases hclose
  rcases step_cases f.brace (i + f.decl.length) (scan (i + f.decl.length + 1) (f.body ++ [f.close]) st) with
    ⟨hclose, -⟩ | ⟨-, -, heq⟩ | ⟨text, heq⟩ | ⟨hbegin, heq⟩
  · rw [not_close_of_open f.braceLine] at hclose
    cases hclose
  · rw [heq]
    exact hbody.unrecorded n hn
  · rw [heq]
    exact hbody.unrecorded n hn
  · rw [heq]
    exact (hbody.recorded hbegin).unrecorded n hn

/-- A line below every body that can still be recorded. -/
structure Passed (b : ℕ) (st : Scan) : Prop where
  unrecorded : st.oFuncInfo.lookup ((b : ℤ) + 1) = none
  ends : st.iBodyEndLine < b

/-- What is below stays to be recorded. -/
theorem Passed.scan {b : ℕ} {ls : List String} (h : Passed b st) (hi : i + ls.length ≤ b) :
    Passed b (scan i ls st) := by
  induction ls generalizing i with
  | nil => exact h
  | cons l ls ih =>
    rw [List.length_cons] at hi
    have hrest : Passed b (GetCppFunc.scan (i + 1) ls st) := ih (by omega)
    rw [scan_cons]
    rcases step_cases l i (GetCppFunc.scan (i + 1) ls st) with
      ⟨-, heq⟩ | ⟨-, -, heq⟩ | ⟨text, heq⟩ | ⟨-, heq⟩
    · rw [heq]
      refine ⟨hrest.unrecorded, ?_⟩
      dsimp only
      omega
    · rw [heq]
      exact ⟨hrest.unrecorded, hrest.ends⟩
    · rw [heq]
      exact ⟨hrest.unrecorded, hrest.ends⟩
    · rw [heq]
      have hends := hrest.ends
      refine ⟨(lookup_recorded (.inr (by omega))).trans hrest.unrecorded, ?_⟩
      rw [idle]
      dsimp only
      omega

/-- The lines of some functions end in a line that closes the last. -/
theorem linesOf_ends (funcs : List (List String × Func)) :
    linesOf funcs = [] ∨ ∃ ls l, linesOf funcs = ls ++ [l] ∧ startsWith l "\x7d" = true := by
  rcases List.eq_nil_or_concat funcs with rfl | ⟨funcs, p, rfl⟩
  · exact .inl rfl
  · refine .inr ⟨linesOf funcs ++ (p.1 ++ (p.2.decl ++ p.2.brace :: p.2.body)), p.2.close, ?_,
      p.2.closeLine⟩
    rw [List.concat_eq_append, linesOf, List.flatMap_append, List.flatMap_singleton, ← linesOf,
      Func.lines]
    simp only [List.append_assoc, List.cons_append]

/-- **A function directly below another**, or at the beginning of the file: its first line has no
name. -/
theorem lookup_of_adjacent (ps qs : List (List String × Func)) (f : Func) (trailing : List String) :
    (getFuncInfo (linesOf (ps ++ ([], f) :: qs) ++ trailing)).lookup
      ((((linesOf ps).length + f.decl.length : ℕ) : ℤ) + 1) = none := by
  have hlines : linesOf (ps ++ ([], f) :: qs) ++ trailing =
      linesOf ps ++ (f.lines ++ (linesOf qs ++ trailing)) := by
    rw [linesOf, List.flatMap_append, List.flatMap_cons, ← linesOf, ← linesOf, List.nil_append,
      List.append_assoc, List.append_assoc]
  have hinit : Above (0 + (linesOf ps).length + f.lines.length) ⟨∅, "", -1, -1⟩ :=
    ⟨fun _ _ => rfl, .inl rfl, fun _ => rfl⟩
  have hbelow :=
    @Above.scan _ (0 + (linesOf ps).length + f.lines.length) _ (linesOf qs ++ trailing) hinit
    (.inl le_rfl)
  have hlength := length_lines f
  have hfunc :=
    lookup_scan_func f hbelow (n := (((linesOf ps).length + f.decl.length : ℕ) : ℤ) + 1) (by omega)
  rw [getFuncInfo, hlines, scan_append, scan_append]
  generalize scan (0 + (linesOf ps).length) f.lines _ = st at hfunc ⊢
  rcases linesOf_ends ps with hnil | ⟨ls, l, hls, hclose⟩
  · rw [hnil] at hfunc ⊢
    exact hfunc
  · rw [hls] at hfunc ⊢
    have hlast : scan (0 + ls.length) [l] st = { st with iBodyEndLine := (0 + ls.length : ℕ) } :=
      step_close hclose
    rw [scan_append, hlast]
    have hpassed : Passed ((ls ++ [l]).length + f.decl.length)
        { st with iBodyEndLine := (0 + ls.length : ℕ) } := by
      refine ⟨hfunc, ?_⟩
      rw [List.length_append, List.length_singleton]
      dsimp only
      omega
    refine (hpassed.scan ?_).unrecorded
    rw [List.length_append, List.length_singleton]
    omega

/-! ### A whole file -/

/-- The first line of a function has its name. -/
theorem nameAt_append (ps qs : List (List String × Func)) (p : List String × Func) (i : ℕ) :
    nameAt i (ps ++ p :: qs) ((i + (linesOf ps).length + p.1.length + p.2.decl.length : ℕ) + 1) =
      some p.2.name := by
  induction ps generalizing i with
  | nil =>
    rw [List.nil_append, nameAt, if_pos]
    rw [linesOf, List.flatMap_nil, List.length_nil]
    omega
  | cons q ps ih =>
    have hlength :
        (linesOf (q :: ps)).length = q.1.length + q.2.lines.length + (linesOf ps).length := by
      rw [linesOf, List.flatMap_cons, List.length_append, List.length_append, ← linesOf]
    have hlines := length_lines q.2
    rw [List.cons_append, nameAt, if_neg (by omega), ← ih]
    congr 1
    omega

/-- A name at a line is that of a function. -/
theorem exists_of_nameAt {funcs : List (List String × Func)} {i : ℕ} {n : ℤ} {s : String}
    (h : nameAt i funcs n = some s) : ∃ p ∈ funcs, p.2.name = s := by
  induction funcs generalizing i with
  | nil => cases h
  | cons p funcs ih =>
    rw [nameAt] at h
    split at h
    · exact ⟨p, List.mem_cons_self, Option.some.inj h⟩
    · obtain ⟨q, hq, hname⟩ := ih h
      exact ⟨q, List.mem_cons_of_mem p hq, hname⟩

/-- **The lines of every function**: they have its name, and no other line has one, exactly where each
function stands below a blank line and has a name. -/
theorem getFuncInfo_iff (file : CppFile) :
    (∀ n, (getFuncInfo file.lines).lookup n = nameAt 0 file.funcs n) ↔
      ∀ p ∈ file.funcs, p.1 ≠ [] ∧ p.2.name ≠ "" := by
  constructor
  · intro h
    have hblank : ∀ p ∈ file.funcs, p.1 ≠ [] := by
      rintro ⟨gap, f⟩ hp rfl
      obtain ⟨ps, qs, hfuncs⟩ := List.append_of_mem hp
      have hname := nameAt_append ps qs ([], f) 0
      rw [← hfuncs, ← h, CppFile.lines, hfuncs, Nat.zero_add, List.length_nil, Nat.add_zero,
        lookup_of_adjacent] at hname
      cases hname
    obtain ⟨info, hscan, hinfo⟩ := scan_funcs file.blank hblank file.blank_trailing 0
    intro p hp
    refine ⟨hblank p hp, fun hempty => ?_⟩
    obtain ⟨ps, qs, hfuncs⟩ := List.append_of_mem hp
    have hname := nameAt_append ps qs p 0
    rw [← hfuncs] at hname
    have hlookup := h (((0 + (linesOf ps).length + p.1.length + p.2.decl.length : ℕ) : ℤ) + 1)
    rw [getFuncInfo, CppFile.lines, ← idle, hscan, hname] at hlookup
    have hnone := hinfo (((0 + (linesOf ps).length + p.1.length + p.2.decl.length : ℕ) : ℤ) + 1)
    rw [hname, hempty] at hnone
    cases hnone.symm.trans hlookup
  · intro h n
    obtain ⟨info, hscan, hinfo⟩ := scan_funcs file.blank (fun p hp => (h p hp).1) file.blank_trailing 0
    have hlookup : (getFuncInfo file.lines).lookup n = info.lookup n := by
      rw [getFuncInfo, CppFile.lines, ← idle, hscan]
      rfl
    rw [hlookup, hinfo]
    cases hname : nameAt 0 file.funcs n with
    | none => rfl
    | some s =>
      obtain ⟨p, hp, rfl⟩ := exists_of_nameAt hname
      rw [Option.filter_some, decide_eq_true (h p hp).2]
      rfl

/-- A file that begins with its one function. -/
def payFile : CppFile where
  funcs := [([], .ofLine "int pay(int sum)\n" "\x7b\n" ["    return sum;\n"] "\x7d\n" (by decide) (by decide)
    (by decide) (by decide) (by decide) (by decide))]
  trailing := []
  blank := by decide
  blank_trailing := by decide

/-- Its lines have no name, since no line above it ends the declaration. -/
theorem not_getFuncInfo_first :
    ¬ ∀ (file : CppFile) (n : ℤ), (getFuncInfo file.lines).lookup n = nameAt 0 file.funcs n := by
  intro h
  have hcode : (getFuncInfo payFile.lines).lookup 2 = none := by decide +kernel
  have hclaim : nameAt 0 payFile.funcs 2 = some "pay" := by decide +kernel
  rw [h, hclaim] at hcode
  cases hcode

end GetCppFunc

end MBT
