import MBT.Support.Split

/-!
# Support — Brackets

Texts in which every bracket is closed by its own kind, read with a stack of what is to be closed.

* `Balanced.scan`: a balanced text leaves every stack as it was.
* `scan_filter`: only the brackets of a text count.
* `balanced_flatten_iff`: parts that are balanced or go wrong from every stack are balanced together
  exactly when each of them is.
-/

namespace Brackets
open Text

/-- The closing bracket of an opening one. -/
def closing (c : Char) : Option Char :=
  if c = '(' then some ')' else if c = '[' then some ']' else if c = '\x7b' then some '\x7d' else none

/-- A closing bracket. -/
def isClosing (c : Char) : Bool := c = ')' || c = ']' || c = '\x7d'

/-- The next closing bracket that is read has to be the one on top. -/
def pop (c : Char) : List Char → Option (List Char)
  | [] => none
  | d :: stack => if d = c then some stack else none

/-- What is to be closed behind a character. -/
def step (stack : List Char) (c : Char) : Option (List Char) :=
  match closing c with
  | some d => some (d :: stack)
  | none => if isClosing c then pop c stack else some stack

/-- The brackets that are to be closed behind a text, the next one first; `none` where the text
closes another than that. -/
def scan (stack s : List Char) : Option (List Char) := s.foldlM step stack

/-- Every bracket is closed by its own kind, properly nested. -/
def Balanced (s : List Char) : Prop := scan [] s = some []

instance (s : List Char) : Decidable (Balanced s) := inferInstanceAs (Decidable (_ = _))

/-- A text that goes wrong whatever is to be closed. -/
def Broken (s : List Char) : Prop := ∀ stack, scan stack s = none

theorem scan_cons (stack : List Char) (c : Char) (s : List Char) :
    scan stack (c :: s) = (step stack c).bind fun stack' => scan stack' s := List.foldlM_cons

theorem scan_append (stack s t : List Char) :
    scan stack (s ++ t) = (scan stack s).bind fun stack' => scan stack' t := List.foldlM_append

/-- What is below on the stack does not matter to a character that does not reach it. -/
theorem step_frame {stack stack' : List Char} {c : Char} (h : step stack c = some stack')
    (below : List Char) : step (stack ++ below) c = some (stack' ++ below) := by
  rw [step] at h ⊢
  cases hc : closing c with
  | some d =>
    rw [hc] at h
    cases h
    rfl
  | none =>
    rw [hc] at h
    dsimp only at h ⊢
    split at h
    · rename_i hclosing
      rw [if_pos hclosing]
      cases stack with
      | nil => cases h
      | cons d stack =>
        rw [pop] at h
        split at h
        · rename_i hd
          cases h
          exact if_pos hd
        · cases h
    · rename_i hclosing
      rw [if_neg hclosing]
      cases h
      rfl

/-- Brackets below those of a text do not matter to it. -/
theorem scan_frame {stack stack' s : List Char} (h : scan stack s = some stack') (below : List Char) :
    scan (stack ++ below) s = some (stack' ++ below) := by
  induction s generalizing stack with
  | nil =>
    cases h
    rfl
  | cons c s ih =>
    rw [scan_cons] at h ⊢
    obtain ⟨stack₁, hstep, hs⟩ := Option.bind_eq_some_iff.mp h
    rw [step_frame hstep below, Option.bind_some]
    exact ih hs

/-- A balanced text leaves every stack as it was. -/
theorem Balanced.scan {s : List Char} (h : Balanced s) (stack : List Char) :
    Brackets.scan stack s = some stack := scan_frame h stack

theorem Balanced.append {s t : List Char} (hs : Balanced s) (ht : Balanced t) :
    Balanced (s ++ t) := by
  rw [Balanced, scan_append, hs]
  exact ht

/-- A balanced text at the end does not matter. -/
theorem balanced_append_iff {s t : List Char} (ht : Balanced t) :
    Balanced (s ++ t) ↔ Balanced s := by
  rw [Balanced, scan_append, Balanced]
  cases hs : scan [] s with
  | none => exact Iff.rfl
  | some stack =>
    rw [Option.bind_some, ht.scan]

/-- A balanced text inside another does not matter. -/
theorem scan_insert {p : List Char} (hp : Balanced p) (stack s t : List Char) :
    Brackets.scan stack (s ++ (p ++ t)) = Brackets.scan stack (s ++ t) := by
  rw [scan_append, scan_append]
  refine congrArg _ (funext fun stack' => ?_)
  rw [scan_append, hp.scan, Option.bind_some]

/-- What comes in front repairs nothing. -/
theorem Broken.append_left {t : List Char} (ht : Broken t) (s : List Char) : Broken (s ++ t) := by
  intro stack
  rw [scan_append]
  cases scan stack s with
  | none => rfl
  | some stack' => exact ht stack'

/-- Nor does what comes behind. -/
theorem Broken.append_right {s : List Char} (hs : Broken s) (t : List Char) : Broken (s ++ t) := by
  intro stack
  rw [scan_append, hs stack]
  rfl

/-- A broken text is not balanced. -/
theorem Broken.not_balanced {s : List Char} (h : Broken s) : ¬ Balanced s := by
  rw [Balanced, h []]
  intro hnone
  cases hnone

/-- A balanced text between an opening bracket and its closing one. -/
theorem Balanced.enclose {c d : Char} {s : List Char} (hs : Balanced s) (hc : closing c = some d)
    (hd : closing d = none) (hclosing : isClosing d = true) : Balanced (c :: (s ++ [d])) := by
  have hopen : step [] c = some [d] := by rw [step, hc]
  have hclose : step [d] d = some [] := by
    rw [step, hd]
    dsimp only
    rw [if_pos hclosing, pop, if_pos rfl]
  rw [Balanced, scan_cons, hopen, Option.bind_some, scan_append, hs.scan, Option.bind_some,
    scan_cons, hclose]
  rfl

/-- A text before another one in brackets. -/
theorem balanced_enclose_iff {c d : Char} {n s : List Char} (hs : Balanced s ∨ Broken s)
    (hc : closing c = some d) (hd : closing d = none) (hclosing : isClosing d = true) :
    Balanced (n ++ c :: (s ++ [d])) ↔ Balanced n ∧ Balanced s := by
  rcases hs with hs | hs
  · rw [balanced_append_iff (hs.enclose hc hd hclosing)]
    exact (and_iff_left hs).symm
  · have hbroken : Broken (n ++ ([c] ++ (s ++ [d]))) :=
      ((hs.append_right [d]).append_left [c]).append_left n
    exact iff_of_false hbroken.not_balanced fun h => hs.not_balanced h.2

/-! ### Only brackets count -/

/-- A bracket of any kind. -/
def isBracket (c : Char) : Bool := (closing c).isSome || isClosing c

/-- Other characters close and open nothing. -/
theorem step_of_not {c : Char} (h : isBracket c = false) (stack : List Char) :
    step stack c = some stack := by
  rw [isBracket, Bool.or_eq_false_iff, Option.isSome_eq_false_iff, Option.isNone_iff_eq_none] at h
  rw [step, h.1]
  exact if_neg (ne_true_of_eq_false h.2)

/-- Only the brackets matter. -/
theorem scan_filter (stack s : List Char) : scan stack (s.filter isBracket) = scan stack s := by
  induction s generalizing stack with
  | nil => rfl
  | cons c s ih =>
    rw [List.filter_cons]
    split
    · rw [scan_cons, scan_cons]
      exact congrArg _ (funext ih)
    · rename_i hc
      rw [scan_cons, step_of_not (Bool.eq_false_iff.mpr hc), Option.bind_some, ih]

theorem balanced_congr {s t : List Char} (h : s.filter isBracket = t.filter isBracket) :
    Balanced s ↔ Balanced t := by
  rw [Balanced, Balanced, ← scan_filter, h, scan_filter]

/-! ### Texts in parts -/

/-- Parts that go wrong from every stack or from none. -/
theorem balanced_flatten_iff {ps : List (List Char)} (h : ∀ p ∈ ps, Balanced p ∨ Broken p) :
    (Balanced ps.flatten ∨ Broken ps.flatten) ∧ (Balanced ps.flatten ↔ ∀ p ∈ ps, Balanced p) := by
  induction ps with
  | nil => exact ⟨.inl rfl, iff_of_true rfl (List.forall_mem_nil _)⟩
  | cons p ps ih =>
    obtain ⟨hor, hiff⟩ := ih fun q hq => h q (List.mem_cons_of_mem p hq)
    rw [List.flatten_cons, List.forall_mem_cons, ← hiff]
    rcases h p List.mem_cons_self with hp | hp
    · rcases hor with hps | hps
      · exact ⟨.inl (hp.append hps), iff_of_true (hp.append hps) ⟨hp, hps⟩⟩
      · have hbroken := hps.append_left p
        exact ⟨.inr hbroken, iff_of_false hbroken.not_balanced fun h => hps.not_balanced h.2⟩
    · have hbroken := hp.append_right ps.flatten
      exact ⟨.inr hbroken, iff_of_false hbroken.not_balanced fun h => hp.not_balanced h.1⟩

end Brackets
