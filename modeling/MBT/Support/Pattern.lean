import MBT.Support.Exec
import MBT.Support.Text

/-!
# Support — Pattern

Replacing the matches of a regular expression by a template, and texts with marks that are replaced
one mark after another.

* `replaceAll` has its own meaning where the expression stands for one text; any other expression
  goes to an engine that is left open.
* `replaceChars_render`: where a text has no occurrence of a mark but those that were put there,
  replacing the mark fills these in and leaves the rest.
* `render_pieces`: a text is put together again from its pieces.
-/

namespace Pattern
open Exec Text

/-! ### Expressions that stand for one text -/

/-- The characters with a meaning in an expression. -/
def special : List Char :=
  ['\\', '^', '$', '.', '|', '?', '*', '+', '(', ')', '[', ']', '\x7b', '\x7d']

/-- The one text that an expression matches, where it has only plain and quoted characters. -/
def literal : List Char → Option (List Char)
  | [] => some []
  | ['\\'] => none
  | '\\' :: c :: s => if c.isAlphanum then none else (literal s).map (c :: ·)
  | c :: s => if c ∈ special then none else (literal s).map (c :: ·)

/-- No character has a meaning in an expression. -/
def Plain (s : List Char) : Prop := ∀ c ∈ s, c ∉ special

instance (s : List Char) : Decidable (Plain s) := List.decidableBAll (· ∉ special) s

theorem literal_cons {c : Char} (hc : c ∉ special) (s : List Char) :
    literal (c :: s) = (literal s).map (c :: ·) := by
  have hback : c ≠ '\\' := fun h => hc (h ▸ List.mem_cons_self)
  rw [literal, if_neg hc]
  · exact fun h _ => hback h
  · exact fun d t h _ => hback h

/-- So do plain characters. -/
theorem literal_plain {n : List Char} (hn : Plain n) (s : List Char) :
    literal (n ++ s) = (literal s).map (n ++ ·) := by
  induction n with
  | nil => exact (Option.map_id' ..).symm
  | cons c n ih =>
    rw [List.cons_append, literal_cons (hn c List.mem_cons_self),
      ih fun d hd => hn d (List.mem_cons_of_mem _ hd), Option.map_map]
    rfl

/-! ### Templates -/

/-- The text that a template gives for a match without groups; `ref` is set behind a reference to
the whole match, which takes any zeros that follow. -/
def expand (found : List Char) : Bool → List Char → Except Exn (List Char)
  | _, [] => .ok []
  | true, '0' :: s => expand found true s
  | _, ['\\'] => .error .illegalArgument
  | _, '\\' :: c :: s => (c :: ·) <$> expand found false s
  | _, ['$'] => .error .illegalArgument
  | _, '$' :: c :: s =>
    if c = '0' then (found ++ ·) <$> expand found true s
    else if c.isDigit then .error .indexOutOfBounds
    else .error .illegalArgument
  | _, c :: s => (c :: ·) <$> expand found false s

/-- The template has no character with a meaning in it. -/
def Verbatim (s : List Char) : Prop := '$' ∉ s ∧ '\\' ∉ s

/-- A template without special characters stands for itself. -/
theorem expand_verbatim (found : List Char) {s : List Char} (h : Verbatim s) :
    expand found false s = .ok s := by
  induction s with
  | nil => rfl
  | cons c s ih =>
    have hdollar : c ≠ '$' := fun e => h.1 (e ▸ List.mem_cons_self)
    have hback : c ≠ '\\' := fun e => h.2 (e ▸ List.mem_cons_self)
    have ih := ih ⟨fun hs => h.1 (List.mem_cons_of_mem _ hs), fun hs => h.2 (List.mem_cons_of_mem _ hs)⟩
    rw [expand.eq_def]
    split <;> simp_all

/-! ### Occurrences -/

/-- The number of places at which `t` occurs. -/
def occurrences (t : List Char) : List Char → ℕ
  | [] => 0
  | c :: s => (if t.isPrefixOf (c :: s) then 1 else 0) + occurrences t s

/-- `replaceAll(regex, goal)` of a string, over an engine for the expressions that do not stand for
one text.  The template is only read where there is a match. -/
def replaceAll (engine : String → String → String → Except Exn String) (s regex goal : String) :
    Except Exn String :=
  match literal regex.toList with
  | some (c :: t) =>
    if occurrences (c :: t) s.toList = 0 then .ok s
    else do
      let goal ← expand (c :: t) false goal.toList
      return String.ofList (replaceChars (c :: t) goal 0 s.toList)
  | _ => engine s regex goal

example : replaceAll (fun _ _ _ => .error .illegalArgument) "a.b.c" "\\." "$0\\$" = .ok "a.$b.$c" := by
  decide

theorem replaceChars_skip (t g s : List Char) (k : ℕ) :
    replaceChars t g k s = replaceChars t g 0 (s.drop k) := by
  induction s generalizing k with
  | nil => rw [List.drop_nil]; cases k <;> rfl
  | cons c s ih =>
    cases k with
    | zero => rfl
    | succ k => exact ih k

/-- Where the text does not occur nothing is replaced. -/
theorem replaceChars_none {t : List Char} (g : List Char) {s : List Char} (h : occurrences t s = 0) :
    replaceChars t g 0 s = s := by
  induction s with
  | nil => rfl
  | cons c s ih =>
    rw [occurrences, Nat.add_eq_zero_iff] at h
    have hc : t.isPrefixOf (c :: s) = false := by
      cases hp : t.isPrefixOf (c :: s) with
      | false => rfl
      | true => rw [hp] at h; cases h.1
    rw [replaceChars, hc, if_neg Bool.false_ne_true, ih h.2]

/-- What is filled in somewhere is in the text. -/
theorem mem_replaceChars {t g s : List Char} {c : Char} (h : occurrences t s ≠ 0) (hc : c ∈ g) :
    c ∈ replaceChars t g 0 s := by
  induction s with
  | nil => exact absurd rfl h
  | cons d s ih =>
    rw [replaceChars]
    split
    · exact List.mem_append_left _ hc
    · rename_i hp
      rw [occurrences, if_neg hp, Nat.zero_add] at h
      exact List.mem_cons_of_mem d (ih h)

/-- A text that begins with another, in two parts. -/
theorem append_drop_of_isPrefixOf {t s : List Char} (h : t.isPrefixOf s = true) :
    t ++ s.drop t.length = s :=
  List.prefix_iff_eq_append.mp (List.isPrefixOf_iff_prefix.mp h)

/-- Replacing a text by itself changes nothing. -/
theorem replaceChars_self (c : Char) (t s : List Char) : replaceChars (c :: t) (c :: t) 0 s = s := by
  suffices H : ∀ s k, replaceChars (c :: t) (c :: t) k s = s.drop k from H s 0
  intro s
  induction s with
  | nil => intro k; rw [List.drop_nil]; cases k <;> rfl
  | cons d s ih =>
    intro k
    cases k with
    | succ k => exact ih k
    | zero =>
      rw [replaceChars]
      split
      · rename_i hp
        rw [ih]
        exact append_drop_of_isPrefixOf hp
      · rw [ih]
        rfl

/-- The number of places in `x` at which `t` occurs in `x ++ r`. -/
def startsIn (t : List Char) : List Char → List Char → ℕ
  | [], _ => 0
  | c :: x, r => (if t.isPrefixOf (c :: (x ++ r)) then 1 else 0) + startsIn t x r

theorem occurrences_append (t x r : List Char) :
    occurrences t (x ++ r) = startsIn t x r + occurrences t r := by
  induction x with
  | nil => exact (Nat.zero_add _).symm
  | cons c x ih => rw [List.cons_append, occurrences, startsIn, ih, Nat.add_assoc]

theorem replaceChars_append {t x r : List Char} (g : List Char) (h : startsIn t x r = 0) :
    replaceChars t g 0 (x ++ r) = x ++ replaceChars t g 0 r := by
  induction x with
  | nil => rfl
  | cons c x ih =>
    rw [startsIn, Nat.add_eq_zero_iff] at h
    have hc : t.isPrefixOf (c :: (x ++ r)) = false := by
      cases hp : t.isPrefixOf (c :: (x ++ r)) with
      | false => rfl
      | true => rw [hp] at h; cases h.1
    rw [List.cons_append, replaceChars, hc, if_neg Bool.false_ne_true, ih h.2, List.cons_append]

theorem isPrefixOf_append (a : Char) (t r : List Char) :
    (a :: t).isPrefixOf (a :: (t ++ r)) = true :=
  List.isPrefixOf_iff_prefix.mpr (List.prefix_append (a :: t) r)

/-- Where the first character of `t` is missing, `t` does not begin. -/
theorem startsIn_eq_zero {a : Char} {t x : List Char} (h : a ∉ x) (r : List Char) :
    startsIn (a :: t) x r = 0 := by
  induction x with
  | nil => rfl
  | cons c x ih =>
    rw [List.mem_cons, not_or] at h
    rw [startsIn, ih h.2, List.isPrefixOf, beq_eq_false_iff_ne.mpr h.1]
    rfl

/-! ### What is left of the other characters -/

/-- Without a character in the goal, none is left where each of them is replaced. -/
theorem notMem_replaceChars {c : Char} {g : List Char} (hg : c ∉ g) (s : List Char) :
    c ∉ replaceChars [c] g 0 s := by
  induction s with
  | nil => exact List.not_mem_nil
  | cons d s ih =>
    rw [replaceChars]
    split
    · rw [List.mem_append, not_or]
      exact ⟨hg, ih⟩
    · rename_i hd
      rw [List.mem_cons, not_or]
      refine ⟨fun h => hd ?_, ih⟩
      rw [h]
      exact isPrefixOf_append d [] s

/-- A character that the goal has as often as the target is in the text as often as before. -/
theorem count_replaceChars {c a : Char} {t g : List Char} (h : g.count c = (a :: t).count c)
    (s : List Char) : (replaceChars (a :: t) g 0 s).count c = s.count c := by
  induction hn : s.length using Nat.strong_induction_on generalizing s with
  | _ n ih =>
    cases s with
    | nil => rfl
    | cons d s =>
      rw [replaceChars]
      split
      · rename_i hpre
        have hdrop := append_drop_of_isPrefixOf hpre
        have hlen : (s.drop t.length).length < n := by
          rw [← hn, List.length_drop, List.length_cons]
          omega
        rw [replaceChars_skip, List.count_append, List.length_cons, Nat.add_sub_cancel,
          ih _ hlen _ rfl, h, ← List.count_append]
        exact congrArg (List.count c) hdrop
      · rw [List.count_cons, List.count_cons, ih s.length (hn ▸ Nat.lt_succ_self _) s rfl]

/-! ### Marked texts -/

section Marks

variable {ν : Type}

/-- A piece of a text: a character, or a mark with a name. -/
inductive Piece (ν : Type) where
  | char (c : Char)
  | mark (n : ν)
  deriving DecidableEq

/-- The text with `w` in the place of each mark. -/
def render (w : ν → List Char) (ps : List (Piece ν)) : List Char :=
  ps.flatMap fun
    | .char c => [c]
    | .mark n => w n

/-- The pieces of a text, found from left to right; `skip` characters of a mark are still to be
left out. -/
def pieces (mark : ν → List Char) (names : List ν) : ℕ → List Char → List (Piece ν)
  | _, [] => []
  | 0, c :: s =>
    match names.find? fun n => (mark n).isPrefixOf (c :: s) with
    | some n => .mark n :: pieces mark names ((mark n).length - 1) s
    | none => .char c :: pieces mark names 0 s
  | skip + 1, _ :: s => pieces mark names skip s

/-- A character stands for itself. -/
theorem render_char (w : ν → List Char) (c : Char) (ps : List (Piece ν)) :
    render w (.char c :: ps) = c :: render w ps := rfl

theorem render_append (w : ν → List Char) (ps qs : List (Piece ν)) :
    render w (ps ++ qs) = render w ps ++ render w qs := List.flatMap_append

/-- Characters stand for themselves. -/
theorem render_chars (w : ν → List Char) (s : List Char) : render w (s.map .char) = s := by
  induction s with
  | nil => rfl
  | cons c s ih => exact congrArg (c :: ·) ih

/-- A mark gets its text. -/
theorem render_mark (w : ν → List Char) (n : ν) (ps : List (Piece ν)) :
    render w (.mark n :: ps) = w n ++ render w ps := rfl

/-- A text is put together again from its pieces. -/
theorem render_pieces {mark : ν → List Char} {names : List ν} (h : ∀ n ∈ names, mark n ≠ [])
    (s : List Char) : render mark (pieces mark names 0 s) = s := by
  suffices H : ∀ s k, render mark (pieces mark names k s) = s.drop k from H s 0
  intro s
  induction s with
  | nil => intro k; rw [List.drop_nil]; cases k <;> rfl
  | cons c s ih =>
    intro k
    cases k with
    | succ k => exact ih k
    | zero =>
      rw [pieces]
      cases hfind : names.find? fun n => (mark n).isPrefixOf (c :: s) with
      | none => exact congrArg (c :: ·) (ih 0)
      | some n =>
        have hn := List.find?_some hfind
        obtain ⟨a, t, ht⟩ := List.exists_cons_of_ne_nil (h n (List.mem_of_find?_eq_some hfind))
        dsimp only
        rw [render_mark, ih, ← append_drop_of_isPrefixOf hn, ht]
        rfl

/-- Only the names that are looked for become marks. -/
theorem mem_of_mark_mem_pieces {mark : ν → List Char} {names : List ν} {n : ν} {k : ℕ} {s : List Char}
    (h : .mark n ∈ pieces mark names k s) : n ∈ names := by
  induction s generalizing k with
  | nil => cases k <;> cases h
  | cons c s ih =>
    cases k with
    | succ k => exact ih h
    | zero =>
      rw [pieces] at h
      cases hfind : names.find? fun n => (mark n).isPrefixOf (c :: s) with
      | none =>
        rw [hfind] at h
        exact ih ((List.mem_cons.mp h).resolve_left nofun)
      | some m =>
        rw [hfind] at h
        rcases List.mem_cons.mp h with h | h
        · cases h
          exact List.mem_of_find?_eq_some hfind
        · exact ih h

variable [DecidableEq ν]

/-- A character is no mark. -/
theorem count_mark_char (n : ν) (c : Char) (ps : List (Piece ν)) :
    (Piece.char c :: ps).count (.mark n) = ps.count (.mark n) :=
  List.count_cons_of_ne (show Piece.char c ≠ .mark n from nofun)

/-- Each mark is an occurrence of its text. -/
theorem count_mark_le {w : ν → List Char} {n : ν} {a : Char} {t : List Char} (hw : w n = a :: t)
    (ps : List (Piece ν)) : ps.count (.mark n) ≤ occurrences (a :: t) (render w ps) := by
  induction ps with
  | nil => exact le_rfl
  | cons p ps ih =>
    cases p with
    | char c =>
      rw [count_mark_char, render_char, occurrences]
      exact ih.trans (Nat.le_add_left _ _)
    | mark m =>
      rw [render_mark, occurrences_append]
      by_cases hm : m = n
      · subst hm
        have hstart := isPrefixOf_append a t (render w ps)
        rw [List.count_cons_self, hw, startsIn, hstart, if_pos rfl]
        omega
      · rw [List.count_cons_of_ne fun h => hm (Piece.mark.inj h)]
        exact ih.trans (Nat.le_add_left _ _)

/-- Replacing a mark fills in its places, where the text has no other occurrence of it.  The first
character of the mark is not in it again. -/
theorem replaceChars_render {w : ν → List Char} {n : ν} {a : Char} {t : List Char} (hw : w n = a :: t)
    (ha : a ∉ t) (g : List Char) {ps : List (Piece ν)}
    (h : occurrences (a :: t) (render w ps) = ps.count (.mark n)) :
    replaceChars (a :: t) g 0 (render w ps) = render (Function.update w n g) ps := by
  induction ps with
  | nil => rfl
  | cons p ps ih =>
    have hle := count_mark_le hw ps
    cases p with
    | char c =>
      rw [count_mark_char, render_char] at h
      have happend : occurrences (a :: t) (c :: render w ps) =
          startsIn (a :: t) [c] (render w ps) + occurrences (a :: t) (render w ps) :=
        occurrences_append (a :: t) [c] (render w ps)
      have hstart : startsIn (a :: t) [c] (render w ps) = 0 := by omega
      rw [render_char, render_char, ← ih (by omega)]
      exact replaceChars_append g hstart
    | mark m =>
      rw [render_mark, occurrences_append] at h
      rw [render_mark, render_mark]
      by_cases hm : m = n
      · subst hm
        rw [List.count_cons_self, hw, startsIn, startsIn_eq_zero ha, isPrefixOf_append, if_pos rfl] at h
        rw [Function.update_self, hw, List.cons_append, replaceChars,
          isPrefixOf_append, if_pos rfl, replaceChars_skip, List.length_cons, Nat.add_sub_cancel,
          List.drop_left, ih (by omega)]
      · rw [List.count_cons_of_ne fun e => hm (Piece.mark.inj e)] at h
        rw [Function.update_of_ne hm, replaceChars_append g (by omega), ih (by omega)]

end Marks

end Pattern
