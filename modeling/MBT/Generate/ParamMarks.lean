import MBT.Generate.MGenMbt
import MBT.Support.Closed

/-!
# Generate — ParamMarks

The calls that read a parameter are made marks: the names are cut out of what a regular expression
finds, and each name is replaced in the whole line.

* `turns_eq_iff`: what the names do to the part of a line up to a closing parenthesis.
* `replaceParams_iff`: when the calls with a literal become marks and everything else is kept.
-/

namespace MBT.MGenMbt
open Exec Text Pattern Closed

/-! ### Calls and marks -/

/-- The parameters that a line may read. -/
inductive Param where
  | scen | step
  deriving DecidableEq

namespace Param

/-- The name of the parameter in the user's source. -/
def word : Param → String
  | scen => "scenParam"
  | step => "stepParam"

/-- The word of the mark that replaces it. -/
def mark : Param → String
  | scen => "MBT_SCEN_PARAM"
  | step => "MBT_STEP_PARAM"

/-- How a call on the parameter begins. -/
def opening (p : Param) : List Char := p.word.toList ++ ".get(".toList

/-- A call with a literal, up to the parenthesis that closes it. -/
def call (p : Param) (x : List Char) : List Char := p.opening ++ '"' :: (x ++ ['"'])

/-- The mark for it, up to its closing parenthesis. -/
def markOf (p : Param) (x : List Char) : List Char := '"' :: '\x7b' :: (p.mark.toList ++ '(' :: x)

end Param

/-- What follows the closing parenthesis of a mark. -/
def markEnd : List Char := ['\x7d', '"']

/-- The call with a literal at the start of a text: its name has no quotes and no closing
parentheses. -/
def literalCall (ps : List Param) (s : List Char) : Option (Param × List Char) :=
  ps.findSome? fun p =>
    if (p.opening ++ ['"']).isPrefixOf s then
      let r := s.drop (p.opening.length + 1)
      let x := r.takeWhile fun c => c ≠ '"' && c ≠ ')'
      if ['"', ')'].isPrefixOf (r.drop x.length) then some (p, x) else none
    else none

/-- The text with a mark for each call with a literal; `skip` characters of a call are still to be
left out. -/
def withMarksChars (ps : List Param) : ℕ → List Char → List Char
  | _, [] => []
  | 0, c :: s =>
    match literalCall ps (c :: s) with
    | some (p, x) => p.markOf x ++ ')' :: markEnd ++ withMarksChars ps (p.call x).length s
    | none => c :: withMarksChars ps 0 s
  | skip + 1, _ :: s => withMarksChars ps skip s

/-- The line with marks in place of the calls. -/
def withMarks (ps : List Param) (line : String) : String :=
  String.ofList (withMarksChars ps 0 line.toList)

example : withMarks [.scen, .step] "f(scenParam.get(\"a\"), stepParam.get(b), stepParam.get(\"\"));" =
    "f(\"\x7bMBT_SCEN_PARAM(a)\x7d\", stepParam.get(b), \"\x7bMBT_STEP_PARAM()\x7d\");" := by
  decide +kernel

/-! ### The calls at the end of a part -/

section Calls

variable {p q : Param} {ps : List Param} {a b s r x y : List Char}

/-- Both openings are as long as the source's index says. -/
theorem length_opening (p : Param) : p.opening.length = 14 := by
  cases p <;> rfl

/-- The openings differ. -/
theorem opening_injective (h : p.opening = q.opening) : p = q := by
  cases p <;> cases q <;> first | rfl | exact absurd h (by decide)

/-- No opening and no mark holds a closing bracket or a brace. -/
theorem notMem_opening (p : Param) : ')' ∉ p.opening ∧ '\x7b' ∉ p.opening ∧ '\x7b' ∉ p.mark.toList ∧
    ')' ∉ p.mark.toList := by
  cases p <;> decide

/-- Each call begins with the same letter. -/
theorem exists_call (p : Param) (x : List Char) : ∃ t, p.call x = 's' :: t := by
  cases p <;> exact ⟨_, rfl⟩

/-- A call tells its parameter and its name. -/
theorem call_inj : p.call x = q.call y ↔ p = q ∧ x = y := by
  constructor
  · intro h
    obtain ⟨hopening, hrest⟩ := List.append_inj h ((length_opening p).trans (length_opening q).symm)
    exact ⟨opening_injective hopening, (List.append_left_inj _).mp (List.cons.inj hrest).2⟩
  · rintro ⟨rfl, rfl⟩
    rfl

/-- The call with a literal that ends a text is unique. -/
theorem call_suffix_unique (hx : '"' ∉ x) (hy : '"' ∉ y) (h : p.call x <:+ s) (h' : q.call y <:+ s) :
    p = q ∧ x = y := by
  obtain ⟨a, rfl⟩ := h
  obtain ⟨b, h⟩ := h'
  have hend :
      y.reverse ++ '"' :: (b ++ q.opening).reverse = x.reverse ++ '"' :: (a ++ p.opening).reverse := by
    have hrev := congrArg List.reverse h
    simp only [Param.call, List.reverse_append, List.reverse_cons, List.reverse_nil, List.nil_append,
      List.append_assoc, List.cons_append, List.cons.injEq, true_and] at hrev ⊢
    exact hrev
  obtain ⟨hname, hopening⟩ :=
    (closed_inj (mt List.mem_reverse.mp hy) (mt List.mem_reverse.mp hx)).mp hend
  obtain ⟨-, hword⟩ := List.append_inj' (List.reverse_injective hopening)
    ((length_opening q).trans (length_opening p).symm)
  exact ⟨(opening_injective hword).symm, (List.reverse_injective hname).symm⟩

/-- So does what it is replaced by. -/
theorem mark_inj (hs : a ++ p.call x = b ++ q.call y) (hmark : a ++ p.markOf x = b ++ q.markOf y) :
    p = q ∧ x = y := by
  -- the part in front of the one call is not longer than the other: a mark begins with no letter
  have hnil : ∀ {a b x y : List Char} {p q : Param}, a ++ p.markOf x = a ++ b ++ q.markOf y →
      p.call x = b ++ q.call y → b = [] := by
    intro a b x y p q hmark hcall
    cases b with
    | nil => rfl
    | cons c b =>
      obtain ⟨t, ht⟩ := exists_call p x
      rw [List.append_assoc, List.append_cancel_left_eq] at hmark
      rw [ht] at hcall
      have hc : '"' = c := (List.cons.inj hmark).1
      cases (List.cons.inj hcall).1.trans hc.symm
  rcases List.append_eq_append_iff.mp hs with ⟨c, rfl, hcall⟩ | ⟨c, rfl, hcall⟩
  · have hc := hnil hmark hcall
    rw [hc, List.nil_append] at hcall
    exact call_inj.mp hcall
  · have hc := hnil hmark.symm hcall
    rw [hc, List.nil_append] at hcall
    exact call_inj.mp hcall.symm

/-- A call has no closing bracket before its end. -/
theorem notMem_call (hx : ')' ∉ x) (p : Param) : ')' ∉ p.call x := by
  rw [Param.call, List.mem_append, List.mem_cons, List.mem_append, List.mem_singleton, not_or, not_or,
    not_or]
  exact ⟨(notMem_opening p).1, by decide, hx, by decide⟩

/-- A call with its closing bracket. -/
theorem call_closed (p : Param) (x r : List Char) :
    p.call x ++ ')' :: r = p.opening ++ '"' :: (x ++ '"' :: ')' :: r) := by
  rw [Param.call, List.append_assoc, List.cons_append, List.append_assoc, List.singleton_append]

/-- The call that begins a text up to its first closing bracket. -/
theorem literalCall_closed (hs : ')' ∉ s) : literalCall ps (s ++ ')' :: r) = some (p, x) ↔
    p ∈ ps ∧ '"' ∉ x ∧ p.call x = s := by
  have hsound :
      ∀ {q y}, literalCall ps (s ++ ')' :: r) = some (q, y) → q ∈ ps ∧ '"' ∉ y ∧ q.call y = s := by
    intro q y h
    obtain ⟨q', hq', h⟩ := List.exists_of_findSome?_eq_some h
    split at h
    · rename_i hopening
      obtain ⟨t, ht⟩ := List.isPrefixOf_iff_prefix.mp hopening
      have hdrop : (s ++ ')' :: r).drop (q'.opening.length + 1) = t := by
        rw [← ht, ← List.length_singleton (a := '"'), ← List.length_append, List.drop_left]
      dsimp only at h
      rw [hdrop] at h
      split at h
      · rename_i hquote
        obtain ⟨rfl, rfl⟩ := Prod.mk.inj (Option.some.inj h)
        obtain ⟨t', ht'⟩ := List.isPrefixOf_iff_prefix.mp hquote
        have hname : t.takeWhile (fun c => c ≠ '"' && c ≠ ')') ++ ('"' :: ')' :: t') = t := by
          have hpre := List.takeWhile_prefix (fun c => c ≠ '"' && c ≠ ')') (l := t)
          rw [List.cons_append, List.cons_append, List.nil_append] at ht'
          rw [ht']
          exact (congrArg (· ++ _) (List.prefix_iff_eq_take.mp hpre)).trans (List.take_append_drop _ _)
        have hall : ∀ c ∈ t.takeWhile fun c => c ≠ '"' && c ≠ ')', c ≠ '"' ∧ c ≠ ')' := by
          intro c hc
          simpa using List.mem_takeWhile_imp hc
        refine ⟨hq', fun hc => (hall _ hc).1 rfl, ?_⟩
        have hclosed := call_closed q' (t.takeWhile fun c => c ≠ '"' && c ≠ ')') t'
        have hopen : q'.opening ++ '"' :: t = s ++ ')' :: r := by
          rw [← ht, List.append_assoc, List.singleton_append]
        rw [hname, hopen] at hclosed
        exact ((closed_inj (notMem_call (fun hc => (hall _ hc).2 rfl) q') hs).mp hclosed).1
      · cases h
    · cases h
  refine ⟨hsound, ?_⟩
  rintro ⟨hp, hx, rfl⟩
  have hsome : (literalCall ps (p.call x ++ ')' :: r)).isSome = true := by
    refine List.findSome?_isSome_iff.mpr ⟨p, hp, ?_⟩
    have hx' : ')' ∉ x := fun hx => hs (by simp [Param.call, hx])
    have hdrop : (p.opening ++ '"' :: (x ++ '"' :: ')' :: r)).drop (p.opening.length + 1) =
        x ++ '"' :: ')' :: r := by
      rw [← List.drop_drop, List.drop_left]
      rfl
    have htake : (x ++ '"' :: ')' :: r).takeWhile (fun c => c ≠ '"' && c ≠ ')') = x := by
      rw [List.takeWhile_append_of_pos, List.takeWhile_cons_of_neg (by decide), List.append_nil]
      intro c hc
      simp [ne_of_mem_of_not_mem hc hx, ne_of_mem_of_not_mem hc hx']
    have hopening : p.opening ++ ['"'] <+: p.opening ++ '"' :: (x ++ '"' :: ')' :: r) :=
      ⟨x ++ '"' :: ')' :: r, by rw [List.append_assoc, List.singleton_append]⟩
    rw [call_closed, if_pos (List.isPrefixOf_iff_prefix.mpr hopening), hdrop]
    dsimp only
    rw [htake, List.drop_left]
    rfl
  obtain ⟨⟨q, y⟩, hq⟩ := Option.isSome_iff_exists.mp hsome
  obtain ⟨rfl, rfl⟩ := call_inj.mp (hsound hq).2.2
  exact hq

/-! ### The marks of a text -/

theorem withMarksChars_skip (ps : List Param) (k : ℕ) (s : List Char) :
    withMarksChars ps k s = withMarksChars ps 0 (s.drop k) := by
  induction s generalizing k with
  | nil =>
    rw [List.drop_nil]
    cases k <;> rfl
  | cons c s ih =>
    cases k with
    | zero => rfl
    | succ k => exact ih k

/-- No call begins with another letter. -/
theorem literalCall_none {c : Char} (hc : c ≠ 's') (ps : List Param) (s : List Char) :
    literalCall ps (c :: s) = none := by
  refine List.findSome?_eq_none_iff.mpr fun p _ => ?_
  have hopening : (p.opening ++ ['"']).isPrefixOf (c :: s) = false := by
    cases p <;> exact (Bool.and_eq_false_imp.mpr fun h => absurd (beq_iff_eq.mp h).symm hc)
  rw [hopening, if_neg Bool.false_ne_true]

/-- Text without the first character of a call is kept. -/
theorem withMarksChars_append (ps : List Param) (hs : 's' ∉ s) (r : List Char) :
    withMarksChars ps 0 (s ++ r) = s ++ withMarksChars ps 0 r := by
  induction s with
  | nil => rfl
  | cons c s ih =>
    rw [List.mem_cons, not_or] at hs
    rw [List.cons_append, withMarksChars, literalCall_none (Ne.symm hs.1)]
    exact congrArg (c :: ·) (ih hs.2)

/-- A call has its closing bracket. -/
theorem mem_of_literalCall {d : Param × List Char} (h : literalCall ps s = some d) : ')' ∈ s := by
  obtain ⟨p, -, h⟩ := List.exists_of_findSome?_eq_some h
  split at h
  · dsimp only at h
    split at h
    · rename_i hquote
      have hmem := (List.isPrefixOf_iff_prefix.mp hquote).subset (a := ')') (by decide)
      exact List.mem_of_mem_drop (List.mem_of_mem_drop hmem)
    · cases h
  · cases h

/-- Text without a closing parenthesis is kept. -/
theorem withMarksChars_open (ps : List Param) (hs : ')' ∉ s) : withMarksChars ps 0 s = s := by
  induction s with
  | nil => rfl
  | cons c s ih =>
    rw [withMarksChars, Option.eq_none_iff_forall_ne_some.mpr fun d hd => hs (mem_of_literalCall hd)]
    exact congrArg (c :: ·) (ih fun h => hs (List.mem_cons_of_mem c h))

/-- The call with a literal that ends a text. -/
def ending (ps : List Param) : List Char → Option (Param × List Char)
  | [] => none
  | c :: s => (literalCall ps (c :: (s ++ [')']))).or (ending ps s)

/-- The call that ends a part. -/
theorem ending_eq_some (hs : ')' ∉ s) :
    ending ps s = some (p, x) ↔ p ∈ ps ∧ '"' ∉ x ∧ p.call x <:+ s := by
  induction s with
  | nil =>
    obtain ⟨t, ht⟩ := exists_call p x
    rw [ending, ht, List.suffix_nil]
    simp
  | cons c s ih =>
    have hclosed : ∀ {q y}, literalCall ps (c :: (s ++ [')'])) = some (q, y) ↔
        q ∈ ps ∧ '"' ∉ y ∧ q.call y = c :: s := fun {q y} => literalCall_closed hs
    rw [ending, List.suffix_cons_iff]
    rw [List.mem_cons, not_or] at hs
    cases hcall : literalCall ps (c :: (s ++ [')'])) with
    | none =>
      rw [Option.none_or, ih hs.2]
      refine and_congr_right fun hp => and_congr_right fun hx => (or_iff_right fun h => ?_).symm
      have hsome := hclosed.mpr ⟨hp, hx, h⟩
      rw [hcall] at hsome
      cases hsome
    | some d =>
      obtain ⟨q, y⟩ := d
      obtain ⟨hq, hy, hwhole⟩ := hclosed.mp hcall
      rw [Option.some_or, Option.some.injEq, Prod.mk.injEq]
      constructor
      · rintro ⟨rfl, rfl⟩
        exact ⟨hq, hy, .inl hwhole⟩
      · rintro ⟨hp, hx, hend⟩
        refine call_suffix_unique hy hx (s := c :: s) ?_ (List.suffix_cons_iff.mpr hend)
        rw [hwhole]

/-- A part of a text with its call made a mark. -/
def markPart (ps : List Param) (d : Part) : Part :=
  match ending ps d.1 with
  | some (p, x) => turn (p.call x) (p.markOf x) d
  | none => d

/-- What becomes of a text up to its first closing bracket. -/
theorem withMarksChars_closed (hs : ')' ∉ s) (r : List Char) :
    withMarksChars ps 0 (s ++ ')' :: r) =
      (match ending ps s with
        | some (p, x) => s.take (s.length - (p.call x).length) ++ p.markOf x ++ ')' :: markEnd
        | none => s ++ [')']) ++ withMarksChars ps 0 r := by
  induction s with
  | nil =>
    rw [List.nil_append, withMarksChars, literalCall_none (by decide)]
    rfl
  | cons c s ih =>
    have hclosed : ∀ {q y t}, literalCall ps (c :: (s ++ ')' :: t)) = some (q, y) ↔
        q ∈ ps ∧ '"' ∉ y ∧ q.call y = c :: s := fun {q y t} => literalCall_closed hs
    have hrest : literalCall ps (c :: (s ++ ')' :: r)) = literalCall ps (c :: (s ++ [')'])) :=
      Option.ext fun d => hclosed.trans hclosed.symm
    rw [List.cons_append, withMarksChars, hrest, ending]
    cases hd : literalCall ps (c :: (s ++ [')'])) with
    | some d =>
      obtain ⟨p, x⟩ := d
      have hwhole := (hclosed.mp hd).2.2
      have hdrop : (s ++ ')' :: r).drop (p.call x).length = r := by
        rw [hwhole, List.length_cons, ← List.drop_drop, List.drop_left]
        rfl
      rw [Option.some_or]
      dsimp only
      rw [withMarksChars_skip, hdrop, hwhole, Nat.sub_self, List.take_zero, List.nil_append]
    | none =>
      rw [Option.none_or]
      dsimp only
      rw [ih (fun h => hs (List.mem_cons_of_mem c h))]
      cases hend : ending ps s with
      | none => rfl
      | some d =>
        obtain ⟨p, x⟩ := d
        have hsuffix := ((ending_eq_some fun h => hs (List.mem_cons_of_mem c h)).mp hend).2.2
        dsimp only
        rw [List.length_cons, Nat.succ_sub hsuffix.length_le, List.take_succ_cons]
        rfl

/-- The marks of a text are those of its parts. -/
theorem withMarksChars_text {ds : List Part} {tail : List Char} (htail : ')' ∉ tail)
    (hds : ∀ d ∈ ds, ')' ∉ d.1) :
    withMarksChars ps 0 (text ')' markEnd tail ds) = text ')' markEnd tail (ds.map (markPart ps)) := by
  induction ds with
  | nil => exact withMarksChars_open ps htail
  | cons d ds ih =>
    rw [List.forall_mem_cons] at hds
    obtain ⟨c, k⟩ := d
    rw [text, withMarksChars_closed hds.1, withMarksChars_append ps (notMem_endings (by decide) k),
      ih hds.2, List.map_cons, markPart]
    dsimp only
    cases hend : ending ps c with
    | none =>
      dsimp only
      rw [text, List.append_assoc]
      rfl
    | some d =>
      obtain ⟨p, x⟩ := d
      dsimp only
      rw [turn, if_pos ((ending_eq_some hds.1).mp hend).2.2, text, endings_succ]
      simp only [List.append_assoc, List.cons_append]

/-! ### The turns of the names -/

/-- What is called in a part is replaced name by name. -/
def turns (calls : List (Param × List Char)) (d : Part) : Part :=
  calls.foldl (fun d c => turn (c.1.call c.2) (c.1.markOf c.2) d) d

/-- The call that a part ends with. -/
def endsWithCall (s : List Char) (c : Param × List Char) : Bool := (c.1.call c.2).isSuffixOf s

/-- The part ends with the call. -/
theorem endsWithCall_iff {c : Param × List Char} : endsWithCall s c = true ↔ c.1.call c.2 <:+ s :=
  List.isSuffixOf_iff_suffix

variable {calls : List (Param × List Char)} {d : Part} {k : ℕ}

theorem turns_cons (c : Param × List Char) (calls : List (Param × List Char)) (d : Part) :
    turns (c :: calls) d = turns calls (turn (c.1.call c.2) (c.1.markOf c.2) d) := rfl

theorem turns_append (calls calls' : List (Param × List Char)) (d : Part) :
    turns (calls ++ calls') d = turns calls' (turns calls d) := List.foldl_append

/-- A part that ends with no call stays. -/
theorem turns_of_none (h : ∀ c ∈ calls, ¬ c.1.call c.2 <:+ d.1) : turns calls d = d := by
  induction calls with
  | nil => rfl
  | cons c calls ih =>
    rw [List.forall_mem_cons] at h
    rw [turns_cons, turn_of_not h.1, ih h.2]

/-- A turn that replaces adds a mark, and nothing takes one away. -/
theorem le_turns (calls : List (Param × List Char)) (d : Part) : d.2 ≤ (turns calls d).2 := by
  induction calls generalizing d with
  | nil => exact le_rfl
  | cons c calls ih =>
    refine le_trans ?_ (ih (turn (c.1.call c.2) (c.1.markOf c.2) d))
    rw [turn]
    split
    · exact Nat.le_succ _
    · exact le_rfl

theorem turns_eq_self (h : (turns calls d).2 = d.2) : turns calls d = d := by
  induction calls with
  | nil => rfl
  | cons c calls ih =>
    rw [turns_cons] at h ⊢
    by_cases hend : c.1.call c.2 <:+ d.1
    · have hle := le_turns calls (turn (c.1.call c.2) (c.1.markOf c.2) d)
      rw [turn, if_pos hend] at h hle
      exact absurd (h ▸ hle) (Nat.not_succ_le_self _)
    · rw [turn_of_not hend] at h ⊢
      exact ih h

/-- A mark ends with no call. -/
theorem not_call_suffix_mark (hx : '"' ∉ x) : ¬ q.call y <:+ a ++ p.markOf x := by
  rintro ⟨b, hb⟩
  have hlast := congrArg List.getLast? hb
  have hcall : (b ++ q.call y).getLast? = some '"' := by
    rw [Param.call, ← List.cons_append, ← List.append_assoc, ← List.append_assoc, List.getLast?_concat]
  have hmark : a ++ p.markOf x = (a ++ '"' :: '\x7b' :: p.mark.toList) ++ '(' :: x := by
    rw [Param.markOf, List.append_assoc, List.cons_append, List.cons_append]
  rw [hcall, hmark, List.getLast?_append_of_ne_nil _ (List.cons_ne_nil _ _),
    List.getLast?_cons] at hlast
  cases hname : x.getLast? with
  | none =>
    rw [hname] at hlast
    cases hlast
  | some c =>
    rw [hname] at hlast
    exact hx ((Option.some.inj hlast) ▸ List.mem_of_getLast? hname)

/-- **The names on a part**: they make its call a mark exactly when the first of them that it ends
with as a call is the literal. -/
theorem turns_eq_iff (hps : ∀ c ∈ calls, c.1 ∈ ps) (hs : ')' ∉ s) :
    turns calls (s, 0) = markPart ps (s, 0) ↔ calls.find? (endsWithCall s) = ending ps s := by
  cases hfind : calls.find? (endsWithCall s) with
  | none =>
    have hnone := List.find?_eq_none.mp hfind
    rw [turns_of_none fun c hc h => hnone c hc (endsWithCall_iff.mpr h), markPart]
    cases hend : ending ps s with
    | none => exact iff_of_true rfl rfl
    | some d =>
      obtain ⟨p, x⟩ := d
      dsimp only
      rw [turn, if_pos ((ending_eq_some hs).mp hend).2.2]
      refine iff_of_false ?_ (by rintro ⟨⟩)
      intro h
      cases (Prod.mk.inj h).2
  | some c =>
    obtain ⟨hcall, before, rest, rfl, hbefore⟩ := List.find?_eq_some_iff_append.mp hfind
    obtain ⟨p, y⟩ := c
    obtain ⟨a, ha⟩ := endsWithCall_iff.mp hcall
    have hturns : turns (before ++ (p, y) :: rest) (s, 0) = turns rest (a ++ p.markOf y, 1) := by
      have hskip : turns before (s, 0) = (s, 0) := turns_of_none fun c hc h => by
        have hnot := hbefore c hc
        rw [Bool.not_eq_true', ← Bool.not_eq_true, endsWithCall_iff] at hnot
        exact hnot h
      rw [turns_append, hskip, turns_cons, ← ha, turn_append]
    rw [hturns, markPart]
    cases hend : ending ps s with
    | none =>
      refine iff_of_false ?_ (by rintro ⟨⟩)
      intro h
      have hle := le_turns rest (a ++ p.markOf y, 1)
      rw [h] at hle
      cases hle
    | some d =>
      obtain ⟨q, x⟩ := d
      obtain ⟨-, hx, b, hb⟩ := (ending_eq_some hs).mp hend
      have hname : some (p, y) = some (q, x) ↔ p = q ∧ y = x := by
        rw [Option.some.injEq, Prod.mk.injEq]
      dsimp only
      rw [← hb, turn_append, hname]
      constructor
      · intro h
        have hself : turns rest (a ++ p.markOf y, 1) = (a ++ p.markOf y, 1) :=
          turns_eq_self (by rw [h])
        exact mark_inj (ha.trans hb.symm) (congrArg Prod.fst (hself.symm.trans h))
      · rintro ⟨rfl, rfl⟩
        rw [turns_of_none fun c _ => not_call_suffix_mark hx]
        have hab : a = b := List.append_cancel_right (ha.trans hb.symm)
        rw [hab]

/-! ### The parts of a line -/

/-- A brace that is added is that of a mark. -/
theorem count_turn (c : Param × List Char) (d : Part) :
    (turn (c.1.call c.2) (c.1.markOf c.2) d).1.count '\x7b' + d.2 =
      d.1.count '\x7b' + (turn (c.1.call c.2) (c.1.markOf c.2) d).2 := by
  rw [turn]
  split
  · rename_i hend
    obtain ⟨a, ha⟩ := hend
    have hopening := List.count_eq_zero_of_not_mem (notMem_opening c.1).2.1
    have hmark := List.count_eq_zero_of_not_mem (notMem_opening c.1).2.2.1
    have hcall : (c.1.call c.2).count '\x7b' = c.2.count '\x7b' := by
      simp [Param.call, hopening]
    have hmarkOf : (c.1.markOf c.2).count '\x7b' = c.2.count '\x7b' + 1 := by
      simp [Param.markOf, hmark]
    dsimp only
    rw [← ha, List.length_append, Nat.add_sub_cancel, List.take_left, List.count_append,
      List.count_append, hcall, hmarkOf]
    omega
  · rfl

/-- No closing bracket is added. -/
theorem notMem_turn {c : Param × List Char} (hd : ')' ∉ d.1) :
    ')' ∉ (turn (c.1.call c.2) (c.1.markOf c.2) d).1 := by
  rw [turn]
  split
  · rename_i hend
    obtain ⟨a, ha⟩ := hend
    have hmark := (notMem_opening c.1).2.2.2
    rw [← ha] at hd
    simp only [Param.call, List.mem_append, List.mem_cons, not_or] at hd
    dsimp only
    rw [← ha, List.length_append, Nat.add_sub_cancel, List.take_left]
    simp only [Param.markOf, List.mem_append, List.mem_cons, not_or]
    exact ⟨hd.1, by decide, by decide, hmark, by decide, hd.2.2.2.1⟩
  · exact hd

/-- The braces that are added are those of marks. -/
theorem count_turns (calls : List (Param × List Char)) (d : Part) :
    (turns calls d).1.count '\x7b' + d.2 = d.1.count '\x7b' + (turns calls d).2 := by
  induction calls generalizing d with
  | nil => rfl
  | cons c calls ih =>
    have hfirst := count_turn c d
    have hrest := ih (turn (c.1.call c.2) (c.1.markOf c.2) d)
    rw [turns_cons]
    omega

/-- No replacement adds a closing bracket. -/
theorem notMem_turns (calls : List (Param × List Char)) (hd : ')' ∉ d.1) : ')' ∉ (turns calls d).1 := by
  induction calls generalizing d with
  | nil => exact hd
  | cons c calls ih => exact ih (notMem_turn hd)

/-- What is asked for of a part is a series of replacements. -/
theorem markPart_eq_turns (ps : List Param) (d : Part) : ∃ calls, markPart ps d = turns calls d := by
  rw [markPart]
  cases ending ps d.1 with
  | none => exact ⟨[], rfl⟩
  | some c => exact ⟨[c], rfl⟩

/-- The replacing of one call in a text. -/
def replaceCall (t : List Char) (c : Param × List Char) : List Char :=
  replaceChars (c.1.call c.2 ++ [')']) (c.1.markOf c.2 ++ ')' :: markEnd) 0 t

/-- The replacements of the source, part by part. -/
theorem foldl_replaceCall (hcalls : ∀ c ∈ calls, ')' ∉ c.2) {ds : List Part} {tail : List Char}
    (htail : ')' ∉ tail) (hds : ∀ d ∈ ds, ')' ∉ d.1) :
    calls.foldl replaceCall (text ')' markEnd tail ds) = text ')' markEnd tail (ds.map (turns calls)) := by
  induction calls generalizing ds with
  | nil =>
    have hid : turns [] = id := by rfl
    rw [hid, List.map_id]
    rfl
  | cons c calls ih =>
    rw [List.forall_mem_cons] at hcalls
    obtain ⟨t, ht⟩ := exists_call c.1 c.2
    have hcall := notMem_call hcalls.1 c.1
    rw [ht] at hcall
    have hturn : replaceCall (text ')' markEnd tail ds) c =
        text ')' markEnd tail (ds.map (turn (c.1.call c.2) (c.1.markOf c.2))) := by
      rw [replaceCall, ht]
      exact replaceChars_text hcall (by decide) htail hds
    rw [List.foldl_cons, hturn, ih hcalls.2, List.map_map]
    · rfl
    · intro d hd
      obtain ⟨d', hd', rfl⟩ := List.mem_map.mp hd
      exact notMem_turn (hds d' hd')

/-- **The names on a line**: they make its calls with a literal marks, and nothing else, exactly when
they do so on each part. -/
theorem foldl_replaceCall_iff (hcalls : ∀ c ∈ calls, ')' ∉ c.2) (hps : ∀ c ∈ calls, c.1 ∈ ps)
    (line : List Char) : calls.foldl replaceCall line = withMarksChars ps 0 line ↔
      ∀ s ∈ closedParts ')' line, calls.find? (endsWithCall s) = ending ps s := by
  have hline := text_closedParts ')' markEnd line
  have htail := notMem_openPart ')' line
  have hds : ∀ d ∈ (closedParts ')' line).map fun s => ((s, 0) : Part), ')' ∉ d.1 := by
    intro d hd
    obtain ⟨s, hs, rfl⟩ := List.mem_map.mp hd
    exact notMem_closedParts hs
  have heq : calls.foldl replaceCall line = withMarksChars ps 0 line ↔
      ((closedParts ')' line).map fun s => ((s, 0) : Part)).map (turns calls) =
        ((closedParts ')' line).map fun s => ((s, 0) : Part)).map (markPart ps) := by
    rw [← @text_inj ')' markEnd (openPart ')' line), ← foldl_replaceCall hcalls htail hds,
      ← withMarksChars_text htail hds, hline]
    rw [List.forall₂_map_left_iff, List.forall₂_map_right_iff, List.forall₂_same]
    intro d hd
    obtain ⟨calls', hmark⟩ := markPart_eq_turns ps d
    rw [hmark]
    refine ⟨notMem_turns _ (hds d hd), notMem_turns _ (hds d hd), fun h => ?_⟩
    have hleft := count_turns calls d
    have hright := count_turns calls' d
    rw [h] at hleft
    omega
  rw [heq, List.map_map, List.map_map, List.map_inj_left]
  exact forall₂_congr fun s hs => turns_eq_iff hps (notMem_closedParts hs)

end Calls

/-! ### The names that are found -/

section Names

variable {p : Param} {w s g : List Char} {line : String}

/-- The argument of a match without its first and its last character. -/
def nameOf (g : List Char) : List Char := (g.take (g.length - 2)).drop 15

/-- The names of the matches in a line. -/
def names (p : Param) (line : String) : List (List Char) :=
  (groups p.word.toList 0 line.toList).map nameOf

/-- The calls that a pass replaces. -/
def calls (p : Param) (line : String) : List (Param × List Char) := (names p line).map (p, ·)

/-- A group is a match at some place. -/
theorem exists_match {k : ℕ} (h : g ∈ groups w k s) :
    ∃ t m, matchLength w t = some m ∧ g = t.take m := by
  induction s generalizing k with
  | nil => cases k <;> cases h
  | cons c s ih =>
    cases k with
    | succ k => exact ih h
    | zero =>
      rw [groups] at h
      split at h
      · rename_i m hm
        rcases List.mem_cons.mp h with rfl | h
        · exact ⟨c :: s, m, hm, rfl⟩
        · exact ih h
      · exact ih h

/-- A match: the word, the call and an argument without a closing parenthesis. -/
theorem exists_argument {m : ℕ} (h : matchLength w s = some m) :
    ∃ c x, ')' ∉ x ∧ s.take m = w ++ c :: 'g' :: 'e' :: 't' :: '(' :: (x ++ [')']) := by
  rw [matchLength] at h
  split at h
  · rename_i hword
    obtain ⟨t, rfl⟩ := List.isPrefixOf_iff_prefix.mp hword
    rw [List.drop_left] at h
    split at h
    · cases h
    · rename_i c r
      split at h
      · cases h
      split at h
      · rename_i hget
        obtain ⟨u, rfl⟩ := List.isPrefixOf_iff_prefix.mp hget
        split at h
        · rename_i r' hr
          have hu := List.takeWhile_append_dropWhile (p := fun c => c ≠ ')' && !isTerminator c) (l := u)
          have hr' : u.dropWhile (fun c => c ≠ ')' && !isTerminator c) = ')' :: r' := hr
          have hx : ')' ∉ u.takeWhile fun c => c ≠ ')' && !isTerminator c := by
            intro hmem
            simpa using List.mem_takeWhile_imp hmem
          refine ⟨c, _, hx, ?_⟩
          rw [hr'] at hu
          have hs : w ++ c :: (['g', 'e', 't', '('] ++ u) =
              (w ++ c :: 'g' :: 'e' :: 't' :: '(' ::
                (u.takeWhile (fun c => c ≠ ')' && !isTerminator c) ++ [')'])) ++ r' := by
            have hcall : (u.takeWhile (fun c => c ≠ ')' && !isTerminator c) ++ [')']) ++ r' = u := by
              rw [List.append_assoc, List.singleton_append, hu]
            simp only [List.append_assoc, List.cons_append, List.nil_append] at hcall ⊢
            rw [hcall]
          rw [← Option.some.inj h, hs, List.length_append, Nat.add_sub_cancel, List.take_left]
        · cases h
      · cases h
  · cases h

/-- The name in a group has no closing bracket. -/
theorem notMem_nameOf (hg : g ∈ groups p.word.toList 0 line.toList) : ')' ∉ nameOf g := by
  obtain ⟨t, m, hmatch, rfl⟩ := exists_match hg
  obtain ⟨c, x, hx, htake⟩ := exists_argument hmatch
  have hword : p.word.toList.length = 9 := by
    cases p <;> rfl
  rw [nameOf, htake, List.drop_take, List.length_append, hword]
  have hdrop : (p.word.toList ++ c :: 'g' :: 'e' :: 't' :: '(' :: (x ++ [')'])).drop 15 =
      (x ++ [')']).drop 1 := by
    have hsum : 15 = 9 + 6 := rfl
    rw [hsum, ← List.drop_drop, ← hword, List.drop_left]
    rfl
  rw [hdrop]
  cases x with
  | nil => exact List.not_mem_nil
  | cons d x =>
    intro hmem
    have hlen :
        9 + (c :: 'g' :: 'e' :: 't' :: '(' :: (d :: x ++ [')'])).length - 2 - 15 ≤ x.length := by
      simp
      omega
    have hxs := @List.take_append_of_le_length _ _ [')'] _ hlen
    exact hx (List.mem_cons_of_mem d (List.mem_of_mem_take (hxs ▸ hmem)))

/-- A turn of the loop: the argument is long enough to be cut. -/
theorem replaceGroup_eq (p : Param) (line : String) (g : List Char) :
    replaceGroup p.word p.mark line g =
      if 17 ≤ g.length then .ok (String.ofList (replaceCall line.toList (p, nameOf g)))
      else .error .indexOutOfBounds := by
  have hslice : slice (String.ofList g) 15 (g.length - 2) =
      if 17 ≤ g.length then some (String.ofList (nameOf g)) else none := by
    have hlength := String.length_ofList (l := g)
    rw [slice]
    by_cases hlong : 17 ≤ g.length
    · have hcut : ((g.length : ℤ) - 2).toNat = g.length - 2 := by omega
      rw [if_pos hlong, if_pos ⟨by decide, by omega, by omega⟩, hcut, String.toList_ofList, nameOf]
      rfl
    · rw [if_neg hlong, if_neg (by omega)]
  rw [replaceGroup, hslice]
  by_cases hlong : 17 ≤ g.length
  · have hget : ".get(\"".toList = ".get(".toList ++ ['"'] := by decide
    have hend : "\")".toList = ['"', ')'] := by decide
    have hopen : "\"\x7b".toList = ['"', '\x7b'] := by decide
    have hparen : "(".toList = ['('] := by decide
    have hclose : ")\x7d\"".toList = ')' :: markEnd := by decide
    rw [if_pos hlong, if_pos hlong, inBounds, ok_bind, replaceCall, replace]
    simp only [String.toList_append, String.toList_ofList, hget, hend, hopen, hparen, hclose,
      Param.call, Param.opening, Param.markOf, List.append_assoc, List.cons_append, List.nil_append]
    rfl
  · rw [if_neg hlong, if_neg hlong]
    rfl

/-- When the replacement returns, and what. -/
theorem replaceParam_eq_ok {out : String} : replaceParam p.word p.mark line = .ok out ↔
    (∀ g ∈ groups p.word.toList 0 line.toList, 17 ≤ g.length) ∧
      out = String.ofList ((calls p line).foldl replaceCall line.toList) := by
  rw [replaceParam, calls, names]
  generalize groups p.word.toList 0 line.toList = gs
  induction gs generalizing line with
  | nil =>
    rw [List.foldlM_nil]
    simp only [List.map_nil, List.foldl_nil, String.ofList_toList]
    constructor
    · intro h
      cases h
      exact ⟨List.forall_mem_nil _, rfl⟩
    · rintro ⟨-, rfl⟩
      rfl
  | cons g gs ih =>
    rw [List.foldlM_cons, replaceGroup_eq, List.forall_mem_cons]
    by_cases hlong : 17 ≤ g.length
    · rw [if_pos hlong, ok_bind, ih, String.toList_ofList, and_iff_right hlong]
      rfl
    · rw [if_neg hlong]
      exact iff_of_false (by rintro ⟨⟩) fun h => hlong h.1.1

/-! ### When the marks are right -/

/-- The names that a line is read for stand for its calls with a literal: each match has an argument
of two characters or more, the name of each call with a literal is found, and of the names that a part
ends with as a call, the first is free of quotes. -/
structure Reads (p : Param) (line : String) : Prop where
  long : ∀ g ∈ groups p.word.toList 0 line.toList, 17 ≤ g.length
  found : ∀ s ∈ closedParts ')' line.toList, ∀ x, '"' ∉ x → p.call x <:+ s → x ∈ names p line
  first : ∀ s ∈ closedParts ')' line.toList, ∀ y,
    (names p line).find? (fun y => (p.call y).isSuffixOf s) = some y → '"' ∉ y

/-- Looking for a call is looking for its name. -/
theorem find_names (p : Param) (line : String) (s : List Char) :
    (calls p line).find? (endsWithCall s) =
      ((names p line).find? fun y => (p.call y).isSuffixOf s).map (p, ·) := by
  rw [calls, List.find?_map]
  rfl

/-- When the first name that fits is that of the call. -/
theorem find_names_iff (hs : ')' ∉ s) : (calls p line).find? (endsWithCall s) = ending [p] s ↔
    (∀ x, '"' ∉ x → p.call x <:+ s → x ∈ names p line) ∧
      ∀ y, (names p line).find? (fun y => (p.call y).isSuffixOf s) = some y → '"' ∉ y := by
  rw [find_names]
  cases hfind : (names p line).find? fun y => (p.call y).isSuffixOf s with
  | none =>
    have hnone := List.find?_eq_none.mp hfind
    rw [Option.map_none, eq_comm, Option.eq_none_iff_forall_ne_some]
    constructor
    · intro h
      refine ⟨fun x hx hend => ?_, by rintro y ⟨⟩⟩
      exact absurd ((ending_eq_some hs).mpr ⟨List.mem_singleton_self p, hx, hend⟩) (h (p, x))
    · rintro ⟨hfound, -⟩ ⟨q, x⟩ hend
      obtain ⟨hq, hx, hend⟩ := (ending_eq_some hs).mp hend
      rw [List.mem_singleton.mp hq] at hend
      exact hnone x (hfound x hx hend) (List.isSuffixOf_iff_suffix.mpr hend)
  | some y =>
    have hsuffix := List.find?_some hfind
    have hcall : p.call y <:+ s := List.isSuffixOf_iff_suffix.mp hsuffix
    rw [Option.map_some, eq_comm, ending_eq_some hs]
    constructor
    · rintro ⟨-, hy, hend⟩
      refine ⟨fun x hx hx' => ?_, ?_⟩
      · rw [(call_suffix_unique hx hy hx' hend).2]
        exact List.mem_of_find?_eq_some hfind
      · rintro _ ⟨⟩
        exact hy
    · rintro ⟨-, hfirst⟩
      exact ⟨List.mem_singleton_self p, hfirst y rfl, hcall⟩

/-- The names have no closing bracket. -/
theorem notMem_names {y : List Char} (h : y ∈ names p line) : ')' ∉ y := by
  obtain ⟨g, hg, rfl⟩ := List.mem_map.mp h
  exact notMem_nameOf hg

/-- The calls are on the parameter. -/
theorem mem_calls {c : Param × List Char} (hc : c ∈ calls p line) : c.1 = p ∧ ')' ∉ c.2 := by
  obtain ⟨y, hy, rfl⟩ := List.mem_map.mp hc
  exact ⟨rfl, notMem_names hy⟩

/-- One pass over a line. -/
theorem replaceParam_iff :
    replaceParam p.word p.mark line = .ok (withMarks [p] line) ↔ Reads p line := by
  rw [replaceParam_eq_ok, withMarks, String.ofList_inj, eq_comm (a := withMarksChars _ _ _),
    foldl_replaceCall_iff (fun c hc => (mem_calls hc).2) fun c hc => List.mem_singleton.mpr (mem_calls hc).1]
  constructor
  · rintro ⟨hlong, hfind⟩
    have hparts := fun s hs => (find_names_iff (notMem_closedParts hs)).mp (hfind s hs)
    exact ⟨hlong, fun s hs => (hparts s hs).1, fun s hs => (hparts s hs).2⟩
  · rintro ⟨hlong, hfound, hfirst⟩
    exact ⟨hlong, fun s hs => (find_names_iff (notMem_closedParts hs)).mpr ⟨hfound s hs, hfirst s hs⟩⟩

/-- Marks for both parameters at once are marks for the one and then for the other. -/
theorem markPart_markPart (hs : ')' ∉ s) :
    markPart [.step] (markPart [.scen] (s, 0)) = markPart [.scen, .step] (s, 0) := by
  cases hscen : ending [.scen] s with
  | some c =>
    obtain ⟨q, x⟩ := c
    obtain ⟨hq, hx, a, ha⟩ := (ending_eq_some hs).mp hscen
    have hboth : ending [.scen, .step] s = some (q, x) :=
      (ending_eq_some hs).mpr ⟨List.mem_of_mem_take (i := 1) hq, hx, a, ha⟩
    have hmark : ')' ∉ a ++ q.markOf x := by
      have hturn := notMem_turn (c := (q, x)) (d := (s, 0)) hs
      rw [← ha, turn_append] at hturn
      exact hturn
    have hnone : ending [.step] (a ++ q.markOf x) = none := by
      refine Option.eq_none_iff_forall_ne_some.mpr ?_
      rintro ⟨q', y⟩ hend
      exact not_call_suffix_mark hx ((ending_eq_some hmark).mp hend).2.2
    rw [markPart, markPart, hscen, markPart, hboth]
    dsimp only
    rw [← ha, turn_append, hnone]
  | none =>
    have hstep : ending [.scen, .step] s = ending [.step] s := by
      refine Option.ext fun d => ?_
      obtain ⟨q, x⟩ := d
      rw [ending_eq_some hs, ending_eq_some hs]
      refine and_congr_left fun hend => ?_
      have hq : q ≠ .scen := by
        rintro rfl
        have hsome := (ending_eq_some hs).mpr ⟨List.mem_singleton_self Param.scen, hend⟩
        rw [hscen] at hsome
        cases hsome
      rw [List.mem_cons, or_iff_right hq]
    rw [markPart, markPart, hscen, markPart, hstep]

/-- One parameter after the other is both at once. -/
theorem withMarks_withMarks (line : String) :
    withMarks [.step] (withMarks [.scen] line) = withMarks [.scen, .step] line := by
  have hline := text_closedParts ')' markEnd line.toList
  have htail := notMem_openPart ')' line.toList
  have hds : ∀ d ∈ (closedParts ')' line.toList).map fun s => ((s, 0) : Part), ')' ∉ d.1 := by
    intro d hd
    obtain ⟨s, hs, rfl⟩ := List.mem_map.mp hd
    exact notMem_closedParts hs
  have hmarks := fun ps : List Param => @withMarksChars_text ps _ _ htail hds
  rw [hline] at hmarks
  rw [withMarks, withMarks, withMarks, String.toList_ofList, hmarks, hmarks, withMarksChars_text htail]
  · rw [List.map_map, List.map_map, List.map_map]
    have hparts : ∀ s ∈ closedParts ')' line.toList,
        ((markPart [.step] ∘ markPart [.scen]) ∘ fun s => ((s, 0) : Part)) s =
          (markPart [.scen, .step] ∘ fun s => ((s, 0) : Part)) s :=
      fun s hs => markPart_markPart (notMem_closedParts hs)
    rw [List.map_congr_left hparts]
  · intro d hd
    obtain ⟨d', hd', rfl⟩ := List.mem_map.mp hd
    obtain ⟨calls, hcalls⟩ := markPart_eq_turns [.scen] d'
    rw [hcalls]
    exact notMem_turns calls (hds d' hd')

/-- Where the two passes find the call with a literal that ends a part, the first finds it if it is for
the parameters of the scenario. -/
theorem find_scen_of_both {calls calls' : List (Param × List Char)} (hs : ')' ∉ s)
    (hcalls : ∀ c ∈ calls, c.1 = .scen) (hcalls' : ∀ c ∈ calls', c.1 = .step)
    (h : (calls ++ calls').find? (endsWithCall s) = ending [.scen, .step] s) :
    calls.find? (endsWithCall s) = ending [.scen] s := by
  refine Option.ext fun d => ?_
  obtain ⟨q, x⟩ := d
  rw [ending_eq_some hs, List.mem_singleton]
  rw [List.find?_append] at h
  constructor
  · intro hfind
    rw [hfind, Option.some_or] at h
    exact ⟨hcalls _ (List.mem_of_find?_eq_some hfind), ((ending_eq_some hs).mp h.symm).2⟩
  · rintro ⟨rfl, hend⟩
    rw [(ending_eq_some hs).mpr ⟨List.mem_cons_self, hend⟩] at h
    cases hfind : calls.find? (endsWithCall s) with
    | some c =>
      rw [hfind, Option.some_or] at h
      exact h
    | none =>
      rw [hfind, Option.none_or] at h
      cases hcalls' _ (List.mem_of_find?_eq_some h)

/-- **When the parameters of a line become marks.**  Each call with a literal is made a mark and every
other character is kept, exactly when the line is read rightly for the parameters of the scenario, and
the line with their marks for those of the step. -/
theorem replaceParams_iff (line : String) :
    replaceParams line = .ok (withMarks [.scen, .step] line) ↔
      Reads .scen line ∧ Reads .step (withMarks [.scen] line) := by
  rw [← replaceParam_iff, ← replaceParam_iff, withMarks_withMarks]
  constructor
  · intro h
    obtain ⟨line', hscen, hstep⟩ := bind_eq_ok.mp h
    obtain ⟨-, hfirst⟩ := (replaceParam_eq_ok (p := .scen)).mp hscen
    obtain ⟨-, hsecond⟩ := (replaceParam_eq_ok (p := .step)).mp hstep
    have hboth : (calls .scen line ++ calls .step line').foldl replaceCall line.toList =
        withMarksChars [.scen, .step] 0 line.toList := by
      rw [hfirst, String.toList_ofList, withMarks, String.ofList_inj] at hsecond
      rw [List.foldl_append, hfirst]
      exact hsecond.symm
    have hline' : line' = withMarks [.scen] line := by
      rw [foldl_replaceCall_iff] at hboth
      · rw [hfirst, withMarks, String.ofList_inj, foldl_replaceCall_iff]
        · exact fun s hs => find_scen_of_both (notMem_closedParts hs) (fun c hc => (mem_calls hc).1)
            (fun c hc => (mem_calls hc).1) (hboth s hs)
        · exact fun c hc => (mem_calls hc).2
        · exact fun c hc => List.mem_singleton.mpr (mem_calls hc).1
      · exact List.forall_mem_append.mpr ⟨fun c hc => (mem_calls hc).2, fun c hc => (mem_calls hc).2⟩
      · intro c hc
        cases c.1 <;> decide
    rw [← hline']
    exact ⟨hscen, hstep⟩
  · rintro ⟨hscen, hstep⟩
    exact bind_eq_ok.mpr ⟨_, hscen, hstep⟩

/-- A call with a variable of one letter stops the generation: nothing is left of its argument. -/
theorem not_replaceParams_variable :
    replaceParams "String v = scenParam.get(k);" = .error .indexOutOfBounds ∧
      withMarks [.scen, .step] "String v = scenParam.get(k);" = "String v = scenParam.get(k);" ∧
      replaceParams "run(stepParam.get(\"a\" + \"b\"));" ≠
        .ok (withMarks [.scen, .step] "run(stepParam.get(\"a\" + \"b\"));") := by
  decide +kernel

end Names

end MBT.MGenMbt
