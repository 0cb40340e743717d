import MBT.Support.Split

/-!
# Support — Template

Texts with holes `${v}`, and expressions that put literals and variables together with `+`.

* `parsed_holes`: where each `${` begins a hole, `holes` finds the pieces of the text.
* `Parsed.replaceChars_open`, `replaceChars_char`: the two marks of a hole replaced one after the
  other.
* `exists_readTerms`: the pieces written as an expression are read back, with their value.
* `mem_of_mem_value`: an expression has no character that its text has not, but from its variables.
-/

namespace Template
open Pattern Text

/-! ### Holes -/

/-- A character of an identifier. -/
def isIdentChar (c : Char) : Bool := c.isAlphanum || c = '_'

/-- A letter or an underscore, followed by letters, digits and underscores. -/
def isIdentifier : List Char → Bool
  | [] => false
  | c :: s => (c.isAlpha || c = '_') && s.all isIdentChar

/-- The pieces of a text: its characters, and the names of its holes; `skip` characters of a hole
are still to be left out. -/
def holes : ℕ → List Char → List (Piece String)
  | _, [] => []
  | 0, c :: s =>
    if ['$', '\x7b'].isPrefixOf (c :: s) then
      let v := (s.drop 1).takeWhile (· ≠ '\x7d')
      .mark (String.ofList v) :: holes (v.length + 2) s
    else .char c :: holes 0 s
  | skip + 1, _ :: s => holes skip s

example : holes 0 "a$\x7bv\x7d\x7d".toList = [.char 'a', .mark "v", .char '\x7d'] := by decide

/-- Each `${` begins a hole with an identifier. -/
def WellFormed (s : List Char) : Prop :=
  ∀ x y, s = x ++ '$' :: '\x7b' :: y → ∃ v z, isIdentifier v = true ∧ y = v ++ '\x7d' :: z

/-- A text and its pieces. -/
inductive Parsed : List Char → List (Piece String) → Prop where
  | nil : Parsed [] []
  | char {c : Char} {s : List Char} {ps : List (Piece String)} :
      ¬ ['$', '\x7b'] <+: c :: s → Parsed s ps → Parsed (c :: s) (.char c :: ps)
  | hole {v s : List Char} {ps : List (Piece String)} : isIdentifier v = true → Parsed s ps →
      Parsed ('$' :: '\x7b' :: (v ++ '\x7d' :: s)) (.mark (String.ofList v) :: ps)

/-- An identifier has such characters only. -/
theorem all_isIdentChar {v : List Char} (hv : isIdentifier v = true) :
    ∀ c ∈ v, isIdentChar c = true := by
  cases v with
  | nil => cases hv
  | cons d v =>
    rw [isIdentifier, Bool.and_eq_true, List.all_eq_true] at hv
    rw [List.forall_mem_cons]
    refine ⟨?_, hv.2⟩
    rw [isIdentChar, Char.isAlphanum]
    rcases Bool.or_eq_true_iff.mp hv.1 with h | h
    · rw [h, Bool.true_or, Bool.true_or]
    · rw [h, Bool.or_true]

/-- It has no others. -/
theorem notMem_identifier {v : List Char} (hv : isIdentifier v = true) {c : Char}
    (hc : isIdentChar c = false) : c ∉ v :=
  fun h => absurd (all_isIdentChar hv c h) (ne_true_of_eq_false hc)

/-- It ends before the first of another kind. -/
theorem takeWhile_identifier {v : List Char} (hv : isIdentifier v = true) {c : Char}
    (hc : isIdentChar c = false) (s : List Char) : (v ++ c :: s).takeWhile isIdentChar = v ∧
      (v ++ c :: s).dropWhile isIdentChar = c :: s := by
  have hall := all_isIdentChar hv
  have hstop : ¬ isIdentChar c = true := ne_true_of_eq_false hc
  refine ⟨?_, ?_⟩
  · rw [List.takeWhile_append_of_pos hall, List.takeWhile_cons_of_neg hstop, List.append_nil]
  · rw [List.dropWhile_append_of_pos hall, List.dropWhile_cons_of_neg hstop]

/-- An identifier and a closing brace begin the text. -/
def endsHole (s : List Char) : Bool :=
  isIdentifier (s.takeWhile isIdentChar) && (s.dropWhile isIdentChar).head? = some '\x7d'

/-- A hole ends with a brace behind an identifier. -/
theorem endsHole_iff {s : List Char} :
    endsHole s = true ↔ ∃ v z, isIdentifier v = true ∧ s = v ++ '\x7d' :: z := by
  constructor
  · intro h
    rw [endsHole, Bool.and_eq_true] at h
    obtain ⟨z, hz⟩ := List.head?_eq_some_iff.mp (of_decide_eq_true h.2)
    exact ⟨_, z, h.1, hz ▸ List.takeWhile_append_dropWhile.symm⟩
  · rintro ⟨v, z, hv, rfl⟩
    obtain ⟨htake, hdrop⟩ := takeWhile_identifier hv (c := '\x7d') (by decide) z
    rw [endsHole, htake, hdrop, hv]
    rfl

/-- Every hole that begins ends. -/
theorem wellFormed_iff {s : List Char} : WellFormed s ↔
    ∀ t ∈ s.tails, ['$', '\x7b'].isPrefixOf t = true → endsHole (t.drop 2) = true := by
  constructor
  · intro h t ht hp
    obtain ⟨x, rfl⟩ := (List.mem_tails t s).mp ht
    obtain ⟨y, rfl⟩ := List.isPrefixOf_iff_prefix.mp hp
    exact endsHole_iff.mpr (h x y rfl)
  · rintro h x y rfl
    have ht := h _ ((List.mem_tails _ _).mpr (List.suffix_append x ('$' :: '\x7b' :: y)))
    exact endsHole_iff.mp (ht rfl)

instance (s : List Char) : Decidable (WellFormed s) := decidable_of_iff _ wellFormed_iff.symm

theorem holes_skip (k : ℕ) (s : List Char) : holes k s = holes 0 (s.drop k) := by
  induction s generalizing k with
  | nil => rw [List.drop_nil]; cases k <;> rfl
  | cons c s ih =>
    cases k with
    | zero => rfl
    | succ k => exact ih k

/-- Where each `${` begins a hole, the pieces are found. -/
theorem parsed_holes {s : List Char} (h : WellFormed s) : Parsed s (holes 0 s) := by
  induction hn : s.length using Nat.strong_induction_on generalizing s with
  | h n ih =>
    cases s with
    | nil => exact .nil
    | cons c s =>
      by_cases hp : ['$', '\x7b'] <+: c :: s
      · obtain ⟨y, hy⟩ := hp
        cases hy
        obtain ⟨v, z, hv, rfl⟩ := h [] y rfl
        have hname : (v ++ '\x7d' :: z).takeWhile (· ≠ '\x7d') = v := by
          rw [List.takeWhile_append_of_pos, List.takeWhile_cons_of_neg (by decide), List.append_nil]
          intro d hd
          exact decide_eq_true fun e => notMem_identifier hv (by decide) (e ▸ hd)
        have hz : WellFormed z := fun x y hxy =>
          h ('$' :: '\x7b' :: (v ++ '\x7d' :: x)) y (by rw [hxy]; simp)
        have hholes : holes 0 ('$' :: '\x7b' :: (v ++ '\x7d' :: z)) =
            .mark (String.ofList v) :: holes 0 z := by
          rw [holes, if_pos (by rfl)]
          have hrest : (v ++ '\x7d' :: z).drop (v.length + 1) = z := by simp
          simp only [List.drop_one, List.tail_cons, hname]
          rw [holes_skip, List.drop_succ_cons, hrest]
        refine hholes ▸ Parsed.hole hv (ih z.length ?_ hz rfl)
        rw [← hn]
        simp
        omega
      · have hs : WellFormed s := fun x y hxy => h (c :: x) y (by rw [hxy]; rfl)
        rw [holes, if_neg (mt List.isPrefixOf_iff_prefix.mp hp)]
        exact .char hp (ih s.length (hn ▸ Nat.lt_succ_self _) hs rfl)

namespace Parsed

variable {s r : List Char} {ps : List (Piece String)}

/-- The marks are identifiers. -/
theorem isIdentifier_of_mem (h : Parsed s ps) {v : String} (hv : .mark v ∈ ps) :
    isIdentifier v.toList = true := by
  induction h with
  | nil => cases hv
  | char _ _ ih => exact ih ((List.mem_cons.mp hv).resolve_left (by simp))
  | hole hident _ ih =>
    rcases List.mem_cons.mp hv with hv | hv
    · cases hv
      rwa [String.toList_ofList]
    · exact ih hv

/-- The characters are those of the text. -/
theorem mem_of_mem (h : Parsed s ps) {c : Char} (hc : .char c ∈ ps) : c ∈ s := by
  induction h with
  | nil => cases hc
  | char _ _ ih =>
    rcases List.mem_cons.mp hc with hc | hc
    · cases hc
      exact List.mem_cons_self
    · exact List.mem_cons_of_mem _ (ih hc)
  | hole _ _ ih =>
    have hmem := ih ((List.mem_cons.mp hc).resolve_left (by simp))
    simp [hmem]

/-- The beginnings of the holes replaced; what follows the text begins no hole with it. -/
theorem replaceChars_open (h : Parsed s ps) (g : List Char) (hr : '$' ∉ r)
    (hbrace : r.head? ≠ some '\x7b') :
    replaceChars ['$', '\x7b'] g 0 (s ++ r) =
      render (fun v => g ++ (v.toList ++ ['\x7d'])) ps ++ r := by
  induction h with
  | nil => exact replaceChars_none g ((startsIn_nil _ r).symm.trans (startsIn_eq_zero hr []))
  | @char c s ps hp _ ih =>
    have hnot : ¬ ['$', '\x7b'] <+: c :: (s ++ r) := by
      intro hpre
      rw [List.cons_prefix_cons] at hpre
      obtain ⟨y, hy⟩ := hpre.2
      cases s with
      | nil =>
        rw [List.nil_append] at hy
        exact hbrace (hy ▸ rfl)
      | cons d s =>
        rw [List.cons_append, List.cons_append] at hy
        refine hp ?_
        rw [List.cons_prefix_cons, List.cons_prefix_cons]
        exact ⟨hpre.1, (List.cons.inj hy).1, List.nil_prefix⟩
    rw [List.cons_append, replaceChars, if_neg (mt List.isPrefixOf_iff_prefix.mp hnot), ih]
    rfl
  | @hole v s ps hv _ ih =>
    have hdollar : '$' ∉ v ++ ['\x7d'] := by
      rw [List.mem_append, not_or]
      exact ⟨notMem_identifier hv (by decide), by decide⟩
    have hrest := replaceChars_append (r := s ++ r) g
      (startsIn_eq_zero (t := ['\x7b']) hdollar (s ++ r))
    have htext : ('$' :: '\x7b' :: (v ++ '\x7d' :: s)) ++ r =
        '$' :: '\x7b' :: ((v ++ ['\x7d']) ++ (s ++ r)) := by simp
    rw [htext, replaceChars, if_pos (by rfl), replaceChars_skip]
    change g ++ replaceChars _ g 0 ((v ++ ['\x7d']) ++ (s ++ r)) = _
    rw [hrest, ih, render_mark, String.toList_ofList]
    simp

end Parsed

/-- A character is replaced wherever it stands. -/
theorem replaceChars_char (a : Char) (g s : List Char) :
    replaceChars [a] g 0 s = s.flatMap fun c => if c = a then g else [c] := by
  induction s with
  | nil => rfl
  | cons c s ih =>
    rw [replaceChars, List.isPrefixOf, List.isPrefixOf_nil_left, Bool.and_true, List.flatMap_cons]
    by_cases hc : c = a
    · rw [if_pos (beq_iff_eq.mpr hc.symm), if_pos hc]
      exact congrArg (g ++ ·) ih
    · rw [if_neg fun h => hc (beq_iff_eq.mp h).symm, if_neg hc, ih]
      rfl

/-- A character that is replaced is left only where it is filled in. -/
theorem notMem_replaceChars_char {a : Char} {g : List Char} (hg : a ∉ g) (s : List Char) :
    a ∉ replaceChars [a] g 0 s := by
  rw [replaceChars_char, List.mem_flatMap]
  rintro ⟨c, -, hc⟩
  split at hc
  · exact hg hc
  · rename_i hne
    exact hne (List.mem_singleton.mp hc).symm

/-- Nothing is replaced where the character is not there. -/
theorem replaceChars_char_of_notMem {a : Char} (g : List Char) {s : List Char} (h : a ∉ s) :
    replaceChars [a] g 0 s = s :=
  replaceChars_none g ((startsIn_nil _ s).symm.trans (startsIn_eq_zero h []))

theorem replaceChars_char_append (a : Char) (g x y : List Char) :
    replaceChars [a] g 0 (x ++ y) = replaceChars [a] g 0 x ++ replaceChars [a] g 0 y := by
  rw [replaceChars_char, replaceChars_char, replaceChars_char, List.flatMap_append]

/-- Where no other closing brace stands, the ends of the holes are replaced. -/
theorem Parsed.replaceChars_close {s g : List Char} {ps : List (Piece String)} (h : Parsed s ps)
    (hps : .char '\x7d' ∉ ps) (hg : '\x7d' ∉ g) (g' : List Char) :
    replaceChars ['\x7d'] g' 0 (render (fun v => g ++ (v.toList ++ ['\x7d'])) ps) =
      render (fun v => g ++ (v.toList ++ g')) ps := by
  induction h with
  | nil => rfl
  | @char c s ps _ _ ih =>
    rw [List.mem_cons, not_or] at hps
    have hc : '\x7d' ∉ [c] := fun hmem => hps.1 (List.mem_singleton.mp hmem ▸ rfl)
    have hcons : ∀ t, c :: t = [c] ++ t := fun t => rfl
    rw [render_char, render_char, hcons, replaceChars_char_append,
      replaceChars_char_of_notMem g' hc, ih hps.2, List.singleton_append]
  | @hole v s ps hv _ ih =>
    rw [List.mem_cons, not_or] at hps
    have hgv : '\x7d' ∉ g ++ v := by
      rw [List.mem_append, not_or]
      exact ⟨hg, notMem_identifier hv (by decide)⟩
    have hend : replaceChars ['\x7d'] g' 0 ['\x7d'] = g' := by
      rw [replaceChars_char]
      simp
    rw [render_mark, render_mark, String.toList_ofList, ← List.append_assoc,
      replaceChars_char_append, replaceChars_char_append, replaceChars_char_of_notMem g' hgv, hend,
      ih hps.2, List.append_assoc g v g']

/-! ### Expressions -/

/-- A term of an expression: a literal, or a variable by its name. -/
inductive Term where
  | literal (s : List Char)
  | var (v : String)
  deriving DecidableEq

/-- A character that stands for itself between double quotes. -/
def isPlain (c : Char) : Bool := c ≠ '"' ∧ c ≠ '\\' ∧ c ≠ '\n' ∧ c ≠ '\r'

/-- The term that a text begins with, and what follows it. -/
def readTerm : List Char → Option (Term × List Char)
  | '"' :: s =>
    match s.dropWhile isPlain with
    | '"' :: r => some (.literal (s.takeWhile isPlain), r)
    | _ => none
  | s =>
    if isIdentifier (s.takeWhile isIdentChar) then
      some (.var (String.ofList (s.takeWhile isIdentChar)), s.dropWhile isIdentChar)
    else none

/-- The terms of a text, at most `fuel`, with `+` between two of them. -/
def readTerms : ℕ → List Char → Option (List Term)
  | 0, _ => none
  | fuel + 1, s =>
    match readTerm s with
    | none => none
    | some (t, r) =>
      match r.dropWhile (· = ' ') with
      | [] => some [t]
      | '+' :: r => (readTerms fuel (r.dropWhile (· = ' '))).map (t :: ·)
      | _ => none

/-- An expression has no more terms than characters. -/
def readExpr (s : String) : Option (List Term) := readTerms s.length s.toList

/-- The text that an expression stands for. -/
def value (env : String → String) (terms : List Term) : List Char :=
  terms.flatMap fun
    | .literal s => s
    | .var v => (env v).toList

example : readExpr "\"a\" + v" = some [.literal ['a'], .var "v"] := by decide

/-- A literal is read up to its quote. -/
theorem readTerm_literal {l : List Char} (hl : ∀ c ∈ l, isPlain c = true) (r : List Char) :
    readTerm ('"' :: (l ++ '"' :: r)) = some (.literal l, r) := by
  have hdrop : (l ++ '"' :: r).dropWhile isPlain = '"' :: r := by
    rw [List.dropWhile_append_of_pos hl, List.dropWhile_cons_of_neg (by decide)]
  have htake : (l ++ '"' :: r).takeWhile isPlain = l := by
    rw [List.takeWhile_append_of_pos hl, List.takeWhile_cons_of_neg (by decide), List.append_nil]
  rw [readTerm, hdrop, htake]
  rfl

/-- A variable is read up to the blank behind it. -/
theorem readTerm_var {v : List Char} (hv : isIdentifier v = true) (r : List Char) :
    readTerm (v ++ ' ' :: r) = some (.var (String.ofList v), ' ' :: r) := by
  obtain ⟨htake, hdrop⟩ := takeWhile_identifier hv (c := ' ') (by decide) r
  rw [readTerm, hdrop, htake, if_pos hv]
  rintro s hs
  cases v with
  | nil => cases hv
  | cons c v =>
    cases hs
    exact absurd (all_isIdentChar hv '"' List.mem_cons_self) (by decide)

/-- What stands between two terms. -/
def plus : List Char := [' ', '+', ' ']

/-- The pieces as they stand between the quotes of an expression: a hole ends a literal, and begins
another behind its name. -/
def written (ps : List (Piece String)) : List Char :=
  render (fun v => '"' :: plus ++ (v.toList ++ (plus ++ ['"']))) ps

/-- A term, a `+` and the terms that follow it. -/
theorem readTerms_plus {s r : List Char} {t : Term} (fuel : ℕ)
    (ht : readTerm s = some (t, plus ++ r)) (hr : r.head? ≠ some ' ') :
    readTerms (fuel + 1) s = (readTerms fuel r).map (t :: ·) := by
  have hplus : (plus ++ r).dropWhile (· = ' ') = '+' :: ' ' :: r := rfl
  have hblank : (' ' :: r).dropWhile (· = ' ') = r := by
    rw [List.dropWhile_cons_of_pos (by decide)]
    cases r with
    | nil => rfl
    | cons c r => exact List.dropWhile_cons_of_neg fun h => hr (congrArg some (of_decide_eq_true h))
  rw [readTerms, ht]
  simp only [hplus, hblank]

/-- A hole in an expression: a literal ends, and its variable is added. -/
theorem readTerms_hole {l r : List Char} {v : String} (fuel : ℕ)
    (hl : ∀ c ∈ l, isPlain c = true) (hv : isIdentifier v.toList = true) :
    readTerms (fuel + 2) ('"' :: (l ++ '"' :: (plus ++ (v.toList ++ (plus ++ '"' :: r))))) =
      (readTerms fuel ('"' :: r)).map fun terms => .literal l :: .var v :: terms := by
  have hhead : (v.toList ++ (plus ++ '"' :: r)).head? ≠ some ' ' := by
    cases hc : v.toList with
    | nil =>
      rw [hc] at hv
      cases hv
    | cons c w =>
      rintro ⟨⟩
      exact notMem_identifier hv (by decide) (hc ▸ List.mem_cons_self)
  have hvar : readTerm (v.toList ++ (plus ++ '"' :: r)) = some (.var v, plus ++ '"' :: r) := by
    have hread := readTerm_var hv (['+', ' '] ++ '"' :: r)
    rwa [String.ofList_toList] at hread
  rw [readTerms_plus (fuel + 1) (readTerm_literal hl _) hhead,
    readTerms_plus fuel hvar (by simp), Option.map_map]
  rfl

/-- **The pieces of a text written as an expression are read back.**  `l` stands before them in the
literal that they begin in. -/
theorem exists_readTerms {ps : List (Piece String)} {l : List Char} {fuel : ℕ}
    (hident : ∀ v, .mark v ∈ ps → isIdentifier v.toList = true)
    (hplain : ∀ c, .char c ∈ ps → isPlain c = true) (hl : ∀ c ∈ l, isPlain c = true)
    (hfuel : (l ++ written ps).length < fuel) :
    ∃ terms, readTerms fuel ('"' :: (l ++ (written ps ++ ['"']))) = some terms ∧
      ∀ env, value env terms = l ++ render (fun v => (env v).toList) ps := by
  induction ps generalizing l fuel with
  | nil =>
    obtain ⟨fuel, rfl⟩ := Nat.exists_eq_add_one_of_ne_zero (Nat.ne_zero_of_lt hfuel)
    refine ⟨[.literal l], ?_, fun env => ?_⟩
    · have hread := readTerm_literal hl []
      have hend : readTerms (fuel + 1) ('"' :: (l ++ ['"'])) = some [.literal l] := by
        rw [readTerms, hread]
        rfl
      exact hend
    · simp [value, render]
  | cons p ps ih =>
    have hident' := fun v hv => hident v (List.mem_cons_of_mem p hv)
    have hplain' := fun c hc => hplain c (List.mem_cons_of_mem p hc)
    cases p with
    | char c =>
      have hlc : ∀ d ∈ l ++ [c], isPlain d = true := by
        intro d hd
        rcases List.mem_append.mp hd with hd | hd
        · exact hl d hd
        · exact List.mem_singleton.mp hd ▸ hplain c List.mem_cons_self
      have hchar : written (.char c :: ps) = [c] ++ written ps := rfl
      rw [hchar, ← List.append_assoc] at hfuel
      obtain ⟨terms, hterms, hvalue⟩ := ih hident' hplain' hlc hfuel
      refine ⟨terms, ?_, fun env => ?_⟩
      · rw [hchar, List.append_assoc, ← List.append_assoc l]
        exact hterms
      · rw [hvalue env, render_char, List.append_assoc]
        rfl
    | mark v =>
      have hv := hident v List.mem_cons_self
      have hmark : written (.mark v :: ps) =
        '"' :: plus ++ (v.toList ++ (plus ++ ['"'])) ++ written ps := rfl
      rw [hmark] at hfuel
      simp only [List.length_append, List.length_cons] at hfuel
      obtain ⟨fuel, rfl⟩ : ∃ fuel', fuel = fuel' + 2 := Nat.exists_eq_add_of_le' (by omega)
      obtain ⟨terms, hterms, hvalue⟩ := @ih [] fuel hident' hplain'
        (List.forall_mem_nil _) (by rw [List.nil_append]; omega)
      refine ⟨.literal l :: .var v :: terms, ?_, fun env => ?_⟩
      · have hhole := readTerms_hole (r := written ps ++ ['"']) fuel hl hv
        rw [List.nil_append] at hterms
        rw [hterms, Option.map_some] at hhole
        rw [hmark, List.append_assoc, List.append_assoc, List.append_assoc, List.append_assoc]
        exact hhole
      · rw [value, List.flatMap_cons, List.flatMap_cons, render_mark]
        exact congrArg (fun s => l ++ ((env v).toList ++ s)) (hvalue env)

/-! ### What an expression can stand for -/

/-- What is read of a term. -/
theorem readTerm_eq_some {s r : List Char} {t : Term} (h : readTerm s = some (t, r)) :
    r <:+ s ∧ ∀ l, t = .literal l → ∀ c ∈ l, c ∈ s := by
  unfold readTerm at h
  split at h
  · rename_i s
    split at h
    · rename_i r' hdrop
      cases h
      have hsuffix : '"' :: r <:+ s := hdrop ▸ List.dropWhile_suffix isPlain
      refine ⟨((List.suffix_cons _ r).trans hsuffix).trans (List.suffix_cons _ s), ?_⟩
      rintro l ⟨⟩ c hc
      exact List.mem_cons_of_mem _ ((List.takeWhile_prefix isPlain).mem hc)
    · cases h
  · split at h
    · cases h
      exact ⟨List.dropWhile_suffix isIdentChar, by rintro l ⟨⟩⟩
    · cases h

/-- An expression whose variables are empty has no character that its text has not. -/
theorem mem_of_mem_value {fuel : ℕ} {s : List Char} {terms : List Term} {c : Char}
    (h : readTerms fuel s = some terms) (hc : c ∈ value (fun _ => "") terms) : c ∈ s := by
  induction fuel generalizing s terms with
  | zero => cases h
  | succ fuel ih =>
    rw [readTerms] at h
    split at h
    · cases h
    · rename_i t r hread
      obtain ⟨hsuffix, hliteral⟩ := readTerm_eq_some hread
      have hterm : ∀ ts, c ∈ value (fun _ => "") (t :: ts) →
          c ∈ s ∨ c ∈ value (fun _ => "") ts := by
        intro ts hmem
        rw [value, List.flatMap_cons] at hmem
        rcases List.mem_append.mp hmem with hmem | hmem
        · cases t with
          | literal l => exact .inl (hliteral l rfl c hmem)
          | var v => cases hmem
        · exact .inr hmem
      split at h
      · cases h
        exact (hterm [] hc).resolve_right List.not_mem_nil
      · rename_i r' hdrop
        obtain ⟨ts, hts, rfl⟩ := Option.map_eq_some_iff.mp h
        rcases hterm ts hc with hmem | hmem
        · exact hmem
        · have hr : c ∈ r.dropWhile (· = ' ') :=
            hdrop ▸ List.mem_cons_of_mem _ ((List.dropWhile_suffix _).mem (ih hts hmem))
          exact hsuffix.mem ((List.dropWhile_suffix _).mem hr)
      · cases h

end Template
