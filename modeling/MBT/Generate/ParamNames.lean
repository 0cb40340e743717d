import MBT.Generate.MGenPathParamSet
import MBT.Generate.Substitution
import MBT.Support.Split

/-!
# Generate — ParamNames

The names of the parameters that the actions of a step have placeholders for, as the generators of
the parameter sets find them in the joined actions.

* `matchNames_render`: the names that are found are those of the placeholders.
* `genPathParamSet_names`: the set of a path has the names of its steps and no others.
-/

namespace MBT
open Exec Text Pattern Substitution

namespace MGenPathParamSet

/-! ### The names in a text -/

/-- The names in the matches of `opening.*?\)`, found from left to right; `skip` characters of a match
are still to be left out. -/
def matchNames (opening : List Char) : ℕ → List Char → List (List Char)
  | _, [] => []
  | skip + 1, _ :: s => matchNames opening skip s
  | 0, c :: s =>
    let rest := (c :: s).drop opening.length
    let varName := rest.takeWhile (· ≠ ')')
    if opening.isPrefixOf (c :: s) ∧ varName.length < rest.length ∧
        varName.all (fun d => d ∉ lineTerminators) then
      varName :: matchNames opening (opening.length + varName.length) s
    else matchNames opening 0 s

/-- How a mark begins. -/
def openingOf (word : String) : List Char := word.toList ++ ['(']

/-- The scan of the scenario's parameters is that for its mark. -/
theorem paramNames_eq : paramNames = matchNames (openingOf "MBT_SCEN_PARAM") := by
  funext k s
  induction s generalizing k with
  | nil => cases k <;> rfl
  | cons c s ih =>
    have hopening : "MBT_SCEN_PARAM(".toList = openingOf "MBT_SCEN_PARAM" := by decide
    have hlength : (openingOf "MBT_SCEN_PARAM").length = 15 := by decide
    cases k with
    | succ k => exact ih k
    | zero => rw [paramNames, matchNames, ih, ih, hopening, hlength]

end MGenPathParamSet

open MGenPathParamSet

namespace MGenStepXml

/-- The names of the step parameters in a text. -/
def genStepParamSet (actionsStr : String) : HashSet String :=
  HashSet.empty.addAll ((matchNames (openingOf "MBT_STEP_PARAM") 0 actionsStr.toList).map String.ofList)

/-- The set that `genStepXml` generates for an element `TESTSTEP`. -/
def stepParamSet (e : StepActions) : HashSet String := genStepParamSet (String.join e.actions)

end MGenStepXml

namespace MGenPathParamSet

variable {word : String} {opening n s : List Char} {ps : List (Piece String)}

theorem matchNames_skip (opening : List Char) (k : ℕ) (s : List Char) :
    matchNames opening k s = matchNames opening 0 (s.drop k) := by
  induction s generalizing k with
  | nil =>
    rw [List.drop_nil]
    cases k <;> rfl
  | cons c s ih =>
    cases k with
    | zero => rfl
    | succ k => exact ih k

/-- A character that begins no mark is passed over. -/
theorem matchNames_char {c : Char} (h : ¬ opening <+: c :: s) :
    matchNames opening 0 (c :: s) = matchNames opening 0 s := by
  rw [matchNames]
  exact if_neg fun hmatch => h (List.isPrefixOf_iff_prefix.mp hmatch.1)

/-- The name of a placeholder. -/
def PlainName (n : List Char) : Prop := ∀ c ∈ n, c ≠ ')' ∧ c ∉ lineTerminators

/-- A mark gives its name. -/
theorem matchNames_mark (hopening : opening ≠ []) (hn : PlainName n) (s : List Char) :
    matchNames opening 0 (opening ++ n ++ ')' :: s) = n :: matchNames opening 0 s := by
  obtain ⟨a, t, rfl⟩ := List.exists_cons_of_ne_nil hopening
  have hdrop : (a :: t ++ n ++ ')' :: s).drop (a :: t).length = n ++ ')' :: s := by
    rw [List.append_assoc, List.drop_left]
  have hname : (n ++ ')' :: s).takeWhile (· ≠ ')') = n := by
    rw [List.takeWhile_append_of_pos, List.takeWhile_cons_of_neg (by decide), List.append_nil]
    exact fun c hc => decide_eq_true (hn c hc).1
  have hmatch : (a :: t).isPrefixOf (a :: t ++ n ++ ')' :: s) = true ∧
      n.length < (n ++ ')' :: s).length ∧ n.all (fun d => d ∉ lineTerminators) = true := by
    refine ⟨?_, ?_, ?_⟩
    · rw [List.append_assoc]
      exact List.isPrefixOf_iff_prefix.mpr (List.prefix_append _ _)
    · rw [List.length_append, List.length_cons]
      omega
    · exact List.all_eq_true.mpr fun c hc => decide_eq_true (hn c hc).2
  have hskip : (t ++ n ++ ')' :: s).drop ((a :: t).length + n.length) = s := by
    have hlength : (a :: t).length + n.length = (t ++ n ++ [')']).length := by
      simp only [List.length_append, List.length_cons, List.length_nil]
      omega
    have htext : t ++ n ++ ')' :: s = t ++ n ++ [')'] ++ s := by simp
    rw [hlength, htext, List.drop_left]
  rw [List.cons_append, List.cons_append] at hdrop hmatch ⊢
  rw [matchNames, hdrop, hname, if_pos hmatch, matchNames_skip, hskip]

/-! ### The names of the placeholders -/

/-- The names of the placeholders of a text. -/
def marks (ps : List (Piece String)) : List String :=
  ps.filterMap fun
    | .char _ => none
    | .mark n => some n

/-- The names are those of the marks. -/
theorem mem_marks {n : String} : n ∈ marks ps ↔ .mark n ∈ ps := by
  rw [marks, List.mem_filterMap]
  constructor
  · rintro ⟨p, hp, hn⟩
    cases p with
    | char c => cases hn
    | mark m =>
      cases hn
      exact hp
  · exact fun h => ⟨.mark n, h, rfl⟩

/-- The word of a placeholder with its parenthesis begins nowhere but in a placeholder. -/
def Clean (word : String) (ps : List (Piece String)) : Prop :=
  ∀ c rest, .char c :: rest <:+ ps → ¬ openingOf word <+: render (placeholder word) (.char c :: rest)

/-- Each text that is found is the name of a placeholder, in order. -/
theorem matchNames_render (hword : ∃ t, word.toList = 'M' :: t)
    (hplain : ∀ n, .mark n ∈ ps → PlainName n.toList) (hclean : Clean word ps) :
    matchNames (openingOf word) 0 (render (placeholder word) ps) = (marks ps).map String.toList := by
  obtain ⟨t, ht⟩ := hword
  have hother : ∀ c s, c ≠ 'M' → ¬ openingOf word <+: c :: s := by
    intro c s hc h
    rw [openingOf, ht, List.cons_append, List.cons_prefix_cons] at h
    exact hc h.1.symm
  induction ps with
  | nil => rfl
  | cons p ps ih =>
    have hrest := ih (fun n hn => hplain n (List.mem_cons_of_mem p hn))
      fun c rest h => hclean c rest (h.trans (List.suffix_cons p ps))
    cases p with
    | char c =>
      have hchar := hclean c ps (List.suffix_refl _)
      rw [render_char] at hchar ⊢
      rw [matchNames_char hchar, hrest]
      rfl
    | mark n =>
      have hopening : openingOf word ≠ [] := List.append_ne_nil_of_right_ne_nil _ (List.cons_ne_nil _ _)
      have htext : render (placeholder word) (.mark n :: ps) =
          '\x7b' :: (openingOf word ++ n.toList ++ ')' :: '\x7d' :: render (placeholder word) ps) := by
        rw [render_mark, placeholder, openingOf]
        simp
      rw [htext, matchNames_char (hother _ _ (by decide)),
        matchNames_mark hopening (hplain n List.mem_cons_self), matchNames_char (hother _ _ (by decide)),
        hrest]
      rfl

end MGenPathParamSet

/-! ### The steps of an MBT XML -/

/-- A step whose actions have placeholders for parameters: the names are free of closing parentheses
and line breaks, and the word of the placeholders begins nowhere else, not even where one action
follows another. -/
structure MarkedStep (word : String) where
  stepNumber : ℤ
  actions : List (List (Piece String))
  plain : ∀ action ∈ actions, ∀ n, .mark n ∈ action → PlainName n.toList
  clean : Clean word actions.flatten

namespace MarkedStep

variable {word : String}

/-- The element `TESTSTEP` of the step. -/
def element (e : MarkedStep word) : StepActions :=
  ⟨e.stepNumber, e.actions.map fun action => String.ofList (render (placeholder word) action)⟩

/-- An action of the step has a placeholder with the name. -/
def Occurs (e : MarkedStep word) (n : String) : Prop := ∃ action ∈ e.actions, .mark n ∈ action

/-- The characters of the actions of a step. -/
theorem toList_join (e : MarkedStep word) :
    (String.join e.element.actions).toList = render (placeholder word) e.actions.flatten := by
  have hjoin : ∀ actions : List (List (Piece String)),
      (String.join (actions.map fun action => String.ofList (render (placeholder word) action))).toList =
        render (placeholder word) actions.flatten := by
    intro actions
    induction actions with
    | nil => rfl
    | cons action actions ih =>
      rw [List.map_cons, String.join_cons, String.toList_append, ih, String.toList_ofList,
        List.flatten_cons, render_append]
  exact hjoin e.actions

/-- The names that are found in the actions of a step are those that occur. -/
theorem mem_matchNames (hword : ∃ t, word.toList = 'M' :: t) (e : MarkedStep word) {n : String} :
    n ∈ (matchNames (openingOf word) 0 (String.join e.element.actions).toList).map String.ofList ↔
      e.Occurs n := by
  have hplain : ∀ n, .mark n ∈ e.actions.flatten → PlainName n.toList := by
    intro n hn
    obtain ⟨action, haction, hn⟩ := List.mem_flatten.mp hn
    exact e.plain action haction n hn
  have hid : String.ofList ∘ String.toList = id := funext fun n => String.ofList_toList
  rw [toList_join, matchNames_render hword hplain e.clean, List.map_map, hid, List.map_id, mem_marks,
    List.mem_flatten, Occurs]

end MarkedStep

/-- The step of a number; the last element counts. -/
def stepOf {word : String} (steps : List (MarkedStep word)) (t : ℤ) : Option (MarkedStep word) :=
  steps.reverse.find? (·.stepNumber == t)

namespace MGenPathParamSet

/-- The actions of a step, by its number. -/
theorem lookup_testStepElemMap {word : String} (steps : List (MarkedStep word)) (t : ℤ) :
    (testStepElemMap (steps.map MarkedStep.element)).lookup t =
      (stepOf steps t).map fun e => String.join e.element.actions := by
  rw [testStepElemMap,
    HashMap.lookup_foldl_insert StepActions.stepNumber fun e => String.join e.actions,
    ← List.map_reverse, List.find?_map, stepOf, Option.map_map]
  exact Option.or_none

/-! ### The loop over a path -/

/-- The turn for a step adds the names of its actions and clears them. -/
theorem addParams_spec {acc : HashMap ℤ String × HashSet String} {t : ℤ} {actionsStr : String}
    (h : acc.1.lookup t = some actionsStr) : ∃ acc', addParams acc t = .ok acc' ∧
      (∀ u, acc'.1.lookup u = if u = t then some "" else acc.1.lookup u) ∧
      ∀ n, n ∈ acc'.2.elems ↔
        n ∈ acc.2.elems ∨ n ∈ (paramNames 0 actionsStr.toList).map String.ofList := by
  rw [addParams, h, Prog.nonNull, ok_bind]
  by_cases hempty : actionsStr = ""
  · rw [if_pos hempty]
    refine ⟨acc, rfl, ?_, ?_⟩
    · intro u
      by_cases hu : u = t
      · rw [if_pos hu, hu, h, hempty]
      · rw [if_neg hu]
    · intro n
      rw [hempty]
      exact (or_iff_left List.not_mem_nil).symm
  · rw [if_neg hempty]
    refine ⟨_, rfl, ?_, fun n => HashSet.mem_elems_addAll⟩
    intro u
    by_cases hu : u = t
    · rw [if_pos hu, hu, AList.lookup_insert]
    · rw [if_neg hu, AList.lookup_insert_ne hu]

/-- What the loop finds: the names of the actions of each step of the path. -/
theorem foldlM_addParams {p : List ℤ} {acc : HashMap ℤ String × HashSet String}
    (h : ∀ t ∈ p, (acc.1.lookup t).isSome = true) : ∃ acc', p.foldlM addParams acc = .ok acc' ∧
      ∀ n, n ∈ acc'.2.elems ↔ n ∈ acc.2.elems ∨ ∃ t ∈ p, ∃ actionsStr, acc.1.lookup t = some actionsStr ∧
        n ∈ (paramNames 0 actionsStr.toList).map String.ofList := by
  induction p generalizing acc with
  | nil => exact ⟨acc, rfl, fun n => (or_iff_left (by rintro ⟨t, ht, -⟩; cases ht)).symm⟩
  | cons t p ih =>
    rw [List.forall_mem_cons] at h
    obtain ⟨actionsStr, hactions⟩ := Option.isSome_iff_exists.mp h.1
    obtain ⟨acc₁, hturn, hlookup, hmem⟩ := addParams_spec hactions
    have hsome : ∀ u ∈ p, (acc₁.1.lookup u).isSome = true := by
      intro u hu
      rw [hlookup]
      split
      · rfl
      · exact h.2 u hu
    obtain ⟨acc', hrun, hmem'⟩ := ih hsome
    refine ⟨acc', ?_, ?_⟩
    · rw [List.foldlM_cons, hturn]
      exact hrun
    · intro n
      rw [hmem', hmem, or_assoc, List.exists_mem_cons_iff]
      refine or_congr_right ?_
      -- a step that was used adds nothing again
      constructor
      · rintro (hn | ⟨u, hu, s, hs, hn⟩)
        · exact .inl ⟨actionsStr, hactions, hn⟩
        · rw [hlookup] at hs
          split at hs
          · cases hs
            cases hn
          · exact .inr ⟨u, hu, s, hs, hn⟩
      · rintro (⟨s, hs, hn⟩ | ⟨u, hu, s, hs, hn⟩)
        · cases hactions.symm.trans hs
          exact .inl hn
        · by_cases hut : u = t
          · cases hactions.symm.trans (hut ▸ hs)
            exact .inl hn
          · refine .inr ⟨u, hu, s, ?_, hn⟩
            rw [hlookup, if_neg hut]
            exact hs

/-- **The names of a path.**  The set has the names of the placeholders in the actions of the steps on
the path and no others, so that a map with these names has a value for each placeholder that
`substituteParam` meets; the set of a step has the names of its own. -/
theorem genPathParamSet_names (steps : List (MarkedStep "MBT_SCEN_PARAM")) {stepPath : List ℤ}
    (hpath : ∀ t ∈ stepPath, (stepOf steps t).isSome = true) :
    (∃ paramSet, genPathParamSet (steps.map MarkedStep.element) stepPath = .ok paramSet ∧
      (∀ n, n ∈ paramSet.elems ↔ ∃ t ∈ stepPath, ∃ e, stepOf steps t = some e ∧ e.Occurs n) ∧
      ∀ (o : VisitOrder String) (paramMap : HashMap String String),
        (∀ n ∈ paramSet.elems, n ∈ paramMap) → ∀ t ∈ stepPath, ∀ e, stepOf steps t = some e →
          ∀ n, e.Occurs n → n ∈ o.visit paramMap.keySet ∧ (paramMap.lookup n).isSome = true) ∧
    ∀ (e : MarkedStep "MBT_STEP_PARAM") (n : String),
      n ∈ (MGenStepXml.stepParamSet e.element).elems ↔ e.Occurs n := by
  have hlookup := lookup_testStepElemMap steps
  have hsome : ∀ t ∈ stepPath,
      ((testStepElemMap (steps.map MarkedStep.element)).lookup t).isSome = true := by
    intro t ht
    rw [hlookup, Option.isSome_map]
    exact hpath t ht
  obtain ⟨acc, hrun, hmem⟩ := @foldlM_addParams stepPath
    (testStepElemMap (steps.map MarkedStep.element), HashSet.empty) hsome
  have hnames : ∀ n, n ∈ acc.2.elems ↔
      ∃ t ∈ stepPath, ∃ e, stepOf steps t = some e ∧ e.Occurs n := by
    intro n
    rw [hmem, HashSet.elems_empty, or_iff_right List.not_mem_nil]
    refine exists_congr fun t => and_congr_right fun _ => ?_
    dsimp only
    rw [hlookup, paramNames_eq]
    cases stepOf steps t with
    | none => exact iff_of_false (by rintro ⟨s, ⟨⟩, -⟩) (by rintro ⟨e, ⟨⟩, -⟩)
    | some e =>
      rw [Option.map_some]
      have hocc := MarkedStep.mem_matchNames ⟨_, rfl⟩ e (n := n)
      constructor
      · rintro ⟨s, ⟨⟩, hn⟩
        exact ⟨e, rfl, hocc.mp hn⟩
      · rintro ⟨e', ⟨⟩, hn⟩
        exact ⟨_, rfl, hocc.mpr hn⟩
  refine ⟨⟨acc.2, by rw [genPathParamSet, hrun]; rfl, hnames, ?_⟩, ?_⟩
  · intro o paramMap hbound t ht e he n hn
    have hkey : n ∈ paramMap := hbound n ((hnames n).mpr ⟨t, ht, e, he, hn⟩)
    exact ⟨o.mem_visit.mpr hkey, AList.lookup_isSome.mpr hkey⟩
  · intro e n
    rw [MGenStepXml.stepParamSet, MGenStepXml.genStepParamSet, HashSet.mem_elems_addAll,
      HashSet.elems_empty, or_iff_right List.not_mem_nil]
    exact MarkedStep.mem_matchNames ⟨_, rfl⟩ e

/-- A step that logs in with a parameter. -/
def loginStep : MarkedStep "MBT_SCEN_PARAM" where
  stepNumber := 1
  actions := [[.char 'f', .mark "user"]]
  plain := by
    intro action haction n hn
    rw [List.mem_singleton.mp haction] at hn
    cases hn with
    | tail _ hn =>
      cases List.mem_singleton.mp hn
      have hname : "user".toList = ['u', 's', 'e', 'r'] := by decide
      rw [hname]
      simp [PlainName, lineTerminators]
  clean := by
    intro c rest h
    rcases List.suffix_cons_iff.mp h with h | h
    · cases h
      decide
    · rcases List.suffix_cons_iff.mp h with h | h
      · cases h
      · cases List.suffix_nil.mp h

theorem genPathParamSet_names_login :
    (∀ t ∈ [1, 1], (stepOf [loginStep] t).isSome = true) ∧
    ((∃ paramSet, genPathParamSet ([loginStep].map MarkedStep.element) [1, 1] = .ok paramSet ∧
      (∀ n, n ∈ paramSet.elems ↔ ∃ t ∈ [1, 1], ∃ e, stepOf [loginStep] t = some e ∧ e.Occurs n) ∧
      ∀ (o : VisitOrder String) (paramMap : HashMap String String),
        (∀ n ∈ paramSet.elems, n ∈ paramMap) → ∀ t ∈ [1, 1], ∀ e, stepOf [loginStep] t = some e →
          ∀ n, e.Occurs n → n ∈ o.visit paramMap.keySet ∧ (paramMap.lookup n).isSome = true) ∧
    ∀ (e : MarkedStep "MBT_STEP_PARAM") (n : String),
      n ∈ (MGenStepXml.stepParamSet e.element).elems ↔ e.Occurs n) := by
  have hpath : ∀ t ∈ [1, 1], (stepOf [loginStep] t).isSome = true := by
    intro t ht
    have ht : t = 1 := by simpa using ht
    rw [ht]
    rfl
  exact ⟨hpath, genPathParamSet_names [loginStep] hpath⟩

/-- Two actions without a placeholder that have one where they are joined. -/
theorem not_genPathParamSet_joined :
    (∀ action ∈ ["MBT_SCEN_", "PARAM(x)"], contains action "MBT_SCEN_PARAM(" = false) ∧
      (genPathParamSet [⟨1, ["MBT_SCEN_", "PARAM(x)"]⟩] [1]).map HashSet.elems = .ok ["x"] := by
  decide +kernel

end MGenPathParamSet

end MBT
