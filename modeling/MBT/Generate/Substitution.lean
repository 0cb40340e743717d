import MBT.Generate.MGenReplacedStep
import MBT.Support.Pattern

/-!
# Generate — Substitution

`MGenDocMap.substituteParam` and `MGenReplacedStep.replaceVar`: the placeholder of each parameter is
replaced by its value, one parameter after another, with the name in a regular expression and the
value as a template.

* `substitutes_of_settled`: every placeholder is replaced by the characters of its value, whatever
  the order, where the names are plain, the values verbatim and no value makes a new placeholder.
* `substituteParam_throws`: a value with a dollar sign.
-/

namespace MBT
open Exec Text Pattern

/-- The parameters are substituted one by one, in the order in which the keys are visited. -/
def MGenDocMap.substituteParam (o : VisitOrder String) (replaceAll : MGenReplacedStep.ReplaceAll)
    (paramMap : HashMap String String) (action : String) : Except Exn String :=
  (o.visit paramMap.keySet).foldlM (fun action paramName => do
    let goalStr ← Prog.nonNull (paramMap.lookup paramName)
    replaceAll action ("\\\x7bMBT_SCEN_PARAM\\(" ++ paramName ++ "\\)\\\x7d") goalStr) action

namespace Substitution

/-! ### Placeholders -/

/-- The placeholder of a parameter; `word` says of which kind. -/
def placeholder (word n : String) : List Char :=
  '\x7b' :: (word.toList ++ '(' :: (n.toList ++ [')', '\x7d']))

/-- The characters of a value. -/
def valueOf (m : HashMap String String) (n : String) : List Char := ((m.lookup n).getD "").toList

/-- The text with the placeholders of the mapped names as marks. -/
def marked (word : String) (m : HashMap String String) (action : String) : List (Piece String) :=
  pieces (placeholder word) m.keys 0 action.toList

/-- The text in which each placeholder of a mapped name is replaced by the characters of the value,
all at once. -/
def substituted (word : String) (m : HashMap String String) (action : String) : String :=
  String.ofList (render (valueOf m) (marked word m action))

/-- The values of the names that `S` holds of, the placeholders of the others. -/
def filled (word : String) (m : HashMap String String) (S : String → Bool) (n : String) : List Char :=
  if S n then valueOf m n else placeholder word n

/-- The names are plain, the values that are put in are verbatim, and putting in the values of some
names makes no new placeholder of another one, unless that one is its own value. -/
structure Settled (word : String) (m : HashMap String String) (action : String) : Prop where
  plain : ∀ n ∈ m.keys, Plain n.toList
  verbatim : ∀ n, .mark n ∈ marked word m action → Verbatim (valueOf m n)
  stable : ∀ n ∈ m.keys, valueOf m n ≠ placeholder word n → ∀ S : String → Bool, S n = false →
    occurrences (placeholder word n) (render (filled word m S) (marked word m action)) =
      (marked word m action).count (.mark n)

/-! ### Substituting one name after another -/

/-- The expression that matches the placeholder. -/
def regexOf (word n : String) : String := "\\\x7b" ++ word ++ "\\(" ++ n ++ "\\)\\\x7d"

/-- The expression for a scenario parameter. -/
theorem regexOf_scen (n : String) :
    "\\\x7bMBT_SCEN_PARAM\\(" ++ n ++ "\\)\\\x7d" = regexOf "MBT_SCEN_PARAM" n := by
  have hopen : "\\\x7bMBT_SCEN_PARAM\\(" = "\\\x7b" ++ "MBT_SCEN_PARAM" ++ "\\(" := by decide
  rw [hopen, regexOf]

/-- The expression for a step parameter. -/
theorem regexOf_step (n : String) :
    "\\\x7bMBT_STEP_PARAM\\(" ++ n ++ "\\)\\\x7d" = regexOf "MBT_STEP_PARAM" n := by
  have hopen : "\\\x7bMBT_STEP_PARAM\\(" = "\\\x7b" ++ "MBT_STEP_PARAM" ++ "\\(" := by decide
  rw [hopen, regexOf]

/-- For a plain name it matches the placeholder only. -/
theorem literal_regexOf {word n : String} (hword : Plain word.toList) (hn : Plain n.toList) :
    literal (regexOf word n).toList = some (placeholder word n) := by
  have htext : (regexOf word n).toList =
      '\\' :: '\x7b' :: (word.toList ++ '\\' :: '(' :: (n.toList ++ ['\\', ')', '\\', '\x7d'])) := by
    simp only [regexOf, String.toList_append, List.append_assoc]
    rfl
  have hopen : ∀ s, literal ('\\' :: '\x7b' :: s) = (literal s).map ('\x7b' :: ·) := fun s => rfl
  have hparen : ∀ s, literal ('\\' :: '(' :: s) = (literal s).map ('(' :: ·) := fun s => rfl
  have hclose : literal ['\\', ')', '\\', '\x7d'] = some [')', '\x7d'] := rfl
  rw [htext, hopen, literal_plain hword, hparen, literal_plain hn, hclose]
  rfl

/-- The characters behind the first of a placeholder have no meaning in a template, and the first
does not occur again. -/
theorem tail_placeholder {word n : String} (hword : Plain word.toList) (hn : Plain n.toList)
    {c : Char} (hc : c ∈ ['\x7b', '$', '\\']) :
    c ∉ word.toList ++ '(' :: (n.toList ++ [')', '\x7d']) := by
  have hends : c ∈ special ∧ c ≠ '(' ∧ c ∉ [')', '\x7d'] := by
    simp only [List.mem_cons, List.not_mem_nil, or_false] at hc
    rcases hc with rfl | rfl | rfl <;> decide
  intro h
  rcases List.mem_append.mp h with h | h
  · exact hword c h hends.1
  · rcases List.mem_cons.mp h with h | h
    · exact hends.2.1 h
    · rcases List.mem_append.mp h with h | h
      · exact hn c h hends.1
      · exact hends.2.2 h

/-- The placeholder of a plain name stands for itself. -/
theorem verbatim_placeholder {word n : String} (hword : Plain word.toList) (hn : Plain n.toList) :
    Verbatim (placeholder word n) := by
  constructor
  · exact fun h => (List.mem_cons.mp h).elim (by decide) (tail_placeholder hword hn (by decide))
  · exact fun h => (List.mem_cons.mp h).elim (by decide) (tail_placeholder hword hn (by decide))

variable {word : String} {m : HashMap String String} {action : String}

/-- One name more is filled in. -/
theorem filled_put {S : String → Bool} (n : String) :
    filled word m (Function.update S n true) = Function.update (filled word m S) n (valueOf m n) := by
  funext k
  by_cases hk : k = n
  · subst hk
    rw [filled, Function.update_self, Function.update_self, if_pos rfl]
  · rw [filled, Function.update_of_ne hk, Function.update_of_ne hk, filled]

/-- One name: its value is put in, and everything else stays. -/
theorem replaceAll_settled (engine : String → String → String → Except Exn String)
    (hword : Plain word.toList) (h : Settled word m action) {n : String} (hn : n ∈ m.keys)
    {S : String → Bool} (hS : S n = false) :
    replaceAll engine (String.ofList (render (filled word m S) (marked word m action)))
        (regexOf word n) (String.ofList (valueOf m n)) =
      .ok (String.ofList (render (filled word m (Function.update S n true)) (marked word m action))) := by
  have hplain := h.plain n hn
  have hw : filled word m S n = placeholder word n := if_neg (by rw [hS]; decide)
  have hput : replaceChars (placeholder word n) (valueOf m n) 0
      (render (filled word m S) (marked word m action)) =
        render (filled word m (Function.update S n true)) (marked word m action) := by
    rw [filled_put]
    by_cases hself : valueOf m n = placeholder word n
    · rw [hself, placeholder, replaceChars_self, ← placeholder, ← hw, Function.update_eq_self]
    · exact replaceChars_render hw (tail_placeholder hword hplain List.mem_cons_self) _
        (h.stable n hn hself S hS)
  rw [replaceAll, literal_regexOf hword hplain, placeholder]
  dsimp only
  rw [← placeholder, String.toList_ofList, String.toList_ofList]
  split
  · rename_i hnone
    rw [← hput, replaceChars_none _ hnone]
  · rename_i hsome
    have hverb : Verbatim (valueOf m n) := by
      by_cases hself : valueOf m n = placeholder word n
      · rw [hself]
        exact verbatim_placeholder hword hplain
      · rw [h.stable n hn hself S hS] at hsome
        exact h.verbatim n (List.count_pos_iff.mp (Nat.pos_of_ne_zero hsome))
    rw [expand_verbatim _ hverb, ok_bind, hput]
    rfl

/-- The names of `ks`, one after another. -/
theorem foldlM_settled (engine : String → String → String → Except Exn String)
    (hword : Plain word.toList) (h : Settled word m action) {ks : List String} (hnodup : ks.Nodup)
    (hks : ∀ n ∈ ks, n ∈ m.keys) {S : String → Bool} (hS : ∀ n ∈ ks, S n = false) :
    ∃ S' : String → Bool, (∀ n, S' n = true ↔ S n = true ∨ n ∈ ks) ∧
      ks.foldlM (fun action n => do
          let goalStr ← Prog.nonNull (m.lookup n)
          replaceAll engine action (regexOf word n) goalStr)
        (String.ofList (render (filled word m S) (marked word m action))) =
      .ok (String.ofList (render (filled word m S') (marked word m action))) := by
  induction ks generalizing S with
  | nil => exact ⟨S, fun n => (or_iff_left List.not_mem_nil).symm, rfl⟩
  | cons k ks ih =>
    obtain ⟨hk, hnodup⟩ := List.nodup_cons.mp hnodup
    have hkey := hks k List.mem_cons_self
    obtain ⟨v, hv⟩ := Option.isSome_iff_exists.mp (AList.lookup_isSome.mpr hkey)
    have hval : String.ofList (valueOf m k) = v := by
      rw [valueOf, hv, Option.getD_some, String.ofList_toList]
    have hstep := replaceAll_settled engine hword h hkey (hS k List.mem_cons_self)
    obtain ⟨S', hS', hrun⟩ := ih hnodup (fun n hn => hks n (List.mem_cons_of_mem _ hn))
      (S := Function.update S k true) fun n hn => by
        have hne : n ≠ k := by
          rintro rfl
          exact hk hn
        rw [Function.update_of_ne hne]
        exact hS n (List.mem_cons_of_mem _ hn)
    refine ⟨S', fun n => ?_, ?_⟩
    · rw [hS', List.mem_cons]
      by_cases hn : n = k
      · subst hn
        simp
      · rw [Function.update_of_ne hn]
        simp [hn]
    · rw [List.foldlM_cons, hv, Prog.nonNull, ok_bind, ← hval, hstep, ok_bind]
      exact hrun

/-- All names, in any order. -/
theorem foldlM_visit (o : VisitOrder String) (engine : String → String → String → Except Exn String)
    (hword : Plain word.toList) (h : Settled word m action) :
    (o.visit m.keySet).foldlM (fun action n => do
        let goalStr ← Prog.nonNull (m.lookup n)
        replaceAll engine action (regexOf word n) goalStr) action =
      .ok (substituted word m action) := by
  obtain ⟨S, hS, hrun⟩ := foldlM_settled engine hword h (o.nodup_visit m.keySet)
    (fun n hn => (o.mem_visit).mp hn) (S := fun _ => false) fun _ _ => rfl
  have hstart : String.ofList (render (filled word m fun _ => false) (marked word m action)) = action := by
    have hmark : filled word m (fun _ => false) = placeholder word := rfl
    have hne : ∀ n ∈ m.keys, placeholder word n ≠ [] := fun n _ => List.cons_ne_nil _ _
    rw [hmark, marked, render_pieces hne, String.ofList_toList]
  have hend : render (filled word m S) (marked word m action) =
      render (valueOf m) (marked word m action) := by
    refine List.flatMap_congr fun p hp => ?_
    cases p with
    | char c => rfl
    | mark n =>
      refine if_pos ((hS n).mpr (.inr ?_))
      exact (o.mem_visit).mpr (mem_of_mark_mem_pieces hp)
  rw [hstart, hend] at hrun
  exact hrun

/-- **Where substitution is literal.**  Both methods replace every placeholder of a mapped name by
the characters of its value and leave the rest, whatever the order of the names, where the names
are plain, the values that are put in are verbatim and no value makes a new placeholder. -/
theorem substitutes_of_settled (o : VisitOrder String)
    (engine : String → String → String → Except Exn String)
    (paramMap : HashMap String String) (action : String) (varCombs : HashMap String String)
    (actionList : List String) (h : Settled "MBT_SCEN_PARAM" paramMap action)
    (h' : ∀ a ∈ actionList, Settled "MBT_STEP_PARAM" varCombs a) :
    MGenDocMap.substituteParam o (replaceAll engine) paramMap action =
        .ok (substituted "MBT_SCEN_PARAM" paramMap action) ∧
      MGenReplacedStep.replaceVar o (replaceAll engine) varCombs actionList =
        .ok (actionList.map (substituted "MBT_STEP_PARAM" varCombs)) := by
  constructor
  · unfold MGenDocMap.substituteParam
    simp only [regexOf_scen]
    exact foldlM_visit o engine (by decide) h
  · unfold MGenReplacedStep.replaceVar
    simp only [regexOf_step]
    refine mapM_eq_ok.mpr (List.forall₂_map_right_iff.mpr (List.forall₂_same.mpr fun a ha => ?_))
    exact foldlM_visit o engine (by decide) (h' a ha)

/-- The parameter `sum` with a value. -/
def sumMap (v : String) : HashMap String String := AList.insert "sum" v ∅

/-- An action with a placeholder. -/
def sumAction (word : String) : String := "pay \x7b" ++ word ++ "(sum)\x7d;"

/-- An engine that accepts no expression. -/
def noEngine : String → String → String → Except Exn String := fun _ _ _ => .error .illegalArgument

/-- The only name is `sum`. -/
theorem eq_sum {v n : String} (h : n ∈ (sumMap v).keys) : n = "sum" := List.mem_singleton.mp h

/-- Its value can be put in. -/
theorem settled_sum {word : String} (h : word = "MBT_SCEN_PARAM" ∨ word = "MBT_STEP_PARAM") :
    Settled word (sumMap "5") (sumAction word) := by
  refine ⟨fun n hn => ?_, fun n hn => ?_, fun n hn _ S hS => ?_⟩
  · rw [eq_sum hn]
    decide
  · rw [eq_sum (mem_of_mark_mem_pieces hn)]
    exact ⟨by decide, by decide⟩
  · have hname := eq_sum hn
    subst hname
    have hrender : render (filled word (sumMap "5") S) (marked word (sumMap "5") (sumAction word)) =
        render (placeholder word) (marked word (sumMap "5") (sumAction word)) := by
      refine List.flatMap_congr fun p hp => ?_
      cases p with
      | char c => rfl
      | mark k =>
        rw [eq_sum (mem_of_mark_mem_pieces hp)]
        exact if_neg (by rw [hS]; decide)
    rw [hrender]
    rcases h with rfl | rfl <;> decide +kernel

theorem substitutes_of_settled_sum :
    MGenDocMap.substituteParam .insertion (replaceAll noEngine) (sumMap "5") (sumAction "MBT_SCEN_PARAM") =
        .ok (substituted "MBT_SCEN_PARAM" (sumMap "5") (sumAction "MBT_SCEN_PARAM")) ∧
      MGenReplacedStep.replaceVar .insertion (replaceAll noEngine) (sumMap "5") [sumAction "MBT_STEP_PARAM"] =
        .ok ([sumAction "MBT_STEP_PARAM"].map (substituted "MBT_STEP_PARAM" (sumMap "5"))) :=
  substitutes_of_settled .insertion noEngine (sumMap "5") _ (sumMap "5") _ (settled_sum (.inl rfl))
    fun a ha => by rw [List.mem_singleton.mp ha]; exact settled_sum (.inr rfl)

/-- The value `$5` is read as a reference to a group that the expression does not have. -/
theorem substituteParam_throws :
    ¬ MGenDocMap.substituteParam .insertion (replaceAll noEngine) (sumMap "$5") (sumAction "MBT_SCEN_PARAM") =
      .ok (substituted "MBT_SCEN_PARAM" (sumMap "$5") (sumAction "MBT_SCEN_PARAM")) := by
  decide +kernel

end Substitution

end MBT
