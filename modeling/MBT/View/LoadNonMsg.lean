import MBT.View.MQTestActionHandler

/-!
# View — LoadNonMsg

The action `loadNonMsg`: by the number that is its first argument it goes to the handler of another
action, which is given the whole call and takes it for a call of its own.

* `same_iff`: when handling such a call does what handling the action itself does.
-/

namespace MBT
open Exec Text

namespace MQTestActionHandler
open MXmlParse

/-! ### Outcomes -/

/-- What a handling returns, if it does, and the globals that it leaves. -/
def outcome {α : Type} (x : Handler α) (globalVar : HashSet String) : Option α × HashSet String :=
  match x.run globalVar with
  | .ok a globalVar' => (some a, globalVar')
  | .error _ globalVar' => (none, globalVar')

section Outcome

variable {α β : Type} {globalVar : HashSet String}

theorem outcome_pure (a : α) : outcome (pure a) globalVar = (some a, globalVar) := rfl

/-- What a computation without state comes to. -/
theorem outcome_map_liftExn (f : α → β) (x : Except Exn α) :
    outcome (f <$> liftExn x) globalVar = (x.toOption.map f, globalVar) := by
  cases x <;> rfl

/-- What comes behind one. -/
theorem outcome_liftExn_bind (x : Except Exn α) (f : α → Handler β) :
    outcome (liftExn x >>= f) globalVar =
      match x with
      | .ok a => outcome (f a) globalVar
      | .error _ => (none, globalVar) := by
  cases x <;> rfl

/-- Another value leaves the same globals. -/
theorem outcome_map (f : α → β) (x : Handler α) :
    outcome (f <$> x) globalVar =
      ((outcome x globalVar).1.map f, (outcome x globalVar).2) := by
  rw [outcome, outcome, map_eq_pure_bind, EStateM.run_bind]
  cases x.run globalVar <;> rfl

end Outcome

/-! ### The call and its handler -/

/-- The action that a type stands for. -/
def NonMsg.direct : NonMsg → String
  | script => "script"
  | loadVar1 | loadVar2 => "loadVar"
  | loadScript1 | loadScript2 => "loadScript"
  | loadDbVerify1 | loadDbVerify2 => "loadDbVerify"
  | query => "query"
  | remoteCall => "remoteCall"
  | dbVerify => "dbVerify"
  | setVar => "setVar"

/-- The numbers of arguments that the action takes. -/
def NonMsg.arities : NonMsg → List ℕ
  | script => [1]
  | loadVar1 | loadVar2 | loadScript1 | loadScript2 | loadDbVerify1 | loadDbVerify2 => [1, 3]
  | query => [2]
  | remoteCall | dbVerify => [3]
  | setVar => [4]

/-- The number as it stands in the call. -/
def NonMsg.code (t : NonMsg) : String := t.number.repr

/-- The call of `loadNonMsg` with the number of the type before the arguments. -/
def NonMsg.line (t : NonMsg) (params : List String) : String :=
  Action.line ⟨"loadNonMsg", t.code :: params⟩

/-- A text with a quote is no number. -/
theorem parseInt_error {s : String} (h : '"' ∈ s.toList) : parseInt s = .error .illegalArgument := by
  have hdigits {ds : List Char} (hds : '"' ∈ ds) : ¬ ds.all (fun d => (digit d).isSome) = true := by
    intro hall
    exact absurd (List.all_eq_true.mp hall _ hds) (by decide)
  rw [parseInt]
  dsimp only
  split
  · rename_i ds hs
    have hds : '"' ∈ ds := (List.mem_cons.mp (hs ▸ h)).resolve_left (by decide)
    rw [if_neg fun hn => hdigits hds hn.2.1]
  · rename_i ds hs
    have hds : '"' ∈ ds := (List.mem_cons.mp (hs ▸ h)).resolve_left (by decide)
    rw [if_neg fun hn => hdigits hds hn.2.1]
  · rw [if_neg fun hn => hdigits h hn.2.1]

variable (env : Environment) (globalVar : HashSet String)

/-- The action has a name that does not begin with a blank. -/
theorem named_loadNonMsg : Named "loadNonMsg" := ⟨'l', rfl, by decide⟩

/-- The code of a type is its number. -/
theorem NonMsg.parseInt_code (t : NonMsg) : parseInt t.code = .ok t.number := by
  cases t <;> decide

/-- The number of a type tells it. -/
theorem NonMsg.ofNumber_number (t : NonMsg) : ofNumber t.number = some t := by
  cases t <;> rfl

/-- A code has no quote. -/
theorem NonMsg.quote_notMem_code (t : NonMsg) : '"' ∉ t.code.toList := by
  cases t <;> decide

/-- A code is not empty. -/
theorem NonMsg.code_ne_empty (t : NonMsg) : t.code ≠ "" := by
  cases t <;> decide

/-- The pieces of a text whose first piece is not empty. -/
theorem splitVars_cons {x : String} {params : List String} (hx : Inert x)
    (hparams : ∀ p ∈ params, '"' ∉ p.toList) (hsome : ∃ p ∈ params, p ≠ "") :
    splitVars ("\", \"".intercalate (x :: params)) = x :: params.rdropWhile (· = "") := by
  obtain ⟨p, hp, hpne⟩ := hsome
  have hrest : params.rdropWhile (· = "") ≠ [] := fun h =>
    hpne (of_decide_eq_true (List.rdropWhile_eq_nil_iff.mp h p hp))
  rw [splitVars_intercalate hx hparams (List.ne_nil_of_mem hp), rdropWhile_cons, if_neg hrest,
    if_neg]
  rw [List.length_cons]
  exact fun h => hrest (List.length_eq_zero_iff.mp (Nat.succ.inj h))

/-- The call goes to its branch. -/
theorem handleAction_line (t : NonMsg) (params : List String) :
    handleAction env (t.line params) = handleLoadNonMsg env (t.line params) := by
  unfold handleAction
  simp only [NonMsg.line, startsWith_line]
  rfl

theorem intercalate_append (w x : String) (params : List String) :
    "\", \"".intercalate ((w ++ x) :: params) = w ++ "\", \"".intercalate (x :: params) := by
  refine String.toList_injective ?_
  rw [String.toList_append, String.toList_intercalate, String.toList_intercalate, List.map_cons,
    List.map_cons, intercalate_cons, intercalate_cons, String.toList_append, List.append_assoc]

/-- The call as it stands behind its first characters. -/
theorem toList_nonMsgLine (t : NonMsg) (params : List String) {b : List Char} {w : String}
    (h : "loadNonMsg".toList ++ ['(', '"'] = b ++ w.toList) :
    (t.line params).toList = b ++ (("\", \"".intercalate ((w ++ t.code) :: params)).toList ++
      ['"', ')', ';']) := by
  rw [NonMsg.line, toList_line, intercalate_append, String.toList_append, h]
  simp only [List.append_assoc]

/-- The arguments of a call, from an index on. -/
theorem args_nonMsgLine (t : NonMsg) (params : List String) {b : List Char} {w : String}
    (h : "loadNonMsg".toList ++ ['(', '"'] = b ++ w.toList) :
    args (t.line params) b.length =
      .ok (splitVars ("\", \"".intercalate ((w ++ t.code) :: params))) :=
  args_eq (trim_line named_loadNonMsg _ _) (toList_nonMsgLine t params h)

variable {t : NonMsg} {params : List String}

/-- The arguments from the number on. -/
theorem args_number : args (t.line params) 12 =
    .ok (splitVars ("\", \"".intercalate (t.code :: params))) := by
  have h := args_nonMsgLine t params (b := "loadNonMsg".toList ++ ['(', '"']) (w := "") rfl
  rw [String.empty_append] at h
  exact h

/-- With no argument but the number, the number is not read. -/
theorem outcome_line_empty (hne : params ≠ []) (hempty : ∀ p ∈ params, p = "") :
    outcome (handleAction env (t.line params)) globalVar = (none, globalVar) := by
  have hinert := inert_of_notMem t.quote_notMem_code
  have hquote : ∀ p ∈ params, '"' ∉ p.toList := fun p hp => hempty p hp ▸ List.not_mem_nil
  have hpieces : (t.code :: params).rdropWhile (· = "") = [t.code] := by
    rw [rdropWhile_cons, if_pos]
    · exact List.rdropWhile_singleton _ _ |>.trans (if_neg fun h => t.code_ne_empty (of_decide_eq_true h))
    · exact List.rdropWhile_eq_nil_iff.mpr fun p hp => decide_eq_true (hempty p hp)
  have hmem : '"' ∈ ("\", \"".intercalate (t.code :: params)).toList := by
    obtain ⟨p, rest, rfl⟩ := List.exists_cons_of_ne_nil hne
    rw [String.toList_intercalate, List.map_cons, intercalate_cons]
    exact List.mem_append_right _ (by simp)
  have hget : ArrayList.get ["\", \"".intercalate (t.code :: params)] 0 =
      .ok ("\", \"".intercalate (t.code :: params)) := rfl
  rw [handleAction_line, handleLoadNonMsg, args_number, splitVars_intercalate hinert hquote hne,
    hpieces, if_pos List.length_singleton, outcome_liftExn_bind]
  dsimp only
  rw [outcome_liftExn_bind, hget]
  dsimp only
  rw [outcome_liftExn_bind, parseInt_error hmem]

/-- With another argument, the call goes to the handler of its type. -/
theorem handleAction_line_some (hquote : ∀ p ∈ params, '"' ∉ p.toList)
    (hsome : ∃ p ∈ params, p ≠ "") :
    handleAction env (t.line params) = t.handle env (t.line params) := by
  have hinert := inert_of_notMem t.quote_notMem_code
  have hget : ArrayList.get (t.code :: params.rdropWhile (· = "")) 0 = .ok t.code :=
    ArrayList.get_ok (i := 0) rfl
  rw [handleAction_line, handleLoadNonMsg, args_number, splitVars_cons hinert hquote hsome]
  simp only [liftExn, pure_bind, hget, t.parseInt_code, t.ofNumber_number]

/-- What a handler that splits the call reads of it behind its first characters. -/
theorem args_stray {b : List Char} {w : String}
    (h : "loadNonMsg".toList ++ ['(', '"'] = b ++ w.toList) (hinert : Inert (w ++ t.code))
    (hquote : ∀ p ∈ params, '"' ∉ p.toList) (hsome : ∃ p ∈ params, p ≠ "") :
    args (t.line params) b.length = .ok ((w ++ t.code) :: params.rdropWhile (· = "")) := by
  rw [args_nonMsgLine t params h, splitVars_cons hinert hquote hsome]

/-! ### The same handling -/

/-- In all files and from all globals, handling the call of the type does what handling the action
itself does. -/
def Same (t : NonMsg) (params : List String) : Prop :=
  ∀ files globalVar,
    outcome (handleAction { env with files := files } (t.line params)) globalVar =
      outcome (handleAction { env with files := files } (Action.line ⟨t.direct, params⟩)) globalVar

/-! ### Scripts -/

/-- What `handleScript` cuts out. -/
theorem handleScript_eq {action : String} {b q : List Char} (htrim : trim action = action)
    (h : action.toList = b ++ (q ++ ['"', ')', ';'])) (hlen : b.length = 8) :
    handleScript action = pure (String.ofList q) := by
  have hslice := slice_call h
  rw [hlen] at hslice
  rw [handleScript, htrim]
  exact congrArg (fun x => liftExn (inBounds x)) hslice

/-- A script is handled as itself. -/
theorem handleAction_script (script : String) :
    handleAction env (Action.line ⟨"script", [script]⟩) = some <$> (pure script : Handler String) := by
  have hscript := handleScript_eq (trim_line ⟨'s', rfl, by decide⟩ script [])
    (toList_line "script" script []) rfl
  rw [String.ofList_toList, String.intercalate_singleton] at hscript
  rw [← hscript]
  unfold handleAction
  simp only [startsWith_line]
  rfl

/-- The number and what stands before it become a part of the script. -/
theorem not_same_script (script : String) (hquote : '"' ∉ script.toList) :
    ¬ Same env .script [script] := by
  intro hsame
  have h := congrArg Prod.fst (hsame env.files .empty)
  rw [show NonMsg.script.direct = "script" from rfl, handleAction_script] at h
  by_cases hempty : script = ""
  · rw [outcome_line_empty _ _ (List.cons_ne_nil _ _) fun p hp => (List.mem_singleton.mp hp).trans hempty] at h
    cases h
  · have hscript := handleScript_eq (trim_line named_loadNonMsg _ _)
      (toList_nonMsgLine .script [script] (b := "loadNonM".toList) (w := "sg(\"") rfl) rfl
    rw [handleAction_line_some _ (fun p hp => List.mem_singleton.mp hp ▸ hquote)
      ⟨script, List.mem_singleton_self _, hempty⟩] at h
    change (outcome (some <$> handleScript (Action.line ⟨"loadNonMsg", _⟩)) _).1 = _ at h
    rw [hscript] at h
    have htext : String.ofList ("\", \"".intercalate (("sg(\"" ++ NonMsg.script.code) :: [script])).toList =
        script := Option.some.inj (Option.some.inj h)
    have hlen := congrArg String.length htext
    rw [String.ofList_toList, String.intercalate_cons_of_ne_nil (List.cons_ne_nil _ _)] at hlen
    simp only [String.length_append, String.intercalate_singleton] at hlen
    have hsep : "\", \"".length = 4 := rfl
    omega

/-! ### The outcome of the actions that are split -/

/-- The first parameter stays where one is not empty. -/
theorem rdropWhile_first {a : String} {l : List String} (hsome : ∃ p ∈ a :: l, p ≠ "") :
    ∃ l', (a :: l).rdropWhile (· = "") = a :: l' := by
  rw [rdropWhile_cons]
  split
  · rename_i hl
    have hempty := List.rdropWhile_eq_nil_iff.mp hl
    obtain ⟨p, hp, hne⟩ := hsome
    rcases List.mem_cons.mp hp with rfl | hp
    · exact ⟨[], (List.rdropWhile_singleton _ _).trans (if_neg fun h => hne (of_decide_eq_true h))⟩
    · exact absurd (of_decide_eq_true (hempty p hp)) hne
  · exact ⟨_, rfl⟩

/-- An action that only makes a script of its arguments. -/
structure Pure (k : SplitAction) (t : NonMsg) (f : List String → Except Exn String) : Prop where
  direct : t.direct = k.name
  make (env : Environment) (l : List String) : k.make env l = some <$> liftExn (f l)
  handle (env : Environment) (action : String) :
    t.handle env action = some <$> (liftExn (args action k.beginIndex) >>= fun l => liftExn (f l))

theorem pure_query : Pure .query .query query := ⟨rfl, fun _ _ => rfl, fun _ _ => rfl⟩

theorem pure_dbVerify : Pure .dbVerify .dbVerify dbVerify := ⟨rfl, fun _ _ => rfl, fun _ _ => rfl⟩

theorem pure_remoteCall : Pure .remoteCall .remoteCall remoteCall :=
  ⟨rfl, fun _ _ => rfl, fun _ _ => rfl⟩

section PureAction

variable {k : SplitAction} {f : List String → Except Exn String} (hpure : Pure k t f)

include hpure

/-- What the action itself comes to. -/
theorem outcome_direct (hlen : params.length = k.arity) (hquote : ∀ p ∈ params, '"' ∉ p.toList) :
    outcome (handleAction env (Action.line ⟨t.direct, params⟩)) globalVar =
      (if params.getLast? = some "" then none else (f params).toOption.map some, globalVar) := by
  have hread := SplitAction.args_eq_ok hlen hquote
  have hsucceeds := SplitAction.succeeds_handleAction env hlen hquote globalVar
  obtain ⟨p, rest, rfl, hne, hlast⟩ := SplitAction.exists_cons hlen
  rw [hpure.direct]
  rw [SplitAction.handleAction_line] at hsucceeds ⊢
  by_cases hempty : (p :: rest).getLast? = some ""
  · rw [if_pos hempty]
    rw [SplitAction.beginIndex_eq, args_line k.named] at hsucceeds ⊢
    change outcome (k.make env _) globalVar = _
    rw [hpure.make, outcome_map_liftExn]
    cases hf : f (splitVars ("\", \"".intercalate (p :: rest))) with
    | error e => rfl
    | ok s =>
      have hmake : Succeeds (k.make env (splitVars ("\", \"".intercalate (p :: rest)))) globalVar := by
        rw [hpure.make]
        exact succeeds_map.mpr (succeeds_liftExn.mpr ⟨s, hf⟩)
      exact absurd hempty (hsucceeds.mp (succeeds_liftExn_bind.mpr ⟨_, rfl, hmake⟩)).1
  · rw [if_neg hempty, hread.mpr hempty]
    change outcome (k.make env _) globalVar = _
    rw [hpure.make, outcome_map_liftExn]

/-- What the call comes to, with a stray text before the number. -/
theorem outcome_stray {b : List Char} {w : String} (hbegin : b.length = k.beginIndex)
    (h : "loadNonMsg".toList ++ ['(', '"'] = b ++ w.toList) (hinert : Inert (w ++ t.code))
    (hquote : ∀ p ∈ params, '"' ∉ p.toList) (hsome : ∃ p ∈ params, p ≠ "") :
    outcome (handleAction env (t.line params)) globalVar =
      ((f ((w ++ t.code) :: params.rdropWhile (· = ""))).toOption.map some, globalVar) := by
  rw [handleAction_line_some env hquote hsome, hpure.handle, ← hbegin,
    args_stray h hinert hquote hsome]
  exact outcome_map_liftExn some _

end PureAction

/-! ### Queries -/

/-- The variables of a statement have no quote where it has none. -/
theorem quote_notMem_getSqlVars {sql vars : String} (hquote : '"' ∉ sql.toList)
    (h : getSqlVars sql = .ok vars) : '"' ∉ vars.toList := by
  by_cases hselect : startsWith sql "select " = true
  · rw [getSqlVars_eq hselect] at h
    obtain ⟨cols, hcols, h⟩ := bind_eq_ok.mp h
    cases h
    by_cases hne : cols = []
    · rw [hne]
      exact List.not_mem_nil
    · have hcol : ∀ col ∈ cols, '"' ∉ col.toList := by
        intro col hcol hmem
        obtain ⟨text, htext, hsplit⟩ := bind_eq_ok.mp hcols
        cases hsplit
        cases hslice : slice (trim sql) 6 (indexOf (trim sql) " from " 0) with
        | none => rw [hslice] at htext; cases htext
        | some u =>
          rw [hslice] at htext
          cases htext
          exact hquote (mem_of_mem_trim (mem_of_mem_slice hslice (mem_of_mem_split hcol hmem)))
      have hvars : '"' ∉ (", ".intercalate (cols.map columnVar)).toList := by
        refine notMem_intercalate (by decide) fun p hp => ?_
        obtain ⟨col, hmem, rfl⟩ := List.mem_map.mp hp
        rw [columnVar, notMem_append]
        exact ⟨by decide, fun h => hcol col hmem (mem_of_mem_trim h)⟩
      rw [join_sqlVar hne, notMem_append, notMem_append]
      exact ⟨⟨by decide, hvars⟩, by decide⟩
  · rw [getSqlVars_of_not hselect] at h
    cases h
    exact List.not_mem_nil

/-- No SQL without quotes becomes what the stray beginning of the call becomes. -/
theorem handleSql_ne {sql : String} (hquote : '"' ∉ sql.toList) : handleSql sql ≠ "Msg(\"5;" := by
  have hreplace {t g s : List Char} (hg : ' ' ∈ g) (h : ' ' ∉ replaceChars t g 0 s) :
      replaceChars t g 0 s = s := by
    by_cases hocc : Pattern.occurrences t s = 0
    · exact Pattern.replaceChars_none g hocc
    · exact absurd (Pattern.mem_replaceChars hocc hg) h
  have hended : '"' ∉ (if endsWith sql ";" then sql else sql ++ ";").toList := by
    split
    · exact hquote
    · rw [notMem_append]
      exact ⟨hquote, by decide⟩
  have hblank : ' ' ∉ "Msg(\"5;".toList := by decide
  intro h
  have houter := congrArg String.toList h
  rw [handleSql, replace, String.toList_ofList] at houter
  rw [← houter] at hblank
  have hinner := (hreplace (by decide) hblank).symm.trans houter
  rw [replace, String.toList_ofList] at hinner
  rw [houter, ← hinner] at hblank
  rw [hreplace (by decide) hblank] at hinner
  rw [hinner] at hended
  exact absurd (by decide) hended

/-- Nor has the line of an entity. -/
theorem quote_notMem_handleDBEntity {entity : String} (h : '"' ∉ entity.toList) :
    '"' ∉ (handleDBEntity entity).toList := by
  unfold handleDBEntity
  simp only [notMem_append]
  exact ⟨⟨by decide, h⟩, by decide⟩

/-- A script with a query, cut at its first quote. -/
theorem toList_queryText (b sql : String) : (b ++ "(\"" ++ sql ++ "\")\n").toList =
    (b ++ "(").toList ++ '"' :: (sql ++ "\")\n").toList := by
  simp

/-- The first quote of a query is the one before its SQL. -/
theorem query_text_ne {sql entity text : String} (hquote : '"' ∉ sql.toList)
    (hentity : '"' ∉ entity.toList) (h : query [sql, entity] = .ok text) (rest : List String) :
    query ("Msg(\"5" :: sql :: rest) ≠ .ok text := by
  have hstray : getSqlVars "Msg(\"5" = .ok "" := by decide
  rw [query_cons] at h ⊢
  obtain ⟨vars, hvars, htext⟩ := bind_eq_ok.mp h
  cases htext
  have hvars := quote_notMem_getSqlVars hquote hvars
  rw [hstray]
  intro heq
  have htext := congrArg String.toList (Except.ok.inj heq)
  rw [toList_queryText, toList_queryText] at htext
  have hassigned : '"' ∉ (if vars = "" then vars else vars ++ " = ").toList := by
    split
    · exact hvars
    · exact notMem_append.mpr ⟨hvars, by decide⟩
  have hbefore {entity' vars' : String} (he : '"' ∉ entity'.toList) (hv : '"' ∉ vars'.toList) :
      '"' ∉ (handleDBEntity entity' ++ vars' ++ "varDbHandler." ++ "query" ++ "(").toList := by
    simp only [notMem_append]
    exact ⟨⟨⟨⟨quote_notMem_handleDBEntity he, hv⟩, by decide⟩, by decide⟩, by decide⟩
  obtain ⟨-, hsql⟩ := cut_inj (hbefore hquote (by decide)) (hbefore hentity hassigned) htext
  rw [String.toList_append, String.toList_append] at hsql
  exact handleSql_ne hquote (String.toList_injective (List.append_cancel_right hsql)).symm

/-- The call of a query is handled as the query is only where neither returns. -/
theorem same_query (sql entity : String) (hquote : ∀ p ∈ [sql, entity], '"' ∉ p.toList) :
    Same env .query [sql, entity] ↔ sql = "" ∧ entity = "" := by
  have hdirect (env : Environment) (g : HashSet String) := outcome_direct env g pure_query rfl hquote
  by_cases hempty : ∀ p ∈ [sql, entity], p = ""
  · rw [List.forall_mem_cons, List.forall_mem_singleton] at hempty
    refine iff_of_true (fun files g => ?_) hempty
    rw [outcome_line_empty _ _ (List.cons_ne_nil _ _) (by simp [hempty]), hdirect, if_pos]
    rw [hempty.2]
    rfl
  · push Not at hempty
    have hne : ¬ (sql = "" ∧ entity = "") := by
      rintro ⟨rfl, rfl⟩
      obtain ⟨p, hp, hpne⟩ := hempty
      simp at hp
      exact hpne hp
    refine iff_of_false (fun hsame => ?_) hne
    have h := congrArg Prod.fst (hsame env.files .empty)
    obtain ⟨rest, hrest⟩ := rdropWhile_first hempty
    rw [outcome_stray _ _ pure_query (b := "loadNon".toList) (w := "Msg(\"") rfl rfl
      (fun r => rfl) hquote hempty, hdirect, hrest] at h
    have hstray : ∃ text, query (("Msg(\"" ++ NonMsg.query.code) :: sql :: rest) = .ok text := by
      have hvars : getSqlVars ("Msg(\"" ++ NonMsg.query.code) = .ok "" := by decide
      rw [query_cons, hvars]
      exact ⟨_, rfl⟩
    obtain ⟨text, htext⟩ := hstray
    rw [htext] at h
    split at h
    · cases h
    · cases hquery : query [sql, entity] with
      | error e => rw [hquery] at h; cases h
      | ok text' =>
        rw [hquery] at h
        cases h
        exact query_text_ne (hquote sql List.mem_cons_self)
          (hquote entity (List.mem_cons_of_mem _ List.mem_cons_self)) hquery rest htext

/-! ### Database checks -/

/-- Where the SQL is none of a selection, no columns are there to be checked. -/
theorem dbVerify_stray {sql : String} (h : startsWith sql "select " ≠ true) (rest : List String) :
    (dbVerify (sql :: rest)).toOption = none := by
  cases hdb : dbVerify (sql :: rest) with
  | error e => rfl
  | ok text =>
    obtain ⟨_, hsql, hdb⟩ := bind_eq_ok.mp hdb
    cases hsql
    obtain ⟨_, -, hdb⟩ := bind_eq_ok.mp hdb
    obtain ⟨_, -, hdb⟩ := bind_eq_ok.mp hdb
    obtain ⟨vars, hvars, hdb⟩ := bind_eq_ok.mp hdb
    rw [getSqlVars_of_not h] at hvars
    cases hvars
    cases hdb

/-- The values can be compared with the columns of the query. -/
def Verifiable (sql values : String) : Prop :=
  startsWith sql "select " = true ∧
    ∃ cols, columns sql = .ok cols ∧ cols ≠ [] ∧ (split values ",").length ≤ cols.length

/-- The call never returns, so it is handled as the check is where that does not return either. -/
theorem same_dbVerify (sql values entity : String)
    (hquote : ∀ p ∈ [sql, values, entity], '"' ∉ p.toList) :
    Same env .dbVerify [sql, values, entity] ↔ entity = "" ∨ ¬ Verifiable sql values := by
  have hdirect (env : Environment) (g : HashSet String) :=
    outcome_direct env g pure_dbVerify rfl hquote
  have hcall (env : Environment) (g : HashSet String) :
      outcome (handleAction env (NonMsg.dbVerify.line [sql, values, entity])) g = (none, g) := by
    by_cases hempty : ∀ p ∈ [sql, values, entity], p = ""
    · exact outcome_line_empty _ _ (List.cons_ne_nil _ _) hempty
    · push Not at hempty
      rw [outcome_stray _ _ pure_dbVerify (b := "loadNonMsg".toList) (w := "(\"") rfl rfl
        (fun r => rfl) hquote hempty, dbVerify_stray (by decide)]
      rfl
  have hverifiable : (∃ text, dbVerify [sql, values, entity] = .ok text) ↔ Verifiable sql values :=
    dbVerify_eq_ok
  rw [← hverifiable]
  constructor
  · intro hsame
    have h := congrArg Prod.fst (hsame env.files .empty)
    rw [hcall, hdirect] at h
    by_cases hentity : entity = ""
    · exact .inl hentity
    · refine .inr fun ⟨text, htext⟩ => ?_
      have hlast : [sql, values, entity].getLast? ≠ some "" :=
        fun hlast => hentity (Option.some.inj hlast)
      rw [if_neg hlast, htext] at h
      cases h
  · intro h files g
    rw [hcall, hdirect]
    split
    · rfl
    · rename_i hlast
      have hnone := h.resolve_left fun he => hlast (congrArg some he)
      cases hdb : dbVerify [sql, values, entity] with
      | error e => rfl
      | ok text => exact absurd ⟨text, hdb⟩ hnone

/-! ### Remote calls -/

theorem remoteCall_cons (script expValue entity : String) (rest : List String) :
    remoteCall (script :: expValue :: entity :: rest) =
      .ok (handleRemoteEntity entity ++ handleRemoteCallScript script expValue) := rfl

/-- What stands between the entity and the script in the text of a remote call. -/
def remoteMiddle : String :=
  "')\n" ++ "varRemote.setTimeout(1000 * 30)\n" ++ "varRemoteResult = varRemote.remoteCall('"

/-- A remote call, cut at its two quotes. -/
theorem toList_remoteText (script expValue entity : String) :
    (handleRemoteEntity entity ++ handleRemoteCallScript script expValue).toList =
      ("varRemote = ResObjFactory.getObject('".toList ++
        (entity.toList ++ (remoteMiddle.toList ++ script.toList)) ++ "', ".toList) ++
          '"' :: (expValue.toList ++ '"' :: ");\n".toList) := by
  have hcomma : "', \"".toList = "', ".toList ++ ['"'] := by decide
  have hend : "\");\n".toList = '"' :: ");\n".toList := by decide
  unfold handleRemoteEntity handleRemoteCallScript remoteMiddle
  simp only [String.toList_append, hcomma, hend, List.append_assoc, List.cons_append, List.nil_append]

/-- The texts of two remote calls are the same when the values are, and the entities with the
scripts behind them. -/
theorem remoteText_inj {s v e s' v' e' : String} (hs : '"' ∉ s.toList) (hv : '"' ∉ v.toList)
    (he : '"' ∉ e.toList) (hs' : '"' ∉ s'.toList) (hv' : '"' ∉ v'.toList) (he' : '"' ∉ e'.toList) :
    handleRemoteEntity e ++ handleRemoteCallScript s v =
        handleRemoteEntity e' ++ handleRemoteCallScript s' v' ↔
      v = v' ∧ e.toList ++ (remoteMiddle.toList ++ s.toList) =
        e'.toList ++ (remoteMiddle.toList ++ s'.toList) := by
  have hbefore {e s : String} (he : '"' ∉ e.toList) (hs : '"' ∉ s.toList) :
      '"' ∉ "varRemote = ResObjFactory.getObject('".toList ++
        (e.toList ++ (remoteMiddle.toList ++ s.toList)) ++ "', ".toList := by
    simp only [List.mem_append, not_or]
    exact ⟨⟨by decide, he, by decide, hs⟩, by decide⟩
  rw [← String.toList_inj, toList_remoteText, toList_remoteText]
  constructor
  · intro h
    obtain ⟨hcall, hrest⟩ := cut_inj (hbefore he hs) (hbefore he' hs') h
    exact ⟨String.toList_injective (cut_inj hv hv' hrest).1,
      List.append_cancel_left (List.append_cancel_right hcall)⟩
  · rintro ⟨rfl, h⟩
    rw [h]

/-- The scripts for which a remote call and the call of its type give one text. -/
def Shifted (script expValue entity : String) : Prop :=
  entity = "6" ∧ expValue = script ∧
    ∃ n, script.toList = '6' :: (List.replicate n (remoteMiddle.toList ++ ['6'])).flatten

/-- The call takes the number for the script, the script for the value and the value for the
entity. -/
theorem shifted_iff_text {script expValue entity : String}
    (hquote : ∀ p ∈ [script, expValue, entity], '"' ∉ p.toList) :
    handleRemoteEntity expValue ++ handleRemoteCallScript "6" script =
        handleRemoteEntity entity ++ handleRemoteCallScript script expValue ↔
      Shifted script expValue entity := by
  simp only [List.forall_mem_cons] at hquote
  obtain ⟨hscript, hvalue, hentity, -⟩ := hquote
  rw [remoteText_inj (by decide) hscript hvalue hscript hvalue hentity, Shifted]
  constructor
  · rintro ⟨rfl, h⟩
    obtain ⟨he, hn⟩ := (shifted_iff (c := '6') (by decide) (by decide)).mp h
    exact ⟨String.toList_injective he, rfl, hn⟩
  · rintro ⟨rfl, rfl, hn⟩
    exact ⟨rfl, (shifted_iff (c := '6') (by decide) (by decide)).mpr ⟨rfl, hn⟩⟩

/-- When a remote call and the call of its type do the same. -/
theorem same_remoteCall (script expValue entity : String)
    (hquote : ∀ p ∈ [script, expValue, entity], '"' ∉ p.toList) :
    Same env .remoteCall [script, expValue, entity] ↔
      expValue = "" ∧ entity = "" ∨ Shifted script expValue entity := by
  have hdirect (env : Environment) (g : HashSet String) :=
    outcome_direct env g pure_remoteCall rfl hquote
  have hlast : [script, expValue, entity].getLast? = some "" ↔ entity = "" :=
    Option.some_inj
  have hcall (env : Environment) (g : HashSet String) :
      outcome (handleAction env (NonMsg.remoteCall.line [script, expValue, entity])) g =
        (if expValue = "" ∧ entity = "" then none
          else some (some (handleRemoteEntity expValue ++ handleRemoteCallScript "6" script)), g) := by
    by_cases hempty : ∀ p ∈ [script, expValue, entity], p = ""
    · rw [outcome_line_empty _ _ (List.cons_ne_nil _ _) hempty, if_pos]
      exact ⟨hempty _ (by simp), hempty _ (by simp)⟩
    · push Not at hempty
      rw [outcome_stray _ _ pure_remoteCall (b := "loadNonMsg(\"".toList) (w := "") rfl rfl
        (fun r => rfl) hquote hempty]
      split
      · rename_i hends
        have hrest : [expValue, entity].rdropWhile (· = "") = [] := by
          rw [hends.1, hends.2]
          decide
        obtain ⟨rest, hfirst⟩ := rdropWhile_first hempty
        rw [rdropWhile_cons, if_pos hrest, List.rdropWhile_singleton] at hfirst ⊢
        split at hfirst
        · cases hfirst
        · rename_i hscript
          rw [if_neg hscript]
          rfl
      · rename_i hends
        have hsome : ∃ p ∈ [expValue, entity], p ≠ "" := by
          by_contra hnone
          push Not at hnone
          exact hends ⟨hnone _ (by simp), hnone _ (by simp)⟩
        obtain ⟨rest, hrest⟩ := rdropWhile_first hsome
        rw [rdropWhile_cons, if_neg (hrest ▸ List.cons_ne_nil _ _), hrest, remoteCall_cons]
        rfl
  rw [← shifted_iff_text hquote]
  constructor
  · intro hsame
    have h := congrArg Prod.fst (hsame env.files .empty)
    rw [hcall, hdirect] at h
    split at h
    · rename_i hends
      exact .inl hends
    · refine .inr ?_
      split at h
      · cases h
      · exact Option.some.inj (Option.some.inj h)
  · intro h files g
    rw [hcall, hdirect]
    rcases h with h | h
    · rw [if_pos h, if_pos (hlast.mpr h.2)]
    · have hentity : entity ≠ "" := by
        rintro rfl
        exact absurd ((shifted_iff_text hquote).mp h).1 (by decide)
      rw [if_neg fun he => hentity he.2, if_neg fun he => hentity (hlast.mp he), h]
      rfl

/-! ### Variables -/

/-- `setVar` needs four arguments. -/
theorem outcome_setVar_short {l : List String} (h : l.length < 4) :
    outcome (setVar env l) globalVar = (none, globalVar) := by
  match l, h with
  | [], _ | [_], _ | [_, _], _ | [_, _, _], _ => rfl

/-- The script of a variable. -/
def setVarText (name value type domain : String) : String :=
  (if MQTestView.equalsIgnoreCase env.fold (trim domain) "global" = true then
    "global" ++ " " ++ trim name ++ "\n" else "") ++ assign env (trim name) (trim value) (trim type)

/-- The text of `setVar`. -/
theorem outcome_setVar (name value type domain : String) (rest : List String) :
    (outcome (setVar env (name :: value :: type :: domain :: rest)) globalVar).1 =
      some (setVarText env name value type domain) := by
  rw [setVar_cons, setVarText]
  split
  · rfl
  · rw [String.empty_append]
    rfl

/-- The text has the characters of the name. -/
theorem mem_setVarText {name : String} {c : Char} (h : c ∈ (trim name).toList)
    (value type domain : String) : c ∈ (setVarText env name value type domain).toList := by
  rw [setVarText, String.toList_append]
  refine List.mem_append_right _ ?_
  unfold assign
  split
  · simp only [String.toList_append, List.mem_append, h, true_or]
  · simp only [String.toList_append, List.mem_append, h, true_or]

/-- It has no quote where its parts have none. -/
theorem quote_notMem_setVarText {name value type : String} (hname : '"' ∉ name.toList)
    (hvalue : '"' ∉ value.toList) (domain : String) :
    '"' ∉ (setVarText env name value type domain).toList := by
  have hname : '"' ∉ (trim name).toList := fun h => hname (mem_of_mem_trim h)
  have hvalue : '"' ∉ (trim value).toList := fun h => hvalue (mem_of_mem_trim h)
  rw [setVarText, notMem_append]
  constructor
  · split
    · simp only [notMem_append]
      exact ⟨⟨⟨by decide, by decide⟩, hname⟩, by decide⟩
    · exact List.not_mem_nil
  · unfold assign
    split
    · simp only [notMem_append]
      exact ⟨⟨⟨hname, by decide⟩, hvalue⟩, by decide⟩
    · simp only [notMem_append]
      exact ⟨⟨⟨hname, by decide⟩, hvalue⟩, by decide⟩

/-- What `setVar` itself comes to. -/
theorem outcome_setVar_direct {params : List String} (hlen : params.length = 4)
    (hquote : ∀ p ∈ params, '"' ∉ p.toList) :
    outcome (handleAction env (Action.line ⟨"setVar", params⟩)) globalVar =
      if params.getLast? = some "" then (none, globalVar)
      else ((outcome (setVar env params) globalVar).1.map some,
        (outcome (setVar env params) globalVar).2) := by
  have hread := SplitAction.args_eq_ok (k := .setVar) hlen hquote
  obtain ⟨p, rest, rfl, hne, hlast⟩ := SplitAction.exists_cons (k := .setVar) hlen
  have hline := SplitAction.handleAction_line env .setVar p rest
  change handleAction env (Action.line ⟨"setVar", p :: rest⟩) = _ at hline
  rw [hline]
  split
  · rename_i hempty
    have hshort := length_splitVars_lt (inert_of_notMem (hquote p List.mem_cons_self))
      (fun q hq => hquote q (List.mem_cons_of_mem p hq)) (hlast ▸ hempty)
    rw [SplitAction.beginIndex_eq, args_line (SplitAction.named .setVar)]
    change outcome (some <$> setVar env _) globalVar = _
    rw [outcome_map, outcome_setVar_short env globalVar (hlen ▸ hshort)]
    rfl
  · rename_i hempty
    rw [hread.mpr hempty]
    exact outcome_map some _

/-- What the call of its type comes to. -/
theorem outcome_setVar_call {params : List String} (hquote : ∀ p ∈ params, '"' ∉ p.toList)
    (hsome : ∃ p ∈ params, p ≠ "") :
    outcome (handleAction env (NonMsg.setVar.line params)) globalVar =
      ((outcome (setVar env (("sg(\"" ++ NonMsg.setVar.code) :: params.rdropWhile (· = "")))
          globalVar).1.map some,
        (outcome (setVar env (("sg(\"" ++ NonMsg.setVar.code) :: params.rdropWhile (· = "")))
          globalVar).2) := by
  have hargs := args_stray (t := .setVar) (b := "loadNonM".toList) (w := "sg(\"") rfl
    (fun r => rfl) hquote hsome
  have hhandle : NonMsg.setVar.handle env (NonMsg.setVar.line params) = some <$>
      (liftExn (args (NonMsg.setVar.line params) "loadNonM".toList.length) >>= setVar env) := rfl
  rw [handleAction_line_some env hquote hsome, hhandle, hargs]
  exact outcome_map some _

/-- The name that the call sets has a quote. -/
theorem outcome_setVar_stray {name value type domain : String}
    (hquote : ∀ p ∈ [name, value, type, domain], '"' ∉ p.toList)
    (hsome : ∃ p ∈ [type, domain], p ≠ "") :
    (outcome (handleAction env (NonMsg.setVar.line [name, value, type, domain])) globalVar).1 =
      some (some (setVarText env ("sg(\"" ++ NonMsg.setVar.code) name value type)) := by
  obtain ⟨rest, hrest⟩ := rdropWhile_first hsome
  have hdrop : [name, value, type, domain].rdropWhile (· = "") = name :: value :: type :: rest := by
    rw [rdropWhile_cons, rdropWhile_cons _ value, hrest, if_neg (List.cons_ne_nil _ _),
      if_neg (List.cons_ne_nil _ _)]
  obtain ⟨p, hp, hne⟩ := hsome
  have hmem : p ∈ [name, value, type, domain] :=
    List.mem_cons_of_mem name (List.mem_cons_of_mem value hp)
  rw [outcome_setVar_call env globalVar hquote ⟨p, hmem, hne⟩, hdrop, outcome_setVar,
    Option.map_some]

/-- Empty arguments at the end make it fail. -/
theorem outcome_setVar_ends {name value : String} (hquote : ∀ p ∈ [name, value, "", ""], '"' ∉ p.toList) :
    outcome (handleAction env (NonMsg.setVar.line [name, value, "", ""])) globalVar =
      (none, globalVar) := by
  by_cases hempty : ∀ p ∈ [name, value, "", ""], p = ""
  · exact outcome_line_empty _ _ (List.cons_ne_nil _ _) hempty
  · push Not at hempty
    have hdrop : [name, value, "", ""].rdropWhile (· = "") = [name, value].rdropWhile (· = "") :=
      (List.rdropWhile_concat_pos _ [name, value, ""] "" (decide_eq_true rfl)).trans
        (List.rdropWhile_concat_pos _ [name, value] "" (decide_eq_true rfl))
    have hle : ([name, value].rdropWhile (· = "")).length ≤ 2 :=
      (List.rdropWhile_prefix _ _).length_le
    rw [outcome_setVar_call env globalVar hquote hempty, hdrop,
      outcome_setVar_short env globalVar (Nat.lt_of_le_of_lt (Nat.succ_le_succ hle) (by decide))]
    rfl

/-- When `setVar` and the call of its type do the same. -/
theorem same_setVar (name value type domain : String)
    (hquote : ∀ p ∈ [name, value, type, domain], '"' ∉ p.toList) :
    Same env .setVar [name, value, type, domain] ↔ type = "" ∧ domain = "" := by
  have hlast : [name, value, type, domain].getLast? = some "" ↔ domain = "" := Option.some_inj
  constructor
  · intro hsame
    by_contra hends
    have hsome : ∃ p ∈ [type, domain], p ≠ "" := by
      by_contra hnone
      push Not at hnone
      exact hends ⟨hnone _ (by simp), hnone _ (by simp)⟩
    have hdirect := congrArg Prod.fst (outcome_setVar_direct env .empty rfl hquote)
    have h := (outcome_setVar_stray env .empty hquote hsome).symm.trans
      ((congrArg Prod.fst (hsame env.files .empty)).trans hdirect)
    split at h
    · cases h
    · rw [outcome_setVar] at h
      have htext := Option.some.inj (Option.some.inj h)
      have hmem := mem_setVarText env
        (show '"' ∈ (trim ("sg(\"" ++ NonMsg.setVar.code)).toList by decide) name value type
      rw [htext] at hmem
      exact quote_notMem_setVarText env (hquote name (by simp)) (hquote value (by simp)) _ hmem
  · rintro ⟨rfl, rfl⟩ files g
    have hdirect := outcome_setVar_direct { env with files := files } g rfl hquote
    rw [if_pos (hlast.mpr rfl)] at hdirect
    exact (outcome_setVar_ends _ g hquote).trans hdirect.symm

/-! ### Files -/

/-- A file that is not there gives nothing. -/
theorem load_missing {l : Loader} {filePath type : String} {filter : Except Exn String}
    (h : env.files filePath = none) : l.load env filePath type filter = pure none := by
  rw [Loader.load, h]

/-- What a handler of files takes from a call, by the places of its quotes. -/
theorem handleLoad_of_indices {action path type : String} {firstIdx secondIdx thirdIdx fourthIdx : ℤ}
    (htrim : trim action = action) (hfirst : indexOf action "\"" 0 = firstIdx)
    (hsecond : indexOf action "\"" (firstIdx + 1) = secondIdx)
    (hthird : indexOf action "\"" (secondIdx + 1) = thirdIdx)
    (hfourth : indexOf action "\"" (thirdIdx + 1) = fourthIdx)
    (hpath : slice action (firstIdx + 1) secondIdx = some path)
    (htype : thirdIdx = -1 ∧ type = "" ∨
      thirdIdx ≠ -1 ∧ fourthIdx ≠ -1 ∧ slice action (thirdIdx + 1) fourthIdx = some type) :
    ∃ filter, ∀ (env : Environment) (l : Loader),
      l.handleLoad env action = l.load env (trim path) (trim type) filter := by
  refine ⟨inBounds (slice action (indexOf action "\"" (fourthIdx + 1) + 1)
    (indexOf action "\"" (indexOf action "\"" (fourthIdx + 1) + 1))), fun env l => ?_⟩
  rw [Loader.handleLoad]
  simp only [htrim, hfirst, hsecond, hthird, hfourth, hpath, inBounds, liftExn, pure_bind]
  split
  · rename_i hmissing
    exact (load_missing env hmissing).symm
  · rcases htype with ⟨hnone, rfl⟩ | ⟨hthree, hfour, hslice⟩
    · rw [if_neg fun h => h.1 hnone]
    · rw [if_pos ⟨hthree, hfour⟩, hslice]
      rfl

/-- The next quote. -/
theorem quote_next {action : String} {i : ℤ} {p q r : List Char} (hi : i = p.length)
    (h : action.toList = p ++ (q ++ '"' :: r)) (hq : '"' ∉ q) :
    indexOf action "\"" i = (p ++ q).length :=
  hi ▸ indexOf_next rfl h hq

/-- The index behind a quote. -/
theorem length_quoted (p : List Char) : ((p.length : ℕ) : ℤ) + 1 = (p ++ ['"']).length := by
  rw [List.length_append]
  rfl

/-- A call with one argument names its file by it. -/
theorem handleLoad_one {action : String} {q₀ q₁ q₂ : List Char} (htrim : trim action = action)
    (h : action.toList = q₀ ++ '"' :: (q₁ ++ '"' :: q₂)) (h₀ : '"' ∉ q₀) (h₁ : '"' ∉ q₁)
    (h₂ : '"' ∉ q₂) : ∃ filter, ∀ (env : Environment) (l : Loader),
      l.handleLoad env action = l.load env (trim (String.ofList q₁)) "" filter := by
  have hsecond : action.toList = (q₀ ++ ['"']) ++ (q₁ ++ '"' :: q₂) := by simp [h]
  have hthird : action.toList = ((q₀ ++ ['"'] ++ q₁) ++ ['"']) ++ q₂ := by simp [h]
  have hnone : indexOf action "\"" (((q₀ ++ ['"'] ++ q₁).length : ℤ) + 1) = -1 := by
    rw [length_quoted]
    exact indexOf_none rfl hthird h₂
  have hagain : indexOf action "\"" (-1 + 1) = ([] ++ q₀).length :=
    quote_next (p := []) (neg_add_cancel 1) h h₀
  have hslice := slice_middle hsecond
  rw [← length_quoted] at hslice
  have htype : trim "" = "" := by decide
  obtain ⟨filter, hload⟩ := handleLoad_of_indices htrim (quote_next (p := []) rfl h h₀)
    (quote_next (length_quoted _) hsecond h₁) hnone hagain hslice (.inl ⟨rfl, rfl⟩)
  rw [htype] at hload
  exact ⟨filter, hload⟩

/-- With a second argument, this is the type. -/
theorem handleLoad_two {action : String} {q₀ q₁ q₂ q₃ q₄ : List Char} (htrim : trim action = action)
    (h : action.toList = q₀ ++ '"' :: (q₁ ++ '"' :: (q₂ ++ '"' :: (q₃ ++ '"' :: q₄))))
    (h₀ : '"' ∉ q₀) (h₁ : '"' ∉ q₁) (h₂ : '"' ∉ q₂) (h₃ : '"' ∉ q₃) :
    ∃ filter, ∀ (env : Environment) (l : Loader), l.handleLoad env action =
      l.load env (trim (String.ofList q₁)) (trim (String.ofList q₃)) filter := by
  have hsecond : action.toList =
      (q₀ ++ ['"']) ++ (q₁ ++ '"' :: (q₂ ++ '"' :: (q₃ ++ '"' :: q₄))) := by simp [h]
  have hthird : action.toList =
      ((q₀ ++ ['"'] ++ q₁) ++ ['"']) ++ (q₂ ++ '"' :: (q₃ ++ '"' :: q₄)) := by simp [h]
  have hfourth : action.toList =
      ((q₀ ++ ['"'] ++ q₁ ++ ['"'] ++ q₂) ++ ['"']) ++ (q₃ ++ '"' :: q₄) := by simp [h]
  have hpath := slice_middle hsecond
  have htype := slice_middle hfourth
  rw [← length_quoted] at hpath htype
  refine handleLoad_of_indices htrim (quote_next (p := []) rfl h h₀)
    (quote_next (length_quoted _) hsecond h₁) (quote_next (length_quoted _) hthird h₂)
    (quote_next (length_quoted _) hfourth h₃) hpath (.inr ⟨?_, ?_, htype⟩)
  · exact fun h => absurd (h ▸ Int.natCast_nonneg _) (by decide)
  · exact fun h => absurd (h ▸ Int.natCast_nonneg _) (by decide)

variable {name path type : String}

/-- The file of a call with one argument. -/
theorem handleLoad_path (hname : Named name) (hquote : '"' ∉ name.toList)
    (hpath : '"' ∉ path.toList) : ∃ filter, ∀ (env : Environment) (l : Loader),
      l.handleLoad env (Action.line ⟨name, [path]⟩) = l.load env (trim path) "" filter := by
  have hline : (Action.line ⟨name, [path]⟩).toList =
      (name.toList ++ ['(']) ++ '"' :: (path.toList ++ '"' :: [')', ';']) := by
    rw [toList_line, String.intercalate_singleton]
    simp
  have h := handleLoad_one (trim_line hname path []) hline (by simp [hquote]) hpath (by decide)
  rwa [String.ofList_toList] at h

/-- The file and the type of a call with more. -/
theorem handleLoad_type (hname : Named name) (hquote : '"' ∉ name.toList)
    (hpath : '"' ∉ path.toList) (htype : '"' ∉ type.toList) (rest : List String) :
    ∃ filter, ∀ (env : Environment) (l : Loader),
      l.handleLoad env (Action.line ⟨name, path :: type :: rest⟩) =
        l.load env (trim path) (trim type) filter := by
  have hline : ∃ r, (Action.line ⟨name, path :: type :: rest⟩).toList =
      (name.toList ++ ['(']) ++ '"' :: (path.toList ++ '"' :: ([',', ' '] ++ '"' ::
        (type.toList ++ '"' :: r))) := by
    rw [toList_line, String.toList_intercalate, List.map_cons, List.map_cons, intercalate_cons,
      List.flatMap_cons]
    cases rest with
    | nil => exact ⟨[')', ';'], by simp⟩
    | cons p rest =>
      refine ⟨[',', ' ', '"'] ++ (p.toList ++ ((rest.map String.toList).flatMap
        ("\", \"".toList ++ ·) ++ ['"', ')', ';'])), ?_⟩
      simp
  obtain ⟨r, hline⟩ := hline
  have h := handleLoad_two (trim_line hname path _) hline (by simp [hquote]) hpath (by decide) htype
  rwa [String.ofList_toList, String.ofList_toList] at h

/-- What the elements that are chosen give. -/
def Loader.scripts (l : Loader) (elems : List Element) : Handler String :=
  elems.foldlM (fun scripts elem => do
    let action ← liftExn (l.getAction elem)
    let script ← l.handle action
    return scripts ++ (script ++ "\n")) ""

/-- A file that is there gives the scripts of the elements chosen. -/
theorem load_found {l : Loader} {filePath : String} {root : Element}
    (h : env.files filePath = some (some root)) (type : String) (filter : Except Exn String) :
    l.load env filePath type filter =
      liftExn (chosen l.once root.elements type filter) >>= fun elems =>
        (fun scripts => some (trim scripts ++ l.ending)) <$> l.scripts elems := by
  rw [Loader.load, h]
  simp only [map_eq_pure_bind]
  rfl

/-- A file that is there gives no `null`. -/
theorem outcome_load_ne_null {l : Loader} {filePath : String} {root : Element}
    (h : env.files filePath = some (some root)) (type : String) (filter : Except Exn String) :
    (outcome (l.load env filePath type filter) globalVar).1 ≠ some none := by
  rw [load_found env h, outcome_liftExn_bind]
  split
  · rw [outcome_map]
    intro hnull
    obtain ⟨_, -, hnull⟩ := Option.map_eq_some_iff.mp hnull
    cases hnull
  · exact nofun

/-- The types that choose elements. -/
def Chooses (type : String) : Prop := type = "0" ∨ type = "1"

/-- Without a type that chooses, all elements are chosen. -/
theorem chosen_all {once : Bool} {elems : List Element} {type : String} (h : ¬ Chooses type)
    (filter : Except Exn String) : chosen once elems type filter = .ok elems := by
  rw [Chooses, not_or] at h
  rw [chosen, if_neg h.1, if_neg h.2]
  rfl

/-- All such types give the same. -/
theorem load_all {l : Loader} {filePath type type' : String} (h : ¬ Chooses type)
    (h' : ¬ Chooses type') (filter filter' : Except Exn String) :
    l.load env filePath type filter = l.load env filePath type' filter' := by
  unfold Loader.load
  split
  · rfl
  · rfl
  · rw [chosen_all h, chosen_all h']

/-- An element with a tag and an id that no filter has in its list. -/
def sample : Element := ⟨"", [("tag", ","), ("id", ",")], "x", []⟩

/-- A piece between commas is no comma. -/
theorem comma_ne_of_mem_split {text id : String} (h : id ∈ split text ",") : trim id ≠ "," := by
  intro heq
  have hmem : ',' ∈ (trim id).toList := heq ▸ List.mem_singleton_self ','
  exact notMem_of_mem_split rfl h (mem_of_mem_trim hmem)

/-- The ids of a range are numbers. -/
theorem exists_repr_of_mem_addIds {endPos i : ℤ} {room : ℕ} {ids : List String} {id : String}
    (h : addIds endPos room i = .ok ids) (hid : id ∈ ids) : ∃ j : ℤ, id = j.repr := by
  induction room generalizing i ids with
  | zero =>
    rw [addIds] at h
    split at h
    · cases h
    · cases h
      cases hid
  | succ room ih =>
    rw [addIds] at h
    split at h
    · obtain ⟨rest, hrest, h⟩ := bind_eq_ok.mp h
      cases h
      rcases List.mem_cons.mp hid with rfl | hid
      · exact ⟨i, rfl⟩
      · exact ih hrest hid
    · cases h
      cases hid

/-- No id of a filter is a comma. -/
theorem comma_ne_of_mem_idList {filter id : String} {ids : List String}
    (h : idList filter = .ok ids) (hid : id ∈ ids) : trim id ≠ "," := by
  rw [idList] at h
  split at h
  · cases h
    exact comma_ne_of_mem_split hid
  · obtain ⟨_, -, h⟩ := bind_eq_ok.mp h
    obtain ⟨i, rfl⟩ := exists_repr_of_mem_addIds h hid
    intro heq
    have hcomma : ',' ∈ ",".toList := List.mem_singleton_self ','
    rw [← heq] at hcomma
    rcases eq_or_isDigit_of_mem_repr (mem_of_mem_trim hcomma) with h | h
    · exact absurd h (by decide)
    · exact absurd h (by decide)

/-- Where a filter chooses among no elements, it does not choose the sample. -/
theorem chosen_sample {once : Bool} {type : String} {filter : Except Exn String} {l : List Element}
    (htype : Chooses type) (h : chosen once [] type filter = .ok l) :
    chosen once [sample] type filter = .ok [] := by
  have htag : sample.getAttrValue "tag" = "," := rfl
  have hid : trim (sample.getAttrValue "id") = "," := by decide
  rcases htype with rfl | rfl
  · rw [chosen, if_pos rfl] at h ⊢
    obtain ⟨text, rfl, -⟩ := bind_eq_ok.mp h
    have hnone : sample.getAttrValue "tag" ∉ (split (trim text) ",").map trim := by
      rw [htag]
      intro hmem
      obtain ⟨tag, hmem, htrim⟩ := List.mem_map.mp hmem
      exact comma_ne_of_mem_split hmem htrim
    have hfilter : [sample].filter
        (fun e => e.getAttrValue "tag" ∈ (split (trim text) ",").map trim) = [] := by
      rw [List.filter_cons_of_neg (by simpa using hnone)]
      rfl
    exact congrArg Except.ok hfilter
  · rw [chosen, if_neg (by decide), if_pos rfl] at h ⊢
    obtain ⟨text, rfl, h'⟩ := bind_eq_ok.mp h
    obtain ⟨ids, hids, -⟩ := bind_eq_ok.mp h'
    rw [ok_bind, hids, ok_bind]
    refine congrArg Except.ok (List.flatMap_eq_nil_iff.mpr fun id hmem => ?_)
    have hfilter : [sample].filter (fun e => trim id = trim (e.getAttrValue "id")) = [] := by
      rw [List.filter_cons_of_neg]
      · rfl
      · simpa [hid] using comma_ne_of_mem_idList hids hmem
    dsimp only
    rw [hfilter]
    cases once <;> rfl

/-- The empty type chooses nothing. -/
theorem not_chooses_empty : ¬ Chooses "" := by
  rw [Chooses]
  decide

/-- A path that is a code is not empty. -/
theorem ne_empty_of_code {p : String} (h : trim p = t.code) : p ≠ "" := by
  rintro rfl
  exact t.code_ne_empty (h.symm.trans (by decide))

/-- A type whose action reads a file with a loader. -/
structure Loads (t : NonMsg) (l : Environment → Loader) : Prop where
  handle (env : Environment) (action : String) : t.handle env action = (l env).handleLoad env action
  direct (env : Environment) (p : String) (params : List String) :
    handleAction env (Action.line ⟨t.direct, p :: params⟩) =
      (l env).handleLoad env (Action.line ⟨t.direct, p :: params⟩)
  named : Named t.direct ∧ '"' ∉ t.direct.toList
  code : trim t.code = t.code ∧ ¬ Chooses t.code
  once (env env' : Environment) : (l env).once = (l env').once
  scripts (env : Environment) (globalVar : HashSet String) :
    (outcome ((fun scripts => some (trim scripts ++ (l env).ending)) <$> (l env).scripts [sample])
      globalVar).1 ≠ some (some (trim "" ++ (l env).ending))

section Loads

variable {l : Environment → Loader} (hloads : Loads t l)

include hloads

/-- The call reads the file that its number names, and the action the one that it names itself. -/
theorem outcome_loads {p : String} {rest : List String} (hquote : ∀ q ∈ p :: rest, '"' ∉ q.toList)
    (hsome : ∃ q ∈ p :: rest, q ≠ "") : ∃ filter, ∀ (env : Environment),
      handleAction env (t.line (p :: rest)) = (l env).load env t.code (trim p) filter := by
  obtain ⟨filter, hload⟩ := handleLoad_type named_loadNonMsg (by decide) t.quote_notMem_code
    (hquote p List.mem_cons_self) rest
  rw [hloads.code.1] at hload
  refine ⟨filter, fun env => ?_⟩
  rw [handleAction_line_some env hquote hsome, hloads.handle]
  exact hload env (l env)

/-- Where only the file of the number is there, the action gives `null` and the call does not. -/
theorem code_of_same {p : String} {rest : List String} (hquote : ∀ q ∈ p :: rest, '"' ∉ q.toList)
    {type : String} {filter : Except Exn String} (hdirect : ∀ env : Environment,
      handleAction env (Action.line ⟨t.direct, p :: rest⟩) =
        (l env).load env (trim p) type filter)
    (hsame : Same env t (p :: rest)) : trim p = t.code := by
  by_contra hne
  have h := congrArg Prod.fst
    (hsame (fun path => if path = t.code then some (some ⟨"", [], "", []⟩) else none) .empty)
  rw [hdirect, load_missing _ (if_neg hne), outcome_pure] at h
  by_cases hempty : ∀ q ∈ p :: rest, q = ""
  · rw [outcome_line_empty _ _ (List.cons_ne_nil _ _) hempty] at h
    cases h
  · push Not at hempty
    obtain ⟨filter', hcall⟩ := outcome_loads hloads hquote hempty
    rw [hcall] at h
    exact outcome_load_ne_null _ _ (if_pos rfl) _ _ h

/-- With a path alone the call does the same where the path is the code. -/
theorem same_loads_one (p : String) (hquote : ∀ q ∈ [p], '"' ∉ q.toList) :
    Same env t [p] ↔ trim p = t.code := by
  obtain ⟨filter, hload⟩ := handleLoad_path hloads.named.1 hloads.named.2
    (hquote p List.mem_cons_self)
  have hdirect (env : Environment) : handleAction env (Action.line ⟨t.direct, [p]⟩) =
      (l env).load env (trim p) "" filter := (hloads.direct env p []).trans (hload env (l env))
  refine ⟨code_of_same env hloads hquote hdirect, fun hcode files g => ?_⟩
  obtain ⟨filter', hcall⟩ := outcome_loads hloads hquote
    ⟨p, List.mem_cons_self, ne_empty_of_code hcode⟩
  rw [hdirect, hcall, hcode, load_all _ hloads.code.2 not_chooses_empty]

/-- With a selection, where the type does not choose either. -/
theorem same_loads_three (p type text : String) (hquote : ∀ q ∈ [p, type, text], '"' ∉ q.toList) :
    Same env t [p, type, text] ↔ trim p = t.code ∧ ¬ Chooses (trim type) := by
  obtain ⟨filter, hload⟩ := handleLoad_type hloads.named.1 hloads.named.2
    (hquote p List.mem_cons_self) (hquote type (by simp)) [text]
  have hdirect (env : Environment) : handleAction env (Action.line ⟨t.direct, [p, type, text]⟩) =
      (l env).load env (trim p) (trim type) filter :=
    (hloads.direct env p _).trans (hload env (l env))
  constructor
  · intro hsame
    have hcode := code_of_same env hloads hquote hdirect hsame
    refine ⟨hcode, fun hchooses => ?_⟩
    obtain ⟨filter', hcall⟩ := outcome_loads hloads hquote
      ⟨p, List.mem_cons_self, ne_empty_of_code hcode⟩
    have hall : ¬ Chooses (trim p) := hcode ▸ hloads.code.2
    cases hchosen : chosen (l env).once [] (trim type) filter with
    | error e =>
      -- In an empty file, only the action reads its filter.
      have hfound : ({ env with files := fun _ => some (some ⟨"", [], "", []⟩) } : Environment).files
          t.code = some (some ⟨"", [], "", []⟩) := rfl
      have h := congrArg Prod.fst (hsame (fun _ => some (some ⟨"", [], "", []⟩)) .empty)
      rw [hcall, hdirect, hcode, load_found _ hfound, load_found _ hfound, outcome_liftExn_bind,
        outcome_liftExn_bind, ← hcode, chosen_all hall, hloads.once _ env, hchosen] at h
      cases h
    | ok r =>
      have hfound : ({ env with files := fun _ => some (some ⟨"", [], "", [sample]⟩) } :
          Environment).files t.code = some (some ⟨"", [], "", [sample]⟩) := rfl
      have h := congrArg Prod.fst (hsame (fun _ => some (some ⟨"", [], "", [sample]⟩)) .empty)
      rw [hcall, hdirect, hcode, load_found _ hfound, load_found _ hfound, outcome_liftExn_bind,
        outcome_liftExn_bind, ← hcode, chosen_all hall, hloads.once _ env,
        chosen_sample hchooses hchosen] at h
      exact hloads.scripts _ _ h
  · rintro ⟨hcode, htype⟩ files g
    obtain ⟨filter', hcall⟩ := outcome_loads hloads hquote
      ⟨p, List.mem_cons_self, ne_empty_of_code hcode⟩
    rw [hdirect, hcall, hcode, load_all _ hloads.code.2 htype]

end Loads

/-- An element that gives no action gives no script. -/
theorem scripts_error {l : Loader} {e : Exn} (h : l.getAction sample = .error e) (s : String) :
    (outcome ((fun scripts => some (trim scripts ++ l.ending)) <$> l.scripts [sample])
      globalVar).1 ≠ some (some s) := by
  rw [outcome_map, Loader.scripts, List.foldlM_cons, h]
  exact nofun

theorem handleAction_loadVar (env : Environment) (p : String) (params : List String) :
    handleAction env (Action.line ⟨"loadVar", p :: params⟩) =
      handleLoadVar env (Action.line ⟨"loadVar", p :: params⟩) := by
  unfold handleAction
  simp only [startsWith_line]
  rfl

theorem handleAction_loadScript (env : Environment) (p : String) (params : List String) :
    handleAction env (Action.line ⟨"loadScript", p :: params⟩) =
      handleLoadScript env (Action.line ⟨"loadScript", p :: params⟩) := by
  unfold handleAction
  simp only [startsWith_line]
  rfl

theorem handleAction_loadDbVerify (env : Environment) (p : String) (params : List String) :
    handleAction env (Action.line ⟨"loadDbVerify", p :: params⟩) =
      handleLoadDbVerify env (Action.line ⟨"loadDbVerify", p :: params⟩) := by
  unfold handleAction
  simp only [startsWith_line]
  rfl

/-- The types of `loadVar`. -/
theorem loads_loadVar (ht : t = .loadVar1 ∨ t = .loadVar2) :
    Loads t fun env => ⟨getSetVarAction, handleSetVar env, false, ""⟩ := by
  rcases ht with rfl | rfl
  · exact ⟨fun _ _ => rfl, handleAction_loadVar, ⟨⟨'l', rfl, by decide⟩, by decide⟩,
      ⟨by decide, by rw [Chooses]; decide⟩, fun _ _ => rfl, fun _ g => scripts_error g rfl _⟩
  · exact ⟨fun _ _ => rfl, handleAction_loadVar, ⟨⟨'l', rfl, by decide⟩, by decide⟩,
      ⟨by decide, by rw [Chooses]; decide⟩, fun _ _ => rfl, fun _ g => scripts_error g rfl _⟩

/-- The types of `loadDbVerify`. -/
theorem loads_loadDbVerify (ht : t = .loadDbVerify1 ∨ t = .loadDbVerify2) :
    Loads t fun _ => ⟨getDbVerifyAction, handleDbVerify, false, "\n"⟩ := by
  rcases ht with rfl | rfl
  · exact ⟨fun _ _ => rfl, handleAction_loadDbVerify, ⟨⟨'l', rfl, by decide⟩, by decide⟩,
      ⟨by decide, by rw [Chooses]; decide⟩, fun _ _ => rfl, fun _ g => scripts_error g rfl _⟩
  · exact ⟨fun _ _ => rfl, handleAction_loadDbVerify, ⟨⟨'l', rfl, by decide⟩, by decide⟩,
      ⟨by decide, by rw [Chooses]; decide⟩, fun _ _ => rfl, fun _ g => scripts_error g rfl _⟩

/-- The script of the sample is a line of its own. -/
theorem scripts_sample : (outcome ((fun scripts => some (trim scripts ++ "\n")) <$>
    Loader.scripts ⟨getScriptAction, handleScript, true, "\n"⟩ [sample]) globalVar).1 ≠
      some (some (trim "" ++ "\n")) := by
  have hscript : handleScript "script(\"x\");" = pure "x" := by
    have hslice : slice (trim "script(\"x\");") 8 (((trim "script(\"x\");").length : ℤ) - 3) =
        some "x" := by decide
    rw [handleScript, hslice]
    rfl
  have haction : getScriptAction sample = .ok "script(\"x\");" := by decide
  rw [outcome_map, Loader.scripts, List.foldlM_cons]
  simp only [haction, hscript, liftExn, pure_bind, List.foldlM_nil, outcome_pure]
  decide

/-- The types of `loadScript`. -/
theorem loads_loadScript (ht : t = .loadScript1 ∨ t = .loadScript2) :
    Loads t fun _ => ⟨getScriptAction, handleScript, true, "\n"⟩ := by
  rcases ht with rfl | rfl
  · exact ⟨fun _ _ => rfl, handleAction_loadScript, ⟨⟨'l', rfl, by decide⟩, by decide⟩,
      ⟨by decide, by rw [Chooses]; decide⟩, fun _ _ => rfl, fun _ g => scripts_sample g⟩
  · exact ⟨fun _ _ => rfl, handleAction_loadScript, ⟨⟨'l', rfl, by decide⟩, by decide⟩,
      ⟨by decide, by rw [Chooses]; decide⟩, fun _ _ => rfl, fun _ g => scripts_sample g⟩

/-! ### When a call is handled as its action is -/

/-- The arguments at which handling the call does what handling the action does: neither returns, or
the arguments are the same with the number before them. -/
def NonMsg.Agrees : NonMsg → List String → Prop
  | script, _ => False
  | query, [sql, entity] => sql = "" ∧ entity = ""
  | remoteCall, [call, expValue, entity] =>
      expValue = "" ∧ entity = "" ∨ Shifted call expValue entity
  | dbVerify, [sql, values, entity] => entity = "" ∨ ¬ Verifiable sql values
  | setVar, [_, _, type, domain] => type = "" ∧ domain = ""
  | t, [filePath] => trim filePath = t.code
  | t, [filePath, type, _] => trim filePath = t.code ∧ ¬ Chooses (trim type)
  | _, _ => False

/-- **When the actions that read a file do the same**, for each of their types. -/
theorem same_loads {l : Environment → Loader} (hloads : Loads t l)
    (hlen : params.length = 1 ∨ params.length = 3) (hquote : ∀ p ∈ params, '"' ∉ p.toList)
    (hagrees : ∀ p type text, (t.Agrees [p] ↔ trim p = t.code) ∧
      (t.Agrees [p, type, text] ↔ trim p = t.code ∧ ¬ Chooses (trim type))) :
    Same env t params ↔ t.Agrees params := by
  rcases hlen with hlen | hlen
  · obtain ⟨p, rfl⟩ := List.length_eq_one_iff.mp hlen
    rw [(hagrees p p p).1]
    exact same_loads_one env hloads p hquote
  · obtain ⟨p, type, text, rfl⟩ := List.length_eq_three.mp hlen
    rw [(hagrees p type text).2]
    exact same_loads_three env hloads p type text hquote

/-- **When a call of `loadNonMsg` is handled as the action of its type.** -/
theorem same_iff (t : NonMsg) (params : List String) (hlen : params.length ∈ t.arities)
    (hquote : ∀ p ∈ params, '"' ∉ p.toList) : Same env t params ↔ t.Agrees params := by
  have htwo : ∀ {n : ℕ}, n ∈ [1, 3] → n = 1 ∨ n = 3 := fun h => by simpa using h
  cases t with
  | script =>
    obtain ⟨script, rfl⟩ := List.length_eq_one_iff.mp (List.mem_singleton.mp hlen)
    exact iff_of_false (not_same_script env script (hquote script List.mem_cons_self)) id
  | query =>
    obtain ⟨sql, entity, rfl⟩ := List.length_eq_two.mp (List.mem_singleton.mp hlen)
    exact same_query env sql entity hquote
  | remoteCall =>
    obtain ⟨script, expValue, entity, rfl⟩ := List.length_eq_three.mp (List.mem_singleton.mp hlen)
    exact same_remoteCall env script expValue entity hquote
  | dbVerify =>
    obtain ⟨sql, values, entity, rfl⟩ := List.length_eq_three.mp (List.mem_singleton.mp hlen)
    exact same_dbVerify env sql values entity hquote
  | setVar =>
    obtain ⟨name, rest, rfl, hrest⟩ := SplitAction.exists_of_arity (List.mem_singleton.mp hlen)
    obtain ⟨value, type, domain, rfl⟩ := List.length_eq_three.mp hrest
    exact same_setVar env name value type domain hquote
  | loadVar1 | loadVar2 =>
    exact same_loads env (loads_loadVar (by simp)) (htwo hlen) hquote
      fun _ _ _ => ⟨Iff.rfl, Iff.rfl⟩
  | loadScript1 | loadScript2 =>
    exact same_loads env (loads_loadScript (by simp)) (htwo hlen) hquote
      fun _ _ _ => ⟨Iff.rfl, Iff.rfl⟩
  | loadDbVerify1 | loadDbVerify2 =>
    exact same_loads env (loads_loadDbVerify (by simp)) (htwo hlen) hquote
      fun _ _ _ => ⟨Iff.rfl, Iff.rfl⟩

theorem same_iff_remoteCall : Same noFiles .remoteCall ["6", "6", "6"] :=
  (same_iff noFiles .remoteCall ["6", "6", "6"] (by decide) (by decide)).mpr
    (.inr ⟨rfl, rfl, 0, rfl⟩)

/-- A script gets the number and what stands before it. -/
theorem not_same_call : ¬ Same noFiles .script ["a"] := by
  intro hsame
  have h := congrArg Prod.fst (hsame (fun _ => none) .empty)
  exact absurd h (by decide)

end MQTestActionHandler

end MBT
