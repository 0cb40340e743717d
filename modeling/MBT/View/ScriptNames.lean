import MBT.View.DataPaths
import MBT.View.StepRows

/-!
# View — the names of the scripts

A script is written under a name that lists what was filled into it: the items of the scenario, and
behind them those of each step.

* `Fill.path_eq_iff`: two scripts have one name exactly when they list the same items, if no item has
  a character that separates them.
* `files_eq`: the files of a call, from the rows that the data algorithms give.
* `distinct_files_iff`: scripts of one call that differ have different names, unless the rows differ
  only in what the names leave out.
-/

namespace MBT
open Exec Text MDataAlgo

namespace MQTestView

/-! ### What is filled in -/

/-- No item has a character that separates them, or begins as the text behind a separator does. -/
def Separated (items : List (Bool × String)) : Prop := ∀ i ∈ items,
  (∀ c ∈ i.2.toList, c ∉ [',', ')', ']']) ∧ (i.2.toList.head?.any fun c => c ∉ [' ', '(']) = true

instance (items : List (Bool × String)) : Decidable (Separated items) :=
  inferInstanceAs (Decidable (∀ i ∈ items, _))

/-- The data path of a scenario's row, as it stands in a name. -/
def bracketed (d : String) : String := if d = "" then "" else "[" ++ d ++ "]"

/-- What is filled into a script: the items of the steps, each with its name, and the items of the
scenario. -/
structure Fill where
  steps : List (String × List (Bool × String))
  scenario : List (Bool × String)
  script : String

/-- The heading of a step in a name. -/
def stepHeading (name : String) : String := "[(" ++ name ++ ")"

/-- A step in a name. -/
def stepText (s : String × List (Bool × String)) : String :=
  s.2.foldl (addItem fun p => endsWith p ")") (stepHeading s.1) ++ "]"

/-- A step with its items written out. -/
def stepWritten (s : String × List (Bool × String)) : String :=
  writtenOut (fun p => endsWith p ")") (stepHeading s.1) s.2 ++ "]"

namespace Fill

/-- The data paths of the scenario and the steps. -/
def path (p : Fill) : String :=
  bracketed (p.scenario.foldl (addItem noPath) "") ++ String.join (p.steps.map stepText)

/-- The data paths with all items written out. -/
def written (p : Fill) : String :=
  bracketed (writtenOut noPath "" p.scenario) ++ String.join (p.steps.map stepWritten)

/-- No item is left out but for those that are written already. -/
def Unshortened (p : Fill) : Prop := Whole noPath ("", []) p.scenario ∧
  ∀ s ∈ p.steps, Whole (fun p => endsWith p ")") (stepHeading s.1, []) s.2

/-- No item, and no name of a step, has a character that separates the items. -/
def Separated (p : Fill) : Prop := MQTestView.Separated p.scenario ∧
  ∀ s ∈ p.steps, ',' ∉ s.1.toList ∧ MQTestView.Separated s.2

/-- The items that are not the end of one before them. -/
def listed (p : Fill) : List String × List (List String) :=
  (kept [] p.scenario, p.steps.map fun s => kept [] s.2)

/-- Nothing is left out of the two names, and written out they are different; or their items are
separated, and one that is not the end of one before it is different. -/
def Tells (p q : Fill) : Prop :=
  (p.Unshortened ∧ q.Unshortened ∧ p.written ≠ q.written) ∨
    (p.Separated ∧ q.Separated ∧ p.listed ≠ q.listed)

instance (p : Fill) : Decidable p.Unshortened := inferInstanceAs (Decidable (_ ∧ _))

instance (p : Fill) : Decidable p.Separated := inferInstanceAs (Decidable (_ ∧ _))

instance (p q : Fill) : Decidable (p.Tells q) := inferInstanceAs (Decidable (_ ∨ _))

end Fill

/-! ### Reading a data path -/

section Reading

variable {items items' : List (Bool × String)} {fresh : String → Bool} {h : String}

/-- The heading of a step. -/
theorem heading_step {name : String} (hname : ',' ∉ name.toList) :
    Heading ')' (fun p => endsWith p ")") (stepHeading name) := by
  refine ⟨?_, fun p t ht => ?_, ?_, .inr ⟨("[(" ++ name).toList, ?_⟩⟩
  · refine List.isSuffixOf_iff_suffix.mpr ?_
    rw [stepHeading, String.toList_append]
    exact List.suffix_append _ _
  · cases hends : endsWith (p ++ t) ")" with
    | false => rfl
    | true =>
      have hsuffix := List.isSuffixOf_iff_suffix.mp hends
      rw [String.toList_append] at hsuffix
      rcases List.suffix_or_suffix_of_suffix hsuffix (List.suffix_append p.toList t.toList)
        with h | h
      · exact absurd (h.subset (List.mem_singleton_self ')')) ht.heading
      · rcases List.suffix_cons_iff.mp h with h | h
        · exact absurd (h ▸ List.mem_singleton_self ')') ht.heading
        · exact absurd (String.toList_eq_nil_iff.mp (List.suffix_nil.mp h)) ht.ne_empty
  · rw [stepHeading, String.toList_append, String.toList_append, List.mem_append, List.mem_append,
      not_or, not_or]
    exact ⟨⟨by decide, hname⟩, by decide⟩
  · rw [stepHeading, String.toList_append]
    rfl

/-- Separated items are plain. -/
theorem Separated.plain (hsep : Separated items) : ∀ i ∈ items, Plain ')' i.2 := by
  intro i hi
  obtain ⟨hchars, hhead⟩ := hsep i hi
  refine ⟨fun hc => hchars _ hc (by decide), fun hc => hchars _ hc (by decide), fun u hu => ?_,
    fun hnil => ?_⟩
  · rw [hu] at hhead
    exact absurd hhead (by simp)
  · rw [hnil] at hhead
    exact absurd hhead (by decide)

/-- The items that are listed do not close what lists them. -/
theorem Separated.bracket_notMem (hsep : Separated items) :
    ']' ∉ (", ".intercalate (kept [] items)).toList := by
  refine notMem_intercalate (by decide) fun t ht => ?_
  obtain ⟨i, hi, rfl⟩ := mem_of_mem_kept ht
  exact fun hc => (hsep i hi).1 _ hc (by decide)

/-- A step, where its items are separated. -/
theorem toList_stepText {s : String × List (Bool × String)} (hname : ',' ∉ s.1.toList)
    (hsep : Separated s.2) : (stepText s).toList =
      (stepHeading s.1).toList ++ ((", ".intercalate (kept [] s.2)).toList ++ [']']) := by
  rw [stepText, foldl_addItem (heading_step hname) hsep.plain, String.toList_append,
    String.toList_append, List.append_assoc]
  rfl

/-- **Steps are listed alike** exactly when the items that are not the end of one before them are the
same. -/
theorem join_eq_iff {ss ts : List (String × List (Bool × String))}
    (hs : ∀ s ∈ ss, ',' ∉ s.1.toList ∧ Separated s.2)
    (ht : ∀ t ∈ ts, ',' ∉ t.1.toList ∧ Separated t.2) (hnames : ss.map Prod.fst = ts.map Prod.fst) :
    String.join (ss.map stepText) = String.join (ts.map stepText) ↔
      ss.map (fun s => kept [] s.2) = ts.map fun t => kept [] t.2 := by
  induction ss generalizing ts with
  | nil =>
    rw [List.map_nil, eq_comm, List.map_eq_nil_iff] at hnames
    rw [hnames]
    exact iff_of_true rfl rfl
  | cons s ss ih =>
    cases ts with
    | nil => cases hnames
    | cons t ts =>
      obtain ⟨hname, hnames⟩ := List.cons.inj hnames
      obtain ⟨hsname, hsep⟩ := hs s List.mem_cons_self
      obtain ⟨htname, htsep⟩ := ht t List.mem_cons_self
      have ih := ih (fun s h => hs s (List.mem_cons_of_mem _ h))
        (fun t h => ht t (List.mem_cons_of_mem _ h)) hnames
      have hkept : (", ".intercalate (kept [] s.2)) = ", ".intercalate (kept [] t.2) ↔
          kept [] s.2 = kept [] t.2 := by
        rw [← foldl_eq_iff (heading_step hsname) hsep.plain htsep.plain,
          foldl_addItem (heading_step hsname) hsep.plain,
          foldl_addItem (heading_step hsname) htsep.plain, String.append_right_inj]
      rw [List.map_cons, List.map_cons, List.map_cons, List.map_cons, String.join_cons,
        String.join_cons, List.cons.injEq, ← ih, ← hkept]
      constructor
      · intro heq
        have hlist := congrArg String.toList heq
        rw [String.toList_append, String.toList_append, toList_stepText hsname hsep,
          toList_stepText htname htsep, ← hname, List.append_assoc, List.append_assoc,
          List.append_assoc, List.append_assoc, List.append_cancel_left_eq] at hlist
        obtain ⟨hlisted, hrest⟩ := cut_inj hsep.bracket_notMem htsep.bracket_notMem hlist
        exact ⟨String.toList_injective hlisted, String.toList_injective hrest⟩
      · rintro ⟨hlisted, hrest⟩
        have htext : stepText s = stepText t := by
          refine String.toList_injective ?_
          rw [toList_stepText hsname hsep, toList_stepText htname htsep, hlisted, ← hname]
        rw [htext, hrest]

/-- The data path of a scenario's row: none, or one that does not begin as that of a step does. -/
def Listing (d : String) : Prop := d ≠ "" → ']' ∉ d.toList ∧ ∃ c q, d.toList = c :: q ∧ c ≠ '('

/-- The data path of separated items does not look like that of a step. -/
theorem listing_of_separated (hsep : Separated items) : Listing (items.foldl (addItem noPath) "") := by
  rw [foldl_addItem heading_noPath hsep.plain, String.empty_append]
  intro hne
  refine ⟨hsep.bracket_notMem, ?_⟩
  cases hkept : kept [] items with
  | nil =>
    rw [hkept] at hne
    exact absurd String.intercalate_nil hne
  | cons t ts =>
    obtain ⟨i, hi, rfl⟩ := mem_of_mem_kept (hkept ▸ List.mem_cons_self : t ∈ kept [] items)
    obtain ⟨-, hhead⟩ := hsep i hi
    cases hitem : i.2.toList with
    | nil =>
      rw [hitem] at hhead
      cases hhead
    | cons c q =>
      rw [hitem] at hhead
      rw [String.toList_intercalate, List.map_cons, intercalate_cons, hitem]
      refine ⟨c, _, rfl, ?_⟩
      rintro rfl
      exact absurd hhead (by simp)

/-- The data path of the steps: none, or one that begins with a step. -/
def Stepping (t : String) : Prop := t.toList = [] ∨ ∃ q, t.toList = '[' :: '(' :: q

/-- The items stand behind the heading. -/
theorem exists_foldl_addItem (fresh : String → Bool) (h : String) (items : List (Bool × String)) :
    ∃ q, items.foldl (addItem fresh) h = h ++ q := by
  induction items generalizing h with
  | nil => exact ⟨"", String.append_empty.symm⟩
  | cons i items ih =>
    obtain ⟨q, hq⟩ := ih (addItem fresh h i)
    have hone : ∃ r, addItem fresh h i = h ++ r := by
      rw [addItem_eq]
      split
      · exact ⟨_, rfl⟩
      · split
        · exact ⟨_, rfl⟩
        · exact ⟨"", String.append_empty.symm⟩
    obtain ⟨r, hr⟩ := hone
    exact ⟨r ++ q, by rw [List.foldl_cons, hq, hr, String.append_assoc]⟩

/-- The data path of the steps begins with a step. -/
theorem stepping_join (ss : List (String × List (Bool × String))) :
    Stepping (String.join (ss.map stepText)) := by
  cases ss with
  | nil => exact .inl rfl
  | cons s ss =>
    obtain ⟨q, hq⟩ := exists_foldl_addItem (fun p => endsWith p ")") (stepHeading s.1) s.2
    refine .inr ⟨(s.1 ++ ")" ++ q ++ "]" ++ String.join (ss.map stepText)).toList, ?_⟩
    rw [List.map_cons, String.join_cons, stepText, hq, stepHeading]
    simp only [String.toList_append, List.append_assoc]
    rfl

/-- The characters of a data path in brackets. -/
theorem toList_bracketed {d : String} (hd : d ≠ "") (t : String) :
    (bracketed d ++ t).toList = '[' :: (d.toList ++ ']' :: t.toList) := by
  rw [bracketed, if_neg hd]
  simp only [String.toList_append, List.append_assoc]
  rfl

/-- A step does not begin where a row of the scenario does. -/
theorem ne_of_stepping {d t t' : String} (hd : Listing d) (hne : d ≠ "") (ht : Stepping t) :
    t ≠ bracketed d ++ t' := by
  intro h
  have hlist := congrArg String.toList h
  rw [toList_bracketed hne] at hlist
  obtain ⟨-, c, q, hq, hc⟩ := hd hne
  rcases ht with hnil | ⟨p, hp⟩
  · rw [hnil] at hlist
    cases hlist
  · rw [hp, hq] at hlist
    exact hc (List.cons.inj (List.cons.inj hlist).2).1.symm

/-- **The two data paths of a name** are read apart. -/
theorem bracketed_inj {d d' t t' : String} (hd : Listing d) (hd' : Listing d') (ht : Stepping t)
    (ht' : Stepping t') (h : bracketed d ++ t = bracketed d' ++ t') : d = d' ∧ t = t' := by
  have hempty : bracketed "" = "" := rfl
  by_cases hne : d = ""
  · by_cases hne' : d' = ""
    · subst hne
      subst hne'
      exact ⟨rfl, (String.append_right_inj _).mp h⟩
    · rw [hne, hempty, String.empty_append] at h
      exact absurd h (ne_of_stepping hd' hne' ht)
  · by_cases hne' : d' = ""
    · rw [hne', hempty, String.empty_append] at h
      exact absurd h.symm (ne_of_stepping hd hne ht')
    · have hlist := congrArg String.toList h
      rw [toList_bracketed hne, toList_bracketed hne'] at hlist
      obtain ⟨hpath, hrest⟩ := cut_inj (hd hne).1 (hd' hne').1 (List.cons.inj hlist).2
      exact ⟨String.toList_injective hpath, String.toList_injective hrest⟩

end Reading

namespace Fill

variable {p q : Fill}

/-- Where nothing is left out, the name has all items. -/
theorem path_eq_written (h : p.Unshortened) : p.path = p.written := by
  have hscenario : p.scenario.foldl (addItem noPath) "" = writtenOut noPath "" p.scenario :=
    foldl_addItem_of_whole (s := ("", [])) h.1
  have hsteps : p.steps.map stepText = p.steps.map stepWritten :=
    List.map_congr_left fun s hs =>
      congrArg (· ++ "]") (foldl_addItem_of_whole (s := (stepHeading s.1, [])) (h.2 s hs))
  rw [path, written, hscenario, hsteps]

/-- **Two scripts have one name** exactly when they list the same items. -/
theorem path_eq_iff (hp : p.Separated) (hq : q.Separated)
    (hnames : p.steps.map Prod.fst = q.steps.map Prod.fst) : p.path = q.path ↔ p.listed = q.listed := by
  rw [path, path, listed, listed, Prod.mk.injEq, ← join_eq_iff hp.2 hq.2 hnames,
    ← foldl_eq_iff heading_noPath hp.1.plain hq.1.plain]
  constructor
  · exact bracketed_inj (listing_of_separated hp.1) (listing_of_separated hq.1)
      (stepping_join p.steps) (stepping_join q.steps)
  · rintro ⟨hscenario, hsteps⟩
    rw [hscenario, hsteps]

/-- Rows that are told have different data paths. -/
theorem Tells.path_ne (h : p.Tells q) (hnames : p.steps.map Prod.fst = q.steps.map Prod.fst) :
    p.path ≠ q.path := by
  rcases h with ⟨hp, hq, hne⟩ | ⟨hp, hq, hne⟩
  · rwa [path_eq_written hp, path_eq_written hq]
  · rwa [Ne, path_eq_iff hp hq hnames]

/-- Where both names are unshortened, or both have separated items, they are the same unless they
tell. -/
theorem tells_of_path_ne (hread : p.Unshortened ∧ q.Unshortened ∨ p.Separated ∧ q.Separated)
    (hnames : p.steps.map Prod.fst = q.steps.map Prod.fst) (h : p.path ≠ q.path) : p.Tells q := by
  rcases hread with ⟨hp, hq⟩ | ⟨hp, hq⟩
  · exact .inl ⟨hp, hq, by rwa [path_eq_written hp, path_eq_written hq] at h⟩
  · exact .inr ⟨hp, hq, by rwa [Ne, path_eq_iff hp hq hnames] at h⟩

end Fill

/-! ### The rows of a call -/

section Rows

variable (fold : Char → Char) (mapper : MJsonHandler.ObjectMapper) (scenarioList : List Scenario)
  (caseName : String) (stepsVarMap : StepsVarMap) (content : String)

/-- The text with the rows of index `i` of the steps. -/
def stepScript (i : ℕ) : String := filledIn stepsVarMap i none (getLines content)

/-- The steps that are closed, with the items of the rows of index `i`. -/
def stepItems (i : ℕ) : List (String × List (Bool × String)) :=
  ((blocks stepsVarMap none (getLines content)).filter (·.closed)).map fun b =>
    (b.name, items (b.value i) b.uses)

/-- The steps and the text of each row; a text without rows stands for itself. -/
def stepFills (o : VisitOrder String) : List (List (String × List (Bool × String)) × String) :=
  if size o stepsVarMap = 0 then [([], content)]
  else (List.range (size o stepsVarMap)).map fun i =>
    (stepItems stepsVarMap content i, stepScript stepsVarMap content i)

/-- A text with a row of the scenario. -/
def scenarioScript (text : String) (varMap : Option Row) : String :=
  String.join ((getLines text).map fun line =>
    fillUse (valueIn varMap) line (convertUse line) ++ "\n")

/-- The items and the text of each row of the scenario; a text without rows stands for itself. -/
def scenarioFills (text : String) : Option (HashMap ℕ Row) → List (List (Bool × String) × String)
  | none => [([], text)]
  | some rows =>
    if isParamSet text ∧ rows.keys ≠ [] then
      (List.range rows.keys.length).map fun k =>
        (items (valueIn (rows.lookup k)) (convertUses text), scenarioScript text (rows.lookup k))
    else [([], text)]

/-- What is filled into the scripts, from the rows that the data algorithms give: `paramMaps` has the
rows of the scenario for each text with rows of the steps. -/
def fills (o : VisitOrder String) (paramMaps : List (Option (HashMap ℕ Row))) : List Fill :=
  ((stepFills stepsVarMap content o).zip paramMaps).flatMap fun t =>
    (scenarioFills t.1.2 t.2).map fun s => ⟨t.1.1, s.1, s.2⟩

/-- The rows that the data algorithms give for a text: those of its steps, and those of the scenario
for the text with each of them. -/
def givenRows (o : VisitOrder String) (varFile : Option (Option MXmlParse.Element)) :
    VarHandler (StepsVarMap × List (Option (HashMap ℕ Row))) := do
  let stepsVarMap ← stepsRows fold o varFile content
  let paramMaps ← (stepFills stepsVarMap content o).mapM fun t =>
    scenarioRows fold mapper scenarioList t.2 caseName
  return (stepsVarMap, paramMaps)

end Rows

section Run

variable {fold : Char → Char} {mapper : MJsonHandler.ObjectMapper}
  {scenarioList : List Scenario} {caseName content : String} {o : VisitOrder String}
  {varFile : Option (Option MXmlParse.Element)} {a a' : AlgoMap} {stepsVarMap : StepsVarMap}

/-- The loop begins outside the steps. -/
theorem stands_none (i : ℕ) : Stands i none ⟨∅, "", "", "", false⟩ :=
  ⟨rfl, fun _ hb => (nomatch hb)⟩

/-- Only steps that are closed stand in the data path. -/
theorem join_blocks (i : ℕ) (bs : List Block) : String.join (bs.map fun b => b.text i) =
    String.join (((bs.filter (·.closed)).map fun b => (b.name, items (b.value i) b.uses)).map
      stepText) := by
  induction bs with
  | nil => rfl
  | cons b bs ih =>
    rw [List.map_cons, String.join_cons, ih, List.filter_cons, Block.text]
    split
    · rw [List.map_cons, List.map_cons, String.join_cons]
      rfl
    · rw [String.empty_append]

/-- The data path of the steps and the text, of the rows of an index. -/
theorem alignRow_ok {i : ℕ} {p : String × String} (h : alignRow stepsVarMap content i = .ok p) :
    p = (String.join ((stepItems stepsVarMap content i).map stepText),
      stepScript stepsVarMap content i) := by
  obtain ⟨s, hs, h⟩ := bind_eq_ok.mp h
  have hpath := dataPath_of_foldlM (stands_none i) hs
  have htext := newContent_of_foldlM (stands_none i) hs
  rw [String.empty_append] at hpath htext
  rw [join_blocks] at hpath
  rw [← Except.ok.inj h, hpath, htext]
  rfl

/-- The rows are filled in one by one. -/
theorem alignRows_ok {rows : List (String × String)} (h : alignRows o stepsVarMap content = .ok rows) :
    rows = (stepFills stepsVarMap content o).map fun t => (String.join (t.1.map stepText), t.2) := by
  obtain ⟨rows', hmap, h⟩ := bind_eq_ok.mp h
  have hrows : rows' = (List.range (size o stepsVarMap)).map fun i =>
      (String.join ((stepItems stepsVarMap content i).map stepText),
        stepScript stepsVarMap content i) :=
    eq_map_of_mapM (fun i p => alignRow_ok (i := i) (p := p)) hmap
  have hnil : rows' = [] ↔ size o stepsVarMap = 0 := by
    rw [hrows, List.map_eq_nil_iff, List.range_eq_nil]
  rw [(Except.ok.inj h).symm, stepFills]
  by_cases hsize : size o stepsVarMap = 0
  · rw [if_pos hsize, if_pos (hnil.mpr hsize), List.map_singleton, List.map_nil, String.join_nil]
  · rw [if_neg hsize, if_neg (mt hnil.mp hsize), hrows, List.map_map]
    exact List.map_congr_left fun i _ => rfl

/-- The scripts of a text, from the rows of the scenario. -/
theorem convertRows_ok {text : String} {paramMap : Option (HashMap ℕ Row)}
    {scripts : List (String × String)} (h : convertRows text paramMap = .ok scripts) :
    (scenarioFills text paramMap).map (fun s => (bracketed (s.1.foldl (addItem noPath) ""), s.2)) =
      if scripts = [] then [("", text)] else scripts := by
  cases paramMap with
  | none => cases h; rfl
  | some rows =>
    rw [convertRows] at h
    rw [scenarioFills]
    by_cases hset : isParamSet text = true
    · rw [if_pos hset] at h
      have hscripts : scripts = (List.range rows.keys.length).map fun k =>
          (bracketed ((items (valueIn (rows.lookup k)) (convertUses text)).foldl (addItem noPath) ""),
            scenarioScript text (rows.lookup k)) := by
        refine eq_map_of_mapM (fun k s hrow => ?_) h
        obtain ⟨d, rfl, hs⟩ := convertRow_ok hrow
        exact hs
      subst hscripts
      by_cases hnil : rows.keys = []
      · rw [if_neg (fun hand => hand.2 hnil), hnil]
        rfl
      · rw [if_pos ⟨hset, hnil⟩, if_neg (by simpa using hnil), List.map_map]
        rfl
    · rw [if_neg hset] at h
      cases h
      rw [if_neg (fun hand => hset hand.1)]
      rfl

/-- How a text with the rows of the steps was handled. -/
structure Handled (fold : Char → Char) (mapper : MJsonHandler.ObjectMapper)
    (scenarioList : List Scenario) (caseName : String) (row : String × String) (f : Filled) :
    Prop where
  dataPath : f.dataPath = row.1
  content : f.content = row.2
  scripts : convertRows row.2 f.paramMap = .ok f.scripts

/-- The texts are handled one after another. -/
theorem handled_of_run {rows : List (String × String)} {filled : List Filled}
    (h : (rows.mapM (fillScenario fold mapper scenarioList caseName)).run a = .ok filled a') :
    List.Forall₂ (Handled fold mapper scenarioList caseName) rows filled ∧
      (rows.mapM fun r => scenarioRows fold mapper scenarioList r.2 caseName : VarHandler _).run a =
        .ok (filled.map Filled.paramMap) a' := by
  induction rows generalizing a filled with
  | nil => cases h; exact ⟨.nil, rfl⟩
  | cons r rows ih =>
    rw [List.mapM_cons] at h ⊢
    obtain ⟨f, a₁, hf, h⟩ := of_run_bind h
    obtain ⟨fs, a₂, hfs, h⟩ := of_run_bind h
    cases h
    obtain ⟨hhandled, hread⟩ := ih hfs
    obtain ⟨paramMap, a₂, hrows, hfill⟩ := of_run_bind hf
    obtain ⟨scripts, a₃, hlift, hret⟩ := of_run_bind hfill
    obtain ⟨hscripts, rfl⟩ := of_run_liftRuntime hlift
    cases hret
    refine ⟨.cons ⟨rfl, rfl, hscripts⟩ hhandled, ?_⟩
    rw [run_bind_ok hrows, run_bind_ok hread]
    rfl

/-- The file that is written for a script. -/
def Fill.file (dir caseName num : String) (p : Fill) : String × String :=
  (filePath dir caseName num p.path "", p.script)

theorem filePath_append (dir caseName num d t : String) :
    filePath dir caseName num d t = filePath dir caseName num (d ++ t) "" := by
  simp only [filePath, String.append_assoc, String.append_empty]

/-- The files of a text. -/
theorem files_of_handled {dir num : String} {t : List (String × List (Bool × String)) × String}
    {f : Filled}
    (h : Handled fold mapper scenarioList caseName (String.join (t.1.map stepText), t.2) f) :
    f.files dir caseName num = ((scenarioFills t.2 f.paramMap).map fun s => ⟨t.1, s.1, s.2⟩).map
      (Fill.file dir caseName num) := by
  obtain ⟨hpath, hcontent, hscripts⟩ := h
  have hfiles : f.files dir caseName num = (if f.scripts = [] then [("", f.content)] else f.scripts).map
      fun s => (filePath dir caseName num s.1 f.dataPath, s.2) := by
    rw [Filled.files]
    split <;> rfl
  rw [hfiles, hcontent, ← convertRows_ok hscripts, hpath, List.map_map, List.map_map]
  refine List.map_congr_left fun s _ => ?_
  exact congrArg (·, s.2) (filePath_append dir caseName num _ _)

/-- The files of some rows. -/
theorem flatMap_files {dir num : String} {ts : List (List (String × List (Bool × String)) × String)}
    {filled : List Filled} (h : List.Forall₂ (fun t f => Handled fold mapper scenarioList caseName
      (String.join (t.1.map stepText), t.2) f) ts filled) :
    filled.flatMap (Filled.files dir caseName num) =
      ((ts.zip (filled.map Filled.paramMap)).flatMap fun t =>
        (scenarioFills t.1.2 t.2).map fun s => (⟨t.1.1, s.1, s.2⟩ : Fill)).map
          (Fill.file dir caseName num) := by
  induction h with
  | nil => rfl
  | cons hf _ ih =>
    rw [List.map_cons, List.zip_cons_cons, List.flatMap_cons, List.flatMap_cons, List.map_append, ← ih,
      files_of_handled hf]

/-- **The files of a call**, from the rows that the data algorithms give. -/
theorem files_eq {r : Aligned} (dir num : String)
    (h : (handleVarsAlign fold mapper scenarioList caseName o varFile content).run a = .ok r a') :
    ∃ paramMaps, (givenRows fold mapper scenarioList caseName content o varFile).run a =
        .ok (r.stepsVarMap, paramMaps) a' ∧
      r.files dir caseName num =
        (fills r.stepsVarMap content o paramMaps).map (Fill.file dir caseName num) := by
  obtain ⟨stepsVarMap, a₁, hsteps, h⟩ := of_run_bind h
  obtain ⟨rows, a₂, hrows, h⟩ := of_run_bind h
  obtain ⟨filled, a₃, hfilled, h⟩ := of_run_bind h
  cases h
  obtain ⟨halign, rfl⟩ := of_run_liftRuntime hrows
  obtain rfl := alignRows_ok halign
  obtain ⟨hhandled, hread⟩ := handled_of_run hfilled
  refine ⟨filled.map Filled.paramMap, ?_, ?_⟩
  · rw [List.mapM_map] at hread
    change ((stepFills stepsVarMap content o).mapM fun t =>
      scenarioRows fold mapper scenarioList t.2 caseName).run a₂ = _ at hread
    rw [givenRows, run_bind_ok hsteps, run_bind_ok hread]
    rfl
  · rw [List.forall₂_map_left_iff] at hhandled
    exact flatMap_files hhandled

/-- All scripts of a call name the same steps. -/
theorem names_of_mem_fills {paramMaps : List (Option (HashMap ℕ Row))} {p q : Fill}
    (hp : p ∈ fills stepsVarMap content o paramMaps) (hq : q ∈ fills stepsVarMap content o paramMaps) :
    p.steps.map Prod.fst = q.steps.map Prod.fst := by
  have hnames : ∀ p ∈ fills stepsVarMap content o paramMaps, p.steps.map Prod.fst =
      if size o stepsVarMap = 0 then []
      else ((blocks stepsVarMap none (getLines content)).filter (·.closed)).map Block.name := by
    intro p hp
    obtain ⟨t, ht, hp⟩ := List.mem_flatMap.mp hp
    obtain ⟨s, -, rfl⟩ := List.mem_map.mp hp
    have ht := (List.of_mem_zip (a := t.1) (b := t.2) ht).1
    rw [stepFills] at ht
    split at ht
    · rename_i hsize
      rw [if_pos hsize, List.mem_singleton.mp ht]
      rfl
    · rename_i hsize
      obtain ⟨i, -, hi⟩ := List.mem_map.mp ht
      rw [if_neg hsize, ← hi, stepItems, List.map_map]
      rfl
  rw [hnames p hp, hnames q hq]

/-- Scripts of the rows that differ are told by their names. -/
def Told (ps : List Fill) : Prop := ∀ p ∈ ps, ∀ q ∈ ps, p.script ≠ q.script → p.Tells q

instance (ps : List Fill) : Decidable (Told ps) :=
  inferInstanceAs (Decidable (∀ p ∈ ps, ∀ q ∈ ps, _))

/-- Of scripts that differ, the names leave nothing out, or have separated items. -/
def Legible (ps : List Fill) : Prop := ∀ p ∈ ps, ∀ q ∈ ps, p.script ≠ q.script →
  p.Unshortened ∧ q.Unshortened ∨ p.Separated ∧ q.Separated

/-- Different data paths give different names. -/
theorem filePath_inj {dir num d d' : String}
    (h : filePath dir caseName num d "" = filePath dir caseName num d' "") : d = d' := by
  rw [filePath, filePath, String.append_right_inj, String.append_left_inj, String.append_empty,
    String.append_empty, String.append_right_inj] at h
  exact h

end Run

/-! ### A step that sets fields to its parameters -/

/-- A text that uses some parameters in one step. -/
def loginText (params : List String) : String :=
  String.join (["stepStart(\"Step: in\");\n"] ++
    params.map (fun p => "setValue(getParams(" ++ p ++ "));\n") ++ ["stepEnd();\n"])

/-- A file with their values. -/
def loginVars (params : List (String × String)) : Option (Option MXmlParse.Element) :=
  some (some ⟨"steps", [], "", [⟨"step", [("name", "in"), ("data", "align")], "",
    params.map fun p => ⟨"var", [("name", p.1), ("value", p.2)], "", []⟩⟩]⟩)

/-- The call for a case of the scenario `login`, which has no parameters of its own. -/
def runLogin (params : List (String × String)) : EStateM.Result VarFailure AlgoMap Aligned :=
  (handleVarsAlign Char.toLower noMapper [⟨"login", "", ""⟩] "login_2" .insertion
    (loginVars params) (loginText (params.map Prod.fst))).run fun _ => .new

/-- The files that are written for it. -/
def filesLogin (params : List (String × String)) : List (String × String) :=
  match runLogin params with
  | .ok r _ => r.files "qtest" "login_2" "_1"
  | .error .. => []

/-- The rows that are filled into it. -/
def fillsLogin (params : List (String × String)) : List Fill :=
  match (givenRows Char.toLower noMapper [⟨"login", "", ""⟩] "login_2"
    (loginText (params.map Prod.fst)) .insertion (loginVars params)).run fun _ => .new with
  | .ok given _ => fills given.1 (loginText (params.map Prod.fst)) .insertion given.2
  | .error .. => []

end MQTestView

end MBT
