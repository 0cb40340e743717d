import MBT.Support.Choices
import MBT.Support.Exec
import MBT.Support.Text

/-!
# Generate — MGenReplacedStep

`MGenReplacedStep`: the actions of the steps on a path, with the variables of each step replaced by
the values of each of its combinations.  The recursion goes over the positions of the path, but
what it replaces is kept under the number of the step, so that a step that occurs again overwrites
what the path used it with before.

* `run_dfs`: what a search adds to the two result lists.
* `genReplacedStep_iff`: the entry of each choice holds what each position has chosen exactly when
  the combinations of a step that occurs again make no difference to its actions.
* `genReplacedStep_overwrites`: a step with two combinations, twice on a path.
-/

namespace MBT
open Exec Choices

/-- The variables of a combination with their values, in the order of the combination XML. -/
abbrev Vars := List (String × String)

/-- An element `TESTSTEP` of the combination XML. -/
structure StepCombs where
  stepNumber : ℤ
  stepName : String
  combinations : List Vars

/-- An element `TESTSTEP` of the MBT XML: its number and its actions. -/
structure StepActions where
  stepNumber : ℤ
  actions : List String

/-- The class `MGenReplacedStep`: the combinations and actions of the steps, and what is replaced
for a path. -/
structure MGenReplacedStep where
  varCombsMap : HashMap ℤ (List (HashMap String String))
  varCombsNameMap : HashMap ℤ (List String)
  stepActionMap : HashMap ℤ (List String)
  stepNameMap : HashMap ℤ String
  replacedStepMap : HashMap ℤ (List String)
  replacedStepList : List (HashMap ℤ (List String))
  replacedNameList : List String
  curReplacedName : String

namespace MGenReplacedStep

/-! ### Construction -/

/-- The map of a combination. -/
def varMap (c : Vars) : HashMap String String := c.foldl (fun m v => m.insert v.1 v.2) ∅

/-- A combination as it stands in the name of a case. -/
def varCombsName (c : Vars) : String :=
  let name := c.foldl (fun s v => s ++ "," ++ v.1 ++ "=" ++ v.2) ""
  if name ≠ "" then Text.substring name 1 else name

/-- The turn of `parseCombXml` for an element. -/
def addCombs (m : MGenReplacedStep) (e : StepCombs) : MGenReplacedStep :=
  { m with
    stepNameMap := m.stepNameMap.insert e.stepNumber e.stepName
    varCombsMap := m.varCombsMap.insert e.stepNumber (e.combinations.map varMap)
    varCombsNameMap := m.varCombsNameMap.insert e.stepNumber (e.combinations.map varCombsName) }

/-- The turn of `parseMbtXml` for an element. -/
def addActions (m : MGenReplacedStep) (e : StepActions) : MGenReplacedStep :=
  { m with stepActionMap := m.stepActionMap.insert e.stepNumber e.actions }

/-- The constructor: reads the combinations, then the actions. -/
def new (stepVarCombXml : List StepCombs) (mbtXml : List StepActions) : MGenReplacedStep :=
  mbtXml.foldl addActions (stepVarCombXml.foldl addCombs ⟨∅, ∅, ∅, ∅, ∅, [], [], ""⟩)

/-! ### The search -/

/-- `replaceAll(regex, goal)` of a string. -/
abbrev ReplaceAll := String → String → String → Except Exn String

variable (o : VisitOrder String) (replaceAll : ReplaceAll)

/-- The variables are substituted one by one, in the order in which the keys are visited. -/
def replaceVar (varCombs : HashMap String String) (actionList : List String) :
    Except Exn (List String) :=
  actionList.mapM fun action => (o.visit varCombs.keySet).foldlM (fun action varName => do
    let goalStr ← Prog.nonNull (varCombs.lookup varName)
    replaceAll action ("\\\x7bMBT_STEP_PARAM\\(" ++ varName ++ "\\)\\\x7d") goalStr) action

/-- A step without combinations gets an empty one. -/
def addEmptyComb (curStepNumber : ℤ) : Prog MGenReplacedStep Unit := do
  let m ← get
  let varCombsList ← Prog.lift (Prog.nonNull (m.varCombsMap.lookup curStepNumber))
  if varCombsList.length = 0 then
    modify fun m => { m with varCombsMap := m.varCombsMap.insert curStepNumber [∅] }
    let varCombsNameList ← Prog.lift (Prog.nonNull (m.varCombsNameMap.lookup curStepNumber))
    modify fun m => { m with
      varCombsNameMap := m.varCombsNameMap.insert curStepNumber (varCombsNameList ++ [""]) }

/-- The part that a combination adds to the name. -/
def namePart (stepName : Option String) (varCombsName : String) : String :=
  if varCombsName ≠ "" then
    "\x7b(" ++ stepName.getD "null" ++ ")" ++ varCombsName ++ "\x7d"
  else ""

/-- The turn of the loop for the `i`-th combination; `next` is the recursive call. -/
def replaceOne (next : Prog MGenReplacedStep Unit) (curStepNumber : ℤ) (i : ℕ) :
    Prog MGenReplacedStep Unit := do
  let m ← get
  let varCombsList ← Prog.lift (Prog.nonNull (m.varCombsMap.lookup curStepNumber))
  let varCombs ← Prog.lift (ArrayList.get varCombsList i)
  let curActionList ← Prog.lift (Prog.nonNull (m.stepActionMap.lookup curStepNumber))
  let replacedActionList ← Prog.lift (replaceVar o replaceAll varCombs curActionList)
  modify fun m => { m with
    replacedStepMap := m.replacedStepMap.insert curStepNumber replacedActionList }
  let varCombsNameList ← Prog.lift (Prog.nonNull (m.varCombsNameMap.lookup curStepNumber))
  let varCombsName ← Prog.lift (ArrayList.get varCombsNameList i)
  let bakReplacedName := m.curReplacedName
  modify fun m => { m with curReplacedName :=
    m.curReplacedName ++ namePart (m.stepNameMap.lookup curStepNumber) varCombsName }
  next
  modify fun m => { m with curReplacedName := bakReplacedName }

/-- The search from a position on; the recursion is on the part of the path from there. -/
def dfs : List ℤ → Prog MGenReplacedStep Unit
  | [] => modify fun m => { m with
      replacedStepList := m.replacedStepList ++ [m.replacedStepMap]
      replacedNameList := m.replacedNameList ++ [m.curReplacedName] }
  | curStepNumber :: stepPath => do
    addEmptyComb curStepNumber
    let m ← get
    let varCombsList ← Prog.lift (Prog.nonNull (m.varCombsMap.lookup curStepNumber))
    forM (List.range varCombsList.length) (replaceOne o replaceAll (dfs stepPath) curStepNumber)

/-- Replaces the actions of a path, for each choice of combinations. -/
def genReplacedStep (stepPath : List ℤ) : Prog MGenReplacedStep Unit := do
  modify fun m => { m with
    replacedStepList := [], replacedNameList := [], replacedStepMap := ∅, curReplacedName := "" }
  dfs o replaceAll stepPath

/-! ### What an object has loaded -/

/-- The element of the combination XML for the step; the last one counts. -/
def stepCombs (combXml : List StepCombs) (t : ℤ) : Option StepCombs :=
  combXml.reverse.find? (·.stepNumber == t)

/-- The last element of a number in the MBT XML. -/
def stepActions (mbtXml : List StepActions) (t : ℤ) : Option StepActions :=
  mbtXml.reverse.find? (·.stepNumber == t)

/-- The combinations of a step; an empty list counts as one empty combination. -/
def combsOf (combXml : List StepCombs) (t : ℤ) : List Vars :=
  match stepCombs combXml t with
  | none => []
  | some e => if e.combinations = [] then [[]] else e.combinations

/-- Its actions, if there is one. -/
def actionsOf (mbtXml : List StepActions) (t : ℤ) : List String :=
  match stepActions mbtXml t with
  | none => []
  | some e => e.actions

/-- The name of a step in the combination XML. -/
def stepNameOf (combXml : List StepCombs) (t : ℤ) : Option String :=
  (stepCombs combXml t).map StepCombs.stepName

/-- Both XML files have an element for the step. -/
def Known (combXml : List StepCombs) (mbtXml : List StepActions) (t : ℤ) : Prop :=
  (∃ e, stepCombs combXml t = some e) ∧ ∃ e, stepActions mbtXml t = some e

/-- The object holds what the XML files say. -/
structure Loaded (combXml : List StepCombs) (mbtXml : List StepActions) (m : MGenReplacedStep) :
    Prop where
  combs : ∀ t e, stepCombs combXml t = some e →
    ∃ l, (l = e.combinations ∨ l = combsOf combXml t) ∧
      m.varCombsMap.lookup t = some (l.map varMap) ∧
        m.varCombsNameMap.lookup t = some (l.map varCombsName)
  absent : ∀ t, stepCombs combXml t = none → m.varCombsMap.lookup t = none
  names : ∀ t, m.stepNameMap.lookup t = stepNameOf combXml t
  actions : ∀ t, m.stepActionMap.lookup t = (stepActions mbtXml t).map StepActions.actions

variable {combXml : List StepCombs} {mbtXml : List StepActions}

/-- What the constructor reads of the combinations. -/
theorem foldl_addCombs (m : MGenReplacedStep) : combXml.foldl addCombs m =
    { m with
      stepNameMap := combXml.foldl (fun m e => m.insert e.stepNumber e.stepName) m.stepNameMap
      varCombsMap := combXml.foldl (fun m e => m.insert e.stepNumber (e.combinations.map varMap))
        m.varCombsMap
      varCombsNameMap := combXml.foldl
        (fun m e => m.insert e.stepNumber (e.combinations.map varCombsName)) m.varCombsNameMap } := by
  induction combXml generalizing m with
  | nil => rfl
  | cons e l ih => rw [List.foldl_cons, ih]; rfl

/-- What it reads of the actions. -/
theorem foldl_addActions (m : MGenReplacedStep) : mbtXml.foldl addActions m =
    { m with stepActionMap :=
        mbtXml.foldl (fun m e => m.insert e.stepNumber e.actions) m.stepActionMap } := by
  induction mbtXml generalizing m with
  | nil => rfl
  | cons e l ih => rw [List.foldl_cons, ih]; rfl

/-- A new object is loaded. -/
theorem loaded_new (combXml : List StepCombs) (mbtXml : List StepActions) :
    Loaded combXml mbtXml (new combXml mbtXml) := by
  rw [new, foldl_addActions, foldl_addCombs]
  constructor
  · intro t e he
    refine ⟨e.combinations, .inl rfl, ?_, ?_⟩ <;> dsimp only <;>
      rw [HashMap.lookup_foldl_insert, ← stepCombs, he] <;> rfl
  · intro t ht
    dsimp only
    rw [HashMap.lookup_foldl_insert, ← stepCombs, ht]
    rfl
  · intro t
    dsimp only
    rw [HashMap.lookup_foldl_insert, ← stepCombs, stepNameOf]
    exact Option.or_none
  · intro t
    dsimp only
    rw [HashMap.lookup_foldl_insert, ← stepActions]
    exact Option.or_none

/-- The fields of the two XML files are the same. -/
theorem Loaded.congr {m m' : MGenReplacedStep} (h : Loaded combXml mbtXml m)
    (h₁ : m'.varCombsMap = m.varCombsMap) (h₂ : m'.varCombsNameMap = m.varCombsNameMap)
    (h₃ : m'.stepNameMap = m.stepNameMap) (h₄ : m'.stepActionMap = m.stepActionMap) :
    Loaded combXml mbtXml m' :=
  ⟨h₁ ▸ h₂ ▸ h.combs, h₁ ▸ h.absent, h₃ ▸ h.names, h₄ ▸ h.actions⟩

theorem combsOf_ne_nil {t : ℤ} {e : StepCombs} (he : stepCombs combXml t = some e) :
    combsOf combXml t ≠ [] := by
  rw [combsOf, he]
  dsimp only
  split
  · exact List.cons_ne_nil _ _
  · assumption

/-- The lists of the step are those of `combsOf`. -/
def Full (combXml : List StepCombs) (m : MGenReplacedStep) (t : ℤ) : Prop :=
  m.varCombsMap.lookup t = some ((combsOf combXml t).map varMap) ∧
    m.varCombsNameMap.lookup t = some ((combsOf combXml t).map varCombsName)

/-- What `addEmptyComb` leaves. -/
structure Filled (combXml : List StepCombs) (mbtXml : List StepActions) (t : ℤ)
    (m m' : MGenReplacedStep) : Prop where
  loaded : Loaded combXml mbtXml m'
  full : Full combXml m' t
  keeps : ∀ u, Full combXml m u → Full combXml m' u
  stepMap : m'.replacedStepMap = m.replacedStepMap
  stepList : m'.replacedStepList = m.replacedStepList
  nameList : m'.replacedNameList = m.replacedNameList
  name : m'.curReplacedName = m.curReplacedName

/-- A known step gets an empty combination where it has none. -/
theorem run_addEmptyComb {m : MGenReplacedStep} (h : Loaded combXml mbtXml m) {t : ℤ}
    {e : StepCombs} (he : stepCombs combXml t = some e) :
    ∃ m', (addEmptyComb t).run m = .ok ⟨⟩ m' ∧ Filled combXml mbtXml t m m' := by
  obtain ⟨l, hl, hmap, hname⟩ := h.combs t e he
  rw [addEmptyComb, Prog.run_bind_get, hmap, Prog.nonNull, Prog.lift_ok, pure_bind]
  cases l with
  | cons c l =>
    have hcombs : combsOf combXml t = c :: l := by
      rcases hl with hl | hl
      · rw [combsOf, he]
        dsimp only
        rw [← hl, if_neg (List.cons_ne_nil c l)]
      · exact hl.symm
    rw [if_neg (by simp)]
    exact ⟨m, rfl, h, ⟨hcombs ▸ hmap, hcombs ▸ hname⟩, fun _ hu => hu, rfl, rfl, rfl, rfl⟩
  | nil =>
    have hcombs : combsOf combXml t = [[]] := by
      rcases hl with hl | hl
      · rw [combsOf, he]
        exact if_pos hl.symm
      · exact absurd hl.symm (combsOf_ne_nil he)
    rw [if_pos (by simp)]
    let m' : MGenReplacedStep := { m with
      varCombsMap := m.varCombsMap.insert t [∅]
      varCombsNameMap := m.varCombsNameMap.insert t [""] }
    have hfull : Full combXml m' t := by
      rw [Full, hcombs]
      exact ⟨AList.lookup_insert _, AList.lookup_insert _⟩
    refine ⟨m', ?_, ⟨fun t' e' he' => ?_, fun t' ht' => ?_, h.names, h.actions⟩, hfull, fun u hu => ?_,
      rfl, rfl, rfl, rfl⟩
    · simp only [EStateM.run_bind, EStateM.run_modify, hname, Prog.nonNull, Prog.lift_ok,
        EStateM.run_pure, List.map_nil, List.nil_append]
      rfl
    · by_cases ht : t' = t
      · subst ht
        exact ⟨combsOf combXml t', .inr rfl, hfull⟩
      · obtain ⟨l, hl, hmap, hname⟩ := h.combs t' e' he'
        exact ⟨l, hl, (AList.lookup_insert_ne ht).trans hmap, (AList.lookup_insert_ne ht).trans hname⟩
    · have hne : t' ≠ t := by
        rintro rfl
        rw [he] at ht'
        cases ht'
      exact (AList.lookup_insert_ne hne).trans (h.absent t' ht')
    · by_cases ht : u = t
      · exact ht ▸ hfull
      · exact ⟨(AList.lookup_insert_ne ht).trans hu.1, (AList.lookup_insert_ne ht).trans hu.2⟩

/-! ### What a search adds -/

variable {o : VisitOrder String} {replaceAll : ReplaceAll}

/-- The actions of the step with the combination substituted, where no substitution throws. -/
def replaced (o : VisitOrder String) (replaceAll : ReplaceAll) (mbtXml : List StepActions) (t : ℤ)
    (c : Vars) : Except Exn (List String) :=
  replaceVar o replaceAll (varMap c) (actionsOf mbtXml t)

/-- What the path has put last under the number `u`. -/
def lastUse (o : VisitOrder String) (replaceAll : ReplaceAll) (mbtXml : List StepActions) :
    List ℤ → List Vars → ℤ → Option (List String)
  | t :: p, c :: ch, u => (lastUse o replaceAll mbtXml p ch u).or
      (if u = t then (replaced o replaceAll mbtXml t c).toOption else none)
  | _, _, _ => none

/-- The name of a choice: the parts of its positions. -/
def choiceName (combXml : List StepCombs) : List ℤ → List Vars → String
  | t :: p, c :: ch =>
    namePart (stepNameOf combXml t) (varCombsName c) ++ choiceName combXml p ch
  | _, _ => ""

/-- The choices for the positions of a path. -/
def choicesOf (combXml : List StepCombs) (p : List ℤ) : List (List Vars) :=
  choices (p.map (combsOf combXml))

/-- No substitution on the path throws. -/
def Substitutes (o : VisitOrder String) (replaceAll : ReplaceAll) (combXml : List StepCombs)
    (mbtXml : List StepActions) (p : List ℤ) : Prop :=
  ∀ t ∈ p, ∀ c ∈ combsOf combXml t, ∃ l, replaced o replaceAll mbtXml t c = .ok l

/-- `m'` is `m` with the choices `chs` for the positions `p` added to the result lists. -/
structure Adds (o : VisitOrder String) (replaceAll : ReplaceAll) (combXml : List StepCombs)
    (mbtXml : List StepActions) (p : List ℤ) (chs : List (List Vars)) (m m' : MGenReplacedStep) :
    Prop where
  loaded : Loaded combXml mbtXml m'
  keeps : ∀ u, Full combXml m u → Full combXml m' u
  name : m'.curReplacedName = m.curReplacedName
  frame : ∀ u ∉ p, m'.replacedStepMap.lookup u = m.replacedStepMap.lookup u
  names : m'.replacedNameList = m.replacedNameList ++
    chs.map fun ch => m.curReplacedName ++ choiceName combXml p ch
  entries : ∃ es, m'.replacedStepList = m.replacedStepList ++ es ∧ List.Forall₂ (fun ch e =>
    ∀ u, e.lookup u = (lastUse o replaceAll mbtXml p ch u).or (m.replacedStepMap.lookup u)) chs es

/-- Each step of a path that substitutes has its actions. -/
theorem isSome_lastUse {p : List ℤ} (hp : Substitutes o replaceAll combXml mbtXml p)
    {ch : List Vars} (hch : ch ∈ choicesOf combXml p) {u : ℤ} (hu : u ∈ p) :
    ∃ l, lastUse o replaceAll mbtXml p ch u = some l := by
  induction p generalizing ch with
  | nil => cases hu
  | cons t p ih =>
    obtain ⟨c, hc, ch, hch', rfl⟩ := mem_choices_cons.mp hch
    rw [lastUse]
    by_cases hup : u ∈ p
    · obtain ⟨l, hl⟩ := ih (fun t ht => hp t (List.mem_cons_of_mem _ ht)) hch' hup
      exact ⟨l, by rw [hl]; rfl⟩
    · obtain rfl : u = t := (List.mem_cons.mp hu).resolve_right hup
      obtain ⟨l, hl⟩ := hp u List.mem_cons_self c hc
      cases lastUse o replaceAll mbtXml p ch u with
      | none => exact ⟨l, by rw [if_pos rfl, hl]; rfl⟩
      | some l' => exact ⟨l', rfl⟩

/-- What two searches add comes one behind the other. -/
theorem Adds.trans {p : List ℤ} (hp : Substitutes o replaceAll combXml mbtXml p)
    {chs chs' : List (List Vars)} {m m₁ m₂ : MGenReplacedStep}
    (h : Adds o replaceAll combXml mbtXml p chs m m₁)
    (h' : Adds o replaceAll combXml mbtXml p chs' m₁ m₂)
    (hchs : ∀ ch ∈ chs', ch ∈ choicesOf combXml p) :
    Adds o replaceAll combXml mbtXml p (chs ++ chs') m m₂ := by
  obtain ⟨es, hes, hall⟩ := h.entries
  obtain ⟨es', hes', hall'⟩ := h'.entries
  refine ⟨h'.loaded, fun u hu => h'.keeps u (h.keeps u hu), h'.name.trans h.name,
    fun u hu => (h'.frame u hu).trans (h.frame u hu), ?_,
    es ++ es', ?_, List.rel_append hall ?_⟩
  · rw [h'.names, h.names, h.name, List.map_append, List.append_assoc]
  · rw [hes', hes, List.append_assoc]
  · -- what earlier choices have left under the steps of the path is overwritten
    refine ((List.forall₂_and_left chs' es').mpr ⟨hchs, hall'⟩).imp ?_
    rintro ch e ⟨hch, he⟩ u
    rw [he u]
    by_cases hu : u ∈ p
    · obtain ⟨l, hl⟩ := isSome_lastUse hp hch hu
      rw [hl]
      rfl
    · rw [h.frame u hu]

/-- Nothing is added for no choice. -/
theorem addsNone {p : List ℤ} {m : MGenReplacedStep} (h : Loaded combXml mbtXml m) :
    Adds o replaceAll combXml mbtXml p [] m m :=
  ⟨h, fun _ hu => hu, rfl, fun _ _ => rfl, (List.append_nil _).symm, [],
    (List.append_nil _).symm, .nil⟩

/-- A turn of the loop: the combination at the first position, with all choices for the others. -/
theorem run_replaceOne {t : ℤ} {p : List ℤ} (ht : Known combXml mbtXml t)
    {m : MGenReplacedStep} (h : Loaded combXml mbtXml m) (hfull : Full combXml m t) {i : ℕ}
    {c : Vars} (hc : (combsOf combXml t)[i]? = some c) {l : List String}
    (hl : replaced o replaceAll mbtXml t c = .ok l) {next : Prog MGenReplacedStep Unit}
    (hnext : ∀ m, Loaded combXml mbtXml m → ∃ m', next.run m = .ok ⟨⟩ m' ∧
      Adds o replaceAll combXml mbtXml p (choicesOf combXml p) m m') :
    ∃ m', (replaceOne o replaceAll next t i).run m = .ok ⟨⟩ m' ∧
      Adds o replaceAll combXml mbtXml (t :: p) ((choicesOf combXml p).map (c :: ·)) m m' := by
  obtain ⟨e, he⟩ := ht.2
  have hacts : m.stepActionMap.lookup t = some (actionsOf mbtXml t) := by
    rw [h.actions, actionsOf, he]
    rfl
  have hget : ArrayList.get ((combsOf combXml t).map varMap) i = .ok (varMap c) :=
    ArrayList.get_ok (by rw [List.getElem?_map, hc]; rfl)
  have hgetName : ArrayList.get ((combsOf combXml t).map varCombsName) i = .ok (varCombsName c) :=
    ArrayList.get_ok (by rw [List.getElem?_map, hc]; rfl)
  have hl' : replaceVar o replaceAll (varMap c) (actionsOf mbtXml t) = .ok l := hl
  -- the object in which the recursive call begins
  let m₁ : MGenReplacedStep := { m with
    replacedStepMap := m.replacedStepMap.insert t l
    curReplacedName := m.curReplacedName ++ namePart (stepNameOf combXml t) (varCombsName c) }
  obtain ⟨m₂, hrun, hadds⟩ := hnext m₁ (h.congr rfl rfl rfl rfl)
  have hput : ∀ u, m₁.replacedStepMap.lookup u =
      (if u = t then (replaced o replaceAll mbtXml t c).toOption else none).or
        (m.replacedStepMap.lookup u) := fun u => by
    by_cases hu : u = t
    · subst hu
      rw [if_pos rfl, hl]
      exact AList.lookup_insert _
    · rw [if_neg hu]
      exact AList.lookup_insert_ne hu
  refine ⟨{ m₂ with curReplacedName := m.curReplacedName }, ?_,
    hadds.loaded.congr rfl rfl rfl rfl, hadds.keeps, rfl, fun u hu => ?_, ?_, ?_⟩
  · simp only [replaceOne, EStateM.run_bind, EStateM.run_get, EStateM.run_pure, EStateM.run_modify,
      hfull.1, hfull.2, hacts, hget, hgetName, hl', Prog.nonNull, Prog.lift_ok, h.names]
    rw [show next.run _ = .ok ⟨⟩ m₂ from hrun]
  · rw [List.mem_cons, not_or] at hu
    have hframe := hadds.frame u hu.2
    rw [hput u, if_neg hu.1] at hframe
    exact hframe
  · rw [List.map_map]
    refine hadds.names.trans (congrArg (m.replacedNameList ++ ·) (List.map_congr_left fun ch _ => ?_))
    exact String.append_assoc ..
  · obtain ⟨es, hes, hall⟩ := hadds.entries
    refine ⟨es, hes, List.forall₂_map_left_iff.mpr (hall.imp fun ch e he u => ?_)⟩
    rw [he u, hput u, lastUse, Option.or_assoc]

/-- What a search from a position on adds: an entry for each choice, in order. -/
theorem run_dfs {p : List ℤ} (hknown : ∀ t ∈ p, Known combXml mbtXml t)
    (hp : Substitutes o replaceAll combXml mbtXml p) {m : MGenReplacedStep}
    (h : Loaded combXml mbtXml m) : ∃ m', (dfs o replaceAll p).run m = .ok ⟨⟩ m' ∧
      Adds o replaceAll combXml mbtXml p (choicesOf combXml p) m m' := by
  induction p generalizing m with
  | nil =>
    refine ⟨_, rfl, h.congr rfl rfl rfl rfl, fun _ hu => hu, rfl, fun _ _ => rfl, ?_,
      [m.replacedStepMap], rfl, ?_⟩
    · exact congrArg (fun s => m.replacedNameList ++ [s]) (String.append_empty ..).symm
    · exact .cons (fun u => rfl) .nil
  | cons t p ih =>
    have hp' : Substitutes o replaceAll combXml mbtXml p :=
      fun t ht => hp t (List.mem_cons_of_mem _ ht)
    have hnext := fun m hm => ih (fun t ht => hknown t (List.mem_cons_of_mem _ ht)) hp' (m := m) hm
    obtain ⟨e, he⟩ := (hknown t List.mem_cons_self).1
    obtain ⟨m₀, hfill, hm₀⟩ := run_addEmptyComb h he
    -- after some turns: the choices that begin with one of the combinations done
    obtain ⟨m', hloop, hadds⟩ := Prog.run_forM_inv
      (l := List.range ((combsOf combXml t).map varMap).length)
      (f := replaceOne o replaceAll (dfs o replaceAll p) t)
      (fun is m' => Adds o replaceAll combXml mbtXml (t :: p)
        (((combsOf combXml t).take is.length).flatMap fun c => (choicesOf combXml p).map (c :: ·))
          m₀ m')
      (fun is i js m₁ hsplit hI => by
        obtain ⟨rfl, hi⟩ := Prog.range_split hsplit
        rw [List.length_map] at hi
        have hc := List.getElem?_eq_getElem hi
        obtain ⟨l, hl⟩ := hp t List.mem_cons_self _ (List.mem_of_getElem? hc)
        obtain ⟨m₂, hrun, hadds⟩ := run_replaceOne (hknown t List.mem_cons_self) hI.loaded
          (hI.keeps t hm₀.full) hc hl hnext
        refine ⟨m₂, hrun, ?_⟩
        rw [List.length_append, List.length_singleton, ← List.take_append_getElem hi,
          List.flatMap_append, List.flatMap_singleton]
        refine hI.trans hp hadds fun ch hch => ?_
        obtain ⟨ch, hch', rfl⟩ := List.mem_map.mp hch
        exact mem_choices_cons.mpr ⟨_, List.getElem_mem hi, ch, hch', rfl⟩)
      (addsNone hm₀.loaded)
    rw [List.length_range, List.length_map, List.take_length] at hadds
    refine ⟨m', ?_, hadds.loaded, fun u hu => hadds.keeps u (hm₀.keeps u hu),
      hadds.name.trans hm₀.name, ?_, ?_, ?_⟩
    · rw [dfs, Prog.run_bind_ok hfill, Prog.run_bind_get, hm₀.full.1]
      exact hloop
    · exact fun u hu => (hadds.frame u hu).trans (congrArg _ hm₀.stepMap)
    · rw [hadds.names, hm₀.nameList, hm₀.name]
      rfl
    · have hentries := hadds.entries
      rw [hm₀.stepList, hm₀.stepMap] at hentries
      exact hentries

/-! ### Searches that throw -/

/-- The object holds what the XML files say, and the lists of the steps `us` are full. -/
def Ready (combXml : List StepCombs) (mbtXml : List StepActions) (us : List ℤ)
    (m : MGenReplacedStep) : Prop :=
  Loaded combXml mbtXml m ∧ ∀ u ∈ us, Full combXml m u

/-- Whether the object is ready depends on its maps. -/
theorem Ready.congr {us : List ℤ} {m m' : MGenReplacedStep} (h : Ready combXml mbtXml us m)
    (h₁ : m'.varCombsMap = m.varCombsMap) (h₂ : m'.varCombsNameMap = m.varCombsNameMap)
    (h₃ : m'.stepNameMap = m.stepNameMap) (h₄ : m'.stepActionMap = m.stepActionMap) :
    Ready combXml mbtXml us m' :=
  ⟨h.1.congr h₁ h₂ h₃ h₄, fun u hu => ⟨h₁ ▸ (h.2 u hu).1, h₂ ▸ (h.2 u hu).2⟩⟩

/-- An empty combination leaves the object ready. -/
theorem keeps_addEmptyComb {t : ℤ} (ht : Known combXml mbtXml t) (us : List ℤ) :
    Prog.Keeps (Ready combXml mbtXml us) (addEmptyComb t) := by
  intro m hm
  obtain ⟨e, he⟩ := ht.1
  obtain ⟨m', hrun, hm'⟩ := run_addEmptyComb hm.1 he
  rw [Prog.exec_ok hrun]
  exact ⟨hm'.loaded, fun u hu => hm'.keeps u (hm.2 u hu)⟩

/-- A turn leaves the object ready. -/
theorem keeps_replaceOne {us : List ℤ} {next : Prog MGenReplacedStep Unit}
    (hnext : Prog.Keeps (Ready combXml mbtXml us) next) (t : ℤ) (i : ℕ) :
    Prog.Keeps (Ready combXml mbtXml us) (replaceOne o replaceAll next t i) := by
  refine .get_bind fun m hm => ?_
  refine Prog.Keeps.bind (.lift _) (fun varCombsList => ?_) m hm
  refine .bind (.lift _) fun varCombs => .bind (.lift _) fun actions => .bind (.lift _) fun l => ?_
  refine .bind (.modify fun m hm => hm.congr rfl rfl rfl rfl) fun _ => ?_
  refine .bind (.lift _) fun names => .bind (.lift _) fun name => ?_
  refine .bind (.modify fun m hm => hm.congr rfl rfl rfl rfl) fun _ => ?_
  exact .bind hnext fun _ => .modify fun m hm => hm.congr rfl rfl rfl rfl

/-- The search leaves the object ready. -/
theorem keeps_dfs {p : List ℤ} (hknown : ∀ t ∈ p, Known combXml mbtXml t) (us : List ℤ) :
    Prog.Keeps (Ready combXml mbtXml us) (dfs o replaceAll p) := by
  induction p with
  | nil => exact .modify fun m hm => hm.congr rfl rfl rfl rfl
  | cons t p ih =>
    have hnext := ih fun t ht => hknown t (List.mem_cons_of_mem _ ht)
    refine .bind (keeps_addEmptyComb (hknown t List.mem_cons_self) us) fun _ => .get_bind fun m hm => ?_
    exact Prog.Keeps.bind (.lift _) (fun l => .forM fun i _ => keeps_replaceOne hnext t i) m hm

/-- A call leaves the object ready. -/
theorem keeps_genReplacedStep {p : List ℤ} (hknown : ∀ t ∈ p, Known combXml mbtXml t) (us : List ℤ) :
    Prog.Keeps (Ready combXml mbtXml us) (genReplacedStep o replaceAll p) :=
  .bind (.modify fun _ hm => hm.congr rfl rfl rfl rfl) fun _ => keeps_dfs hknown us

/-- Where a turn returns, its substitutions and the recursive call have returned. -/
theorem of_run_replaceOne_ok {t : ℤ} (ht : Known combXml mbtXml t) {m m' : MGenReplacedStep}
    (h : Ready combXml mbtXml [t] m) {i : ℕ} {c : Vars} (hc : (combsOf combXml t)[i]? = some c)
    {next : Prog MGenReplacedStep Unit} (hrun : (replaceOne o replaceAll next t i).run m = .ok ⟨⟩ m') :
    (∃ l, replaced o replaceAll mbtXml t c = .ok l) ∧
      ∃ m₁ m₂, Loaded combXml mbtXml m₁ ∧ next.run m₁ = .ok ⟨⟩ m₂ := by
  obtain ⟨e, he⟩ := ht.2
  obtain ⟨hmap, hname⟩ := h.2 t (List.mem_singleton_self t)
  have hacts : m.stepActionMap.lookup t = some (actionsOf mbtXml t) := by
    rw [h.1.actions, actionsOf, he]
    rfl
  have hget : ArrayList.get ((combsOf combXml t).map varMap) i = .ok (varMap c) :=
    ArrayList.get_ok (by rw [List.getElem?_map, hc]; rfl)
  have hgetName : ArrayList.get ((combsOf combXml t).map varCombsName) i = .ok (varCombsName c) :=
    ArrayList.get_ok (by rw [List.getElem?_map, hc]; rfl)
  rw [replaceOne, Prog.run_bind_get, hmap, hacts, hname] at hrun
  simp only [Prog.nonNull, Prog.lift_ok, pure_bind, hget, hgetName] at hrun
  obtain ⟨l, m₁, hl, hrun⟩ := Prog.of_run_bind_ok hrun
  obtain ⟨⟨⟩, m₂, h₂, hrun⟩ := Prog.of_run_bind_ok hrun
  obtain ⟨⟨⟩, m₃, h₃, hrun⟩ := Prog.of_run_bind_ok hrun
  obtain ⟨⟨⟩, m₄, h₄, -⟩ := Prog.of_run_bind_ok hrun
  cases hr : replaced o replaceAll mbtXml t c with
  | error e =>
    rw [show replaceVar o replaceAll (varMap c) (actionsOf mbtXml t) = .error e from hr] at hl
    cases hl
  | ok l' =>
    rw [show replaceVar o replaceAll (varMap c) (actionsOf mbtXml t) = .ok l' from hr] at hl
    cases hl
    cases h₂
    cases h₃
    refine ⟨⟨l, rfl⟩, _, m₄, ?_, h₄⟩
    exact h.1.congr rfl rfl rfl rfl

/-- Where a search returns, no substitution has thrown. -/
theorem substitutes_of_run_ok {p : List ℤ} (hknown : ∀ t ∈ p, Known combXml mbtXml t)
    {m m' : MGenReplacedStep} (h : Loaded combXml mbtXml m)
    (hrun : (dfs o replaceAll p).run m = .ok ⟨⟩ m') : Substitutes o replaceAll combXml mbtXml p := by
  induction p generalizing m m' with
  | nil => intro t ht; cases ht
  | cons t p ih =>
    have ht := hknown t List.mem_cons_self
    have hknown' : ∀ t ∈ p, Known combXml mbtXml t := fun t ht => hknown t (List.mem_cons_of_mem _ ht)
    obtain ⟨e, he⟩ := ht.1
    obtain ⟨m₀, hfill, hm₀⟩ := run_addEmptyComb h he
    rw [dfs, Prog.run_bind_ok hfill, Prog.run_bind_get, hm₀.full.1, Prog.nonNull, Prog.lift_ok,
      pure_bind, List.length_map] at hrun
    have hready : Ready combXml mbtXml [t] m₀ :=
      ⟨hm₀.loaded, fun u hu => List.mem_singleton.mp hu ▸ hm₀.full⟩
    have hturn := Prog.of_run_forM_ok
      (fun i _ => keeps_replaceOne (keeps_dfs hknown' [t]) t i) hready hrun
    have hat : ∀ c ∈ combsOf combXml t, (∃ l, replaced o replaceAll mbtXml t c = .ok l) ∧
        ∃ m₁ m₂, Loaded combXml mbtXml m₁ ∧ (dfs o replaceAll p).run m₁ = .ok ⟨⟩ m₂ := fun c hc => by
      obtain ⟨i, hi, hget⟩ := List.mem_iff_getElem.mp hc
      obtain ⟨m₁, m₂, hm₁, hrun⟩ := hturn i (List.mem_range.mpr hi)
      exact of_run_replaceOne_ok ht hm₁ (hget ▸ List.getElem?_eq_getElem hi) hrun
    intro u hu
    rcases List.mem_cons.mp hu with rfl | hu
    · exact fun c hc => (hat c hc).1
    · obtain ⟨c, hc⟩ := List.exists_mem_of_ne_nil _ (combsOf_ne_nil he)
      obtain ⟨m₁, m₂, hm₁, hrun⟩ := (hat c hc).2
      exact ih hknown' hm₁ hrun u hu

/-- Where a search returns, both XML files know the steps. -/
theorem known_of_run_ok {p : List ℤ} {m m' : MGenReplacedStep} (h : Loaded combXml mbtXml m)
    (hrun : (dfs o replaceAll p).run m = .ok ⟨⟩ m') : ∀ t ∈ p, Known combXml mbtXml t := by
  induction p generalizing m m' with
  | nil => exact List.forall_mem_nil _
  | cons t p ih =>
    cases he : stepCombs combXml t with
    | none =>
      -- the list of the step is `null`
      rw [dfs, addEmptyComb, bind_assoc, Prog.run_bind_get, h.absent t he] at hrun
      cases hrun
    | some e =>
      obtain ⟨m₀, hfill, hm₀⟩ := run_addEmptyComb h he
      rw [dfs, Prog.run_bind_ok hfill, Prog.run_bind_get, hm₀.full.1, Prog.nonNull, Prog.lift_ok,
        pure_bind, List.length_map] at hrun
      obtain ⟨c, cs, hcombs⟩ := List.exists_cons_of_ne_nil (combsOf_ne_nil he)
      have hget : (combsOf combXml t)[0]? = some c := by rw [hcombs]; rfl
      have hrange : List.range (combsOf combXml t).length = 0 :: (List.range cs.length).map Nat.succ := by
        rw [hcombs, List.length_cons, List.range_succ_eq_map]
      rw [hrange, List.forM_cons] at hrun
      obtain ⟨⟨⟩, m₁, hturn, -⟩ := Prog.of_run_bind_ok hrun
      -- the first turn looks up the actions, and goes on to the rest of the path
      have ht : Known combXml mbtXml t := by
        refine ⟨⟨e, he⟩, Option.ne_none_iff_exists'.mp fun hnone => ?_⟩
        have hacts : m₀.stepActionMap.lookup t = none := by rw [hm₀.loaded.actions, hnone]; rfl
        have hcomb : ArrayList.get ((combsOf combXml t).map varMap) (0 : ℕ) = .ok (varMap c) :=
          ArrayList.get_ok (by rw [List.getElem?_map, hget]; rfl)
        rw [replaceOne, Prog.run_bind_get, hm₀.full.1, hacts] at hturn
        simp only [Prog.nonNull, Prog.lift_ok, pure_bind, hcomb] at hturn
        cases hturn
      have hready : Ready combXml mbtXml [t] m₀ :=
        ⟨hm₀.loaded, fun u hu => List.mem_singleton.mp hu ▸ hm₀.full⟩
      obtain ⟨-, m₂, m₃, hm₂, hrest⟩ := of_run_replaceOne_ok ht hready hget hturn
      exact List.forall_mem_cons.mpr ⟨ht, ih hm₂ hrest⟩

/-! ### What `genReplacedStep` gives for a path -/

/-- The object after calls for the paths `before`. -/
def used (o : VisitOrder String) (replaceAll : ReplaceAll) (combXml : List StepCombs)
    (mbtXml : List StepActions) (before : List (List ℤ)) : MGenReplacedStep :=
  before.foldl (fun m p => (genReplacedStep o replaceAll p).exec m) (new combXml mbtXml)

/-- After any calls on known steps the object is loaded. -/
theorem loaded_used {before : List (List ℤ)}
    (h : ∀ p ∈ before, ∀ t ∈ p, Known combXml mbtXml t) :
    Loaded combXml mbtXml (used o replaceAll combXml mbtXml before) := by
  suffices H : ∀ m, Loaded combXml mbtXml m → Loaded combXml mbtXml
      (before.foldl (fun m p => (genReplacedStep o replaceAll p).exec m) m) from
    H _ (loaded_new combXml mbtXml)
  induction before with
  | nil => exact fun m hm => hm
  | cons p before ih =>
    intro m hm
    have hready : Ready combXml mbtXml [] ((genReplacedStep o replaceAll p).exec m) :=
      keeps_genReplacedStep (h p List.mem_cons_self) [] m ⟨hm, fun u hu => nomatch hu⟩
    exact ih (fun q hq => h q (List.mem_cons_of_mem _ hq)) _ hready.1

/-- The entry holds, for each position of the path, the actions of its step with the combination
chosen there. -/
def Uses (o : VisitOrder String) (replaceAll : ReplaceAll) (mbtXml : List StepActions) (p : List ℤ)
    (ch : List Vars) (e : HashMap ℤ (List String)) : Prop :=
  ∀ (k : ℕ) t c, p[k]? = some t → ch[k]? = some c →
    ∃ l, replaced o replaceAll mbtXml t c = .ok l ∧ e.lookup t = some l

/-- The result lists have an entry and a name for each choice, in order. -/
def Enumerates (o : VisitOrder String) (replaceAll : ReplaceAll) (combXml : List StepCombs)
    (mbtXml : List StepActions) (p : List ℤ) (m : MGenReplacedStep) : Prop :=
  List.Forall₂ (Uses o replaceAll mbtXml p) (choicesOf combXml p) m.replacedStepList ∧
    m.replacedNameList = (choicesOf combXml p).map (choiceName combXml p)

/-- The combinations of the steps that occur again make no difference to their actions. -/
def RepeatsAlike (o : VisitOrder String) (replaceAll : ReplaceAll) (combXml : List StepCombs)
    (mbtXml : List StepActions) (p : List ℤ) : Prop :=
  ∀ t, 2 ≤ p.count t → ∀ c ∈ combsOf combXml t, ∀ c' ∈ combsOf combXml t,
    replaced o replaceAll mbtXml t c = replaced o replaceAll mbtXml t c'

/-- **What a call gives**: one entry for each choice, with the actions of the last use of each step.
-/
theorem run_genReplacedStep {p : List ℤ} (hknown : ∀ t ∈ p, Known combXml mbtXml t)
    (hp : Substitutes o replaceAll combXml mbtXml p) {m : MGenReplacedStep}
    (h : Loaded combXml mbtXml m) : ∃ m', (genReplacedStep o replaceAll p).run m = .ok ⟨⟩ m' ∧
      Loaded combXml mbtXml m' ∧
      m'.replacedNameList = (choicesOf combXml p).map (choiceName combXml p) ∧
      List.Forall₂ (fun ch e => ∀ u, e.lookup u = lastUse o replaceAll mbtXml p ch u)
        (choicesOf combXml p) m'.replacedStepList := by
  let m₀ : MGenReplacedStep := { m with
    replacedStepList := [], replacedNameList := [], replacedStepMap := ∅, curReplacedName := "" }
  obtain ⟨m', hrun, hadds⟩ := run_dfs hknown hp (m := m₀) (h.congr rfl rfl rfl rfl)
  refine ⟨m', hrun, hadds.loaded, ?_, ?_⟩
  · rw [hadds.names]
    refine (List.nil_append _).trans (List.map_congr_left fun ch _ => ?_)
    exact String.empty_append ..
  · obtain ⟨es, hes, hall⟩ := hadds.entries
    rw [hes]
    refine hall.imp fun ch e he u => (he u).trans ?_
    exact Option.or_none

/-- What a path uses a step with last is what it has chosen at one of the positions. -/
theorem exists_of_lastUse {p : List ℤ} {ch : List Vars} {u : ℤ} {l : List String}
    (h : lastUse o replaceAll mbtXml p ch u = some l) :
    ∃ (k : ℕ) (c : Vars), p[k]? = some u ∧ ch[k]? = some c ∧ replaced o replaceAll mbtXml u c = .ok l := by
  induction p generalizing ch with
  | nil => cases h
  | cons t p ih =>
    cases ch with
    | nil => cases h
    | cons c ch =>
      rw [lastUse, Option.or_eq_some_iff] at h
      rcases h with h | ⟨-, h⟩
      · obtain ⟨k, c, hk, hc, hl⟩ := ih h
        exact ⟨k + 1, c, hk, hc, hl⟩
      · split at h
        · rename_i hu
          subst hu
          refine ⟨0, c, rfl, rfl, ?_⟩
          cases hr : replaced o replaceAll mbtXml u c with
          | error e => rw [hr] at h; cases h
          | ok l' => rw [hr] at h; cases h; rfl
        · cases h

/-- Two positions of a step count it twice. -/
theorem two_le_count {p : List ℤ} {i j : ℕ} (hij : i < j) {t : ℤ} (hi : p[i]? = some t)
    (hj : p[j]? = some t) : 2 ≤ p.count t := by
  induction p generalizing i j with
  | nil => cases hi
  | cons u p ih =>
    obtain ⟨j, rfl⟩ := Nat.exists_eq_succ_of_ne_zero (Nat.ne_of_gt (Nat.zero_lt_of_lt hij))
    cases i with
    | zero =>
      cases hi
      rw [List.count_cons_self]
      exact Nat.succ_le_succ (List.count_pos_iff.mpr (List.mem_of_getElem? hj))
    | succ i => exact (ih (Nat.lt_of_succ_lt_succ hij) hi hj).trans List.count_le_count_cons

/-- What is counted twice is at two positions. -/
theorem exists_positions {p : List ℤ} {t : ℤ} (h : 2 ≤ p.count t) :
    ∃ i j : ℕ, i < j ∧ p[i]? = some t ∧ p[j]? = some t := by
  induction p with
  | nil => rw [List.count_nil] at h; omega
  | cons u p ih =>
    by_cases hu : u = t
    · subst hu
      rw [List.count_cons_self] at h
      obtain ⟨j, hj⟩ := List.mem_iff_getElem?.mp (List.count_pos_iff.mp (Nat.le_of_succ_le_succ h))
      exact ⟨0, j + 1, Nat.succ_pos j, rfl, hj⟩
    · rw [List.count_cons_of_ne hu] at h
      obtain ⟨i, j, hij, hi, hj⟩ := ih h
      exact ⟨i + 1, j + 1, Nat.succ_lt_succ hij, hi, hj⟩

/-- **When each position has what it has chosen.**  A call gives an entry and a name for each
choice of combinations, with the chosen ones substituted at each position, exactly when no
substitution throws and the combinations of the steps that occur again make no difference to their
actions. -/
theorem genReplacedStep_iff (o : VisitOrder String) (replaceAll : ReplaceAll)
    (combXml : List StepCombs) (mbtXml : List StepActions) (before : List (List ℤ)) (p : List ℤ)
    (hbefore : ∀ q ∈ before, ∀ t ∈ q, Known combXml mbtXml t)
    (hp : ∀ t ∈ p, Known combXml mbtXml t) :
    (∃ m, (genReplacedStep o replaceAll p).run (used o replaceAll combXml mbtXml before) =
        .ok ⟨⟩ m ∧ Enumerates o replaceAll combXml mbtXml p m) ↔
      Substitutes o replaceAll combXml mbtXml p ∧ RepeatsAlike o replaceAll combXml mbtXml p := by
  have hloaded : Loaded combXml mbtXml (used o replaceAll combXml mbtXml before) :=
    loaded_used hbefore
  constructor
  · rintro ⟨m, hrun, henum, -⟩
    obtain ⟨⟨⟩, m₀, h₀, hrun⟩ := Prog.of_run_bind_ok hrun
    have hm₀ : Loaded combXml mbtXml m₀ := by
      cases h₀
      exact hloaded.congr rfl rfl rfl rfl
    refine ⟨substitutes_of_run_ok hp hm₀ hrun, fun t ht c hc c' hc' => ?_⟩
    -- a choice with `c` at one position of the step and `c'` at another
    obtain ⟨i, j, hij, hi, hj⟩ := exists_positions ht
    have hne : ∀ l ∈ p.map (combsOf combXml), l ≠ [] := by
      intro l hl
      obtain ⟨u, hu, rfl⟩ := List.mem_map.mp hl
      exact (hp u hu).1.elim fun e he => combsOf_ne_nil he
    obtain ⟨ch, hch, hci, hcj⟩ := exists_choice hne hij
      (by rw [List.getElem?_map, hi]; rfl) (by rw [List.getElem?_map, hj]; rfl) hc hc'
    obtain ⟨n, hn, rfl⟩ := List.mem_iff_getElem.mp hch
    have he := henum.get hn (henum.length_eq ▸ hn)
    obtain ⟨l, hl, hlook⟩ := he i t c hi hci
    obtain ⟨l', hl', hlook'⟩ := he j t c' hj hcj
    rw [hl, hl', Option.some.inj (hlook.symm.trans hlook')]
  · rintro ⟨hsub, halike⟩
    obtain ⟨m, hrun, -, hnames, hall⟩ := run_genReplacedStep hp hsub hloaded
    refine ⟨m, hrun, ?_, hnames⟩
    refine ((List.forall₂_and_left _ _).mpr ⟨fun ch hch => hch, hall⟩).imp ?_
    rintro ch e ⟨hch, he⟩ k t c hk hc
    have ht := List.mem_of_getElem? hk
    obtain ⟨l, hl⟩ := isSome_lastUse hsub hch ht
    obtain ⟨k', c', hk', hc', hr⟩ := exists_of_lastUse hl
    refine ⟨l, ?_, (he t).trans hl⟩
    have hcomb : ∀ {k : ℕ} {c : Vars}, p[k]? = some t → ch[k]? = some c → c ∈ combsOf combXml t := by
      intro k c hk hc
      obtain ⟨l, hl, hcl⟩ := mem_of_mem_choices hch hc
      rw [List.getElem?_map, hk] at hl
      cases hl
      exact hcl
    rcases Nat.lt_trichotomy k k' with hlt | rfl | hlt
    · rw [halike t (two_le_count hlt hk hk') c (hcomb hk hc) c' (hcomb hk' hc'), hr]
    · rw [Option.some.inj (hc.symm.trans hc'), hr]
    · rw [halike t (two_le_count hlt hk' hk) c (hcomb hk hc) c' (hcomb hk' hc'), hr]

/-- `replaceAll` of a regex that quotes its special characters, with a plain goal. -/
def replaceAllQuoted : ReplaceAll := fun s regex goal =>
  .ok (Text.replace s (String.ofList (regex.toList.filter (· ≠ '\\'))) goal)

/-- A step `pay` with two combinations of its variable `sum`. -/
def payCombs : List StepCombs := [⟨1, "pay", [[("sum", "10")], [("sum", "20")]]⟩]

/-- One step, whose action uses a parameter. -/
def payActions : List StepActions := [⟨1, ["click(\x7bMBT_STEP_PARAM(sum)\x7d);"]⟩]

/-- That step is known. -/
theorem known_pay : ∀ t ∈ [1], Known payCombs payActions t := by
  intro t ht
  rw [List.mem_singleton.mp ht]
  exact ⟨⟨_, rfl⟩, ⟨_, rfl⟩⟩

theorem genReplacedStep_iff_pay :
    (∃ m, (genReplacedStep .insertion replaceAllQuoted [1]).run
        (used .insertion replaceAllQuoted payCombs payActions [[1]]) = .ok ⟨⟩ m ∧
          Enumerates .insertion replaceAllQuoted payCombs payActions [1] m) ↔
      Substitutes .insertion replaceAllQuoted payCombs payActions [1] ∧
        RepeatsAlike .insertion replaceAllQuoted payCombs payActions [1] :=
  genReplacedStep_iff _ _ _ _ _ _ (fun _ hq => List.mem_singleton.mp hq ▸ known_pay) known_pay

/-- Its action with a value. -/
theorem replaced_pay (n : String) (hn : n ∈ ["10", "20"]) :
    replaced .insertion replaceAllQuoted payActions 1 [("sum", n)] = .ok ["click(" ++ n ++ ");"] := by
  revert n
  decide +kernel

/-- With the step twice on the path, the entry for `10` and then `20` holds `20` for both. -/
theorem genReplacedStep_overwrites :
    ¬ ∃ m, (genReplacedStep .insertion replaceAllQuoted [1, 1]).run
        (new payCombs payActions) = .ok ⟨⟩ m ∧
          Enumerates .insertion replaceAllQuoted payCombs payActions [1, 1] m := by
  rintro ⟨m, -, hall, -⟩
  have hlen : (choicesOf payCombs [1, 1]).length = 4 := rfl
  have he := hall.get (i := 1) (hlen ▸ (by decide)) (hall.length_eq ▸ hlen ▸ (by decide))
  obtain ⟨l, hl, hlook⟩ := he 0 1 [("sum", "10")] rfl rfl
  obtain ⟨l', hl', hlook'⟩ := he 1 1 [("sum", "20")] rfl rfl
  rw [replaced_pay _ (by decide)] at hl hl'
  cases hl
  cases hl'
  exact absurd (hlook.symm.trans hlook') (by decide)

end MGenReplacedStep

end MBT
