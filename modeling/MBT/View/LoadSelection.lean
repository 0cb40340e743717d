import MBT.View.LoadNonMsg

/-!
# View — LoadSelection

The elements of a data file that `loadVar`, `loadScript` and `loadDbVerify` take, by their positions:
those with a tag, those with an id, or all.

* `handleAction_load`: each of the three actions translates the elements that its loader chooses.
* `idList_eq`: the ids of a filter are those that it asks for, unless it is a range up to the largest
  `int`.
* `chosen_eq_iff`: without `once`, the elements at the positions of the selection are chosen, exactly
  when there is no such range.
* `sameSelection_iff`: the three choose the same positions exactly when there is no such range, and no
  id that is asked for is that of two elements.
-/

namespace MBT
open Exec Text MXmlParse

namespace MQTestActionHandler

/-! ### Selections -/

/-- What selects elements in a call: a type and a filter, or nothing. -/
structure Selection where
  type : String
  filter : String
  deriving DecidableEq

/-- The arguments of a call behind the path. -/
def Selection.params : Option Selection → List String
  | none => []
  | some s => [s.type, s.filter]

/-- The type of a selection, as the handler compares it. -/
def Selection.code : Option Selection → String
  | none => ""
  | some s => trim s.type

/-- The filter of a selection. -/
def Selection.text : Option Selection → String
  | none => ""
  | some s => s.filter

/-- The numbers from one to another. -/
def numbers (begPos endPos : ℤ) : List String :=
  (List.range (endPos + 1 - begPos).toNat).map fun k : ℕ => (begPos + k).repr

/-- The ids that a filter asks for. -/
def requested (filter : String) : Except Exn (List String) :=
  if indexOf filter "-" 0 = -1 then .ok (split filter ",")
  else (idRange filter (indexOf filter "-" 0)).map fun range => numbers range.1 range.2

/-- The filter is a range up to the largest `int`. -/
def Endless (filter : String) : Prop :=
  indexOf filter "-" 0 ≠ -1 ∧ ∃ begPos, idRange filter (indexOf filter "-" 0) = .ok (begPos, 2147483647)

/-- The elements with an id. -/
def hasId (id : String) (e : Element) : Bool := trim id = trim (e.getAttrValue "id")

/-- The positions that a selection means: those of each id in the order of the ids, those of the
tags, or all. -/
def selected (elems : List Element) (type filter : String) : Except Exn (List ℕ) :=
  if type = "0" then
    .ok (elems.findIdxs fun e => e.getAttrValue "tag" ∈ (split (trim filter) ",").map trim)
  else if type = "1" then
    (requested (trim filter)).map fun ids => ids.flatMap fun id => elems.findIdxs (hasId id)
  else .ok (List.range elems.length)

/-- The elements at some positions. -/
def elementsAt (elems : List Element) (is : List ℕ) : List Element := is.filterMap (elems[·]?)

/-- What `loadVar` reads. -/
def varLoader (env : Environment) : Loader := ⟨getSetVarAction, handleSetVar env, false, ""⟩

/-- What `loadScript` reads. -/
def scriptLoader : Loader := ⟨getScriptAction, handleScript, true, "\n"⟩

/-- What `loadDbVerify` reads. -/
def dbVerifyLoader : Loader := ⟨getDbVerifyAction, handleDbVerify, false, "\n"⟩

/-- The loaders of the three actions, by their names. -/
def loaders (env : Environment) : List (String × Loader) :=
  [("loadVar", varLoader env), ("loadScript", scriptLoader), ("loadDbVerify", dbVerifyLoader)]

/-- What holds of each loader. -/
theorem forall_loaders {env : Environment} {P : String × Loader → Prop} :
    (∀ nl ∈ loaders env, P nl) ↔
      P ("loadVar", varLoader env) ∧ P ("loadScript", scriptLoader) ∧
        P ("loadDbVerify", dbVerifyLoader) := by
  simp [loaders]

/-- The action translates the elements that its loader chooses. -/
def Translates (env : Environment) (path : String) (elems : List Element) (sel : Option Selection)
    (name : String) (l : Loader) : Prop :=
  handleAction env (Action.line ⟨name, path :: Selection.params sel⟩) =
    liftExn (chosen l.once elems (Selection.code sel) (.ok (Selection.text sel))) >>= fun elems =>
      (fun scripts => some (trim scripts ++ l.ending)) <$> l.scripts elems

/-- The loader chooses the elements at the positions of the selection. -/
def Selects (elems : List Element) (sel : Option Selection) (l : Loader) : Prop :=
  chosen l.once elems (Selection.code sel) (.ok (Selection.text sel)) =
    (selected elems (Selection.code sel) (Selection.text sel)).map (elementsAt elems)

/-! ### Elements by position -/

theorem elementsAt_succ (e : Element) (elems : List Element) (is : List ℕ) :
    elementsAt (e :: elems) (is.map (· + 1)) = elementsAt elems is := List.filterMap_map

/-- The elements at the positions that are found. -/
theorem elementsAt_findIdxs (elems : List Element) (p : Element → Bool) :
    elementsAt elems (elems.findIdxs p) = elems.filter p := by
  induction elems with
  | nil => rfl
  | cons e elems ih =>
    have htail := (elementsAt_succ e elems (elems.findIdxs p)).trans ih
    rw [List.findIdxs_cons, List.findIdxs_start, List.filter_cons]
    split
    · exact congrArg (e :: ·) htail
    · exact htail

/-- The elements at all positions. -/
theorem elementsAt_range (elems : List Element) :
    elementsAt elems (List.range elems.length) = elems := by
  induction elems with
  | nil => rfl
  | cons e elems ih =>
    rw [List.length_cons, List.range_succ_eq_map]
    exact congrArg (e :: ·) ((elementsAt_succ e elems _).trans ih)

/-- The elements at positions that are found one after the other. -/
theorem elementsAt_flatMap {α : Type} (elems : List Element) (f : α → List ℕ) (ids : List α) :
    elementsAt elems (ids.flatMap f) = ids.flatMap fun id => elementsAt elems (f id) :=
  List.filterMap_flatMap

/-! ### The ids of a filter -/

/-- No number is beyond the end. -/
theorem numbers_of_lt {i endPos : ℤ} (h : endPos < i) : numbers i endPos = [] := by
  rw [numbers, Int.toNat_of_nonpos (by omega)]
  rfl

theorem numbers_cons {i endPos : ℤ} (h : i ≤ endPos) :
    numbers i endPos = i.repr :: numbers (i + 1) endPos := by
  have hlen : (endPos + 1 - i).toNat = (endPos + 1 - (i + 1)).toNat + 1 := by omega
  rw [numbers, hlen, List.range_succ_eq_map, List.map_cons, List.map_map, Nat.cast_zero, add_zero, numbers]
  refine congrArg (i.repr :: ·) (List.map_congr_left fun k _ => ?_)
  rw [Function.comp_apply, Nat.cast_succ, add_assoc, add_comm 1]

/-- Up to a number that is not the largest, the loop adds the numbers of the range. -/
theorem addIds_eq {endPos : ℤ} (hend : endPos < 2147483647) {room : ℕ} {i : ℤ}
    (hroom : endPos + 1 - i ≤ room) : addIds endPos room i = .ok (numbers i endPos) := by
  induction room generalizing i with
  | zero =>
    have hlt : endPos < i := by omega
    rw [addIds, if_neg (not_le.mpr hlt), numbers_of_lt hlt]
  | succ room ih =>
    rw [addIds]
    split
    · rename_i hle
      have hnext : next i = i + 1 := if_neg (by omega)
      rw [hnext, ih (by omega), numbers_cons hle]
      rfl
    · rename_i hlt
      rw [numbers_of_lt (not_le.mp hlt)]

/-- Up to the largest number, the loop fills the list. -/
theorem addIds_max (room : ℕ) {i : ℤ} (hi : i ≤ 2147483647) :
    addIds 2147483647 room i = .error .outOfMemory := by
  induction room generalizing i with
  | zero => rw [addIds, if_pos hi]
  | succ room ih =>
    have hnext : next i ≤ 2147483647 := by
      rw [next]
      split
      · decide
      · omega
    rw [addIds, if_pos hi, ih hnext]
    rfl

/-- What is read as a number is an `int`, and with no sign in front it is not negative. -/
theorem parseInt_bounds {s : String} {n : ℤ} (h : parseInt s = .ok n) :
    n ≤ 2147483647 ∧ ('-' ∉ s.toList → 0 ≤ n) := by
  rw [parseInt] at h
  dsimp only at h
  split at h
  · rename_i ds hs
    split at h
    · rename_i hn
      cases h
      exact ⟨hn.2.2.2, fun hsign => absurd (hs ▸ List.mem_cons_self) hsign⟩
    · cases h
  all_goals
    split at h
    · rename_i hn
      cases h
      exact ⟨hn.2.2.2, fun _ => by omega⟩
    · cases h

/-- The lower bound of a range has no sign in front. -/
theorem idRange_bounds {filter : String} {range : ℤ × ℤ} (hplace : indexOf filter "-" 0 ≠ -1)
    (h : idRange filter (indexOf filter "-" 0) = .ok range) :
    0 ≤ range.1 ∧ range.1 ≤ 2147483647 ∧ range.2 ≤ 2147483647 := by
  have hmem : '-' ∈ filter.toList := by
    by_contra hnot
    exact hplace (indexOf_none (p := []) rfl rfl hnot)
  obtain ⟨q, r, hfilter, hq⟩ := List.eq_append_cons_of_mem hmem
  have hidx : indexOf filter "-" 0 = q.length := indexOf_next (p := []) rfl hfilter hq
  have hbeg : slice filter 0 q.length = some (String.ofList q) := slice_middle (p := []) hfilter
  rw [hidx, idRange, hbeg, inBounds, ok_bind] at h
  obtain ⟨begPos, hb, h⟩ := bind_eq_ok.mp h
  obtain ⟨endPos, he, h⟩ := bind_eq_ok.mp h
  cases h
  obtain ⟨hle, hnonneg⟩ := parseInt_bounds hb
  exact ⟨hnonneg (by rwa [String.toList_ofList]), hle, (parseInt_bounds he).1⟩

/-- **The ids of a filter** are those that it asks for. -/
theorem idList_eq {filter : String} (h : ¬ Endless filter) : idList filter = requested filter := by
  rw [idList, requested]
  by_cases hplace : indexOf filter "-" 0 = -1
  · rw [if_pos hplace, if_pos hplace]
    rfl
  · rw [if_neg hplace, if_neg hplace]
    cases hrange : idRange filter (indexOf filter "-" 0) with
    | error e => rfl
    | ok range =>
      obtain ⟨hnonneg, -, hmax⟩ := idRange_bounds hplace hrange
      have hend : range.2 ≠ 2147483647 := by
        rintro hend
        exact h ⟨hplace, range.1, by rw [hrange, ← hend]⟩
      exact addIds_eq (lt_of_le_of_ne hmax hend) (by omega)

/-- A range without end has no result, though it asks for ids. -/
theorem idList_endless {filter : String} (h : Endless filter) :
    idList filter = .error .outOfMemory ∧ ∃ ids, requested filter = .ok ids := by
  obtain ⟨hplace, begPos, hrange⟩ := h
  constructor
  · rw [idList]
    refine (if_neg hplace).trans ?_
    rw [hrange, ok_bind]
    exact addIds_max _ (idRange_bounds hplace hrange).2.1
  · rw [requested, if_neg hplace, hrange]
    exact ⟨_, rfl⟩

/-! ### What is chosen -/

/-- Without `once`, the elements of the selection are chosen exactly when no range is without end. -/
theorem chosen_eq_iff (elems : List Element) (type filter : String) :
    chosen false elems type (.ok filter) = (selected elems type filter).map (elementsAt elems) ↔
      (type = "1" → ¬ Endless (trim filter)) := by
  unfold chosen selected
  split
  · rename_i htag
    rw [ok_bind]
    refine iff_of_true (congrArg Except.ok (elementsAt_findIdxs elems _).symm) fun hid => ?_
    rw [htag] at hid
    exact absurd hid (by decide)
  · split
    · rename_i hid
      rw [imp_iff_right hid, ok_bind]
      by_cases hend : Endless (trim filter)
      · obtain ⟨hlist, ids, hids⟩ := idList_endless hend
        rw [hlist, hids]
        exact iff_of_false nofun fun h => h hend
      · rw [idList_eq hend]
        refine iff_of_true ?_ hend
        cases requested (trim filter) with
        | error e => rfl
        | ok ids =>
          refine congrArg Except.ok ?_
          rw [elementsAt_flatMap]
          exact List.flatMap_congr fun id _ => (elementsAt_findIdxs elems (hasId id)).symm
    · rename_i hid
      exact iff_of_true (congrArg Except.ok (elementsAt_range elems).symm) fun h => absurd h hid

/-- Taking one of each leaves all exactly where no list has two. -/
theorem flatMap_take_one_iff {α β : Type} {f : α → List β} {l : List α} :
    (l.flatMap fun a => (f a).take 1) = l.flatMap f ↔ ∀ a ∈ l, (f a).length ≤ 1 := by
  constructor
  · intro h
    induction l with
    | nil => exact List.forall_mem_nil _
    | cons a l ih =>
      rw [List.flatMap_cons, List.flatMap_cons] at h
      have hlen := congrArg List.length h
      have hle : (l.flatMap fun a => (f a).take 1).length ≤ (l.flatMap f).length := by
        rw [List.length_flatMap, List.length_flatMap]
        exact List.sum_le_sum fun b _ => (List.take_sublist 1 (f b)).length_le
      rw [List.length_append, List.length_append, List.length_take] at hlen
      have hone : (f a).length ≤ 1 := by omega
      rw [List.take_of_length_le hone] at h
      exact List.forall_mem_cons.mpr ⟨hone, ih (List.append_cancel_left h)⟩
  · intro h
    exact List.flatMap_congr fun a ha => List.take_of_length_le (h a ha)

/-- With `once`, the same elements are chosen exactly when no id of the list is that of two. -/
theorem chosen_once_iff (elems : List Element) (type filter : String) :
    chosen true elems type (.ok filter) = chosen false elems type (.ok filter) ↔
      (type = "1" → ∀ ids, idList (trim filter) = .ok ids →
        ∀ id ∈ ids, (elems.filter (hasId id)).length ≤ 1) := by
  unfold chosen
  split
  · rename_i htag
    refine iff_of_true rfl fun hid => ?_
    rw [htag] at hid
    exact absurd hid (by decide)
  · split
    · rename_i hid
      rw [imp_iff_right hid, ok_bind, ok_bind]
      cases idList (trim filter) with
      | error e =>
        refine iff_of_true rfl fun ids h => ?_
        cases h
      | ok ids =>
        have htake := flatMap_take_one_iff (f := fun id => elems.filter (hasId id)) (l := ids)
        constructor
        · rintro h _ ⟨⟩
          exact htake.mp (Except.ok.inj h)
        · exact fun h => congrArg Except.ok (htake.mpr (h ids rfl))
    · rename_i hid
      exact iff_of_true rfl fun h => absurd h hid

/-! ### The calls -/

/-- With a third argument, this is the filter. -/
theorem handleLoad_three {action : String} {q₀ q₁ q₂ q₃ q₄ q₅ q₆ : List Char}
    (htrim : trim action = action)
    (h : action.toList = q₀ ++ '"' :: (q₁ ++ '"' :: (q₂ ++ '"' :: (q₃ ++ '"' :: (q₄ ++ '"' ::
      (q₅ ++ '"' :: q₆))))))
    (h₀ : '"' ∉ q₀) (h₁ : '"' ∉ q₁) (h₂ : '"' ∉ q₂) (h₃ : '"' ∉ q₃) (h₄ : '"' ∉ q₄) (h₅ : '"' ∉ q₅)
    (env : Environment) (l : Loader) : l.handleLoad env action =
      l.load env (trim (String.ofList q₁)) (trim (String.ofList q₃)) (.ok (String.ofList q₅)) := by
  have hsecond : action.toList = (q₀ ++ ['"']) ++ (q₁ ++ '"' :: (q₂ ++ '"' :: (q₃ ++ '"' ::
      (q₄ ++ '"' :: (q₅ ++ '"' :: q₆))))) := by simp [h]
  have hthird : action.toList = ((q₀ ++ ['"'] ++ q₁) ++ ['"']) ++ (q₂ ++ '"' :: (q₃ ++ '"' ::
      (q₄ ++ '"' :: (q₅ ++ '"' :: q₆)))) := by simp [h]
  have hfourth : action.toList = ((q₀ ++ ['"'] ++ q₁ ++ ['"'] ++ q₂) ++ ['"']) ++ (q₃ ++ '"' ::
      (q₄ ++ '"' :: (q₅ ++ '"' :: q₆))) := by simp [h]
  have hfifth : action.toList = ((q₀ ++ ['"'] ++ q₁ ++ ['"'] ++ q₂ ++ ['"'] ++ q₃) ++ ['"']) ++
      (q₄ ++ '"' :: (q₅ ++ '"' :: q₆)) := by simp [h]
  have hsixth : action.toList =
      ((q₀ ++ ['"'] ++ q₁ ++ ['"'] ++ q₂ ++ ['"'] ++ q₃ ++ ['"'] ++ q₄) ++ ['"']) ++
        (q₅ ++ '"' :: q₆) := by simp [h]
  have hpath := slice_middle hsecond
  have htype := slice_middle hfourth
  have hfilter := slice_middle hsixth
  rw [← length_quoted] at hpath htype hfilter
  have hplace : ∀ q : List Char, (q.length : ℤ) ≠ -1 :=
    fun q h => absurd (h ▸ Int.natCast_nonneg _) (by decide)
  have hfirstIdx : indexOf action "\"" 0 = q₀.length := quote_next (p := []) rfl h h₀
  have hsecondIdx := quote_next (length_quoted _) hsecond h₁
  have hthirdIdx := quote_next (length_quoted _) hthird h₂
  have hfourthIdx := quote_next (length_quoted _) hfourth h₃
  have hfifthIdx := quote_next (length_quoted _) hfifth h₄
  have hsixthIdx := quote_next (length_quoted _) hsixth h₅
  rw [Loader.handleLoad]
  simp only [htrim, hfirstIdx, hsecondIdx, hthirdIdx, hfourthIdx, hfifthIdx, hsixthIdx, hpath, htype,
    hfilter, inBounds, liftExn, pure_bind]
  split
  · rename_i hmissing
    exact (load_missing env hmissing).symm
  · rw [if_pos ⟨hplace _, hplace _⟩]

/-- The file, the type and the filter of a call. -/
theorem handleLoad_filter {name path type filter : String} (hname : Named name)
    (hquote : '"' ∉ name.toList) (hpath : '"' ∉ path.toList) (htype : '"' ∉ type.toList)
    (hfilter : '"' ∉ filter.toList) (env : Environment) (l : Loader) :
    l.handleLoad env (Action.line ⟨name, [path, type, filter]⟩) =
      l.load env (trim path) (trim type) (.ok filter) := by
  have hline : (Action.line ⟨name, [path, type, filter]⟩).toList =
      (name.toList ++ ['(']) ++ '"' :: (path.toList ++ '"' :: ([',', ' '] ++ '"' :: (type.toList ++
        '"' :: ([',', ' '] ++ '"' :: (filter.toList ++ '"' :: [')', ';']))))) := by
    rw [toList_line, String.toList_intercalate]
    simp
  have h := handleLoad_three (trim_line hname path _) hline (by simp [hquote]) hpath (by decide)
    htype (by decide) hfilter env l
  rwa [String.ofList_toList, String.ofList_toList, String.ofList_toList] at h

theorem handleLoad_selection {name path : String} {sel : Option Selection} (hname : Named name)
    (hquote : '"' ∉ name.toList) (hpath : '"' ∉ path.toList)
    (hsel : ∀ p ∈ Selection.params sel, '"' ∉ p.toList) (env : Environment) {root : Element}
    (hfile : env.files (trim path) = some (some root)) (l : Loader) :
    l.handleLoad env (Action.line ⟨name, path :: Selection.params sel⟩) =
      liftExn (chosen l.once root.elements (Selection.code sel) (.ok (Selection.text sel))) >>=
        fun elems => (fun scripts => some (trim scripts ++ l.ending)) <$> l.scripts elems := by
  rw [← load_found env hfile]
  cases sel with
  | none =>
    obtain ⟨filter, hload⟩ := handleLoad_path hname hquote hpath
    exact (hload env l).trans (load_all env not_chooses_empty not_chooses_empty _ _)
  | some sel =>
    exact handleLoad_filter hname hquote hpath (hsel _ List.mem_cons_self)
      (hsel _ (List.mem_cons_of_mem _ List.mem_cons_self)) env l

/-- Each of the three actions translates what its loader chooses. -/
theorem handleAction_load (env : Environment) {path : String} {sel : Option Selection} {root : Element}
    (hpath : '"' ∉ path.toList) (hsel : ∀ p ∈ Selection.params sel, '"' ∉ p.toList)
    (hfile : env.files (trim path) = some (some root)) :
    ∀ nl ∈ loaders env, Translates env path root.elements sel nl.1 nl.2 := by
  refine forall_loaders.mpr ⟨?_, ?_, ?_⟩
  · exact (handleAction_loadVar env path _).trans
      (handleLoad_selection ⟨'l', rfl, by decide⟩ (by decide) hpath hsel env hfile (varLoader env))
  · exact (handleAction_loadScript env path _).trans
      (handleLoad_selection ⟨'l', rfl, by decide⟩ (by decide) hpath hsel env hfile scriptLoader)
  · exact (handleAction_loadDbVerify env path _).trans
      (handleLoad_selection ⟨'l', rfl, by decide⟩ (by decide) hpath hsel env hfile dbVerifyLoader)

/-- **When the three actions select the same elements.**  Each translates what its loader chooses,
and the loaders all choose the positions of the selection exactly when the selection is not by ids,
or is no range up to the largest `int` and asks for no id that is that of two elements. -/
theorem sameSelection_iff (env : Environment) (path : String) (sel : Option Selection)
    (root : Element) (hpath : '"' ∉ path.toList)
    (hsel : ∀ p ∈ Selection.params sel, '"' ∉ p.toList)
    (hfile : env.files (trim path) = some (some root)) :
    (∀ nl ∈ loaders env, Translates env path root.elements sel nl.1 nl.2) ∧
      ((∀ nl ∈ loaders env, Selects root.elements sel nl.2) ↔
        (Selection.code sel = "1" → ¬ Endless (trim (Selection.text sel)) ∧
          ∀ ids, requested (trim (Selection.text sel)) = .ok ids →
            ∀ id ∈ ids, (root.elements.filter (hasId id)).length ≤ 1)) := by
  refine ⟨handleAction_load env hpath hsel hfile, ?_⟩
  have hall := chosen_eq_iff root.elements (Selection.code sel) (Selection.text sel)
  have honce := chosen_once_iff root.elements (Selection.code sel) (Selection.text sel)
  rw [forall_loaders]
  constructor
  · rintro ⟨hvar, hscript, -⟩ hcode
    have hend := hall.mp hvar hcode
    refine ⟨hend, ?_⟩
    rw [← idList_eq hend]
    exact honce.mp (hscript.trans hvar.symm) hcode
  · intro h
    have hvar := hall.mpr fun hcode => (h hcode).1
    refine ⟨hvar, (honce.mpr fun hcode => ?_).trans hvar, hvar⟩
    rw [idList_eq (h hcode).1]
    exact (h hcode).2

/-- Two elements with one id. -/
def twins : Element :=
  ⟨"SCRIPTS", [], "", [⟨"SCRIPT", [("id", "1")], "a", []⟩, ⟨"SCRIPT", [("id", "1")], "b", []⟩]⟩

/-- A file with two elements of one id. -/
def twinsFile : Environment := { noFiles with files := fun _ => some (some twins) }

theorem sameSelection_iff_tags : (∀ nl ∈ loaders twinsFile,
    Translates twinsFile "f.xml" twins.elements (some ⟨"0", "x"⟩) nl.1 nl.2) ∧
      ((∀ nl ∈ loaders twinsFile, Selects twins.elements (some ⟨"0", "x"⟩) nl.2) ↔
        (Selection.code (some ⟨"0", "x"⟩) = "1" →
          ¬ Endless (trim (Selection.text (some ⟨"0", "x"⟩))) ∧
          ∀ ids, requested (trim (Selection.text (some ⟨"0", "x"⟩))) = .ok ids →
            ∀ id ∈ ids, (twins.elements.filter (hasId id)).length ≤ 1)) :=
  sameSelection_iff twinsFile "f.xml" (some ⟨"0", "x"⟩) twins (by decide) (by decide) rfl

/-- Of two scripts with one id, `loadScript` takes the first alone. -/
theorem not_sameSelection_ids :
    ¬ ∀ nl ∈ loaders twinsFile, Selects twins.elements (some ⟨"1", "1"⟩) nl.2 := by
  intro h
  obtain ⟨hvar, hscript, -⟩ := forall_loaders.mp h
  have hcode : Selection.code (some ⟨"1", "1"⟩) = "1" := by decide
  have hlength := (chosen_once_iff twins.elements _ _).mp (hscript.trans hvar.symm) hcode ["1"]
    (by decide) "1" List.mem_cons_self
  exact absurd hlength (by decide)

end MQTestActionHandler

end MBT
