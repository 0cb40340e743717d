import MBT.Generate.MGenScenParser
import MBT.Support.Segments

/-!
# Generate — the scenarios that `parseScenario` reads

* `exists_of_toScenario`: what is read of one scenario, key by key.
* `parseScenario_lists`: the lists of a scenario name all that their texts name exactly where no
  empty piece stands before another, and the same for the routes.
-/

namespace MBT
open Exec Text MJsonHandler

/-- The texts of an element `scenario` of the MBT XML. -/
structure ScenarioElem where
  name : String
  option : String
  route : String

/-- The options of a scenario that list names. -/
inductive ListKey where
  | start
  | stop
  | throughState
  | throughStep

/-- The key of a list in the JSON text. -/
def ListKey.key : ListKey → String
  | .start => "start"
  | .stop => "stop"
  | .throughState => "throughState"
  | .throughStep => "throughStep"

/-- What `parseScenario` keeps of a scenario. -/
structure ScenarioInfo where
  name : String
  start : List String
  stop : List String
  throughState : List String
  throughStep : List String
  path : String
  data : String
  route : List Route

/-- The list of a key. -/
def ScenarioInfo.listOf (info : ScenarioInfo) : ListKey → List String
  | .start => info.start
  | .stop => info.stop
  | .throughState => info.throughState
  | .throughStep => info.throughStep

namespace MGenScenParser

variable (mapper : ObjectMapper)

/-- The text of an option; one that is not there is empty. -/
def getOption (option key : String) : Except Failure String := do
  let value ← getJsonValueByKey mapper option key
  return value.getD ""

/-- The turn of the loop of `parseScenario`. -/
def toScenario (scenarioElem : ScenarioElem) : Except Failure ScenarioInfo := do
  let option := trim scenarioElem.option
  let start ← getOption mapper option "start"
  let stop ← getOption mapper option "stop"
  let state ← getOption mapper option "throughState"
  let step ← getOption mapper option "throughStep"
  let path ← getOption mapper option "path"
  let data ← getOption mapper option "data"
  let routeList ← parseRoutes mapper scenarioElem.route
  return ⟨scenarioElem.name, names start, names stop, names state, names step, path, data, routeList⟩

/-- The scenarios, `none` where an `MException` is caught. -/
def parseScenario (scenarioElemList : List ScenarioElem) :
    Except Failure (Option (List ScenarioInfo)) :=
  match scenarioElemList.mapM (toScenario mapper) with
  | .ok scenarioInfoList => .ok (some scenarioInfoList)
  | .error .mException => .ok none
  | .error e => .error e

/-! ### One scenario -/

variable {mapper} {e : ScenarioElem} {info : ScenarioInfo}

/-- What is read of a scenario: four lists and the routes. -/
theorem exists_of_toScenario (h : toScenario mapper e = .ok info) :
    (∀ k : ListKey, ∃ text, getOption mapper (trim e.option) k.key = .ok text ∧
      info.listOf k = names text) ∧ parseRoutes mapper e.route = .ok info.route := by
  rw [toScenario, bind_eq_ok] at h
  obtain ⟨start, hstart, h⟩ := h
  rw [bind_eq_ok] at h
  obtain ⟨stop, hstop, h⟩ := h
  rw [bind_eq_ok] at h
  obtain ⟨state, hstate, h⟩ := h
  rw [bind_eq_ok] at h
  obtain ⟨step, hstep, h⟩ := h
  rw [bind_eq_ok] at h
  obtain ⟨path, -, h⟩ := h
  rw [bind_eq_ok] at h
  obtain ⟨data, -, h⟩ := h
  rw [bind_eq_ok] at h
  obtain ⟨routeList, hroute, h⟩ := h
  obtain rfl := Except.ok.inj h
  refine ⟨fun k => ?_, hroute⟩
  cases k with
  | start => exact ⟨start, hstart, by rw [ScenarioInfo.listOf]⟩
  | stop => exact ⟨stop, hstop, by rw [ScenarioInfo.listOf]⟩
  | throughState => exact ⟨state, hstate, by rw [ScenarioInfo.listOf]⟩
  | throughStep => exact ⟨step, hstep, by rw [ScenarioInfo.listOf]⟩

/-! ### Every name -/

/-- The names that are read are all names, unless the last is empty. -/
theorem names_eq_iff (s : String) : names s = allNames ',' s ↔ EmptyLast ',' s :=
  takeWhile_split_iff rfl (by decide) s

theorem names_eq_nil {s : String} (h : allNames ',' s = []) : names s = [] :=
  takeWhile_split_eq_nil rfl (by decide) h

/-- The route with every name of its two texts; one that lists no state or no step is left out. -/
def allRoute (routeMap : PathMap) : Option Route :=
  match routeMap.state, routeMap.step with
  | some state, some step =>
    if allNames ',' state = [] ∨ allNames ',' step = [] then none
    else some ⟨allNames ',' state, allNames ',' step, [routeMap.cov]⟩
  | _, _ => none

/-- No empty piece stands before another, in either text, where both list a name. -/
def RouteEmptyLast (routeMap : PathMap) : Prop :=
  ∀ state ∈ routeMap.state, ∀ step ∈ routeMap.step, allNames ',' state ≠ [] →
    allNames ',' step ≠ [] → EmptyLast ',' state ∧ EmptyLast ',' step

variable {routeMap : PathMap} {r : Option Route}

/-- What a route text gives, and what it gives with every name. -/
theorem exists_of_toRoute (h : toRoute routeMap = .ok r) :
    (r = none ∨ ∃ state step, routeMap.state = some state ∧ routeMap.step = some step ∧
      r = some ⟨names state, names step, [routeMap.cov]⟩ ∧
      allRoute routeMap = some ⟨allNames ',' state, allNames ',' step, [routeMap.cov]⟩) ∧
    (r = none → ∀ state ∈ routeMap.state, ∀ step ∈ routeMap.step,
      names state = [] ∨ names step = []) := by
  unfold toRoute at h
  cases hstate : routeMap.state with
  | none => rw [hstate] at h; cases h
  | some state =>
    rw [hstate] at h
    dsimp only at h
    by_cases hs : names state = []
    · rw [if_pos hs] at h
      obtain rfl := Except.ok.inj h
      refine ⟨.inl rfl, fun _ state' hstate' step _ => .inl ?_⟩
      rw [← Option.mem_some.mp hstate', hs]
    rw [if_neg hs] at h
    cases hstep : routeMap.step with
    | none => rw [hstep] at h; cases h
    | some step =>
      rw [hstep] at h
      dsimp only at h
      by_cases ht : names step = []
      · rw [if_pos ht] at h
        obtain rfl := Except.ok.inj h
        refine ⟨.inl rfl, fun _ state' _ step' hstep' => .inr ?_⟩
        rw [← Option.mem_some.mp hstep', ht]
      rw [if_neg ht] at h
      obtain rfl := Except.ok.inj h
      refine ⟨.inr ⟨state, step, rfl, rfl, rfl, ?_⟩, fun h => absurd h (Option.some_ne_none _)⟩
      have hall : ¬ (allNames ',' state = [] ∨ allNames ',' step = []) := by
        rintro (hnil | hnil)
        · exact hs (names_eq_nil hnil)
        · exact ht (names_eq_nil hnil)
      rw [allRoute, hstate, hstep]
      dsimp only
      rw [if_neg hall]

/-- **A route has every name of its two texts exactly where no empty piece stands before another.** -/
theorem toRoute_eq_iff (h : toRoute routeMap = .ok r) :
    r = allRoute routeMap ↔ RouteEmptyLast routeMap := by
  obtain ⟨hr, hnone⟩ := exists_of_toRoute h
  rcases hr with rfl | ⟨state, step, hstate, hstep, rfl, hall⟩
  · constructor
    · intro heq state hstate step hstep hs ht
      -- the route with every name would not be left out
      rw [allRoute, Option.mem_def.mp hstate, Option.mem_def.mp hstep] at heq
      dsimp only at heq
      rw [if_neg (not_or.mpr ⟨hs, ht⟩)] at heq
      cases heq
    · intro hlast
      cases hstate : routeMap.state with
      | none => rw [allRoute, hstate]
      | some state =>
        cases hstep : routeMap.step with
        | none => rw [allRoute, hstate, hstep]
        | some step =>
          rw [allRoute, hstate, hstep]
          dsimp only
          rw [if_pos]
          by_contra hne
          obtain ⟨hs, ht⟩ := not_or.mp hne
          obtain ⟨hslast, htlast⟩ := hlast state hstate step hstep hs ht
          rcases hnone rfl state hstate step hstep with hnil | hnil
          · exact hs ((names_eq_iff state).mpr hslast ▸ hnil)
          · exact ht ((names_eq_iff step).mpr htlast ▸ hnil)
  · rw [hall, Option.some_inj, Route.mk.injEq, names_eq_iff, names_eq_iff]
    constructor
    · rintro ⟨hs, ht, -⟩ state' hstate' step' hstep' - -
      rw [hstate] at hstate'
      rw [hstep] at hstep'
      rw [← Option.mem_some.mp hstate', ← Option.mem_some.mp hstep']
      exact ⟨hs, ht⟩
    · intro hlast
      have hs : allNames ',' state ≠ [] ∧ allNames ',' step ≠ [] := by
        rw [allRoute, hstate, hstep] at hall
        dsimp only at hall
        split at hall
        · cases hall
        · rename_i hne
          exact not_or.mp hne
      obtain ⟨hslast, htlast⟩ := hlast state hstate step hstep hs.1 hs.2
      exact ⟨hslast, htlast, rfl⟩

/-! ### The list of routes -/

/-- A route that is none is not read. -/
theorem allRoute_eq_none (h : toRoute routeMap = .ok r) (hall : allRoute routeMap = none) :
    r = none := by
  rcases (exists_of_toRoute h).1 with hr | ⟨state, step, -, -, -, hsome⟩
  · exact hr
  · rw [hall] at hsome
    cases hsome

variable {paths : List PathMap} {routeList : List (Option Route)}

/-- No more routes are read than there are. -/
theorem length_filterMap_le (h : List.Forall₂ (fun p r => toRoute p = .ok r) paths routeList) :
    (routeList.filterMap id).length ≤ (paths.filterMap allRoute).length := by
  induction h with
  | nil => exact le_rfl
  | @cons p r paths rs hp _ ih =>
    cases hall : allRoute p with
    | none =>
      rw [allRoute_eq_none hp hall, List.filterMap_cons_none hall]
      exact ih
    | some b =>
      rw [List.filterMap_cons_some hall]
      cases r with
      | none => exact ih.trans (Nat.le_succ _)
      | some a => exact Nat.succ_le_succ ih

/-- The routes that are read are all routes, unless a list ends with an empty name. -/
theorem filterMap_eq_iff (h : List.Forall₂ (fun p r => toRoute p = .ok r) paths routeList) :
    routeList.filterMap id = paths.filterMap allRoute ↔ ∀ p ∈ paths, RouteEmptyLast p := by
  induction h with
  | nil => exact iff_of_true rfl (List.forall_mem_nil _)
  | @cons p r paths rs hp htail ih =>
    rw [List.forall_mem_cons, ← ih, ← toRoute_eq_iff hp]
    cases hall : allRoute p with
    | none =>
      rw [allRoute_eq_none hp hall, List.filterMap_cons_none hall]
      exact ⟨fun h => ⟨rfl, h⟩, And.right⟩
    | some b =>
      rw [List.filterMap_cons_some hall]
      cases r with
      | none =>
        -- a route that is left out is missed by the length
        refine iff_of_false (fun heq => ?_) (fun heq => Option.some_ne_none b heq.1.symm)
        have hle := length_filterMap_le htail
        have hlen : (rs.filterMap id).length = (paths.filterMap allRoute).length + 1 :=
          congrArg List.length heq
        omega
      | some a =>
        rw [Option.some_inj, ← List.cons.injEq]
        exact Iff.rfl

/-- The routes of a text. -/
theorem parseRoutes_eq_iff {route : String} {rs : List Route}
    (h : parseRoutes mapper route = .ok rs) : ∃ paths,
      getJsonPathList mapper (trim route) = .ok paths ∧
      (rs = paths.filterMap allRoute ↔ ∀ p ∈ paths, RouteEmptyLast p) := by
  rw [parseRoutes, bind_eq_ok] at h
  obtain ⟨paths, hpaths, h⟩ := h
  rw [bind_eq_ok] at h
  obtain ⟨routeList, hlist, h⟩ := h
  obtain rfl := Except.ok.inj h
  exact ⟨paths, hpaths, filterMap_eq_iff (mapM_eq_ok.mp hlist)⟩

/-! ### Every scenario -/

variable {elems : List ScenarioElem} {infos : List ScenarioInfo}

/-- **The lists of a scenario.** -/
theorem parseScenario_lists (h : parseScenario mapper elems = .ok (some infos)) :
    List.Forall₂ (fun e info =>
      (∀ k : ListKey, ∃ text, getOption mapper (trim e.option) k.key = .ok text ∧
        (info.listOf k = allNames ',' text ↔ EmptyLast ',' text)) ∧
      ∃ paths, getJsonPathList mapper (trim e.route) = .ok paths ∧
        (info.route = paths.filterMap allRoute ↔ ∀ p ∈ paths, RouteEmptyLast p)) elems infos := by
  rw [parseScenario] at h
  cases hlist : elems.mapM (toScenario mapper) with
  | error failure =>
    rw [hlist] at h
    cases failure with
    | mException => cases h
    | nullPointer => cases h
    | classCast => cases h
  | ok list =>
    rw [hlist] at h
    obtain rfl := Option.some.inj (Except.ok.inj h)
    refine (mapM_eq_ok.mp hlist).imp fun e info hread => ?_
    obtain ⟨hoptions, hroutes⟩ := exists_of_toScenario hread
    refine ⟨fun k => ?_, parseRoutes_eq_iff hroutes⟩
    obtain ⟨text, htext, hlistOf⟩ := hoptions k
    refine ⟨text, htext, ?_⟩
    rw [hlistOf]
    exact names_eq_iff text

/-- A reader of the texts of one scenario, whose option has `stops` under `stop` and whose route is
one object. -/
def orderMapper (stops : String) : ObjectMapper where
  readList _ := .ok (some [.object fun key =>
    if key = "state" then .text "Start, Paid" else if key = "step" then .text "Pay" else .null])
  findText _ key := if key = "stop" then .ok (some stops) else .error .nullPointer

/-- A scenario with a route. -/
def orderElem (stops : String) : ScenarioElem :=
  ⟨"Order", "\x7b\"stop\":\"" ++ stops ++ "\"\x7d", "[\x7b\"state\":\"Start, Paid\",\"step\":\"Pay\"\x7d]"⟩

theorem parseScenario_lists_order : ∃ info,
    parseScenario (orderMapper "Paid, Closed,,") [orderElem "Paid, Closed,,"] = .ok (some [info]) ∧
    EmptyLast ',' "Paid, Closed,," ∧
    List.Forall₂ (fun e info =>
      (∀ k : ListKey, ∃ text, getOption (orderMapper "Paid, Closed,,") (trim e.option) k.key = .ok text ∧
        (info.listOf k = allNames ',' text ↔ EmptyLast ',' text)) ∧
      ∃ paths, getJsonPathList (orderMapper "Paid, Closed,,") (trim e.route) = .ok paths ∧
        (info.route = paths.filterMap allRoute ↔ ∀ p ∈ paths, RouteEmptyLast p))
      [orderElem "Paid, Closed,,"] [info] := by
  have hread : ∃ info,
      parseScenario (orderMapper "Paid, Closed,,") [orderElem "Paid, Closed,,"] = .ok (some [info]) :=
    ⟨_, rfl⟩
  obtain ⟨info, hread⟩ := hread
  exact ⟨info, hread, by decide, parseScenario_lists hread⟩

/-- The stop state behind the empty piece is lost. -/
theorem not_parseScenario_stop : ¬ ∀ (mapper : ObjectMapper) (elems : List ScenarioElem)
    (infos : List ScenarioInfo), parseScenario mapper elems = .ok (some infos) →
    List.Forall₂ (fun e info => ∀ k : ListKey, ∃ text,
      getOption mapper (trim e.option) k.key = .ok text ∧ info.listOf k = allNames ',' text)
      elems infos := by
  intro h
  have hread : ∃ info, parseScenario (orderMapper "Paid,,Cancelled") [orderElem "Paid,,Cancelled"] =
      .ok (some [info]) ∧ info.stop = names "Paid,,Cancelled" := ⟨_, rfl, rfl⟩
  obtain ⟨info, hread, hstop⟩ := hread
  cases h _ _ _ hread with
  | cons hlists _ =>
    obtain ⟨text, htext, hlist⟩ := hlists .stop
    have hoption : getOption (orderMapper "Paid,,Cancelled") (trim (orderElem "Paid,,Cancelled").option)
        ListKey.stop.key = .ok "Paid,,Cancelled" := rfl
    rw [hoption] at htext
    rw [ScenarioInfo.listOf, hstop, ← Except.ok.inj htext] at hlist
    have hne : names "Paid,,Cancelled" ≠ allNames ',' "Paid,,Cancelled" := by decide
    exact hne hlist

end MGenScenParser

end MBT
