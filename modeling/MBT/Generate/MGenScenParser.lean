import MBT.Data.MParseParam
import MBT.Path.MPathAlgo

/-!
# Generate — MGenScenParser

The routes of a scenario, read from the JSON text under `route` in the MBT XML.

* `parsed_of_parseRoutes`: the routes read name states and steps, and have one text for the
  coverage, which may be missing.
-/

namespace MBT
open Exec Text

namespace MJsonHandler

/-- The texts of an element of the list of routes. -/
structure PathMap where
  state : Option String
  step : Option String
  cov : Option String

/-- The turn of the loop of `getJsonPathList`. -/
def toPath : Element → Except Failure PathMap
  | .null => .error .nullPointer
  | .other => .error .classCast
  | .object get => do
    let stepStr ← castText (get "step")
    let stateStr ← castText (get "state")
    let covStr ← castText (get "cov")
    return ⟨stateStr, stepStr, covStr⟩

/-- The routes of a JSON text; a blank one has none. -/
def getJsonPathList (mapper : ObjectMapper) (jsonStr : String) : Except Failure (List PathMap) :=
  if trim jsonStr = "" then .ok []
  else do
    match ← mapper.readList jsonStr with
    | none => .error .nullPointer
    | some list => list.mapM toPath

end MJsonHandler

namespace MGenScenParser
open MJsonHandler

/-- The names of a list, up to the first that is empty. -/
def names (s : String) : List String := ((split (trim s) ",").map trim).takeWhile (· ≠ "")

/-- The turn of the loop over the routes; a route without states or without steps is left out. -/
def toRoute (routeMap : PathMap) : Except Failure (Option Route) :=
  match routeMap.state with
  | none => .error .nullPointer
  | some state =>
    if names state = [] then .ok none
    else
      match routeMap.step with
      | none => .error .nullPointer
      | some step =>
        if names step = [] then .ok none
        else .ok (some ⟨names state, names step, [routeMap.cov]⟩)

/-- The routes of `parseScenario`. -/
def parseRoutes (mapper : ObjectMapper) (route : String) : Except Failure (List Route) := do
  let tmpRouteList ← getJsonPathList mapper (trim route)
  let routeList ← tmpRouteList.mapM toRoute
  return routeList.filterMap id

end MGenScenParser

/-- A route as `parseScenario` builds it. -/
structure Route.Parsed (r : Route) : Prop where
  state : r.state ≠ []
  step : r.step ≠ []
  cov : ∃ c, r.cov = [c]

namespace MGenScenParser
open MJsonHandler

/-- A route that is read names states and steps, and has one text for the coverage. -/
theorem parsed_of_toRoute {routeMap : PathMap} {r : Route} (h : toRoute routeMap = .ok (some r)) :
    r.Parsed := by
  unfold toRoute at h
  cases hstate : routeMap.state with
  | none => rw [hstate] at h; cases h
  | some state =>
    rw [hstate] at h
    dsimp only at h
    by_cases hs : names state = []
    · rw [if_pos hs] at h; cases h
    rw [if_neg hs] at h
    cases hstep : routeMap.step with
    | none => rw [hstep] at h; cases h
    | some step =>
      rw [hstep] at h
      dsimp only at h
      by_cases ht : names step = []
      · rw [if_pos ht] at h; cases h
      rw [if_neg ht] at h
      rw [← Option.some.inj (Except.ok.inj h)]
      generalize names state = states at hs
      generalize names step = steps at ht
      exact ⟨hs, ht, routeMap.cov, rfl⟩

/-- **The shape of the routes.** -/
theorem parsed_of_parseRoutes {mapper : ObjectMapper} {route : String} {rs : List Route}
    (h : parseRoutes mapper route = .ok rs) : ∀ r ∈ rs, r.Parsed := by
  intro r hr
  rw [parseRoutes, bind_eq_ok] at h
  obtain ⟨tmpRouteList, -, h⟩ := h
  rw [bind_eq_ok] at h
  obtain ⟨routeList, hlist, h⟩ := h
  obtain rfl := Except.ok.inj h
  obtain ⟨x, hx, e⟩ := List.mem_filterMap.mp hr
  obtain rfl : x = some r := e
  obtain ⟨routeMap, -, hto⟩ := exists_of_mem_mapM hlist hx
  exact parsed_of_toRoute hto

end MGenScenParser

end MBT
