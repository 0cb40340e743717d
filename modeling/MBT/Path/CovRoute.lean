import MBT.Path.Rounds

/-!
# Path — CovRoute

`MPathAlgoCovRoute`: the paths of the routes of a scenario.  An overall route asks for paths from
its first state to its last within its states and steps, a partial one for the paths of a search
that contain all its states and steps.
-/

namespace MBT
open Exec MPathAlgo

/-- The fields of `MPathAlgoCovRoute`; the sets and the list are `null` in a new object. -/
structure RouteFields where
  stateSet : Option (HashSet ℤ)
  stepSet : Option (HashSet ℤ)
  stepList : Option (List ℤ)
  startStateNum : ℤ
  stopStateNum : ℤ
  cov : ℤ

namespace MPathAlgoCovRoute

/-- The constructor of `MPathAlgoCovRoute`. -/
def new : MPathAlgo RouteFields := .new ⟨none, none, none, 0, 0, 0⟩

/-! ### Partial routes -/

/-- Whether the current path contains all states and all steps of the route. -/
def partialFilter : Prog (MPathAlgo RouteFields) Bool := do
  let m ← get
  let stateSet ← Prog.lift (Prog.nonNull m.own.stateSet)
  if !stateSet.elems.all (HashSet.empty.addAll m.statePath).contains then
    return false
  else
    let stepSet ← Prog.lift (Prog.nonNull m.own.stepSet)
    return stepSet.elems.all (HashSet.empty.addAll m.stepPath).contains

/-- The search for a partial route, which adds the paths that contain it. -/
def dfsPartial : ℕ → ℤ → ℕ → Prog (MPathAlgo RouteFields) Unit := MPathAlgo.dfs fun _ => do
  if ← partialFilter then
    addPath

/-! ### Overall routes -/

/-- The turn of the loop for the `i`-th edge of `curState`; `next` is the recursive call.  Where
several edges lead to a state, those of the steps of the route are followed. -/
def tryListed (next : ℤ → ℕ → Prog (MPathAlgo RouteFields) Unit) (curState : ℤ) (curPos : ℕ)
    (neighbours edgenumbers stepnumbers : List ℤ) (i : ℕ) : Prog (MPathAlgo RouteFields) Unit := do
  let leftTime ← getRepeatTime curState i
  if leftTime = 0 then
    return
  else
    let neighbour ← Prog.lift (ArrayList.get neighbours i)
    let stepnumber ← Prog.lift (ArrayList.get stepnumbers i)
    let edgenumber ← Prog.lift (ArrayList.get edgenumbers i)
    let hasOneEdge := ArrayList.indexOf neighbours neighbour == ArrayList.lastIndexOf neighbours neighbour
    let m ← get
    let stateSet ← Prog.lift (Prog.nonNull m.own.stateSet)
    let stepSet ← Prog.lift (Prog.nonNull m.own.stepSet)
    if (stateSet.contains neighbour && !hasOneEdge && stepSet.contains stepnumber) ||
        (stateSet.contains neighbour && hasOneEdge) then
      setRepeatTime curState i (leftTime - 1)
      addToPaths curPos neighbour edgenumber stepnumber
      next neighbour (curPos + 1)
      removeFromPaths curPos
      setRepeatTime curState i leftTime

/-- The search for an overall route: it takes the listed edges only, and adds a path at the last
state of the route once it is as long as the route has steps. -/
def dfsOverall : ℕ → ℤ → ℕ → Prog (MPathAlgo RouteFields) Unit
  | 0, _, _ => throw .stackOverflow
  | depth + 1, curState, curPos => do
    let m ← get
    if m.own.stopStateNum = curState then
      let stepSet ← Prog.lift (Prog.nonNull m.own.stepSet)
      if m.stepPath.length = stepSet.size then
        addPath
    let neighbours ← Prog.lift (ArrayList.get m.graph.edgeList curState)
    let stepnumbers ← Prog.lift (ArrayList.get m.graph.edgeStepList curState)
    let edgenumbers ← Prog.lift (ArrayList.get m.graph.edgeNumberList curState)
    forM (List.range neighbours.length)
      (tryListed (fun n k => dfsOverall depth n k) curState curPos neighbours edgenumbers stepnumbers)

/-! ### The algorithm -/

/-- The fields as a turn of the loop over the routes sets them. -/
def setRoute (route : RouteNums) (cov : ℤ) (w : RouteFields) : RouteFields :=
  { w with
    cov
    stateSet := some (HashSet.empty.addAll route.state)
    stepSet := some (HashSet.empty.addAll route.step)
    stepList := some route.step }

/-- The search from the first state of a route to its last. -/
def overallPaths (route : RouteNums) : Prog (MPathAlgo RouteFields) Unit := do
  let startStateNum ← Prog.lift (ArrayList.get route.state 0)
  modify fun m => { m with own := { m.own with startStateNum } }
  let stopStateNum ← Prog.lift (ArrayList.get route.state ((route.state.length : ℤ) - 1))
  modify fun m => { m with own := { m.own with stopStateNum } }
  let m ← get
  round (dfsOverall (m.graph.repeatSum + 1)) startStateNum

/-- The turn for the `i`-th route. -/
def routePaths (o : VisitOrder ℤ) (i : ℕ) : Prog (MPathAlgo RouteFields) Unit := do
  let m ← get
  let route ← Prog.lift (ArrayList.get m.routeList i)
  let cov ← Prog.lift (ArrayList.get route.cov 0)
  modify fun m => { m with own := setRoute route cov m.own }
  if cov = 1 then
    overallPaths route
  else
    rounds o dfsPartial

/-- The paths of each route, one route after the other. -/
def genPath (o : VisitOrder ℤ) (a : Args) : Prog (MPathAlgo RouteFields) PathLists := do
  init a
  let m ← get
  forM (List.range m.routeList.length) (routePaths o)
  let m ← get
  return m.pathsMap

end MPathAlgoCovRoute

end MBT
