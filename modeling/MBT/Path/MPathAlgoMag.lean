import MBT.Path.Pairs
import MBT.Path.CovRepeat
import MBT.Path.LeastPaths
import MBT.Path.RouteRuns

/-!
# Path — MPathAlgoMag

The manager keeps one object of each algorithm for the life of the program, and every scenario is
a `genPath` call on one of them.

* `keeps_afterCalls`: what any sequence of calls leaves in the objects.
* `samePaths_manager_iff`: when a call returns the paths that it returns on a new object.  A used
  `HashSet` keeps its table when it is cleared, so that the two objects may visit their start states
  in different orders.  For five of the algorithms they return the same paths nevertheless; for
  `least` it is where the order picks no other paths, for the two `N2N` ones where nothing that
  their temporary lists hold from earlier calls is given out.
* `not_samePaths_line`: a path of one scenario is given out in the next.
-/

namespace MBT
open Exec MPathAlgo

namespace MPathConfig

/-- The name of `MPathAlgoCovAll` in a model. -/
def PATH_ALL : String := "all"

/-- The name of `MPathAlgoCovLong`. -/
def PATH_LONG : String := "long"

/-- The name of `MPathAlgoCovShort`. -/
def PATH_SHORT : String := "short"

/-- The name of `MPathAlgoCovRepeat`. -/
def PATH_REPEAT : String := "repeat"

/-- The name of `MPathAlgoCovShortN2N`. -/
def PATH_SHORTN2N : String := "shortn2n"

/-- The name of `MPathAlgoCovLongN2N`. -/
def PATH_LONGN2N : String := "longn2n"

/-- The name of `MPathAlgoCovLeast`. -/
def PATH_LEAST : String := "least"

/-- The name of `MPathAlgoCovRoute`. -/
def PATH_ROUTE : String := "route"

end MPathConfig

/-- The algorithms of the manager. -/
inductive Algo where
  | covAll
  | covLong
  | covShort
  | covRepeat
  | covShortN2N
  | covLongN2N
  | covLeast
  | covRoute
  deriving DecidableEq

namespace Algo

/-- The fields of the subclass. -/
def Own : Algo → Type
  | covAll | covRepeat | covLeast => Unit
  | covLong | covShort => Dist Unit
  | covShortN2N | covLongN2N => Dist N2N
  | covRoute => RouteFields

/-- A newly constructed object of the class. -/
def new : (k : Algo) → MPathAlgo k.Own
  | covAll => MPathAlgoCovAll.new
  | covLong => MPathAlgoCovLong.new
  | covShort => MPathAlgoCovShort.new
  | covRepeat => MPathAlgoCovRepeat.new
  | covShortN2N => MPathAlgoCovShortN2N.new
  | covLongN2N => MPathAlgoCovLongN2N.new
  | covLeast => MPathAlgoCovLeast.new
  | covRoute => MPathAlgoCovRoute.new

/-- The `genPath` of an algorithm. -/
def genPath : (k : Algo) → VisitOrder ℤ → Args → Prog (MPathAlgo k.Own) PathLists
  | covAll => MPathAlgoCovAll.genPath
  | covLong => MPathAlgoCovLong.genPath
  | covShort => MPathAlgoCovShort.genPath
  | covRepeat => MPathAlgoCovRepeat.genPath
  | covShortN2N => MPathAlgoCovShortN2N.genPath
  | covLongN2N => MPathAlgoCovLongN2N.genPath
  | covLeast => MPathAlgoCovLeast.genPath
  | covRoute => MPathAlgoCovRoute.genPath

/-! ### One object -/

/-- What calls keep in the fields of the subclass. -/
def Keeps : (k : Algo) → MPathAlgo k.Own → Prop
  | covAll, _ | covRepeat, _ | covLeast, _ | covRoute, _ => True
  | covLong, m => CovBest.Idle longest m.own
  | covShort, m => CovBest.Idle shortest m.own
  | covShortN2N, m => ∃ left, CovN2N.Sound shortest m.own left
  | covLongN2N, m => ∃ left, CovN2N.Sound longest m.own left

/-- A call on the object, which visits its start states in the order `o`, is not disturbed by what
earlier calls have left there; a new object visits them in the order `o'`. -/
def Undisturbed : (k : Algo) → VisitOrder ℤ → VisitOrder ℤ → Args → MPathAlgo k.Own → Prop
  | covShortN2N, o, o', a, m => CovN2N.Undisturbed shortest o o' a m
  | covLongN2N, o, o', a, m => CovN2N.Undisturbed longest o o' a m
  | covLeast, o, o', a, _ => MPathAlgoCovLeast.SamePicks o o' a
  | _, _, _, _, _ => True

/-- A new object has nothing left over. -/
theorem keeps_new (k : Algo) : k.Keeps k.new := by
  cases k with
  | covAll => trivial
  | covLong => exact CovBest.idle_new
  | covShort => exact CovBest.idle_new
  | covRepeat => trivial
  | covShortN2N => exact ⟨[], CovN2N.sound_new⟩
  | covLongN2N => exact ⟨[], CovN2N.sound_new⟩
  | covLeast => trivial
  | covRoute => trivial

/-- A call leaves an object such that the next one finds its invariant. -/
theorem keeps_exec {k : Algo} {a : Args} (h : a.graph.Wf) {m : MPathAlgo k.Own} (hm : k.Keeps m)
    (o : VisitOrder ℤ) : k.Keeps ((k.genPath o a).exec m) := by
  cases k with
  | covAll => trivial
  | covLong => exact CovBest.idle_exec h hm o
  | covShort => exact CovBest.idle_exec h hm o
  | covRepeat => trivial
  | covShortN2N =>
    obtain ⟨left, hm⟩ := hm
    exact CovN2N.sound_exec h hm o
  | covLongN2N =>
    obtain ⟨left, hm⟩ := hm
    exact CovN2N.sound_exec h hm o
  | covLeast => trivial
  | covRoute => trivial

/-- **One used object against a new one**, in any two orders of the start states. -/
theorem samePaths_iff {k : Algo} {a : Args} (h : a.graph.Wf) {m : MPathAlgo k.Own}
    (hm : k.Keeps m) (o o' : VisitOrder ℤ) :
    SamePaths ((k.genPath o a).eval m) ((k.genPath o' a).eval k.new) ↔ k.Undisturbed o o' a m := by
  cases k with
  | covAll =>
    exact iff_of_true (MPathAlgoCovAll.samePaths_orders h o o' m MPathAlgoCovAll.new) trivial
  | covLong => exact iff_of_true (CovBest.samePaths_orders h hm CovBest.idle_new o o') trivial
  | covShort => exact iff_of_true (CovBest.samePaths_orders h hm CovBest.idle_new o o') trivial
  | covRepeat =>
    exact iff_of_true (MPathAlgoCovRepeat.samePaths_orders h o o' m MPathAlgoCovRepeat.new) trivial
  | covShortN2N =>
    obtain ⟨left, hm⟩ := hm
    exact CovN2N.samePaths_iff h hm o o'
  | covLongN2N =>
    obtain ⟨left, hm⟩ := hm
    exact CovN2N.samePaths_iff h hm o o'
  | covLeast => exact MPathAlgoCovLeast.samePaths_iff h o o' m MPathAlgoCovLeast.new
  | covRoute =>
    exact iff_of_true (MPathAlgoCovRoute.samePaths_orders h o o' m MPathAlgoCovRoute.new) trivial

end Algo

/-! ### The manager -/

/-- `MPathAlgoMag`: an object of each algorithm. -/
structure MPathAlgoMag where
  object : (k : Algo) → MPathAlgo k.Own

/-- A scenario: the name of an algorithm and the arguments of `genPath`, with the order in which
the object visits the start states in this call. -/
structure Call where
  name : String
  args : Args
  order : VisitOrder ℤ
  built : ∃ es, args.graph = .ofEdges es

namespace MPathAlgoMag

/-- `getInstance()`, before any call. -/
def manager : MPathAlgoMag := ⟨Algo.new⟩

/-- The names that the manager knows. -/
def algoMap : HashMap String Algo :=
  ((((((((∅ : HashMap String Algo).insert MPathConfig.PATH_ALL .covAll).insert
    MPathConfig.PATH_LONG .covLong).insert MPathConfig.PATH_SHORT .covShort).insert
    MPathConfig.PATH_REPEAT .covRepeat).insert MPathConfig.PATH_SHORTN2N .covShortN2N).insert
    MPathConfig.PATH_LONGN2N .covLongN2N).insert MPathConfig.PATH_LEAST .covLeast).insert
    MPathConfig.PATH_ROUTE .covRoute

/-- The algorithm of the name; `all` where there is none. -/
def getAlgorithm (name : String) : Algo :=
  match algoMap.lookup (Text.toLowerCase name) with
  | some k => k
  | none => .covAll

end MPathAlgoMag

/-- The algorithm of the call. -/
def Call.algo (c : Call) : Algo := MPathAlgoMag.getAlgorithm c.name

namespace MPathAlgoMag

/-- What the call returns, if it returns. -/
def genPath (mag : MPathAlgoMag) (c : Call) : Option PathLists :=
  (c.algo.genPath c.order c.args).eval (mag.object c.algo)

/-- The manager after the call. -/
def afterCall (mag : MPathAlgoMag) (c : Call) : MPathAlgoMag :=
  ⟨Function.update mag.object c.algo ((c.algo.genPath c.order c.args).exec (mag.object c.algo))⟩

/-- The manager after some calls. -/
def afterCalls (mag : MPathAlgoMag) (cs : List Call) : MPathAlgoMag := cs.foldl afterCall mag

/-- A call of the manager keeps the invariants of all its objects. -/
theorem keeps_afterCall {mag : MPathAlgoMag} (h : ∀ k : Algo, k.Keeps (mag.object k)) (c : Call)
    (k : Algo) : k.Keeps ((mag.afterCall c).object k) := by
  obtain ⟨es, hg⟩ := c.built
  have hwf : c.args.graph.Wf := hg ▸ MGraph.wf_ofEdges es
  by_cases e : k = c.algo
  · subst e
    have hself : (mag.afterCall c).object c.algo =
        (c.algo.genPath c.order c.args).exec (mag.object c.algo) := Function.update_self ..
    rw [hself]
    exact Algo.keeps_exec hwf (h c.algo) c.order
  · have hne : (mag.afterCall c).object k = mag.object k := Function.update_of_ne e ..
    rw [hne]
    exact h k

/-- What a sequence of calls leaves, whether they return or throw. -/
theorem keeps_afterCalls (cs : List Call) (k : Algo) :
    k.Keeps ((manager.afterCalls cs).object k) := by
  suffices H : ∀ mag : MPathAlgoMag, (∀ k : Algo, k.Keeps (mag.object k)) →
      ∀ k : Algo, k.Keeps ((mag.afterCalls cs).object k) from H manager Algo.keeps_new k
  induction cs with
  | nil => exact fun mag h => h
  | cons c cs ih => exact fun mag h => ih (mag.afterCall c) (keeps_afterCall h c)

/-- **When earlier scenarios do not matter.**  After any sequence of calls, whether they returned
or threw, a call returns the paths that it returns on a new object, in whatever order `o` this one
visits its start states, exactly when what the object holds from the calls before does not disturb
it. -/
theorem samePaths_manager_iff (cs : List Call) (c : Call) (o : VisitOrder ℤ) :
    SamePaths ((manager.afterCalls cs).genPath c) (manager.genPath { c with order := o }) ↔
      c.algo.Undisturbed c.order o c.args ((manager.afterCalls cs).object c.algo) := by
  obtain ⟨es, hg⟩ := c.built
  have hwf : c.args.graph.Wf := hg ▸ MGraph.wf_ofEdges es
  exact Algo.samePaths_iff hwf (keeps_afterCalls cs c.algo) c.order o

/-- `A → B → C`, from `A` to `stop`. -/
def lineArgs (stop : String) : Args where
  graph := .ofEdges [⟨"A", "B", "go", 1, 1⟩, ⟨"B", "C", "on", 2, 1⟩]
  startStateNameList := some ["A"]
  stopStateNameList := some [stop]
  throughStateNameList := none
  throughStepNameList := none
  routeList := some []

/-- A call on a line of three states. -/
def lineCall (name stop : String) : Call := ⟨name, lineArgs stop, .insertion, _, rfl⟩

/-- After a scenario that stops at `B`, one that stops at `C` returns the path to `B` as well. -/
theorem not_samePaths_line :
    ¬ SamePaths ((manager.afterCalls [lineCall MPathConfig.PATH_SHORTN2N "B"]).genPath
        (lineCall MPathConfig.PATH_SHORTN2N "C"))
      (manager.genPath (lineCall MPathConfig.PATH_SHORTN2N "C")) ∧
    ¬ SamePaths ((manager.afterCalls [lineCall MPathConfig.PATH_LONGN2N "B"]).genPath
        (lineCall MPathConfig.PATH_LONGN2N "C"))
      (manager.genPath (lineCall MPathConfig.PATH_LONGN2N "C")) := by
  have hnew : ∀ name ∈ [MPathConfig.PATH_SHORTN2N, MPathConfig.PATH_LONGN2N],
      manager.genPath (lineCall name "C") = some (.ofPaths [⟨[0, 1, 2], [1, 2], [1, 2]⟩]) := by
    decide +kernel
  have hused : ∀ name ∈ [MPathConfig.PATH_SHORTN2N, MPathConfig.PATH_LONGN2N],
      (manager.afterCalls [lineCall name "B"]).genPath (lineCall name "C") =
        some (.ofPaths [⟨[0, 1], [1], [1]⟩, ⟨[0, 1, 2], [1, 2], [1, 2]⟩]) := by
    decide +kernel
  have hdiffer : ∀ name ∈ [MPathConfig.PATH_SHORTN2N, MPathConfig.PATH_LONGN2N],
      ¬ SamePaths ((manager.afterCalls [lineCall name "B"]).genPath (lineCall name "C"))
        (manager.genPath (lineCall name "C")) := by
    intro name hname hsame
    rw [hnew name hname, hused name hname, samePaths_ofPaths] at hsame
    exact absurd hsame.length_eq (by decide)
  exact ⟨hdiffer _ List.mem_cons_self, hdiffer _ (List.mem_cons_of_mem _ List.mem_cons_self)⟩

end MPathAlgoMag

end MBT
