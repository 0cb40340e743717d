import MBT.Path.CovAll
import MBT.Support.Cover

/-!
# Path — CovLeast

`MPathAlgoCovLeast`: of the paths of a search, some that use together all steps the paths use.
They are chosen greedily: the next is the first of those that add the most steps.

* `exists_chosen`: the loop of the greedy choice ends.
* `run_genPath`: what `genPath` returns, the paths of `MPathAlgoCovAll` at the indices it has chosen.
-/

namespace MBT
open Exec MPathAlgo

namespace MPathAlgoCovLeast

/-- The constructor of `MPathAlgoCovLeast`. -/
def new : MPathAlgo Unit := .new ()

/-- The search of `MPathAlgoCovAll`. -/
def dfs : ℕ → ℤ → ℕ → Prog (MPathAlgo Unit) Unit := MPathAlgo.dfs fun _ => addPath

/-! ### The greedy cover -/

/-- The local lists and sets of `getCoverSet`. -/
structure Cover where
  setNumberList : HashSet ℤ
  isSetUsedList : List Bool
  curSet : HashSet ℤ

/-- An unused path that makes the union with `curSet` largest, the first of these; `-1` where all
are used. -/
def largestUnion (pathLists : List (List ℤ)) (c : Cover) : ℤ :=
  ((List.range pathLists.length).foldl (fun (best : ℤ × ℤ) i =>
    if c.isSetUsedList.getD i false then best
    else
      let size : ℤ := (c.curSet.addAll (pathLists.getD i [])).size
      if size > best.2 then (i, size) else best) (-1, -1)).1

/-- A turn of the `while` loop. -/
def choose (pathLists : List (List ℤ)) (c : Cover) : Except Exn Cover := do
  let setIdx := largestUnion pathLists c
  let isSetUsedList ← ArrayList.set c.isSetUsedList setIdx true
  let path ← ArrayList.get pathLists setIdx
  return { setNumberList := c.setNumberList.add setIdx, isSetUsedList,
           curSet := c.curSet.addAll path }

/-- The indices of the chosen paths.  Each turn marks another path as used or throws, so the loop
ends within as many turns as there are paths. -/
def getCoverSet (pathLists : List (List ℤ)) : Except Exn (HashSet ℤ) := do
  let allSet : HashSet ℤ := pathLists.foldl HashSet.addAll .empty
  let c ← (List.range pathLists.length).foldlM
    (fun c _ => if c.curSet.size < allSet.size then choose pathLists c else .ok c)
    (Cover.mk .empty (List.replicate pathLists.length false) .empty)
  return c.setNumberList

/-! ### What the greedy choice keeps -/

/-- The elements of the lists, list by list. -/
def family (pathLists : List (List ℤ)) : List (Finset ℤ) := pathLists.map List.toFinset

/-- The `while` loop after `n` turns, those after its end doing nothing. -/
def coverAfter (pathLists : List (List ℤ)) (n : ℕ) : Except Exn Cover :=
  let allSet : HashSet ℤ := pathLists.foldl HashSet.addAll .empty
  (List.range n).foldlM
    (fun c _ => if c.curSet.size < allSet.size then choose pathLists c else .ok c)
    (Cover.mk .empty (List.replicate pathLists.length false) .empty)

/-- The condition of the loop fails. -/
def Done (pathLists : List (List ℤ)) (c : Cover) : Prop :=
  ¬ c.curSet.size < (pathLists.foldl HashSet.addAll (.empty : HashSet ℤ)).size

/-- The choice is that of the loop, when it ends. -/
theorem getCoverSet_eq {pathLists : List (List ℤ)} {c : Cover}
    (h : coverAfter pathLists pathLists.length = .ok c) :
    getCoverSet pathLists = .ok c.setNumberList := by
  rw [coverAfter] at h
  rw [getCoverSet, h]
  rfl

/-- The lists and sets once the paths `p` have been chosen. -/
structure Chosen (pathLists : List (List ℤ)) (p : List ℕ) (c : Cover) : Prop where
  picks : Cover.Picks (family pathLists) p
  numbers : c.setNumberList.elems = p.map fun i : ℕ => (i : ℤ)
  used : c.isSetUsedList = (List.range pathLists.length).map fun i => decide (i ∈ p)
  cur : c.curSet.elems.toFinset = Cover.union (family pathLists) p

variable {pathLists : List (List ℤ)} {p : List ℕ} {c : Cover}

/-- The size of a set is the number of its elements. -/
theorem size_eq_card (s : HashSet ℤ) : s.size = s.elems.toFinset.card :=
  (List.toFinset_card_of_nodup s.nodup).symm

/-- The part at an index holds the steps of the path there. -/
theorem part_family (i : ℕ) : Cover.part (family pathLists) i = (pathLists.getD i []).toFinset := by
  rw [Cover.part, family, List.getD_eq_getElem?_getD, List.getElem?_map, List.getD_eq_getElem?_getD]
  cases pathLists[i]? <;> rfl

/-- All steps are those of some path. -/
theorem mem_allSet {t : ℤ} : t ∈ (pathLists.foldl HashSet.addAll (.empty : HashSet ℤ)).elems ↔
    ∃ i, t ∈ Cover.part (family pathLists) i := by
  rw [HashSet.mem_elems_foldl (Q := fun l => t ∈ l) fun s l => HashSet.mem_elems_addAll]
  simp only [HashSet.elems_empty, List.not_mem_nil, false_or, part_family, List.mem_toFinset]
  constructor
  · rintro ⟨l, hl, ht⟩
    obtain ⟨i, hi, rfl⟩ := List.getElem_of_mem hl
    exact ⟨i, by rwa [List.getD_eq_getElem _ _ hi]⟩
  · rintro ⟨i, ht⟩
    by_cases hi : i < pathLists.length
    · rw [List.getD_eq_getElem _ _ hi] at ht
      exact ⟨_, List.getElem_mem hi, ht⟩
    · rw [List.getD_eq_default _ _ (Nat.le_of_not_lt hi)] at ht
      cases ht

namespace Chosen

variable (h : Chosen pathLists p c)
include h

/-- The size that the loop over the paths computes for the `i`-th one. -/
theorem size_addAll (i : ℕ) : (c.curSet.addAll (pathLists.getD i [])).size =
    (Cover.union (family pathLists) p ∪ Cover.part (family pathLists) i).card := by
  rw [size_eq_card, ← h.cur, part_family]
  congr 1
  ext t
  simp

/-- The paths marked as used are those chosen. -/
theorem getD_used {i : ℕ} (hi : i < pathLists.length) :
    c.isSetUsedList.getD i false = decide (i ∈ p) := by
  rw [h.used, List.getD_eq_getElem _ _ (by simpa using hi)]
  simp

/-- The loop ends when the chosen paths use every step. -/
theorem done_iff : Done pathLists c ↔ Cover.Covers (family pathLists) p := by
  have hsub : Cover.union (family pathLists) p ⊆
      (pathLists.foldl HashSet.addAll (.empty : HashSet ℤ)).elems.toFinset := fun t ht => by
    obtain ⟨i, -, hi⟩ := Cover.mem_union.mp ht
    exact List.mem_toFinset.mpr (mem_allSet.mpr ⟨i, hi⟩)
  rw [Done, size_eq_card, size_eq_card, h.cur, Nat.not_lt]
  constructor
  · intro hle i t ht
    rw [Finset.eq_of_subset_of_card_le hsub hle]
    exact List.mem_toFinset.mpr (mem_allSet.mpr ⟨i, ht⟩)
  · intro hc
    refine Finset.card_le_card fun t ht => ?_
    obtain ⟨i, hi⟩ := mem_allSet.mp (List.mem_toFinset.mp ht)
    exact hc i hi

end Chosen

/-- The scan of the paths: the first of the best among those unused before `k`, `-1` where there is
none. -/
theorem scan (size : ℕ → ℕ) (used : ℕ → Bool) (k : ℕ) :
    let best := (List.range k).foldl (fun (best : ℤ × ℤ) i =>
      if used i then best else if (size i : ℤ) > best.2 then ((i : ℤ), (size i : ℤ)) else best) (-1, -1)
    (best = (-1, -1) ∧ ∀ j < k, used j = true) ∨
      ∃ i < k, best = ((i : ℤ), (size i : ℤ)) ∧ used i = false ∧
        (∀ j < k, used j = false → size j ≤ size i) ∧ ∀ j < i, used j = false → size j < size i := by
  induction k with
  | zero => exact .inl ⟨rfl, fun j hj => absurd hj (Nat.not_lt_zero j)⟩
  | succ k ih =>
    dsimp only at ih ⊢
    rw [List.range_succ, List.foldl_append, List.foldl_cons, List.foldl_nil]
    cases hk : used k with
    | true =>
      rw [if_pos rfl]
      have hlast : ∀ j < k + 1, used j = false → j < k := fun j hj hu => by
        rcases Nat.lt_succ_iff_lt_or_eq.mp hj with hj | rfl
        · exact hj
        · exact absurd hk (by simp [hu])
      rcases ih with ⟨e, hall⟩ | ⟨i, hi, e, hu, hmost, hfirst⟩
      · refine .inl ⟨e, fun j hj => ?_⟩
        rcases Nat.lt_succ_iff_lt_or_eq.mp hj with hj | rfl
        · exact hall j hj
        · exact hk
      · exact .inr ⟨i, Nat.lt_succ_of_lt hi, e, hu,
          fun j hj hu' => hmost j (hlast j hj hu') hu', hfirst⟩
    | false =>
      rw [if_neg Bool.false_ne_true]
      rcases ih with ⟨e, hall⟩ | ⟨i, hi, e, hu, hmost, hfirst⟩
      · rw [e, if_pos (by omega)]
        refine .inr ⟨k, Nat.lt_succ_self k, rfl, hk, fun j hj hu' => ?_, fun j hj hu' => ?_⟩
        · rcases Nat.lt_succ_iff_lt_or_eq.mp hj with hj | rfl
          · exact absurd (hall j hj) (by simp [hu'])
          · exact le_rfl
        · exact absurd (hall j hj) (by simp [hu'])
      · rw [e]
        by_cases hlt : size i < size k
        · rw [if_pos (by simpa using hlt)]
          refine .inr ⟨k, Nat.lt_succ_self k, rfl, hk, fun j hj hu' => ?_, fun j hj hu' => ?_⟩
          · rcases Nat.lt_succ_iff_lt_or_eq.mp hj with hj | rfl
            · exact (hmost j hj hu').trans hlt.le
            · exact le_rfl
          · exact (hmost j hj hu').trans_lt hlt
        · rw [if_neg (by simpa using hlt)]
          refine .inr ⟨i, Nat.lt_succ_of_lt hi, rfl, hu, fun j hj hu' => ?_, hfirst⟩
          rcases Nat.lt_succ_iff_lt_or_eq.mp hj with hj | rfl
          · exact hmost j hj hu'
          · exact Nat.le_of_not_lt hlt

namespace Chosen

variable (h : Chosen pathLists p c)
include h

/-- The scan of the source, in terms of the parts. -/
theorem largestUnion_eq : largestUnion pathLists c =
    ((List.range pathLists.length).foldl (fun (best : ℤ × ℤ) i =>
      if decide (i ∈ p) then best
      else if ((Cover.union (family pathLists) p ∪ Cover.part (family pathLists) i).card : ℤ) > best.2
      then ((i : ℤ), ((Cover.union (family pathLists) p ∪
        Cover.part (family pathLists) i).card : ℤ)) else best) (-1, -1)).1 := by
  rw [largestUnion]
  refine congrArg Prod.fst (List.foldl_ext _ _ _ fun best i hi => ?_)
  rw [h.getD_used (List.mem_range.mp hi)]
  dsimp only
  rw [h.size_addAll]

/-- Where a step is missing, the scan finds the path to pick. -/
theorem isPick (hc : ¬ Cover.Covers (family pathLists) p) :
    ∃ i : ℕ, largestUnion pathLists c = i ∧ Cover.IsPick (family pathLists) p i ∧ i ∉ p := by
  -- some path adds a step, so it is unused
  simp only [Cover.Covers, not_forall] at hc
  obtain ⟨j, hj⟩ := hc
  have hlen : (family pathLists).length = pathLists.length := List.length_map _
  have hjlt : j < pathLists.length := by
    by_contra hn
    refine hj ?_
    rw [part_family, List.getD_eq_default _ _ (Nat.le_of_not_lt hn)]
    exact Finset.empty_subset _
  have hused : ∀ k ∈ p, Cover.part (family pathLists) k ⊆ Cover.union (family pathLists) p :=
    fun k hk x hx => Cover.mem_union.mpr ⟨k, hk, hx⟩
  have hadds : (Cover.union (family pathLists) p).card <
      (Cover.union (family pathLists) p ∪ Cover.part (family pathLists) j).card :=
    Finset.card_lt_card ⟨Finset.subset_union_left,
      fun hsub => hj (Finset.subset_union_right.trans hsub)⟩
  rw [h.largestUnion_eq]
  rcases scan (fun i => (Cover.union (family pathLists) p ∪
    Cover.part (family pathLists) i).card) (fun i => decide (i ∈ p)) pathLists.length with
    ⟨-, hall⟩ | ⟨i, hi, e, hu, hmost, hfirst⟩
  · exact absurd (hused j (of_decide_eq_true (hall j hjlt))) hj
  · have hnotMem : i ∉ p := of_decide_eq_false hu
    have hbest := hmost j hjlt (decide_eq_false fun hm => hj (hused j hm))
    refine ⟨i, by rw [e], ⟨hlen ▸ hi, fun k => ?_, fun k hk => ?_⟩, hnotMem⟩
    · by_cases hk : k ∈ p
      · rw [Finset.union_eq_left.mpr (hused k hk)]
        exact hadds.le.trans hbest
      · by_cases hlt : k < pathLists.length
        · exact hmost k hlt (decide_eq_false hk)
        · rw [part_family k, List.getD_eq_default _ _ (Nat.le_of_not_lt hlt), List.toFinset_nil,
            Finset.union_empty]
          exact hadds.le.trans hbest
    · by_cases hkp : k ∈ p
      · rw [Finset.union_eq_left.mpr (hused k hkp)]
        exact hadds.trans_le hbest
      · exact hfirst k hk (decide_eq_false hkp)

/-- A turn of the loop. -/
theorem choose (hc : ¬ Cover.Covers (family pathLists) p) :
    ∃ i c', choose pathLists c = .ok c' ∧ Chosen pathLists (p ++ [i]) c' := by
  obtain ⟨i, hi, hpick, hnotMem⟩ := h.isPick hc
  have hlt : i < pathLists.length := by
    have := hpick.lt
    rwa [family, List.length_map] at this
  have hset : ArrayList.set c.isSetUsedList (i : ℤ) true = .ok (c.isSetUsedList.set i true) :=
    ArrayList.set_ok true (by rw [h.used]; simpa using hlt)
  have hget : ArrayList.get pathLists (i : ℤ) = .ok pathLists[i] :=
    ArrayList.get_ok (List.getElem?_eq_getElem hlt)
  refine ⟨i, ⟨c.setNumberList.add i, c.isSetUsedList.set i true, c.curSet.addAll pathLists[i]⟩, ?_,
    .snoc h.picks hc hpick, ?_, ?_, ?_⟩
  · rw [MPathAlgoCovLeast.choose, hi, hset, ok_bind, hget, ok_bind]
    rfl
  · have hnew : (i : ℤ) ∉ c.setNumberList.elems := by
      rw [h.numbers]
      simpa using hnotMem
    rw [List.map_append, ← h.numbers]
    simp only [HashSet.add, dif_neg hnew, List.map_cons, List.map_nil]
  · rw [h.used]
    refine List.ext_getElem (by simp) fun j hj hj' => ?_
    simp only [List.length_set, List.length_map, List.length_range] at hj
    rw [List.getElem_set]
    by_cases e : i = j
    · simp [e]
    · simp [e, Ne.symm e]
  · have hpart : Cover.part (family pathLists) i = _ := part_family i
    rw [List.getD_eq_getElem _ _ hlt] at hpart
    rw [Cover.union_snoc, ← h.cur, hpart]
    ext t
    simp

end Chosen

/-- The loop ends, without an index error, once no step is missing; by then no more paths have been
chosen than there are. -/
theorem exists_chosen (pathLists : List (List ℤ)) :
    ∃ p c, coverAfter pathLists pathLists.length = .ok c ∧ Chosen pathLists p c ∧
      Cover.Covers (family pathLists) p := by
  have hloop : ∀ n, ∃ p c, coverAfter pathLists n = .ok c ∧ Chosen pathLists p c ∧
      (Cover.Covers (family pathLists) p ∨ p.length = n) := by
    intro n
    induction n with
    | zero =>
      refine ⟨[], _, rfl, ⟨.nil, rfl, ?_, ?_⟩, .inr rfl⟩
      · simp
      · rfl
    | succ n ih =>
      obtain ⟨p, c, hc, h, hor⟩ := ih
      have hsucc : coverAfter pathLists (n + 1) =
          if c.curSet.size < (pathLists.foldl HashSet.addAll (.empty : HashSet ℤ)).size then
            choose pathLists c else .ok c := by
        rw [coverAfter] at hc ⊢
        rw [List.range_succ, List.foldlM_append, hc, ok_bind, List.foldlM_cons]
        exact bind_pure _
      rw [hsucc]
      by_cases hcov : Cover.Covers (family pathLists) p
      · exact ⟨p, c, if_neg (h.done_iff.mpr hcov), h, .inl hcov⟩
      · obtain ⟨i, c', hchoose, h'⟩ := h.choose hcov
        refine ⟨p ++ [i], c', ?_, h', .inr ?_⟩
        · rw [if_pos (not_not.mp fun hn => hcov (h.done_iff.mp hn)), hchoose]
        · rw [List.length_append, hor.resolve_left hcov, List.length_singleton]
  obtain ⟨p, c, hc, h, hor⟩ := hloop pathLists.length
  refine ⟨p, c, hc, h, hor.elim id fun hlen i x hx => ?_⟩
  -- all paths are chosen
  have hi : i < pathLists.length := by
    by_contra hn
    rw [part_family, List.getD_eq_default _ _ (Nat.le_of_not_lt hn)] at hx
    exact absurd hx (Finset.notMem_empty x)
  have hsub : p ⊆ List.range pathLists.length := fun j hj => by
    have hlt := h.picks.lt_length j hj
    rw [family, List.length_map] at hlt
    exact List.mem_range.mpr hlt
  have hall := (List.subperm_of_subset h.picks.nodup hsub).perm_of_length_le (by simp [hlen])
  exact Cover.mem_union.mpr ⟨i, hall.mem_iff.mpr (List.mem_range.mpr hi), hx⟩

/-! ### The algorithm -/

/-- The paths of a search that pass the filters, less those that the greedy choice leaves out. -/
def genPath (o : VisitOrder ℤ) (a : Args) : Prog (MPathAlgo Unit) PathLists := do
  init a
  rounds o dfs
  delPathWithoutThroughState
  delPathWithoutThroughStep
  let m ← get
  let leastPathNumSet ← Prog.lift (getCoverSet m.pathsMap.stepPath)
  modify fun m => { m with pathsMap := m.pathsMap.removeBack fun _ i => !leastPathNumSet.contains i }
  let m ← get
  return m.pathsMap

/-- The paths at the chosen indices, in their order. -/
def pathsAt (all : List Path) (chosen : List ℕ) : List Path :=
  all.filter fun q => decide (all.idxOf q ∈ chosen)

/-- **What `genPath` returns**: the paths of CovAll at the indices that the loop has chosen. -/
theorem run_genPath {a : Args} (h : a.graph.Wf) (hr : a.CovsNamed) (o : VisitOrder ℤ)
    (m : MPathAlgo Unit) {p : List ℕ} {c : Cover}
    (hc : coverAfter ((a.paths (MPathAlgoCovAll.covered o a)).map Path.steps)
      ((a.paths (MPathAlgoCovAll.covered o a)).map Path.steps).length = .ok c)
    (hchosen : Chosen ((a.paths (MPathAlgoCovAll.covered o a)).map Path.steps) p c) :
    ∃ l, (genPath o a).run m =
      .ok (.ofPaths (pathsAt (a.paths (MPathAlgoCovAll.covered o a)) p))
        ((a.ready () l).withOut
          (.ofPaths (pathsAt (a.paths (MPathAlgoCovAll.covered o a)) p), ())) := by
  obtain ⟨l, hinit⟩ := run_init_ok h hr m
  have hrounds : (rounds o dfs).run (a.ready () l) = .ok ⟨⟩ ((a.ready () l).withOut
      (.ofPaths (a.paths (a.found o (fun _ _ => true) 0)), ())) :=
    run_rounds h fun s hs ps => run_round_dfs h (records_addPath _) hs () l trivial
  have hfilter : (a.paths (a.found o (fun _ _ => true) 0)).filter (passes a) =
      a.paths (MPathAlgoCovAll.covered o a) := List.filter_map
  have hnodup : (a.paths (MPathAlgoCovAll.covered o a)).Nodup := MPathAlgoCovAll.nodup_covered h o
  refine ⟨l, ?_⟩
  rw [genPath, Prog.run_bind_ok hinit, Prog.run_bind_ok hrounds, run_filters, hfilter]
  generalize a.paths (MPathAlgoCovAll.covered o a) = all at hc hchosen hnodup ⊢
  have hcover : getCoverSet (PathLists.ofPaths all).stepPath = .ok c.setNumberList :=
    getCoverSet_eq hc
  -- the paths are different, so an index to be kept is a path to be kept
  have hremove : (PathLists.ofPaths all).removeBack (fun _ i => !c.setNumberList.contains i) =
      .ofPaths (pathsAt all p) := by
    refine PathLists.removeBack_ofPaths fun q x r t e => ?_
    have hidx : all.idxOf x = q.length := by
      subst e
      rw [List.idxOf_append_of_notMem fun hx =>
        (List.nodup_append.mp hnodup).2.2 x hx x List.mem_cons_self rfl, List.idxOf_cons_self,
        Nat.add_zero]
    rw [hidx, HashSet.contains, hchosen.numbers]
    simp
  rw [Prog.run_bind_get]
  change EStateM.run (Prog.lift (getCoverSet (PathLists.ofPaths all).stepPath) >>= _) _ = _
  rw [hcover, Prog.lift_ok, pure_bind, EStateM.run_bind, EStateM.run_modify]
  change EStateM.Result.ok ((PathLists.ofPaths all).removeBack
    (fun _ i => !c.setNumberList.contains i)) ((a.ready () l).withOut
      ((PathLists.ofPaths all).removeBack (fun _ i => !c.setNumberList.contains i), ())) = _
  rw [hremove]

example : (getCoverSet [[1], [2, 3], [3, 4], [1, 2]]).toOption.map HashSet.elems =
    some [1, 0, 2] := by decide +kernel

end MPathAlgoCovLeast

end MBT
