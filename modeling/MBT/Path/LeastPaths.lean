import MBT.Path.CovLeast

/-!
# Path — LeastPaths

`MPathAlgoCovLeast`, for the steps that the paths of `MPathAlgoCovAll` use.

* `genPath_covers`: it returns some of these paths that use all the steps, each of them chosen for
  a step that the ones chosen before do not use.
* `genPath_least_iff`: they are as few as can be exactly when each choice can be exchanged into any
  cover of the steps still missing.
* `not_least_overlap`: three paths are returned where two are enough.
* `samePaths_iff`: when the paths are the same in two orders of the start states.
-/

namespace MBT
open Exec Multigraph MPathAlgo

namespace MPathAlgoCovLeast

variable {all qs : List Path} {p : List ℕ}

/-- The paths `qs` use all steps that the paths `all` use. -/
def UsesAll (all qs : List Path) : Prop := ∀ q ∈ all, ∀ t ∈ q.steps, ∃ q' ∈ qs, t ∈ q'.steps

/-- No fewer of the paths `all` than `ret` use all their steps. -/
def Least (all ret : List Path) : Prop :=
  ∀ qs : List Path, qs.Sublist all → UsesAll all qs → ret.length ≤ qs.length

/-- The part at an index holds the steps of the path there. -/
theorem mem_part {i : ℕ} {t : ℤ} : t ∈ Cover.part (family (all.map Path.steps)) i ↔
    ∃ q, all[i]? = some q ∧ t ∈ q.steps := by
  rw [part_family, List.mem_toFinset, List.getD_eq_getElem?_getD, List.getElem?_map]
  cases all[i]? with
  | none => simp
  | some q => simp

/-- The paths at some indices. -/
theorem mem_pathsAt (hn : all.Nodup) {q : Path} :
    q ∈ pathsAt all p ↔ ∃ i ∈ p, all[i]? = some q := by
  rw [pathsAt, List.mem_filter, decide_eq_true_eq]
  constructor
  · rintro ⟨hq, hi⟩
    exact ⟨_, hi, List.getElem?_idxOf hq⟩
  · rintro ⟨i, hi, hq⟩
    obtain ⟨hlt, rfl⟩ := List.getElem?_eq_some_iff.mp hq
    rw [hn.idxOf_getElem]
    exact ⟨List.getElem_mem hlt, hi⟩

/-- No more paths are taken than there are indices. -/
theorem length_pathsAt_le (hn : all.Nodup) (p : List ℕ) : (pathsAt all p).length ≤ p.length := by
  have hidx : ((pathsAt all p).map all.idxOf).Nodup :=
    (hn.filter _).map_on fun q hq q' _ e => (List.idxOf_inj (List.mem_of_mem_filter hq)).mp e
  have hsub : (pathsAt all p).map all.idxOf ⊆ p := fun i hi => by
    obtain ⟨q, hq, rfl⟩ := List.mem_map.mp hi
    exact of_decide_eq_true (List.mem_filter.mp hq).2
  have hle := (List.subperm_of_subset hidx hsub).length_le
  rwa [List.length_map] at hle

/-- There is a path for each index. -/
theorem length_pathsAt (hn : all.Nodup) (hp : p.Nodup) (hlt : ∀ i ∈ p, i < all.length) :
    (pathsAt all p).length = p.length := by
  refine (length_pathsAt_le hn p).antisymm ?_
  have hsub : p ⊆ (pathsAt all p).map all.idxOf := fun i hi => by
    have hi' := hlt i hi
    have hq : all[i]? = some all[i] := List.getElem?_eq_getElem hi'
    exact List.mem_map.mpr ⟨_, (mem_pathsAt hn).mpr ⟨i, hi, hq⟩, hn.idxOf_getElem i hi'⟩
  have hle := (List.subperm_of_subset hp hsub).length_le
  rwa [List.length_map] at hle

/-- The paths of a cover use all steps. -/
theorem usesAll_pathsAt (hn : all.Nodup) (hc : Cover.Covers (family (all.map Path.steps)) p) :
    UsesAll all (pathsAt all p) := by
  intro q hq t ht
  obtain ⟨j, hj, htj⟩ := Cover.mem_union.mp
    (hc (all.idxOf q) (mem_part.mpr ⟨q, List.getElem?_idxOf hq, ht⟩))
  obtain ⟨q', hq', ht'⟩ := mem_part.mp htj
  exact ⟨q', (mem_pathsAt hn).mpr ⟨j, hj, hq'⟩, ht'⟩

/-- Some of the paths, by their indices. -/
theorem covers_of_usesAll (hs : qs.Sublist all) (h : UsesAll all qs) :
    Cover.Covers (family (all.map Path.steps)) (qs.map all.idxOf) := by
  intro i t ht
  obtain ⟨q, hq, htq⟩ := mem_part.mp ht
  obtain ⟨q', hq', ht'⟩ := h q (List.mem_of_getElem? hq) t htq
  exact Cover.mem_union.mpr ⟨all.idxOf q', List.mem_map_of_mem hq',
    mem_part.mpr ⟨q', List.getElem?_idxOf (hs.subset hq'), ht'⟩⟩

/-- The paths at the picks are as few as can be exactly when the picks are. -/
theorem least_iff (hn : all.Nodup) (hp : Cover.Picks (family (all.map Path.steps)) p)
    (hc : Cover.Covers (family (all.map Path.steps)) p) :
    Least all (pathsAt all p) ↔ Cover.Exchanges (family (all.map Path.steps)) := by
  have hlt : ∀ i ∈ p, i < all.length := fun i hi => by
    have := hp.lt_length i hi
    rwa [family, List.length_map, List.length_map] at this
  rw [← Cover.minimal_iff hp hc, Least, length_pathsAt hn hp.nodup hlt]
  constructor
  · intro h t ht
    exact (h _ List.filter_sublist (usesAll_pathsAt hn ht)).trans (length_pathsAt_le hn t)
  · intro h qs hs hu
    have hle := h _ (covers_of_usesAll hs hu)
    rwa [List.length_map] at hle

/-! ### What `genPath` returns -/

/-- What `genPath` returns, from any object. -/
theorem exists_eval {a : Args} (h : a.graph.Wf) (hr : a.CovsNamed) (o : VisitOrder ℤ)
    (m : MPathAlgo Unit) : ∃ (p : List ℕ) (c : Cover),
      (genPath o a).eval m = some (.ofPaths (pathsAt (a.paths (MPathAlgoCovAll.covered o a)) p)) ∧
      coverAfter ((a.paths (MPathAlgoCovAll.covered o a)).map Path.steps)
        ((a.paths (MPathAlgoCovAll.covered o a)).map Path.steps).length = .ok c ∧
      Chosen ((a.paths (MPathAlgoCovAll.covered o a)).map Path.steps) p c ∧
      Cover.Covers (family ((a.paths (MPathAlgoCovAll.covered o a)).map Path.steps)) p := by
  obtain ⟨p, c, hc, hchosen, hcovers⟩ :=
    exists_chosen ((a.paths (MPathAlgoCovAll.covered o a)).map Path.steps)
  obtain ⟨l, hrun⟩ := run_genPath h hr o m hc hchosen
  exact ⟨p, c, Prog.eval_ok hrun, hc, hchosen, hcovers⟩

/-- What `genPath` returns beside what CovAll returns. -/
theorem exists_run {a : Args} (h : a.graph.Wf) (hr : a.CovsNamed) (o : VisitOrder ℤ) :
    ∃ (all : List Path) (p : List ℕ) (c : Cover), all.Nodup ∧
      (MPathAlgoCovAll.genPath o a).eval MPathAlgoCovAll.new = some (.ofPaths all) ∧
      (genPath o a).eval new = some (.ofPaths (pathsAt all p)) ∧
      coverAfter (all.map Path.steps) (all.map Path.steps).length = .ok c ∧
      Chosen (all.map Path.steps) p c ∧ Cover.Covers (family (all.map Path.steps)) p := by
  obtain ⟨l, hall⟩ := MPathAlgoCovAll.run_genPath h hr o MPathAlgoCovAll.new
  obtain ⟨p, c, hleast, hc, hchosen, hcovers⟩ := exists_eval h hr o new
  exact ⟨_, p, c, MPathAlgoCovAll.nodup_covered h o, Prog.eval_ok hall, hleast, hc, hchosen, hcovers⟩

/-- **CovLeast covers the steps of CovAll's paths.**  The loop ends without an index error; the
paths returned are some of CovAll's, in the same order, and use all steps that these use.  Each
was chosen for a step that no path chosen before uses, so there are no more paths than different
steps. -/
theorem genPath_covers (es : List EdgeCall) (a : Args) (hg : a.graph = .ofEdges es)
    (hr : a.CovsNamed) (o : VisitOrder ℤ) :
    ∃ (all ret : List Path) (chosen : List ℕ) (c : Cover),
      (MPathAlgoCovAll.genPath o a).eval MPathAlgoCovAll.new = some (.ofPaths all) ∧
      (genPath o a).eval new = some (.ofPaths ret) ∧
      coverAfter (all.map Path.steps) all.length = .ok c ∧ Done (all.map Path.steps) c ∧
      c.setNumberList.elems = chosen.map (fun i : ℕ => (i : ℤ)) ∧
      ret.Sublist all ∧ ret.length = chosen.length ∧
      (∀ q, q ∈ ret ↔ ∃ i ∈ chosen, all[i]? = some q) ∧ UsesAll all ret ∧
      (∀ p i r, chosen = p ++ i :: r → ∃ q t, all[i]? = some q ∧ t ∈ q.steps ∧
        ∀ j ∈ p, ∀ q', all[j]? = some q' → t ∉ q'.steps) ∧
      ret.length ≤ (all.flatMap Path.steps).dedup.length := by
  have h : a.graph.Wf := hg ▸ MGraph.wf_ofEdges es
  obtain ⟨all, p, c, hn, hall, hleast, hc, hchosen, hcovers⟩ := exists_run h hr o
  have hlt : ∀ i ∈ p, i < all.length := fun i hi => by
    have := hchosen.picks.lt_length i hi
    rwa [family, List.length_map, List.length_map] at this
  have hlen := length_pathsAt hn hchosen.picks.nodup hlt
  rw [List.length_map] at hc
  refine ⟨all, pathsAt all p, p, c, hall, hleast, hc, hchosen.done_iff.mpr hcovers, hchosen.numbers,
    List.filter_sublist, hlen, fun q => mem_pathsAt hn, usesAll_pathsAt hn hcovers, ?_, ?_⟩
  · intro q i r e
    obtain ⟨t, ht, hnew⟩ := hchosen.picks.fresh e
    obtain ⟨x, hx, htx⟩ := mem_part.mp ht
    exact ⟨x, t, hx, htx, fun j hj q' hq' ht' => hnew j hj (mem_part.mpr ⟨q', hq', ht'⟩)⟩
  · rw [hlen, ← List.card_toFinset]
    refine hchosen.picks.length_le.trans (Finset.card_le_card fun t ht => ?_)
    obtain ⟨i, -, hi⟩ := Cover.mem_union.mp ht
    obtain ⟨q, hq, htq⟩ := mem_part.mp hi
    exact List.mem_toFinset.mpr (List.mem_flatMap.mpr ⟨q, List.mem_of_getElem? hq, htq⟩)

/-- **When CovLeast returns the least paths.**  No fewer of CovAll's paths use all their steps
exactly when, wherever steps are missing, the path that adds the most of them can be exchanged into
any choice of paths for the missing steps. -/
theorem genPath_least_iff (es : List EdgeCall) (a : Args) (hg : a.graph = .ofEdges es)
    (hr : a.CovsNamed) (o : VisitOrder ℤ) :
    ∃ all ret : List Path,
      (MPathAlgoCovAll.genPath o a).eval MPathAlgoCovAll.new = some (.ofPaths all) ∧
      (genPath o a).eval new = some (.ofPaths ret) ∧
      (Least all ret ↔ Cover.Exchanges (family (all.map Path.steps))) := by
  have h : a.graph.Wf := hg ▸ MGraph.wf_ofEdges es
  obtain ⟨all, p, c, hn, hall, hleast, -, hchosen, hcovers⟩ := exists_run h hr o
  exact ⟨all, pathsAt all p, hall, hleast, least_iff hn hchosen.picks hcovers⟩

/-- Three paths from `S` to `T`: the steps of the first are used by the other two as well. -/
def overlapArgs : Args where
  graph := .ofEdges
    [⟨"S", "A", "s1", 1, 1⟩, ⟨"A", "B", "s2", 2, 1⟩, ⟨"B", "C", "s3", 3, 1⟩, ⟨"C", "T", "s4", 4, 1⟩,
      ⟨"S", "D", "s1", 1, 1⟩, ⟨"D", "E", "s2", 2, 1⟩, ⟨"E", "T", "s5", 5, 1⟩,
      ⟨"S", "F", "s3", 3, 1⟩, ⟨"F", "G", "s4", 4, 1⟩, ⟨"G", "T", "s6", 6, 1⟩]
  startStateNameList := some ["S"]
  stopStateNameList := some ["T"]
  throughStateNameList := none
  throughStepNameList := none
  routeList := some []

theorem genPath_covers_overlap :
    ∃ (all ret : List Path) (chosen : List ℕ) (c : Cover),
      (MPathAlgoCovAll.genPath .insertion overlapArgs).eval MPathAlgoCovAll.new =
        some (.ofPaths all) ∧
      (genPath .insertion overlapArgs).eval new = some (.ofPaths ret) ∧
      coverAfter (all.map Path.steps) all.length = .ok c ∧ Done (all.map Path.steps) c ∧
      c.setNumberList.elems = chosen.map (fun i : ℕ => (i : ℤ)) ∧
      ret.Sublist all ∧ ret.length = chosen.length ∧
      (∀ q, q ∈ ret ↔ ∃ i ∈ chosen, all[i]? = some q) ∧ UsesAll all ret ∧
      (∀ p i r, chosen = p ++ i :: r → ∃ q t, all[i]? = some q ∧ t ∈ q.steps ∧
        ∀ j ∈ p, ∀ q', all[j]? = some q' → t ∉ q'.steps) ∧
      ret.length ≤ (all.flatMap Path.steps).dedup.length :=
  genPath_covers _ overlapArgs rfl (fun _ h => nomatch h) .insertion

theorem genPath_least_iff_overlap :
    ∃ all ret : List Path,
      (MPathAlgoCovAll.genPath .insertion overlapArgs).eval MPathAlgoCovAll.new =
        some (.ofPaths all) ∧
      (genPath .insertion overlapArgs).eval new = some (.ofPaths ret) ∧
      (Least all ret ↔ Cover.Exchanges (family (all.map Path.steps))) :=
  genPath_least_iff _ overlapArgs rfl (fun _ h => nomatch h) .insertion

/-- The path with four steps is chosen first, and the other two are needed besides. -/
theorem not_least_overlap :
    ∃ all ret : List Path,
      (MPathAlgoCovAll.genPath .insertion overlapArgs).eval MPathAlgoCovAll.new =
        some (.ofPaths all) ∧
      (genPath .insertion overlapArgs).eval new = some (.ofPaths ret) ∧ ¬ Least all ret := by
  have hall : (MPathAlgoCovAll.genPath .insertion overlapArgs).eval MPathAlgoCovAll.new =
      some (.ofPaths [⟨[0, 1, 2, 3, 4], [1, 2, 3, 4], [1, 2, 3, 4]⟩,
        ⟨[0, 5, 6, 4], [5, 6, 7], [1, 2, 5]⟩, ⟨[0, 7, 8, 4], [8, 9, 10], [3, 4, 6]⟩]) := by
    decide +kernel
  have hret : (genPath .insertion overlapArgs).eval new =
      some (.ofPaths [⟨[0, 1, 2, 3, 4], [1, 2, 3, 4], [1, 2, 3, 4]⟩,
        ⟨[0, 5, 6, 4], [5, 6, 7], [1, 2, 5]⟩, ⟨[0, 7, 8, 4], [8, 9, 10], [3, 4, 6]⟩]) := by
    decide +kernel
  refine ⟨_, _, hall, hret, fun hleast => ?_⟩
  have htwo := hleast [⟨[0, 5, 6, 4], [5, 6, 7], [1, 2, 5]⟩, ⟨[0, 7, 8, 4], [8, 9, 10], [3, 4, 6]⟩]
    (List.sublist_cons_self _ _) (by unfold UsesAll; decide)
  exact absurd htwo (by decide)

/-! ### Two orders of the start states -/

/-- At some point the path is the first of those that add the most missing steps. -/
def Picked (all : List Path) (q : Path) : Prop :=
  ∃ p i, Cover.Picks (family (all.map Path.steps)) p ∧ ¬ Cover.Covers (family (all.map Path.steps)) p ∧
    Cover.IsPick (family (all.map Path.steps)) p i ∧ all[i]? = some q

/-- The paths at the indices of a greedy cover are the picked ones. -/
theorem mem_pathsAt_iff_picked (hn : all.Nodup) (hp : Cover.Picks (family (all.map Path.steps)) p)
    (hc : Cover.Covers (family (all.map Path.steps)) p) {q : Path} :
    q ∈ pathsAt all p ↔ Picked all q := by
  rw [mem_pathsAt hn]
  constructor
  · rintro ⟨i, hi, hq⟩
    obtain ⟨before, after, rfl⟩ := List.append_of_mem hi
    obtain ⟨hpicks, hmissing, hpick⟩ := hp.of_prefix (p := before) (i := i) ⟨after, by simp⟩
    exact ⟨before, i, hpicks, hmissing, hpick, hq⟩
  · rintro ⟨before, i, hpicks, hmissing, hpick, hq⟩
    obtain ⟨after, rfl⟩ := hp.prefix_of_covers hc (.snoc hpicks hmissing hpick)
    exact ⟨i, by simp, hq⟩

/-- Of CovAll's paths, listed in the two orders of the start states, the same are picked. -/
def SamePicks (o o' : VisitOrder ℤ) (a : Args) : Prop :=
  a.CovsNamed → ∀ q, Picked (a.paths (MPathAlgoCovAll.covered o a)) q ↔
    Picked (a.paths (MPathAlgoCovAll.covered o' a)) q

/-- With one start state there is one order. -/
theorem samePicks_of_starts {a : Args} (hs : a.starts.elems.length ≤ 1) (o o' : VisitOrder ℤ) :
    SamePicks o o' a := by
  have hvisit : o.visit a.starts = o'.visit a.starts := by
    have hperm := o.visit_perm o' a.starts
    have hlen : (o.visit a.starts).length ≤ 1 := (o.perm a.starts).length_eq.trans_le hs
    match hl : o.visit a.starts with
    | [] => exact (hl ▸ hperm).nil_eq
    | [s] => exact (List.perm_singleton.mp (hl ▸ hperm).symm).symm
    | _ :: _ :: _ => simp [hl] at hlen
  have hcovered : MPathAlgoCovAll.covered o a = MPathAlgoCovAll.covered o' a := by
    rw [MPathAlgoCovAll.covered, MPathAlgoCovAll.covered, Args.found, Args.found, hvisit]
  intro _ q
  rw [hcovered]

/-- **When the order of the start states does not matter.**  Two objects return the same paths exactly
when a path that is picked in one of their orders is picked in the other: which of two paths comes
first decides between them where they add equally many steps. -/
theorem samePaths_iff {a : Args} (h : a.graph.Wf) (o o' : VisitOrder ℤ) (m m' : MPathAlgo Unit) :
    SamePaths ((genPath o a).eval m) ((genPath o' a).eval m') ↔ SamePicks o o' a := by
  by_cases hr : a.CovsNamed
  · obtain ⟨p, c, hrun, -, hchosen, hcovers⟩ := exists_eval h hr o m
    obtain ⟨p', c', hrun', -, hchosen', hcovers'⟩ := exists_eval h hr o' m'
    have hn := MPathAlgoCovAll.nodup_covered h o
    have hn' := MPathAlgoCovAll.nodup_covered h o'
    have hp : (pathsAt (a.paths (MPathAlgoCovAll.covered o a)) p).Nodup := hn.filter _
    have hp' : (pathsAt (a.paths (MPathAlgoCovAll.covered o' a)) p').Nodup := hn'.filter _
    rw [hrun, hrun', samePaths_ofPaths, List.perm_ext_iff_of_nodup hp hp', SamePicks,
      forall_prop_of_true hr]
    refine forall_congr' fun q => ?_
    exact iff_congr (mem_pathsAt_iff_picked hn hchosen.picks hcovers)
      (mem_pathsAt_iff_picked hn' hchosen'.picks hcovers')
  · obtain ⟨e, l, hinit⟩ := run_init_throws h hr m
    obtain ⟨e', l', hinit'⟩ := run_init_throws h hr m'
    rw [genPath, genPath, Prog.eval_error (Prog.run_bind_error hinit),
      Prog.eval_error (Prog.run_bind_error hinit')]
    exact iff_of_true .none fun hr' => absurd hr' hr

end MPathAlgoCovLeast

end MBT
