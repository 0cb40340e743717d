import Mathlib.Data.List.Perm.Basic

/-!
# Support — Keyed

Trees whose children are known by keys, the elements at their paths, and what it means to merge an
old tree with a new one: the fields are those of the new one, and those that were there keep their
values.

* `exists_element`: trees with the same keys at every depth have elements at the same paths.
* `merges_iff`: a tree whose children are children of the old one, where that has them, and of the
  new one else, is a merge exactly when the keys are the new ones and the common children have the
  same keys at every depth.
-/

/-- Trees with keys, and values at their leaves. -/
structure Keyed (τ κ β : Type) where
  children : τ → List τ
  key : τ → κ
  val : τ → β

namespace Keyed

variable {τ κ β : Type} [DecidableEq κ] (v : Keyed τ κ β)

/-- The keys of the children. -/
def keys (t : τ) : List κ := (v.children t).map v.key

/-- The first child with a key. -/
def child (k : κ) (t : τ) : Option τ := (v.children t).find? fun c => v.key c = k

/-- The element at a path. -/
def element : List κ → τ → Option τ
  | [], t => some t
  | k :: path, t => (v.child k t).bind (element path)

/-- Siblings have different keys. -/
def Unique (t : τ) : Prop := ∀ path r, v.element path t = some r → (v.keys r).Nodup

/-- At every depth the keys are the same. -/
def SameKeys (s t : τ) : Prop :=
  ∀ path r u, v.element path s = some r → v.element path t = some u → (v.keys r).Perm (v.keys u)

/-- The result has at every depth exactly the keys of the new tree; a leaf that is in both keeps the
old value, and one that is in the new tree only has the new value. -/
structure Merges (old new res : τ) : Prop where
  names : v.SameKeys res new
  kept : ∀ path o t, v.element path old = some o → v.children o = [] → v.element path new = some t →
    v.children t = [] → ∃ r, v.element path res = some r ∧ v.val r = v.val o
  filled : ∀ path t, v.element path old = none → v.element path new = some t → v.children t = [] →
    ∃ r, v.element path res = some r ∧ v.val r = v.val t

variable {v}

/-- A key is one that a child has. -/
theorem mem_keys_iff {k : κ} {t : τ} : k ∈ v.keys t ↔ ∃ c, v.child k t = some c := by
  rw [keys, List.mem_map, ← Option.isSome_iff_exists, child, List.find?_isSome]
  exact exists_congr fun c => and_congr_right fun _ => decide_eq_true_iff.symm

/-- Other keys have no child. -/
theorem notMem_keys_iff {k : κ} {t : τ} : k ∉ v.keys t ↔ v.child k t = none := by
  rw [mem_keys_iff, ← Option.isSome_iff_exists, Option.not_isSome_iff_eq_none]

/-- The element at a path is below the child of its first key. -/
theorem element_cons_eq_some {k : κ} {path : List κ} {t r : τ} :
    v.element (k :: path) t = some r ↔ ∃ c, v.child k t = some c ∧ v.element path c = some r :=
  Option.bind_eq_some_iff

/-- Below a child that is there. -/
theorem element_cons_of_child {k : κ} {path : List κ} {t c : τ} (h : v.child k t = some c) :
    v.element (k :: path) t = v.element path c := by
  rw [Keyed.element, h, Option.bind_some]

/-- Below a child the keys are unique too. -/
theorem Unique.child {k : κ} {t c : τ} (h : v.Unique t) (hc : v.child k t = some c) : v.Unique c := by
  intro path r hr
  exact h (k :: path) r ((element_cons_of_child hc).trans hr)

/-- Keys that are unique at the top and below each child are unique. -/
theorem unique_of_children {t : τ} (h : (v.keys t).Nodup) (hs : ∀ c ∈ v.children t, v.Unique c) :
    v.Unique t := by
  intro path r hr
  cases path with
  | nil =>
    cases hr
    exact h
  | cons k path =>
    obtain ⟨c, hc, hr⟩ := element_cons_eq_some.mp hr
    exact hs c (List.mem_of_find?_eq_some hc) path r hr

/-- Below a leaf there is nothing. -/
theorem element_of_leaf {t r : τ} {path : List κ} (h : v.children t = [])
    (hr : v.element path t = some r) : r = t := by
  cases path with
  | nil => exact (Option.some.inj hr).symm
  | cons k path =>
    obtain ⟨c, hc, -⟩ := element_cons_eq_some.mp hr
    have hmem := List.mem_of_find?_eq_some hc
    rw [h] at hmem
    cases hmem

/-- Leaves have the same keys. -/
theorem sameKeys_of_leaf {s t : τ} (hs : v.children s = []) (ht : v.children t = []) :
    v.SameKeys s t := by
  intro path r u hr hu
  rw [element_of_leaf hs hr, element_of_leaf ht hu, keys, keys, hs, ht]

theorem SameKeys.refl (t : τ) : v.SameKeys t t := by
  intro path r u hr hu
  cases Option.some.inj (hr.symm.trans hu)
  exact List.Perm.refl _

/-- Below children of one key the keys are the same. -/
theorem SameKeys.child {k : κ} {s t c d : τ} (h : v.SameKeys s t) (hc : v.child k s = some c)
    (hd : v.child k t = some d) : v.SameKeys c d := by
  intro path r u hr hu
  exact h (k :: path) r u ((element_cons_of_child hc).trans hr) ((element_cons_of_child hd).trans hu)

/-- Trees with the same keys have elements at the same paths. -/
theorem exists_element {s t u : τ} {path : List κ} (h : v.SameKeys s t) (hu : v.element path t = some u) :
    ∃ r, v.element path s = some r := by
  induction path generalizing s t with
  | nil => exact ⟨s, rfl⟩
  | cons k path ih =>
    obtain ⟨d, hd, hu⟩ := element_cons_eq_some.mp hu
    have hperm := h [] s t rfl rfl
    obtain ⟨c, hc⟩ := mem_keys_iff.mp (hperm.mem_iff.mpr (mem_keys_iff.mpr ⟨d, hd⟩))
    obtain ⟨r, hr⟩ := ih (h.child hc hd) hu
    exact ⟨r, (element_cons_of_child hc).trans hr⟩

/-- Merging one level: the children that are there already are kept as they are, the others are the
new ones. -/
theorem merges_iff {old new res : τ} (hval : v.val res = v.val old)
    (hold : ∀ k o, v.child k old = some o → ∀ r, v.child k res = some r → r = o)
    (hnew : ∀ k, v.child k old = none → ∀ r, v.child k res = some r → v.child k new = some r) :
    v.Merges old new res ↔ (v.keys res).Perm (v.keys new) ∧
      ∀ k o t, v.child k old = some o → v.child k new = some t → v.SameKeys o t := by
  constructor
  · intro h
    have htop := h.names [] res new rfl rfl
    refine ⟨htop, fun k o t ho ht => ?_⟩
    obtain ⟨r, hr⟩ := mem_keys_iff.mp (htop.mem_iff.mpr (mem_keys_iff.mpr ⟨t, ht⟩))
    exact hold k o ho r hr ▸ h.names.child hr ht
  · rintro ⟨htop, hcommon⟩
    have hres : ∀ k t, v.child k new = some t → ∃ r, v.child k res = some r := fun k t ht =>
      mem_keys_iff.mp (htop.mem_iff.mpr (mem_keys_iff.mpr ⟨t, ht⟩))
    constructor
    · intro path r u hr hu
      cases path with
      | nil =>
        cases hr
        cases hu
        exact htop
      | cons k path =>
        obtain ⟨c, hc, hr⟩ := element_cons_eq_some.mp hr
        obtain ⟨d, hd, hu⟩ := element_cons_eq_some.mp hu
        cases ho : v.child k old with
        | some o =>
          rw [hold k o ho c hc] at hr
          exact hcommon k o d ho hd path r u hr hu
        | none =>
          cases Option.some.inj ((hnew k ho c hc).symm.trans hd)
          exact SameKeys.refl c path r u hr hu
    · intro path o t ho hleaf ht hleaf'
      cases path with
      | nil =>
        cases ho
        exact ⟨res, rfl, hval⟩
      | cons k path =>
        obtain ⟨c, hc, ho⟩ := element_cons_eq_some.mp ho
        obtain ⟨d, hd, -⟩ := element_cons_eq_some.mp ht
        obtain ⟨r, hr⟩ := hres k d hd
        rw [hold k c hc r hr] at hr
        exact ⟨o, (element_cons_of_child hr).trans ho, rfl⟩
    · intro path t ho ht hleaf
      cases path with
      | nil => cases ho
      | cons k path =>
        obtain ⟨d, hd, ht⟩ := element_cons_eq_some.mp ht
        obtain ⟨r, hr⟩ := hres k d hd
        cases hc : v.child k old with
        | none =>
          cases Option.some.inj ((hnew k hc r hr).symm.trans hd)
          exact ⟨t, (element_cons_of_child hr).trans ht, rfl⟩
        | some c =>
          -- the common child has an element wherever the new one has
          obtain ⟨u, hu⟩ := exists_element (hcommon k c d hc hd) ht
          rw [element_cons_of_child hc, hu] at ho
          cases ho

end Keyed
