import MBT.Support.Keyed
import Mathlib.Data.List.Forall2
import MBT.View.MQTestActionHandler

/-!
# View — MGenDataFile

An existing data file is brought up to date with the template of the current wizard file: the
messages by their places, the fields of a message by their names.

* `handleField_eq`: the fields of the old tree are merged on one level; what is below is merged in
  the template and in clones.
* `merges_handleField_iff`: when the old tree has exactly the fields of the template, with the old
  values.
* `updates_iff`: when the messages of the file are those of the template.
-/

namespace MBT
open Exec Text MXmlParse

namespace MXmlParse.Element

/-- `attributeValue`; `none` is the reference `null`. -/
def attributeValue (e : Element) (name : String) : Option String := e.attributes.lookup name

end MXmlParse.Element

namespace MGenDataFile

section Merge

variable (fold : Char → Char)

/-- `value.equalsIgnoreCase(other)`, where both may be `null`. -/
def sameValue : Option String → Option String → Except Exn Bool
  | none, _ => .error .nullPointer
  | some _, none => .ok false
  | some value, some other => .ok (MQTestView.equalsIgnoreCase fold value other)

/-- Where the loop over the candidates ends: at one of the name, at the candidate that is the last
one by the counter, or behind all of them. -/
inductive Search where
  | found (j : ℕ) (e : Element)
  | last
  | ended

/-- The loop over the candidates; `size` is the number at which the counter tells the last one. -/
def search (value : Option String) (size : ℕ) : ℕ → List Element → Except Exn Search
  | _, [] => .ok .ended
  | index, e :: es => do
    if ← sameValue fold value (e.attributeValue "name") then return .found index e
    else if index + 1 = size then return .last
    else search value size (index + 1) es

/-- `getFirstSubElementByKey`, and `remove` of what it gives. -/
def removeFirst (value : Option String) : List Element → Except Exn (List Element)
  | [] => .ok []
  | e :: es => do
    if ← sameValue fold (e.attributeValue "name") value then return es
    else
      let es ← removeFirst value es
      return e :: es

/-- The first loop, over the fields of a clone of `node1`. -/
def removeFields (handleField : Element → Element → Except Exn (Element × Element)) (size2 : ℕ) :
    List Element → Element → Element → Except Exn (Element × Element)
  | [], node1, node2 => .ok (node1, node2)
  | child :: node1Tmp, node1, node2 => do
    match ← search fold (child.attributeValue "name") size2 0 node2.elements with
    | .found j field => do
      let (field, _) ← handleField field child
      removeFields handleField size2 node1Tmp node1
        { node2 with elements := node2.elements.set j field }
    | .last => do
      let elements ← removeFirst fold (child.attributeValue "name") node1.elements
      removeFields handleField size2 node1Tmp { node1 with elements := elements } node2
    | .ended => removeFields handleField size2 node1Tmp node1 node2

/-- The second loop, over the fields of `node2`, with a clone of `node1`. -/
def addFields (handleField : Element → Element → Except Exn (Element × Element)) (size1 : ℕ) :
    List Element → Element → List Element → Except Exn (Element × List Element)
  | [], node1, _ => .ok (node1, [])
  | field :: fields, node1, node1Tmp2 => do
    match ← search fold (field.attributeValue "name") size1 0 node1Tmp2 with
    | .found j child => do
      let (field, child) ← handleField field child
      let (node1, fields) ← addFields handleField size1 fields node1 (node1Tmp2.set j child)
      return (node1, field :: fields)
    | .last => do
      let (node1, fields) ← addFields handleField size1 fields
        { node1 with elements := node1.elements ++ [field] } node1Tmp2
      return (node1, field :: fields)
    | .ended => do
      let (node1, fields) ← addFields handleField size1 fields node1 node1Tmp2
      return (node1, field :: fields)

/-- `handleField`, at most so deep; both nodes are changed, and the recursion takes a field of the
second one for its first argument. -/
def handleField : ℕ → Element → Element → Except Exn (Element × Element)
  | 0, _, _ => .error .stackOverflow
  | depth + 1, node1, node2 =>
    let size1 := node1.elements.length
    let size2 := node2.elements.length
    if size1 = 0 ∨ size2 = 0 then .ok (node1, node2)
    else do
      let (node1, node2) ← removeFields fold (handleField depth) size2 node1.elements node1 node2
      let (node1, fields) ← addFields fold (handleField depth) size1 node2.elements node1 node1.elements
      return (node1, { node2 with elements := fields })

/-- The loop of `updateXmlFile` from the message `i` on; the messages of the file are passed along. -/
def updateMsgs (depth : ℕ) : ℕ → List Element → List Element → Except Exn (List Element)
  | _, [], msgs => .ok msgs
  | i, msg2 :: msgs2, msgs => do
    let msg ← ArrayList.get msgs i
    let (msg, _) ← handleField fold depth msg msg2
    updateMsgs depth (i + 1) msgs2 (msgs.set i msg)

/-- `updateXmlFile` on the two roots. -/
def updateXmlFile (depth : ℕ) (wizardRoot wizardRoot2 : Element) : Except Exn Element := do
  let msgs ← updateMsgs fold depth 0 wizardRoot2.elements wizardRoot.elements
  return { wizardRoot with elements := msgs }

end Merge

/-! ### Fields by their names -/

section Names

variable (fold : Char → Char)

/-- The name of a field up to its cases. -/
def key (e : Element) : Option (List Char) :=
  (e.attributeValue "name").map fun name => name.toList.map fold

/-- The fields of a tree, by their names. -/
def fields : Keyed Element (Option (List Char)) String := ⟨(·.elements), key fold, (·.data)⟩

end Names

/-- The element has a name. -/
def HasName (e : Element) : Prop := (e.attributeValue "name").isSome = true

/-- The tree is less than `n` deep, and each of its fields has a name. -/
def Fits : ℕ → Element → Prop
  | 0, _ => False
  | n + 1, e => ∀ c ∈ e.elements, HasName c ∧ Fits n c

variable {fold : Char → Char}

/-- Elements have the same name when their keys are the same. -/
theorem sameValue_eq {e e' : Element} (he : HasName e) (he' : HasName e') :
    sameValue fold (e.attributeValue "name") (e'.attributeValue "name") =
      .ok (decide (key fold e = key fold e')) := by
  obtain ⟨s, hs⟩ := Option.isSome_iff_exists.mp he
  obtain ⟨t, ht⟩ := Option.isSome_iff_exists.mp he'
  rw [key, key, hs, ht, sameValue, MQTestView.equalsIgnoreCase, Option.map_some, Option.map_some]
  congr 1
  rw [Bool.eq_iff_iff, beq_iff_eq, decide_eq_true_iff, Option.some_inj]

/-- The loop over the candidates finds a field of the name, or comes to the last candidate. -/
theorem search_cases {e : Element} (he : HasName e) {size : ℕ} (es : List Element)
    (hes : ∀ e ∈ es, HasName e) {index : ℕ} (hsize : index + es.length ≤ size) :
    (∃ j field, es[j]? = some field ∧ key fold field = key fold e ∧
      search fold (e.attributeValue "name") size index es = .ok (.found (index + j) field)) ∨
    key fold e ∉ es.map (key fold) ∧ search fold (e.attributeValue "name") size index es =
      .ok (if es ≠ [] ∧ index + es.length = size then .last else .ended) := by
  induction es generalizing index with
  | nil => exact .inr ⟨List.not_mem_nil, rfl⟩
  | cons c es ih =>
    rw [List.forall_mem_cons] at hes
    rw [List.length_cons] at hsize
    rw [search, sameValue_eq he hes.1, ok_bind]
    by_cases hkey : key fold e = key fold c
    · rw [decide_eq_true hkey, if_pos rfl]
      exact .inl ⟨0, c, rfl, hkey.symm, rfl⟩
    · rw [decide_eq_false hkey, if_neg Bool.false_ne_true]
      by_cases hlast : index + 1 = size
      · have hnil : es = [] := List.length_eq_zero_iff.mp (by omega)
        subst hnil
        refine .inr ⟨?_, ?_⟩
        · rw [List.map_singleton, List.mem_singleton]
          exact hkey
        · rw [if_pos hlast, if_pos ⟨List.cons_ne_nil c [], hlast⟩]
          rfl
      · rw [if_neg hlast]
        rcases @ih hes.2 (index + 1) (by omega) with ⟨j, field, hj, hfield, hsearch⟩ | ⟨hmem, hsearch⟩
        · refine .inl ⟨j + 1, field, hj, hfield, ?_⟩
          rw [hsearch, Nat.add_right_comm, Nat.add_assoc]
        · refine .inr ⟨?_, ?_⟩
          · rw [List.map_cons, List.mem_cons, not_or]
            exact ⟨hkey, hmem⟩
          · rw [hsearch]
            congr 1
            refine if_congr ?_ rfl rfl
            rw [List.length_cons, Nat.add_right_comm, Nat.add_assoc]
            constructor
            · exact fun h => ⟨List.cons_ne_nil c es, h.2⟩
            · rintro ⟨-, h⟩
              refine ⟨?_, h⟩
              rintro rfl
              exact hlast h

/-- The element that is removed. -/
theorem removeFirst_eq {e : Element} (he : HasName e) (ds es : List Element)
    (hds : ∀ d ∈ ds, HasName d ∧ key fold d ≠ key fold e) :
    removeFirst fold (e.attributeValue "name") (ds ++ e :: es) = .ok (ds ++ es) := by
  induction ds with
  | nil =>
    rw [List.nil_append, removeFirst, sameValue_eq he he, decide_eq_true rfl, ok_bind, if_pos rfl]
    rfl
  | cons d ds ih =>
    rw [List.forall_mem_cons] at hds
    rw [List.cons_append, removeFirst, sameValue_eq hds.1.1 he, decide_eq_false hds.1.2, ok_bind,
      if_neg Bool.false_ne_true, ih hds.2]
    rfl

/-! ### The fields after the merge -/

section Merged

variable (fold : Char → Char)

/-- What becomes of the old tree: it loses the fields that the template has not, and where it loses
none, it gets those that it has not itself. -/
def merged (old new : Element) : Element :=
  if old.elements = [] ∨ new.elements = [] then old
  else
    let kept := old.elements.filter fun e => key fold e ∈ new.elements.map (key fold)
    { old with
      elements := if kept.length = old.elements.length then
          kept ++ new.elements.filter fun e => key fold e ∉ old.elements.map (key fold)
        else kept }

end Merged

/-- The key is one of the attributes. -/
theorem key_eq_of_attributes {e e' : Element} (h : e'.attributes = e.attributes) :
    key fold e' = key fold e := by
  rw [key, key, Element.attributeValue, Element.attributeValue, h]

/-- Merging keeps the attributes. -/
theorem merged_attributes (old new : Element) : (merged fold old new).attributes = old.attributes := by
  rw [merged]
  split <;> rfl

/-- What becomes of a tree fits where both trees do. -/
theorem Fits.merged {n : ℕ} {old new : Element} (hold : Fits n old) (hnew : Fits n new) :
    Fits n (merged fold old new) := by
  cases n with
  | zero => exact hold
  | succ n =>
    rw [MGenDataFile.merged]
    split
    · exact hold
    · intro c hc
      dsimp only at hc
      split at hc
      · rcases List.mem_append.mp hc with hc | hc
        · exact hold c (List.mem_filter.mp hc).1
        · exact hnew c (List.mem_filter.mp hc).1
      · exact hold c (List.mem_filter.mp hc).1

/-- What the loops do to a field of the template: its name stays, and so does all of it where no
field of the old tree has its name. -/
def Changed (fold : Char → Char) (n : ℕ) (keys : List (Option (List Char))) (e e' : Element) : Prop :=
  HasName e' ∧ Fits n e' ∧ key fold e' = key fold e ∧ (key fold e ∉ keys → e' = e)

/-- A call of the recursion does what it should. -/
def Merging (fold : Char → Char) (n : ℕ)
    (handle : Element → Element → Except Exn (Element × Element)) : Prop :=
  ∀ node1 node2, Fits n node1 → Fits n node2 → ∃ node2',
    handle node1 node2 = .ok (merged fold node1 node2, node2') ∧ Fits n node2' ∧
      node2'.attributes = node2.attributes

theorem with_elements (e : Element) : Element.mk e.name e.attributes e.data e.elements = e := by
  cases e
  rfl

/-- To set an element of the second list. -/
theorem forall₂_set {α : Type} {R : α → α → Prop} {l l' : List α} (h : List.Forall₂ R l l') {j : ℕ}
    {b : α} (hb : ∀ a, l[j]? = some a → R a b) : List.Forall₂ R l (l'.set j b) := by
  induction h generalizing j with
  | nil => exact .nil
  | cons hr hrest ih =>
    cases j with
    | zero => exact .cons (hb _ rfl) hrest
    | succ j => exact .cons hr (ih hb)

section Loops

variable {n : ℕ} {handle : Element → Element → Except Exn (Element × Element)}
  {keys : List (Option (List Char))} {orig : List Element}

/-- The loops keep the names. -/
theorem map_key_of_changed {es : List Element} (h : List.Forall₂ (Changed fold n keys) orig es) :
    es.map (key fold) = orig.map (key fold) := by
  induction h with
  | nil => rfl
  | cons hr _ ih => rw [List.map_cons, List.map_cons, hr.2.2.1, ih]

/-- What they leave has names and fits. -/
theorem forall_of_changed {es : List Element} (h : List.Forall₂ (Changed fold n keys) orig es) :
    ∀ e ∈ es, HasName e ∧ Fits n e := by
  induction h with
  | nil => exact List.forall_mem_nil _
  | cons hr _ ih => exact List.forall_mem_cons.mpr ⟨⟨hr.1, hr.2.1⟩, ih⟩

/-- The fields that are not in the old tree are as they were. -/
theorem filter_of_changed {es : List Element} (h : List.Forall₂ (Changed fold n keys) orig es) :
    es.filter (fun e => key fold e ∉ keys) = orig.filter fun e => key fold e ∉ keys := by
  induction h with
  | nil => rfl
  | @cons e e' _ _ hr _ ih =>
    rw [List.filter_cons, List.filter_cons, ih, hr.2.2.1]
    split
    · rename_i hkey
      rw [hr.2.2.2 (of_decide_eq_true hkey)]
    · rfl

/-- The first loop leaves the fields that the template has. -/
theorem removeFields_eq (hmerge : Merging fold n handle) (cs ds : List Element)
    (node1 node2 : Element) (hnode1 : node1.elements = ds ++ cs) (hne : orig ≠ [])
    (hds : ∀ d ∈ ds, HasName d ∧ key fold d ∈ orig.map (key fold))
    (hcs : ∀ c ∈ cs, (HasName c ∧ Fits n c) ∧ key fold c ∈ keys)
    (hnode2 : List.Forall₂ (Changed fold n keys) orig node2.elements) :
    ∃ es, List.Forall₂ (Changed fold n keys) orig es ∧
      removeFields fold handle orig.length cs node1 node2 =
        .ok ({ node1 with
          elements := ds ++ cs.filter fun e => key fold e ∈ orig.map (key fold) },
          { node2 with elements := es }) := by
  induction cs generalizing ds node1 node2 with
  | nil =>
    rw [List.filter_nil, ← hnode1, with_elements]
    exact ⟨node2.elements, hnode2, by rw [with_elements]; rfl⟩
  | cons c cs ih =>
    rw [List.forall_mem_cons] at hcs
    obtain ⟨⟨⟨hname, hfits⟩, hckey⟩, hcs⟩ := hcs
    have hlen : 0 + node2.elements.length = orig.length :=
      (Nat.zero_add _).trans hnode2.length_eq.symm
    have hes := forall_of_changed hnode2
    have hmap := map_key_of_changed hnode2
    have hrest : ∀ d, d ∈ ds ++ [c] → key fold c ∈ orig.map (key fold) →
        HasName d ∧ key fold d ∈ orig.map (key fold) := by
      intro d hd hin
      rcases List.mem_append.mp hd with hd | hd
      · exact hds d hd
      · rw [List.mem_singleton.mp hd]
        exact ⟨hname, hin⟩
    rw [removeFields]
    rcases search_cases hname node2.elements (fun e he => (hes e he).1) hlen.le with
      ⟨j, field, hj, hkey, hsearch⟩ | ⟨hmem, hsearch⟩
    · -- the field of the template is merged, and the field of the old tree stays
      have hfield := hes field (List.mem_of_getElem? hj)
      have hin : key fold c ∈ orig.map (key fold) := by
        rw [← hmap, ← hkey]
        exact List.mem_map_of_mem (List.mem_of_getElem? hj)
      obtain ⟨child', hhandle, -, -⟩ := hmerge field c hfield.2 hfits
      have hattr := @merged_attributes fold field c
      have hchanged : List.Forall₂ (Changed fold n keys) orig
          (node2.elements.set (0 + j) (merged fold field c)) := by
        rw [Nat.zero_add]
        refine forall₂_set hnode2 fun a ha => ?_
        have hsame : key fold a = key fold c := by
          have := congrArg (fun l => l[j]?) hmap
          rw [List.getElem?_map, List.getElem?_map, hj, ha] at this
          exact (Option.some.inj this).symm.trans hkey
        refine ⟨?_, hfield.2.merged hfits, (key_eq_of_attributes hattr).trans (hkey.trans hsame.symm),
          fun h => absurd (hsame ▸ hckey) h⟩
        rw [HasName, Element.attributeValue, hattr]
        exact hfield.1
      obtain ⟨es, hchanged', hloop⟩ := ih (ds ++ [c]) node1
        { node2 with elements := node2.elements.set (0 + j) (merged fold field c) }
        (hnode1.trans (List.append_cons ds c cs)) (fun d hd => hrest d hd hin) hcs hchanged
      refine ⟨es, hchanged', ?_⟩
      rw [hsearch, ok_bind]
      dsimp only
      rw [hhandle, ok_bind, hloop, List.filter_cons, if_pos (decide_eq_true hin), List.append_assoc,
        List.singleton_append]
    · -- the field of the old tree is the first one of its name
      rw [hmap] at hmem
      have hfirst := @removeFirst_eq fold _ hname ds cs fun d hd =>
        ⟨(hds d hd).1, fun h => hmem (h ▸ (hds d hd).2)⟩
      obtain ⟨es, hchanged', hloop⟩ := ih ds { node1 with elements := ds ++ cs } node2 rfl hds hcs hnode2
      refine ⟨es, hchanged', ?_⟩
      have hnil : node2.elements ≠ [] := fun h => hne (List.length_eq_zero_iff.mp (by
        rw [← hlen, h]
        rfl))
      rw [hsearch, if_pos ⟨hnil, hlen⟩, ok_bind]
      dsimp only
      rw [hnode1, hfirst, ok_bind, hloop, List.filter_cons,
        if_neg fun h => hmem (of_decide_eq_true h)]

/-- The second loop adds the fields that are missing, where the clone is as long as the counter
expects. -/
theorem addFields_eq (hmerge : Merging fold n handle) {size1 : ℕ} (hsize : 0 < size1)
    (fs : List Element) (node1 : Element) (tmp : List Element)
    (hfs : ∀ f ∈ fs, HasName f ∧ Fits n f) (htmp : ∀ c ∈ tmp, HasName c ∧ Fits n c)
    (hkeys : tmp.map (key fold) = keys) (hlen : tmp.length ≤ size1) :
    ∃ fs', (∀ f ∈ fs', HasName f ∧ Fits n f) ∧
      addFields fold handle size1 fs node1 tmp = .ok ({ node1 with
        elements := node1.elements ++
          if tmp.length = size1 then fs.filter fun e => key fold e ∉ keys else [] }, fs') := by
  induction fs generalizing node1 tmp with
  | nil =>
    rw [List.filter_nil, ite_self, List.append_nil, with_elements]
    exact ⟨[], List.forall_mem_nil _, rfl⟩
  | cons f fs ih =>
    rw [List.forall_mem_cons] at hfs
    obtain ⟨⟨hname, hfits⟩, hfs⟩ := hfs
    rw [addFields]
    rcases search_cases hname tmp (fun e he => (htmp e he).1)
      ((Nat.zero_add _).le.trans hlen) with ⟨j, c, hj, hkey, hsearch⟩ | ⟨hmem, hsearch⟩
    · have hc := htmp c (List.mem_of_getElem? hj)
      have hin : key fold f ∈ keys := by
        rw [← hkeys, ← hkey]
        exact List.mem_map_of_mem (List.mem_of_getElem? hj)
      obtain ⟨c', hhandle, hc', hattr⟩ := hmerge f c hfits hc.2
      have hset : (tmp.set j c').map (key fold) = keys := by
        have hkeyj : keys[j]? = some (key fold c) := by
          rw [← hkeys, List.getElem?_map, hj]
          rfl
        obtain ⟨hlt, hget⟩ := List.getElem?_eq_some_iff.mp hkeyj
        rw [List.map_set, key_eq_of_attributes hattr, hkeys, ← hget, List.set_getElem_self]
      have htmp' : ∀ d ∈ tmp.set j c', HasName d ∧ Fits n d := by
        intro d hd
        rcases List.mem_or_eq_of_mem_set hd with hd | rfl
        · exact htmp d hd
        · refine ⟨?_, hc'⟩
          rw [HasName, Element.attributeValue, hattr]
          exact hc.1
      obtain ⟨fs', hfs', hloop⟩ := ih node1 (tmp.set j c') hfs htmp' hset (by rwa [List.length_set])
      refine ⟨merged fold f c :: fs', List.forall_mem_cons.mpr ⟨⟨?_, hfits.merged hc.2⟩, hfs'⟩, ?_⟩
      · rw [HasName, Element.attributeValue, merged_attributes]
        exact hname
      · have hout : ¬ decide (key fold f ∉ keys) = true := fun h => of_decide_eq_true h hin
        rw [hsearch, ok_bind]
        dsimp only
        rw [hhandle, ok_bind, Nat.zero_add, hloop, List.length_set, List.filter_cons, if_neg hout]
        rfl
    · rw [hkeys] at hmem
      rw [hsearch, ok_bind, Nat.zero_add]
      by_cases hlast : tmp.length = size1
      · have hnil : tmp ≠ [] := fun h => hsize.ne' (hlast ▸ congrArg List.length h)
        obtain ⟨fs', hfs', hloop⟩ := ih { node1 with elements := node1.elements ++ [f] } tmp hfs htmp
          hkeys hlen
        refine ⟨f :: fs', List.forall_mem_cons.mpr ⟨⟨hname, hfits⟩, hfs'⟩, ?_⟩
        rw [if_pos ⟨hnil, hlast⟩, if_pos hlast, List.filter_cons, if_pos (decide_eq_true hmem)]
        dsimp only
        rw [hloop, if_pos hlast, List.append_assoc]
        rfl
      · obtain ⟨fs', hfs', hloop⟩ := ih node1 tmp hfs htmp hkeys hlen
        refine ⟨f :: fs', List.forall_mem_cons.mpr ⟨⟨hname, hfits⟩, hfs'⟩, ?_⟩
        rw [if_neg fun h => hlast h.2]
        dsimp only
        rw [hloop, if_neg hlast, if_neg hlast]
        rfl

end Loops

/-- The old tree after `handleField`. -/
theorem handleField_eq (n : ℕ) : Merging fold n (handleField fold n) := by
  induction n with
  | zero =>
    intro node1 node2 hnode1
    exact hnode1.elim
  | succ n ih =>
    intro node1 node2 hnode1 hnode2
    rw [handleField, merged]
    simp only [List.length_eq_zero_iff]
    split
    · exact ⟨node2, rfl, hnode2, rfl⟩
    · rename_i hne
      rw [not_or] at hne
      have hstart : List.Forall₂ (Changed fold n (node1.elements.map (key fold))) node2.elements
          node2.elements :=
        List.forall₂_same.mpr fun e he => ⟨(hnode2 e he).1, (hnode2 e he).2, rfl, fun _ => rfl⟩
      obtain ⟨es, hes, hremove⟩ := removeFields_eq ih node1.elements [] node1 node2 rfl hne.2
        (List.forall_mem_nil _) (fun c hc => ⟨hnode1 c hc, List.mem_map_of_mem hc⟩) hstart
      rw [List.nil_append] at hremove
      have hkept : ∀ c ∈ node1.elements.filter fun e => key fold e ∈ node2.elements.map (key fold),
          HasName c ∧ Fits n c := fun c hc => hnode1 c (List.mem_filter.mp hc).1
      have hpos : 0 < node1.elements.length := List.length_pos_iff.mpr hne.1
      obtain ⟨fields, hfields, hadd⟩ := addFields_eq ih hpos es
        { node1 with
          elements := node1.elements.filter fun e => key fold e ∈ node2.elements.map (key fold) }
        _ (forall_of_changed hes) hkept rfl (List.length_filter_le _ _)
      refine ⟨{ node2 with elements := fields }, ?_, hfields, rfl⟩
      rw [hremove, ok_bind]
      dsimp only
      rw [hadd, ok_bind]
      dsimp only
      split
      · rename_i hall
        rw [List.length_filter_eq_length_iff, ← List.filter_eq_self] at hall
        rw [hall, filter_of_changed hes]
        rfl
      · rw [List.append_nil]
        rfl

/-! ### Stack depth -/

/-- Each field of the tree has a name. -/
inductive AllNamed : Element → Prop where
  | intro {e : Element} (h : ∀ c ∈ e.elements, HasName c) (hs : ∀ c ∈ e.elements, AllNamed c) :
    AllNamed e

theorem Fits.mono {m n : ℕ} {e : Element} (h : Fits m e) (hle : m ≤ n) : Fits n e := by
  induction m generalizing n e with
  | zero => exact h.elim
  | succ m ih =>
    obtain ⟨k, rfl⟩ := Nat.exists_eq_add_of_le' hle
    exact fun c hc => ⟨(h c hc).1, ih (h c hc).2 (Nat.le_add_left m k)⟩

/-- Some depth fits all elements. -/
theorem exists_fits_all {es : List Element} (h : ∀ e ∈ es, ∃ n, Fits n e) :
    ∃ n, ∀ e ∈ es, Fits n e := by
  induction es with
  | nil => exact ⟨0, List.forall_mem_nil _⟩
  | cons e es ih =>
    rw [List.forall_mem_cons] at h
    obtain ⟨⟨m, hm⟩, h⟩ := h
    obtain ⟨n, hn⟩ := ih h
    refine ⟨max m n, List.forall_mem_cons.mpr ⟨hm.mono (le_max_left m n), fun c hc => ?_⟩⟩
    exact (hn c hc).mono (le_max_right m n)

/-- A tree of named fields fits some depth. -/
theorem AllNamed.exists_fits {e : Element} (h : AllNamed e) : ∃ n, Fits n e := by
  induction h with
  | intro h _ ih =>
    obtain ⟨n, hn⟩ := exists_fits_all ih
    exact ⟨n + 1, fun c hc => ⟨h c hc, hn c hc⟩⟩

/-- `handleField` on a stack that is deep enough. -/
def Handles (fold : Char → Char) (old new old' : Element) : Prop :=
  ∃ N, ∀ depth, N ≤ depth → ∃ new', handleField fold depth old new = .ok (old', new')

/-- On a stack that is deep enough, the old tree becomes the merged one and no other. -/
theorem handles_iff {old new old' : Element} (hold : AllNamed old) (hnew : AllNamed new) :
    Handles fold old new old' ↔ old' = merged fold old new := by
  obtain ⟨m, hm⟩ := hold.exists_fits
  obtain ⟨n, hn⟩ := hnew.exists_fits
  have hrun : ∀ depth, max m n ≤ depth → ∃ new', handleField fold depth old new =
      .ok (merged fold old new, new') := by
    intro depth hdepth
    obtain ⟨new', h, -⟩ := @handleField_eq fold depth old new
      (hm.mono ((le_max_left m n).trans hdepth)) (hn.mono ((le_max_right m n).trans hdepth))
    exact ⟨new', h⟩
  constructor
  · rintro ⟨N, h⟩
    obtain ⟨new', h⟩ := h (max N (max m n)) (le_max_left _ _)
    obtain ⟨new'', h'⟩ := hrun (max N (max m n)) (le_max_right _ _)
    rw [h] at h'
    exact congrArg Prod.fst (Except.ok.inj h')
  · rintro rfl
    exact ⟨max m n, hrun⟩

/-! ### When the trees are merged -/

section Fields

variable {old new : Element} {k : Option (List Char)}

/-- What is left is found as before. -/
theorem find_filter_of {p q : Element → Bool} {es : List Element} (h : ∀ e ∈ es, q e = true → p e = true) :
    (es.filter p).find? q = es.find? q := by
  rw [List.find?_filter]
  refine List.find?_congr fun e he => ?_
  cases hq : q e with
  | false => exact decide_eq_false fun h => Bool.false_ne_true h.2
  | true => exact decide_eq_true ⟨h e he hq, rfl⟩

/-- What is found for a name has it. -/
theorem key_of_find {es : List Element} {r : Element}
    (h : es.find? (fun e => key fold e = k) = some r) : key fold r = k := by
  have hr := List.find?_some h
  exact of_decide_eq_true hr

/-- A child is one of the elements. -/
theorem mem_of_child {e c : Element} (h : (fields fold).child k e = some c) :
    c ∈ e.elements ∧ key fold c = k :=
  ⟨List.mem_of_find?_eq_some h, key_of_find h⟩

/-- The fields that are kept are found as they were. -/
theorem find_kept {r : Element} (hr : (old.elements.filter fun e =>
      key fold e ∈ new.elements.map (key fold)).find? (fun e => key fold e = k) = some r) :
    (fields fold).child k old = some r := by
  have hmem := (List.mem_filter.mp (List.mem_of_find?_eq_some hr)).2
  have hkey := key_of_find hr
  rw [find_filter_of] at hr
  · exact hr
  · intro e _ he
    rw [of_decide_eq_true he, ← hkey]
    exact hmem

/-- A field that is added is found. -/
theorem find_added (hk : k ∉ old.elements.map (key fold)) : (new.elements.filter fun e =>
      key fold e ∉ old.elements.map (key fold)).find? (fun e => key fold e = k) =
    (fields fold).child k new := by
  refine find_filter_of fun e _ he => decide_eq_true ?_
  rw [of_decide_eq_true he]
  exact hk

/-- A field that is there stays as it is, or goes. -/
theorem child_merged_of_some {o r : Element} (ho : (fields fold).child k old = some o)
    (hr : (fields fold).child k (merged fold old new) = some r) : r = o := by
  have hold : k ∈ old.elements.map (key fold) := by
    obtain ⟨hmem, rfl⟩ := mem_of_child ho
    exact List.mem_map_of_mem hmem
  rw [merged] at hr
  split at hr
  · exact Option.some.inj (hr.symm.trans ho)
  · rw [Keyed.child] at hr
    dsimp only [fields] at hr
    split at hr
    · rw [List.find?_append, Option.or_eq_some_iff] at hr
      rcases hr with hr | ⟨-, hr⟩
      · exact Option.some.inj ((find_kept hr).symm.trans ho)
      · have hout := (List.mem_filter.mp (List.mem_of_find?_eq_some hr)).2
        rw [key_of_find hr] at hout
        exact absurd hold (of_decide_eq_true hout)
    · exact Option.some.inj ((find_kept hr).symm.trans ho)

/-- A field that is not there comes from the template. -/
theorem child_merged_of_none {r : Element} (ho : (fields fold).child k old = none)
    (hr : (fields fold).child k (merged fold old new) = some r) :
    (fields fold).child k new = some r := by
  have hold : k ∉ old.elements.map (key fold) := Keyed.notMem_keys_iff.mpr ho
  rw [merged] at hr
  split at hr
  · cases hr.symm.trans ho
  · rw [Keyed.child] at hr
    dsimp only [fields] at hr
    split at hr
    · rw [List.find?_append, Option.or_eq_some_iff] at hr
      rcases hr with hr | ⟨-, hr⟩
      · cases (find_kept hr).symm.trans ho
      · exact (find_added hold).symm.trans hr
    · cases (find_kept hr).symm.trans ho

/-- On the first level the names come out as those of the template exactly when fields are only
gained or only lost, and not all of them. -/
theorem keys_merged_iff (hold : (fields fold).Unique old) (hnew : (fields fold).Unique new) :
    ((fields fold).keys (merged fold old new)).Perm ((fields fold).keys new) ↔
      (old.elements = [] ↔ new.elements = []) ∧
        ((fields fold).keys old ⊆ (fields fold).keys new ∨
          (fields fold).keys new ⊆ (fields fold).keys old) := by
  have hno : ((fields fold).keys old).Nodup := hold [] old rfl
  have hnn : ((fields fold).keys new).Nodup := hnew [] new rfl
  by_cases htriv : old.elements = [] ∨ new.elements = []
  · have hnil : ∀ e : Element, (fields fold).keys e = [] ↔ e.elements = [] := fun e => List.map_eq_nil_iff
    rw [merged, if_pos htriv]
    rcases htriv with h | h
    · rw [(hnil old).mpr h, List.nil_perm, hnil, iff_true_intro h, true_iff]
      exact (and_iff_left (.inl (List.nil_subset _))).symm
    · rw [(hnil new).mpr h, List.perm_nil, hnil, iff_true_intro h, iff_true]
      exact (and_iff_left (.inr (List.nil_subset _))).symm
  · have hleaf : old.elements = [] ↔ new.elements = [] := by
      rw [not_or] at htriv
      exact iff_of_false htriv.1 htriv.2
    have hsub : (old.elements.filter fun e => key fold e ∈ new.elements.map (key fold)).length =
        old.elements.length ↔ (fields fold).keys old ⊆ (fields fold).keys new := by
      rw [List.length_filter_eq_length_iff]
      constructor
      · intro h k hk
        obtain ⟨e, he, rfl⟩ := List.mem_map.mp hk
        exact of_decide_eq_true (h e he)
      · exact fun h e he => decide_eq_true (h (List.mem_map_of_mem he))
    have hkept : (old.elements.filter fun e => key fold e ∈ new.elements.map (key fold)).map (key fold) =
        ((fields fold).keys old).filter fun k => k ∈ (fields fold).keys new := by
      rw [show (fields fold).keys old = old.elements.map (key fold) from rfl, List.filter_map]
      rfl
    have hadded : (new.elements.filter fun e => key fold e ∉ old.elements.map (key fold)).map (key fold) =
        ((fields fold).keys new).filter fun k => k ∉ (fields fold).keys old := by
      rw [show (fields fold).keys new = new.elements.map (key fold) from rfl, List.filter_map]
      rfl
    rw [and_iff_right hleaf, merged, if_neg htriv, Keyed.keys]
    dsimp only [fields]
    split
    · rename_i hall
      rw [hsub] at hall
      refine iff_of_true ?_ (.inl hall)
      rw [List.map_append, hkept, hadded, List.filter_eq_self.mpr fun k hk => decide_eq_true (hall hk)]
      refine (List.perm_ext_iff_of_nodup ?_ hnn).mpr fun k => ?_
      · refine List.nodup_append.mpr ⟨hno, hnn.filter _, fun k hk k' hk' h => ?_⟩
        exact of_decide_eq_true (List.mem_filter.mp hk').2 (h ▸ hk)
      · rw [List.mem_append, List.mem_filter, decide_eq_true_iff]
        constructor
        · rintro (hk | ⟨hk, -⟩)
          · exact hall hk
          · exact hk
        · intro hk
          by_cases hin : k ∈ (fields fold).keys old
          · exact .inl hin
          · exact .inr ⟨hk, hin⟩
    · rename_i hall
      rw [hsub] at hall
      rw [hkept]
      refine (List.perm_ext_iff_of_nodup (hno.filter _) hnn).trans
        (Iff.trans (forall_congr' fun k => ?_) (or_iff_right hall).symm)
      rw [List.mem_filter, decide_eq_true_iff]
      exact ⟨fun h hk => (h.mpr hk).1, fun h => ⟨And.right, fun hk => ⟨h hk, hk⟩⟩⟩

end Fields

/-- What the old tree and the template have to do with each other for a merge: neither is without
fields alone, fields are only gained or only lost, and below the common fields there is nothing to
merge. -/
structure Mergeable (fold : Char → Char) (old new : Element) : Prop where
  leaf : old.elements = [] ↔ new.elements = []
  oneWay : (fields fold).keys old ⊆ (fields fold).keys new ∨
    (fields fold).keys new ⊆ (fields fold).keys old
  below : ∀ k o t, (fields fold).child k old = some o → (fields fold).child k new = some t →
    (fields fold).SameKeys o t

/-- **When a message is merged.**  The old tree gets exactly the fields of the template, with the old
values of the leaves that it had, exactly when neither of the two is without fields alone, one has
all the fields of the other, and the common fields have the same fields at every depth. -/
theorem merges_handleField_iff (old new : Element) (hold : AllNamed old) (hnew : AllNamed new)
    (hold' : (fields fold).Unique old) (hnew' : (fields fold).Unique new) :
    (∃ old', Handles fold old new old' ∧ (fields fold).Merges old new old') ↔
      Mergeable fold old new := by
  have hval : (fields fold).val (merged fold old new) = (fields fold).val old := by
    rw [merged]
    split <;> rfl
  have hmerges := Keyed.merges_iff hval (fun k o ho r hr => child_merged_of_some ho hr)
    (fun k ho r hr => child_merged_of_none ho hr)
  rw [keys_merged_iff hold' hnew'] at hmerges
  constructor
  · rintro ⟨old', hhandles, h⟩
    rw [(handles_iff hold hnew).mp hhandles] at h
    obtain ⟨⟨hleaf, honeWay⟩, hbelow⟩ := hmerges.mp h
    exact ⟨hleaf, honeWay, hbelow⟩
  · rintro ⟨hleaf, honeWay, hbelow⟩
    exact ⟨_, (handles_iff hold hnew).mpr rfl, hmerges.mpr ⟨⟨hleaf, honeWay⟩, hbelow⟩⟩

/-- A field of a data file. -/
def field (name data : String) (elements : List Element) : Element :=
  ⟨"FIELD", [("name", name)], data, elements⟩

/-- A field of leaves with names. -/
theorem allNamed_field {name data : String} {es : List Element} (h : ∀ c ∈ es, HasName c)
    (hs : ∀ c ∈ es, AllNamed c) : AllNamed (field name data es) := .intro h hs

theorem allNamed_leaf (name data : String) : AllNamed (field name data []) :=
  allNamed_field (List.forall_mem_nil _) (List.forall_mem_nil _)

theorem unique_leaf (name data : String) : (fields fold).Unique (field name data []) :=
  Keyed.unique_of_children List.nodup_nil (List.forall_mem_nil _)

/-- A message with one field. -/
def oldMsg : Element := field "pay" "" [field "uin" "\"7\"" []]

/-- Its template, with one field more. -/
def newMsg : Element := field "pay" "" [field "uin" "\"\"" [], field "fee" "\"\"" []]

theorem allNamed_oldMsg : AllNamed oldMsg :=
  allNamed_field (List.forall_mem_singleton.mpr rfl)
    (List.forall_mem_singleton.mpr (allNamed_leaf _ _))

theorem allNamed_newMsg : AllNamed newMsg :=
  allNamed_field (List.forall_mem_cons.mpr ⟨rfl, List.forall_mem_singleton.mpr rfl⟩)
    (List.forall_mem_cons.mpr ⟨allNamed_leaf _ _, List.forall_mem_singleton.mpr (allNamed_leaf _ _)⟩)

theorem unique_oldMsg : (fields Char.toLower).Unique oldMsg :=
  Keyed.unique_of_children (by decide) (List.forall_mem_singleton.mpr (unique_leaf _ _))

theorem unique_newMsg : (fields Char.toLower).Unique newMsg :=
  Keyed.unique_of_children (by decide)
    (List.forall_mem_cons.mpr ⟨unique_leaf _ _, List.forall_mem_singleton.mpr (unique_leaf _ _)⟩)

theorem merges_handleField_iff_newMsg : ∃ old', Handles Char.toLower oldMsg newMsg old' ∧
    (fields Char.toLower).Merges oldMsg newMsg old' := by
  refine (merges_handleField_iff oldMsg newMsg allNamed_oldMsg allNamed_newMsg unique_oldMsg
    unique_newMsg).mpr ⟨by decide, .inl (by decide), ?_⟩
  intro k o t ho ht
  refine Keyed.sameKeys_of_leaf ?_ ?_
  · rw [List.mem_singleton.mp (mem_of_child ho).1]
    rfl
  · rcases List.mem_pair.mp (mem_of_child ht).1 with rfl | rfl <;> rfl

/-- A field that is gained below another one is not added. -/
theorem not_merges_below :
    (fields Char.toLower).Unique (field "deal" "" [oldMsg]) ∧
      (fields Char.toLower).Unique (field "deal" "" [newMsg]) ∧
      ¬ ∃ old', Handles Char.toLower (field "deal" "" [oldMsg]) (field "deal" "" [newMsg]) old' ∧
        (fields Char.toLower).Merges (field "deal" "" [oldMsg]) (field "deal" "" [newMsg]) old' := by
  refine ⟨Keyed.unique_of_children (by decide) (List.forall_mem_singleton.mpr unique_oldMsg),
    Keyed.unique_of_children (by decide) (List.forall_mem_singleton.mpr unique_newMsg), ?_⟩
  rintro ⟨old', hhandles, hmerges⟩
  have hold : AllNamed (field "deal" "" [oldMsg]) := allNamed_field
    (List.forall_mem_singleton.mpr rfl) (List.forall_mem_singleton.mpr allNamed_oldMsg)
  have hnew : AllNamed (field "deal" "" [newMsg]) := allNamed_field
    (List.forall_mem_singleton.mpr rfl) (List.forall_mem_singleton.mpr allNamed_newMsg)
  rw [(handles_iff hold hnew).mp hhandles] at hmerges
  have hkeys := hmerges.names [some "pay".toList] oldMsg newMsg rfl rfl
  exact absurd hkeys.length_eq (by decide)

/-! ### The messages of a file -/

/-- A field that both trees have stays as it is. -/
theorem child_merged_of_both {old new o t : Element} {k : Option (List Char)}
    (ho : (fields fold).child k old = some o) (ht : (fields fold).child k new = some t) :
    (fields fold).child k (merged fold old new) = some o := by
  have hk : k ∈ new.elements.map (key fold) := Keyed.mem_keys_iff.mpr ⟨t, ht⟩
  have hkept : (old.elements.filter fun e => key fold e ∈ new.elements.map (key fold)).find?
      (fun e => key fold e = k) = some o := by
    refine (find_filter_of fun e _ he => ?_).trans ho
    rw [of_decide_eq_true he]
    exact decide_eq_true hk
  rw [merged]
  split
  · exact ho
  · rw [Keyed.child]
    dsimp only [fields]
    split
    · rw [List.find?_append]
      exact (congrArg (Option.or · _) hkept).trans Option.some_or
    · exact hkept

/-- The leaves that are in both trees have their old values in the result. -/
def KeepsValues (fold : Char → Char) (old new res : Element) : Prop :=
  ∀ path o t, (fields fold).element path old = some o → o.elements = [] →
    (fields fold).element path new = some t → t.elements = [] →
      ∃ r, (fields fold).element path res = some r ∧ r.data = o.data

/-- Merging keeps the values of the leaves. -/
theorem keepsValues_merged (old new : Element) : KeepsValues fold old new (merged fold old new) := by
  intro path o t ho hleaf ht _
  cases path with
  | nil =>
    cases ho
    rw [merged, if_pos (.inl hleaf)]
    exact ⟨old, rfl, rfl⟩
  | cons k path =>
    obtain ⟨c, hc, ho⟩ := Keyed.element_cons_eq_some.mp ho
    obtain ⟨d, hd, -⟩ := Keyed.element_cons_eq_some.mp ht
    exact ⟨o, (Keyed.element_cons_of_child (child_merged_of_both hc hd)).trans ho, rfl⟩

/-- A file with messages in which each field has a name. -/
structure DataFile where
  root : Element
  named : ∀ msg ∈ root.elements, AllNamed msg

/-- The name of a message. -/
def msgName (msg : Element) : Option String := msg.attributeValue "name"

/-- The messages of a name, in order. -/
def msgsOf (name : Option String) (root : Element) : List Element :=
  root.elements.filter fun msg => msgName msg = name

/-- The update returns a document with the messages of the template, in order; and the message that
both had, one for each time the name is there, keeps its values. -/
def Updates (fold : Char → Char) (file template : DataFile) : Prop :=
  ∃ res, (∃ N, ∀ depth, N ≤ depth → updateXmlFile fold depth file.root template.root = .ok res) ∧
    res.elements.map msgName = template.root.elements.map msgName ∧
    ∀ name (k : ℕ) old new msg, (msgsOf name file.root)[k]? = some old →
      (msgsOf name template.root)[k]? = some new → (msgsOf name res)[k]? = some msg →
        KeepsValues fold old new msg

section Messages

variable {depth : ℕ}

/-- The names of the messages of the file stay. -/
theorem names_updateMsgs {msgs2 msgs res : List Element} {i : ℕ} (hmsgs : ∀ m ∈ msgs, Fits depth m)
    (hmsgs2 : ∀ m ∈ msgs2, Fits depth m) (h : updateMsgs fold depth i msgs2 msgs = .ok res) :
    res.map msgName = msgs.map msgName := by
  induction msgs2 generalizing i msgs with
  | nil =>
    cases h
    rfl
  | cons msg2 msgs2 ih =>
    rw [List.forall_mem_cons] at hmsgs2
    obtain ⟨msg, hget, h⟩ := bind_eq_ok.mp h
    have hi := ArrayList.get_eq_ok.mp hget
    have hmsg := hmsgs msg (List.mem_of_getElem? hi)
    obtain ⟨msg2', hhandle, -⟩ := handleField_eq depth msg msg2 hmsg hmsgs2.1
    rw [hhandle, ok_bind] at h
    have hset : (msgs.set i (merged fold msg msg2)).map msgName = msgs.map msgName := by
      have hname : (msgs.map msgName)[i]? = some (msgName msg) := by
        rw [List.getElem?_map, hi]
        rfl
      obtain ⟨hlt, hget⟩ := List.getElem?_eq_some_iff.mp hname
      rw [List.map_set, msgName, Element.attributeValue, merged_attributes]
      change (msgs.map msgName).set i (msgName msg) = msgs.map msgName
      rw [← hget, List.set_getElem_self]
    refine (ih (fun m hm => ?_) hmsgs2.2 h).trans hset
    rcases List.mem_or_eq_of_mem_set hm with hm | rfl
    · exact hmsgs m hm
    · exact hmsg.merged hmsgs2.1

/-- The messages are merged by their places. -/
theorem updateMsgs_eq {done msgs2 msgs : List Element} (hlen : msgs2.length = msgs.length)
    (hmsgs : ∀ m ∈ msgs, Fits depth m) (hmsgs2 : ∀ m ∈ msgs2, Fits depth m) :
    updateMsgs fold depth done.length msgs2 (done ++ msgs) =
      .ok (done ++ List.zipWith (merged fold) msgs msgs2) := by
  induction msgs2 generalizing done msgs with
  | nil =>
    rw [List.length_nil, eq_comm, List.length_eq_zero_iff] at hlen
    subst hlen
    rfl
  | cons msg2 msgs2 ih =>
    cases msgs with
    | nil => cases hlen
    | cons msg msgs =>
      rw [List.forall_mem_cons] at hmsgs hmsgs2
      obtain ⟨msg2', hhandle, -⟩ := @handleField_eq fold depth msg msg2 hmsgs.1 hmsgs2.1
      have hget : ArrayList.get (done ++ msg :: msgs) done.length = .ok msg :=
        ArrayList.get_ok (by simp)
      have hset : (done ++ msg :: msgs).set done.length (merged fold msg msg2) =
          done ++ [merged fold msg msg2] ++ msgs := by simp
      have hstep := @ih (done ++ [merged fold msg msg2]) _ (Nat.succ.inj hlen) hmsgs.2 hmsgs2.2
      rw [List.length_append, List.length_singleton] at hstep
      rw [updateMsgs, hget, ok_bind, hhandle, ok_bind]
      dsimp only
      rw [hset, hstep, List.zipWith_cons_cons, List.append_assoc]
      rfl

end Messages

/-- Merged by their places, messages of the same names are merged by their names. -/
theorem merged_by_names {pairs : List (Element × Element)}
    (hnames : ∀ p ∈ pairs, msgName p.1 = msgName p.2) {root root2 res : Element}
    (hroot : root.elements = pairs.map Prod.fst) (hroot2 : root2.elements = pairs.map Prod.snd)
    (hres : res.elements = pairs.map fun p => merged fold p.1 p.2) :
    res.elements.map msgName = root2.elements.map msgName ∧
      ∀ name (k : ℕ) old new msg, (msgsOf name root)[k]? = some old →
        (msgsOf name root2)[k]? = some new → (msgsOf name res)[k]? = some msg →
          msg = merged fold old new := by
  have hmerged : ∀ old new, msgName (merged fold old new) = msgName old := fun old new => by
    rw [msgName, Element.attributeValue, merged_attributes]
    rfl
  refine ⟨?_, fun name k old new msg ho hn hm => ?_⟩
  · rw [hres, hroot2, List.map_map, List.map_map]
    exact List.map_congr_left fun p hp => (hmerged p.1 p.2).trans (hnames p hp)
  · have hfilter : ∀ f : Element × Element → Element, (∀ p ∈ pairs, msgName (f p) = msgName p.1) →
        (pairs.map f).filter (fun msg => msgName msg = name) =
          (pairs.filter fun p => msgName p.1 = name).map f := by
      intro f hf
      rw [List.filter_map]
      refine congrArg (List.map f) (List.filter_congr fun p hp => ?_)
      rw [Function.comp_apply, hf p hp]
    rw [msgsOf, hroot, hfilter Prod.fst fun _ _ => rfl, List.getElem?_map] at ho
    rw [msgsOf, hroot2, hfilter Prod.snd fun p hp => (hnames p hp).symm, List.getElem?_map] at hn
    rw [msgsOf, hres, hfilter _ fun p _ => hmerged p.1 p.2, List.getElem?_map] at hm
    obtain ⟨p, hp, rfl⟩ := Option.map_eq_some_iff.mp ho
    rw [hp] at hn hm
    cases hn
    cases hm
    rfl

/-- **When the messages of a file are brought up to date.**  The update returns the messages of the
template, with the old values, exactly when the file has these messages already, in this order. -/
theorem updates_iff (file template : DataFile) : Updates fold file template ↔
    file.root.elements.map msgName = template.root.elements.map msgName := by
  obtain ⟨m, hm⟩ := exists_fits_all fun msg hmsg => (file.named msg hmsg).exists_fits
  obtain ⟨n, hn⟩ := exists_fits_all fun msg hmsg => (template.named msg hmsg).exists_fits
  have hmsgs : ∀ depth, max m n ≤ depth → ∀ msg ∈ file.root.elements, Fits depth msg :=
    fun depth h msg hmsg => (hm msg hmsg).mono ((le_max_left m n).trans h)
  have hmsgs2 : ∀ depth, max m n ≤ depth → ∀ msg ∈ template.root.elements, Fits depth msg :=
    fun depth h msg hmsg => (hn msg hmsg).mono ((le_max_right m n).trans h)
  constructor
  · rintro ⟨res, ⟨N, hrun⟩, hnames, -⟩
    have hrun := hrun (max N (max m n)) (le_max_left _ _)
    obtain ⟨msgs, hupdate, hres⟩ := bind_eq_ok.mp hrun
    cases hres
    exact (names_updateMsgs (hmsgs _ (le_max_right _ _)) (hmsgs2 _ (le_max_right _ _)) hupdate).symm.trans
      hnames
  · intro hnames
    have hlen : template.root.elements.length = file.root.elements.length := by
      rw [← List.length_map (f := msgName), ← hnames, List.length_map]
    have hfst := (List.map_fst_zip hlen.ge).symm
    have hsnd := (List.map_snd_zip hlen.le).symm
    have hpairs : ∀ p ∈ file.root.elements.zip template.root.elements, msgName p.1 = msgName p.2 := by
      have hold := congrArg (List.map msgName) hfst
      have hnew := congrArg (List.map msgName) hsnd
      rw [List.map_map] at hold hnew
      exact List.map_inj_left.mp (hold.symm.trans (hnames.trans hnew))
    have hzip : List.zipWith (merged fold) file.root.elements template.root.elements =
        (file.root.elements.zip template.root.elements).map fun p => merged fold p.1 p.2 := by
      rw [List.zip, List.map_zipWith]
    refine ⟨{ file.root with
      elements := List.zipWith (merged fold) file.root.elements template.root.elements },
      ⟨max m n, fun depth hdepth => ?_⟩, ?_, ?_⟩
    · have hupdate := @updateMsgs_eq fold _ [] _ _ hlen (hmsgs depth hdepth)
        (hmsgs2 depth hdepth)
      rw [List.nil_append, List.length_nil] at hupdate
      rw [updateXmlFile, hupdate]
      rfl
    · exact (merged_by_names hpairs hfst hsnd hzip).1
    · intro name k old new msg ho hn hm
      rw [(merged_by_names hpairs hfst hsnd hzip).2 name k old new msg ho hn hm]
      exact keepsValues_merged old new

theorem named_oldMsg : ∀ msg ∈ [oldMsg], AllNamed msg := List.forall_mem_singleton.mpr allNamed_oldMsg

/-- The wizard has gained a message. -/
theorem not_updates_gained : ¬ Updates Char.toLower ⟨⟨"WIZARD", [], "", []⟩, List.forall_mem_nil _⟩
    ⟨⟨"WIZARD", [], "", [oldMsg]⟩, named_oldMsg⟩ := by
  rintro ⟨res, ⟨N, hrun⟩, -⟩
  have hfail : updateXmlFile Char.toLower N ⟨"WIZARD", [], "", []⟩ ⟨"WIZARD", [], "", [oldMsg]⟩ =
      .error .indexOutOfBounds := rfl
  cases hfail.symm.trans (hrun N le_rfl)

end MGenDataFile

end MBT
