import MBT.Support.Split

/-!
# Support — Items

A text that lists items behind a heading, with a comma and a blank between two of them, where an
item is left out when the text ends with it or has it before a comma.

* `foldl_addItem`: an item is left out exactly when it is the end of one before it, if the items
  have no commas.
* `foldl_eq_iff`: two lists give the same text exactly when they list the same items.
* `foldl_addItem_of_whole`: whatever the items are made of, the text is the one in which each is
  written out once, if none is left out but for those that are written already.
-/

namespace Text

/-! ### Parts of a joined text -/

/-- Where a text without the separator ends at a separator or at the end, it is the end of a part. -/
theorem exists_suffix_of_intercalate {a : Char} {t : List Char} (ht : a ∉ t) (hne : t ≠ [])
    {ps : List (List Char)} (hps : ∀ p ∈ ps, a ∉ p)
    (h : t ++ [a] <:+: [a].intercalate ps ∨ t <:+ [a].intercalate ps) : ∃ p ∈ ps, t <:+ p := by
  induction ps with
  | nil =>
    rw [List.intercalate_nil] at h
    rcases h with h | h
    · exact absurd (List.infix_nil.mp h) (by simp)
    · exact absurd (List.suffix_nil.mp h) hne
  | cons p ps ih =>
    have hp := hps p List.mem_cons_self
    cases ps with
    | nil =>
      rw [List.intercalate_singleton] at h
      rcases h with h | h
      · exact absurd (h.subset (List.mem_append_right t (List.mem_singleton_self a))) hp
      · exact ⟨p, List.mem_cons_self, h⟩
    | cons q ps =>
      have ih := ih fun r hr => hps r (List.mem_cons_of_mem p hr)
      rw [List.intercalate_cons_cons, List.append_assoc, List.singleton_append] at h
      have hrest : (t ++ [a] <:+: [a].intercalate (q :: ps) ∨ t <:+ [a].intercalate (q :: ps)) →
          ∃ r ∈ p :: q :: ps, t <:+ r := by
        intro h
        obtain ⟨r, hr, hsuffix⟩ := ih h
        exact ⟨r, List.mem_cons_of_mem p hr, hsuffix⟩
      rcases h with ⟨u, v, h⟩ | ⟨u, h⟩
      · by_cases hu : a ∈ u
        · obtain ⟨u₁, u₂, rfl, hu₁⟩ := List.eq_append_cons_of_mem hu
          rw [List.append_assoc, List.append_assoc, List.cons_append] at h
          refine hrest (.inl ⟨u₂, v, ?_⟩)
          rw [← (cut_inj hu₁ hp h).2]
          simp
        · rw [← List.append_assoc, List.append_assoc, List.singleton_append] at h
          have hut : a ∉ u ++ t := fun h => (List.mem_append.mp h).elim hu ht
          exact ⟨p, List.mem_cons_self, u, (cut_inj hut hp h).1⟩
      · have hu : a ∈ u := by
          have hmem : a ∈ u ++ t := h ▸ List.mem_append_right p List.mem_cons_self
          exact (List.mem_append.mp hmem).resolve_right ht
        obtain ⟨u₁, u₂, rfl, hu₁⟩ := List.eq_append_cons_of_mem hu
        rw [List.append_assoc, List.cons_append] at h
        exact hrest (.inr ⟨u₂, (cut_inj hu₁ hp h).2⟩)

/-! ### Items -/

/-- A text with one more item, in front of which no separator stands where the text is `fresh`; the
flag says that the item is not left out. -/
def addItem (fresh : String → Bool) (p : String) (i : Bool × String) : String :=
  if fresh p then p ++ i.2
  else if i.1 || (!contains p (i.2 ++ ",") && !endsWith p i.2) then p ++ (", " ++ i.2)
  else p

/-- The item stands in the text already, as far as can be told from where a comma or the end is. -/
def Found (p t : String) : Prop := contains p (t ++ ",") = true ∨ endsWith p t = true

instance (p t : String) : Decidable (Found p t) := inferInstanceAs (Decidable (_ ∨ _))

/-- The text after an item: the first one begins it, and an item that is found is left out. -/
theorem addItem_eq (fresh : String → Bool) (p : String) (i : Bool × String) :
    addItem fresh p i = if fresh p then p ++ i.2
      else if i.1 = true ∨ ¬ Found p i.2 then p ++ (", " ++ i.2) else p := by
  refine if_congr Iff.rfl rfl (if_congr ?_ rfl rfl)
  rw [Found, Bool.or_eq_true, Bool.and_eq_true, Bool.not_eq_true', Bool.not_eq_true', not_or,
    Bool.not_eq_true, Bool.not_eq_true]

/-- The same with the items so far, where an item is left out if it is one of them. -/
def writeItem (fresh : String → Bool) (s : String × List String) (i : Bool × String) :
    String × List String :=
  (if fresh s.1 then s.1 ++ i.2
    else if i.1 = true ∨ i.2 ∉ s.2 then s.1 ++ (", " ++ i.2) else s.1, s.2 ++ [i.2])

/-- The heading with the items written out. -/
def writtenOut (fresh : String → Bool) (h : String) (items : List (Bool × String)) : String :=
  (items.foldl (writeItem fresh) (h, [])).1

/-- Behind the text `s.1` with the items `s.2`, none of the items is left out but for those that are
written already. -/
def Whole (fresh : String → Bool) : String × List String → List (Bool × String) → Prop
  | _, [] => True
  | s, i :: items => (fresh s.1 = false → i.1 = false → (Found s.1 i.2 ↔ i.2 ∈ s.2)) ∧
    Whole fresh (writeItem fresh s i) items

instance decidableWhole (fresh : String → Bool) (s : String × List String) :
    (items : List (Bool × String)) → Decidable (Whole fresh s items)
  | [] => .isTrue trivial
  | i :: items =>
    have := decidableWhole fresh (writeItem fresh s i) items
    inferInstanceAs (Decidable (_ ∧ _))

/-- Nothing is left out but for what is written already. -/
theorem foldl_addItem_of_whole {fresh : String → Bool} {s : String × List String}
    {items : List (Bool × String)} (h : Whole fresh s items) :
    items.foldl (addItem fresh) s.1 = (items.foldl (writeItem fresh) s).1 := by
  induction items generalizing s with
  | nil => rfl
  | cons i items ih =>
    obtain ⟨hi, hrest⟩ := h
    have hfirst : addItem fresh s.1 i = (writeItem fresh s i).1 := by
      rw [addItem_eq, writeItem]
      by_cases hfresh : fresh s.1 = true
      · rw [if_pos hfresh, if_pos hfresh]
      · rw [if_neg hfresh, if_neg hfresh]
        refine if_congr ?_ rfl rfl
        cases hflag : i.1 with
        | true => exact iff_of_true (.inl rfl) (.inl rfl)
        | false =>
          exact or_congr_right (not_congr (hi (Bool.eq_false_of_not_eq_true hfresh) hflag))
    rw [List.foldl_cons, List.foldl_cons, hfirst]
    exact ih hrest

/-- The item may be left out behind these: it is the end of one of them. -/
def Hidden (before : List (Bool × String)) (i : Bool × String) : Prop :=
  i.1 = false ∧ ∃ j ∈ before, i.2.toList <:+ j.2.toList

instance (before : List (Bool × String)) (i : Bool × String) : Decidable (Hidden before i) :=
  inferInstanceAs (Decidable (_ ∧ _))

/-- The items that are not hidden behind those before them. -/
def kept : List (Bool × String) → List (Bool × String) → List String
  | _, [] => []
  | before, i :: items =>
    if Hidden before i then kept (before ++ [i]) items else i.2 :: kept (before ++ [i]) items

/-- An item that is not taken for a separator; `c` is what ends the heading. -/
structure Plain (c : Char) (t : String) : Prop where
  comma : ',' ∉ t.toList
  heading : c ∉ t.toList
  blank : ∀ u, t.toList ≠ ' ' :: u
  ne_empty : t ≠ ""

/-- A heading, and the texts that are still taken for it. -/
structure Heading (c : Char) (fresh : String → Bool) (h : String) : Prop where
  fresh_self : fresh h = true
  fresh_append : ∀ p t, Plain c t → fresh (p ++ t) = false
  comma : ',' ∉ h.toList
  ends : h.toList = [] ∨ ∃ q, h.toList = q ++ [c]

section Items

variable {c : Char} {fresh : String → Bool} {h : String} {items items' : List (Bool × String)}

theorem toList_intercalate_cons (u : String) (us : List String) :
    (h ++ ", ".intercalate (u :: us)).toList =
      [','].intercalate ((h.toList ++ u.toList) :: us.map fun t => ' ' :: t.toList) := by
  rw [String.toList_append, String.toList_intercalate, List.map_cons, intercalate_cons,
    intercalate_cons, List.flatMap_map, List.flatMap_map, List.append_assoc]
  rfl

/-- Behind a heading that ends with another character, an item begins nowhere but at an item. -/
theorem Plain.suffix_of_heading {t u : String} (ht : Plain c t) (hh : Heading c fresh h)
    (hsuffix : t.toList <:+ h.toList ++ u.toList) : t.toList <:+ u.toList := by
  rcases hh.ends with hnil | ⟨q, hq⟩
  · rwa [hnil, List.nil_append] at hsuffix
  · rw [hq, List.append_assoc, List.singleton_append] at hsuffix
    rcases List.suffix_or_suffix_of_suffix hsuffix (List.suffix_append q _) with h | h
    · rcases List.suffix_cons_iff.mp h with h | h
      · exact absurd (h ▸ List.mem_cons_self) ht.heading
      · exact h
    · exact absurd (h.subset List.mem_cons_self) ht.heading

/-- An item that ends another with a blank in front ends the other. -/
theorem Plain.suffix_of_blank {t u : String} (ht : Plain c t)
    (hsuffix : t.toList <:+ ' ' :: u.toList) : t.toList <:+ u.toList := by
  rcases List.suffix_cons_iff.mp hsuffix with h | h
  · exact absurd h (ht.blank _)
  · exact h

/-- An item that is left out behind others is the end of one of them. -/
theorem Plain.exists_suffix {t : String} (ht : Plain c t) (hh : Heading c fresh h)
    {ts : List String} (hne : ts ≠ []) (hts : ∀ u ∈ ts, ',' ∉ u.toList)
    (hout : contains (h ++ ", ".intercalate ts) (t ++ ",") = true ∨
      endsWith (h ++ ", ".intercalate ts) t = true) : ∃ u ∈ ts, t.toList <:+ u.toList := by
  obtain ⟨u, us, rfl⟩ := List.exists_cons_of_ne_nil hne
  have hjoined : t.toList ++ [','] <:+:
        [','].intercalate ((h.toList ++ u.toList) :: us.map fun t => ' ' :: t.toList) ∨
      t.toList <:+
        [','].intercalate ((h.toList ++ u.toList) :: us.map fun t => ' ' :: t.toList) := by
    rw [← toList_intercalate_cons]
    rcases hout with hout | hout
    · left
      have hinfix := isInfix_of_contains hout
      rwa [String.toList_append] at hinfix
    · exact .inr (List.isSuffixOf_iff_suffix.mp hout)
  have hparts : ∀ p ∈ (h.toList ++ u.toList) :: us.map fun t => ' ' :: t.toList, ',' ∉ p := by
    intro p hp hmem
    rcases List.mem_cons.mp hp with rfl | hp
    · rcases List.mem_append.mp hmem with hmem | hmem
      · exact hh.comma hmem
      · exact hts u List.mem_cons_self hmem
    · obtain ⟨v, hv, rfl⟩ := List.mem_map.mp hp
      rcases List.mem_cons.mp hmem with hmem | hmem
      · exact absurd hmem (by decide)
      · exact hts v (List.mem_cons_of_mem u hv) hmem
  have hne : t.toList ≠ [] := fun h => ht.ne_empty (String.toList_eq_nil_iff.mp h)
  obtain ⟨p, hp, hsuffix⟩ := exists_suffix_of_intercalate ht.comma hne hparts hjoined
  rcases List.mem_cons.mp hp with rfl | hp
  · exact ⟨u, List.mem_cons_self, ht.suffix_of_heading hh hsuffix⟩
  · obtain ⟨v, hv, rfl⟩ := List.mem_map.mp hp
    exact ⟨v, List.mem_cons_of_mem u hv, ht.suffix_of_blank hsuffix⟩

/-- A text that lists something ends with an item. -/
theorem exists_append_of_intercalate {ts : List String} (hne : ts ≠ []) (h : String) :
    ∃ q, ∃ u ∈ ts, h ++ ", ".intercalate ts = q ++ u := by
  induction ts generalizing h with
  | nil => exact absurd rfl hne
  | cons u ts ih =>
    cases ts with
    | nil => exact ⟨h, u, List.mem_cons_self, by rw [String.intercalate_singleton]⟩
    | cons v ts =>
      obtain ⟨q, w, hw, heq⟩ := ih (List.cons_ne_nil v ts) (h ++ u ++ ", ")
      refine ⟨q, w, List.mem_cons_of_mem u hw, ?_⟩
      rw [← heq, String.intercalate_cons_of_ne_nil (List.cons_ne_nil v ts)]
      simp only [String.append_assoc]

theorem intercalate_concat {ts : List String} (hne : ts ≠ []) (t : String) :
    ", ".intercalate (ts ++ [t]) = ", ".intercalate ts ++ (", " ++ t) := by
  induction ts with
  | nil => exact absurd rfl hne
  | cons u ts ih =>
    cases ts with
    | nil =>
      rw [List.singleton_append, String.intercalate_cons_of_ne_nil (List.cons_ne_nil t []),
        String.intercalate_singleton, String.intercalate_singleton, String.append_assoc]
    | cons v ts =>
      rw [List.cons_append, String.intercalate_cons_of_ne_nil (by simp),
        ih (List.cons_ne_nil v ts), String.intercalate_cons_of_ne_nil (List.cons_ne_nil v ts)]
      simp only [String.append_assoc]

theorem kept_append (before items : List (Bool × String)) (i : Bool × String) :
    kept before (items ++ [i]) =
      kept before items ++ if Hidden (before ++ items) i then [] else [i.2] := by
  induction items generalizing before with
  | nil =>
    rw [List.nil_append, List.append_nil, kept, kept, kept, List.nil_append]
  | cons j items ih =>
    rw [List.cons_append, kept, kept, ih, List.append_assoc, List.singleton_append]
    split <;> rfl

theorem kept_concat (items : List (Bool × String)) (i : Bool × String) :
    kept [] (items ++ [i]) = kept [] items ++ if Hidden items i then [] else [i.2] :=
  kept_append [] items i

/-- Only items are kept. -/
theorem mem_of_mem_kept {t : String} (ht : t ∈ kept [] items) : ∃ i ∈ items, i.2 = t := by
  induction items using List.reverseRecOn with
  | nil => cases ht
  | append_singleton items i ih =>
    rw [kept_concat] at ht
    rcases List.mem_append.mp ht with ht | ht
    · obtain ⟨j, hj, rfl⟩ := ih ht
      exact ⟨j, List.mem_append_left [i] hj, rfl⟩
    · split at ht
      · cases ht
      · exact ⟨i, List.mem_append_right items (List.mem_singleton_self i),
          (List.mem_singleton.mp ht).symm⟩

/-- An item is the end of one that is kept. -/
theorem exists_suffix_kept {i : Bool × String} (hi : i ∈ items) :
    ∃ t ∈ kept [] items, i.2.toList <:+ t.toList := by
  induction items using List.reverseRecOn generalizing i with
  | nil => cases hi
  | append_singleton items k ih =>
    rw [kept_concat]
    have hbefore {i : Bool × String} (hi : i ∈ items) :
        ∃ t ∈ kept [] items ++ if Hidden items k then [] else [k.2], i.2.toList <:+ t.toList := by
      obtain ⟨t, ht, hsuffix⟩ := ih hi
      exact ⟨t, List.mem_append_left _ ht, hsuffix⟩
    rcases List.mem_append.mp hi with hi | hi
    · exact hbefore hi
    · rw [List.mem_singleton.mp hi]
      by_cases hk : Hidden items k
      · obtain ⟨-, j, hj, hsuffix⟩ := hk
        obtain ⟨t, ht, hjt⟩ := hbefore hj
        exact ⟨t, ht, hsuffix.trans hjt⟩
      · rw [if_neg hk]
        exact ⟨k.2, List.mem_append_right _ (List.mem_singleton_self k.2), List.suffix_refl _⟩

/-- What hides an item is kept. -/
theorem hidden_iff {i : Bool × String} :
    Hidden items i ↔ i.1 = false ∧ ∃ t ∈ kept [] items, i.2.toList <:+ t.toList := by
  refine and_congr_right fun _ => ⟨?_, ?_⟩
  · rintro ⟨j, hj, hsuffix⟩
    obtain ⟨t, ht, hjt⟩ := exists_suffix_kept hj
    exact ⟨t, ht, hsuffix.trans hjt⟩
  · rintro ⟨t, ht, hsuffix⟩
    obtain ⟨j, hj, rfl⟩ := mem_of_mem_kept ht
    exact ⟨j, hj, hsuffix⟩

/-- An item that is the end of a listed one is left out. -/
theorem out_of_suffix {t u : String} {ts : List String} (hu : u ∈ ts)
    (hsuffix : t.toList <:+ u.toList) :
    contains (h ++ ", ".intercalate ts) (t ++ ",") = true ∨
      endsWith (h ++ ", ".intercalate ts) t = true := by
  obtain ⟨us, vs, rfl⟩ := List.append_of_mem hu
  obtain ⟨q, hq⟩ := hsuffix
  have hlist : ∀ us : List String, ∃ p, (", ".intercalate (us ++ u :: vs)).toList =
      p ++ (", ".intercalate (u :: vs)).toList := by
    intro us
    induction us with
    | nil => exact ⟨[], rfl⟩
    | cons v us ih =>
      obtain ⟨p, hp⟩ := ih
      refine ⟨v.toList ++ (", ".toList ++ p), ?_⟩
      rw [List.cons_append, String.intercalate_cons_of_ne_nil (by simp), String.toList_append,
        String.toList_append, hp]
      simp only [List.append_assoc]
  obtain ⟨p, hp⟩ := hlist us
  cases vs with
  | nil =>
    right
    refine List.isSuffixOf_iff_suffix.mpr ⟨h.toList ++ (p ++ q), ?_⟩
    rw [String.toList_append, hp, String.intercalate_singleton, ← hq]
    simp only [List.append_assoc]
  | cons v vs =>
    left
    refine contains_of_isInfix ⟨h.toList ++ (p ++ q), ' ' :: (", ".intercalate (v :: vs)).toList, ?_⟩
    rw [String.toList_append, String.toList_append, hp,
      String.intercalate_cons_of_ne_nil (List.cons_ne_nil v vs), String.toList_append,
      String.toList_append, ← hq]
    simp only [List.append_assoc]
    rfl

/-- **What a text lists**: the items that are not the end of one before them. -/
theorem foldl_addItem (hh : Heading c fresh h) (hitems : ∀ i ∈ items, Plain c i.2) :
    items.foldl (addItem fresh) h = h ++ ", ".intercalate (kept [] items) := by
  induction items using List.reverseRecOn with
  | nil => rw [List.foldl_nil, kept, String.intercalate_nil, String.append_empty]
  | append_singleton items i ih =>
    have hi : Plain c i.2 := hitems i (List.mem_append_right items (List.mem_singleton_self i))
    have hitems : ∀ j ∈ items, Plain c j.2 := fun j hj => hitems j (List.mem_append_left [i] hj)
    rw [List.foldl_append, List.foldl_cons, List.foldl_nil, ih hitems, kept_concat]
    have hof : ∀ t ∈ kept [] items, Plain c t := by
      intro t ht
      obtain ⟨k, hk, rfl⟩ := mem_of_mem_kept ht
      exact hitems k hk
    by_cases hnil : kept [] items = []
    · have hhidden : ¬ Hidden items i := by
        rw [hidden_iff, hnil]
        rintro ⟨-, t, ht, -⟩
        cases ht
      rw [hnil, if_neg hhidden, addItem, String.intercalate_nil, String.append_empty,
        if_pos hh.fresh_self, List.nil_append, String.intercalate_singleton]
    · obtain ⟨q, u, hu, hlast⟩ := exists_append_of_intercalate hnil h
      have hfresh : ¬ fresh (h ++ ", ".intercalate (kept [] items)) = true := by
        rw [hlast, hh.fresh_append q u (hof u hu)]
        exact Bool.false_ne_true
      rw [addItem, if_neg hfresh]
      by_cases hhidden : Hidden items i
      · obtain ⟨hflag, t, ht, hsuffix⟩ := hidden_iff.mp hhidden
        rw [if_pos hhidden, List.append_nil, if_neg]
        rw [hflag, Bool.false_or, Bool.and_eq_true, Bool.not_eq_true', Bool.not_eq_true', not_and_or,
          Bool.not_eq_false, Bool.not_eq_false]
        exact out_of_suffix ht hsuffix
      · rw [if_neg hhidden, if_pos, intercalate_concat hnil, String.append_assoc]
        by_contra hout
        rw [Bool.not_eq_true, Bool.or_eq_false_iff, Bool.and_eq_false_iff, Bool.not_eq_false',
          Bool.not_eq_false'] at hout
        obtain ⟨t, ht, hsuffix⟩ :=
          hi.exists_suffix hh hnil (fun t ht => (hof t ht).comma) hout.2
        exact hhidden (hidden_iff.mpr ⟨hout.1, t, ht, hsuffix⟩)

/-- Texts without commas are read back. -/
theorem intercalate_inj {ts us : List String} (hts : ∀ t ∈ ts, ',' ∉ t.toList ∧ t ≠ "")
    (hus : ∀ u ∈ us, ',' ∉ u.toList ∧ u ≠ "") (heq : ", ".intercalate ts = ", ".intercalate us) :
    ts = us := by
  have hparts : ∀ ts : List String, (∀ t ∈ ts, ',' ∉ t.toList ∧ t ≠ "") → ts ≠ [] →
      parts [',', ' '] 0 (", ".intercalate ts).toList = ts.map String.toList := by
    intro ts hts hne
    obtain ⟨t, ts, rfl⟩ := List.exists_cons_of_ne_nil hne
    rw [String.toList_intercalate, List.map_cons]
    refine parts_intercalate (fun r => Pattern.startsIn_eq_zero (hts t List.mem_cons_self).1 (',' :: r)) ?_
    intro p hp
    obtain ⟨u, hu, rfl⟩ := List.mem_map.mp hp
    exact (hts u (List.mem_cons_of_mem t hu)).1
  have hempty : ∀ ts : List String, (∀ t ∈ ts, ',' ∉ t.toList ∧ t ≠ "") →
      ", ".intercalate ts = "" → ts = [] := by
    intro ts hts heq
    by_contra hne
    obtain ⟨q, u, hu, hlast⟩ := exists_append_of_intercalate hne ""
    rw [heq] at hlast
    have hu' : q ++ u = "" := hlast.symm
    exact (hts u hu).2 (String.append_eq_empty_iff.mp hu').2
  by_cases hnil : ts = []
  · subst hnil
    exact (hempty us hus heq.symm).symm
  · have hnil' : us ≠ [] := by
      rintro rfl
      exact hnil (hempty ts hts heq)
    have h := hparts ts hts hnil
    rw [heq, hparts us hus hnil'] at h
    exact (List.map_injective_iff.mpr (fun _ _ h => String.toList_injective h) h).symm

/-- **Two lists give the same text** exactly when the items that they list are the same. -/
theorem foldl_eq_iff (hh : Heading c fresh h) (hitems : ∀ i ∈ items, Plain c i.2)
    (hitems' : ∀ i ∈ items', Plain c i.2) :
    items.foldl (addItem fresh) h = items'.foldl (addItem fresh) h ↔
      kept [] items = kept [] items' := by
  rw [foldl_addItem hh hitems, foldl_addItem hh hitems', String.append_right_inj]
  constructor
  · have hplain {items : List (Bool × String)} (hitems : ∀ i ∈ items, Plain c i.2) :
        ∀ t ∈ kept [] items, ',' ∉ t.toList ∧ t ≠ "" := by
      intro t ht
      obtain ⟨j, hj, rfl⟩ := mem_of_mem_kept ht
      exact ⟨(hitems j hj).comma, (hitems j hj).ne_empty⟩
    exact intercalate_inj (hplain hitems) (hplain hitems')
  · intro hkept
    rw [hkept]

end Items

end Text
