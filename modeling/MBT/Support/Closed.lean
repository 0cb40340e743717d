import MBT.Support.Split

/-!
# Support — Closed

Texts made of parts that a character closes, each followed by some copies of an ending.

* `replaceChars_text`: replacing a target that ends with the closing character acts on each part by
  itself.
* `text_inj`: a text determines its parts where the content of a part determines its copies.
-/

namespace Closed
open Text Pattern

variable {e a : Char} {t g s r z tail : List Char}

/-! ### One part -/

/-- Up to its first end mark a text is determined. -/
theorem closed_inj {s' r' : List Char} (hs : e ∉ s) (hs' : e ∉ s') :
    s ++ e :: r = s' ++ e :: r' ↔ s = s' ∧ r = r' := by
  induction s generalizing s' with
  | nil =>
    cases s' with
    | nil => simp
    | cons c s' =>
      have hc : e ≠ c := fun h => hs' (h ▸ List.mem_cons_self)
      simp [hc]
  | cons c s ih =>
    rw [List.mem_cons, not_or] at hs
    cases s' with
    | nil => simp [Ne.symm hs.1]
    | cons d s' =>
      rw [List.mem_cons, not_or] at hs'
      rw [List.cons_append, List.cons_append, List.cons.injEq, ih hs.2 hs'.2, List.cons.injEq,
        and_assoc]

/-- A text with its end mark begins another exactly when it is the other's first part. -/
theorem isPrefixOf_closed (ht : e ∉ t) (hs : e ∉ s) :
    (t ++ [e]).isPrefixOf (s ++ e :: r) = true ↔ t = s := by
  rw [List.isPrefixOf_iff_prefix]
  constructor
  · rintro ⟨y, hy⟩
    rw [List.append_assoc, List.singleton_append] at hy
    exact ((closed_inj ht hs).mp hy).1
  · rintro rfl
    exact ⟨r, by rw [List.append_assoc, List.singleton_append]⟩

/-- Replacing in a text with a closed part in front. -/
theorem replaceChars_closed (ht : e ∉ t) (hs : e ∉ s) :
    replaceChars (t ++ [e]) g 0 (s ++ e :: r) =
      (if t <:+ s then s.take (s.length - t.length) ++ g else s ++ [e]) ++
        replaceChars (t ++ [e]) g 0 r := by
  induction s with
  | nil =>
    have hpre := isPrefixOf_closed (r := r) ht (List.not_mem_nil (a := e))
    rw [List.nil_append] at hpre ⊢
    rw [replaceChars]
    by_cases hnil : t = []
    · subst hnil
      rw [if_pos (hpre.mpr rfl), if_pos (List.suffix_refl []), List.nil_append, List.length_singleton,
        Nat.sub_self]
      rfl
    · rw [if_neg (mt hpre.mp hnil), if_neg (mt List.suffix_nil.mp hnil)]
      rfl
  | cons c s ih =>
    have hpre := isPrefixOf_closed (r := r) ht hs
    rw [List.mem_cons, not_or] at hs
    rw [List.cons_append] at hpre ⊢
    rw [replaceChars]
    by_cases hwhole : t = c :: s
    · have hskip : (t ++ [e]).length - 1 = s.length + 1 := by
        rw [hwhole, List.length_append, List.length_cons, List.length_singleton, Nat.add_sub_cancel]
      have hdrop : (s ++ e :: r).drop (s.length + 1) = r := by
        rw [← List.drop_drop, List.drop_left]
        rfl
      rw [if_pos (hpre.mpr hwhole), if_pos (List.suffix_cons_iff.mpr (.inl hwhole)), hskip,
        replaceChars_skip, hdrop, hwhole, Nat.sub_self, List.take_zero, List.nil_append]
    · rw [if_neg (mt hpre.mp hwhole), ih hs.2, ← List.cons_append]
      by_cases hend : t <:+ s
      · rw [if_pos hend, if_pos (List.suffix_cons_iff.mpr (.inr hend)), List.length_cons,
          Nat.succ_sub hend.length_le, List.take_succ_cons]
        rfl
      · have hnot := not_or.mpr ⟨hwhole, hend⟩
        rw [if_neg hend, if_neg (mt List.suffix_cons_iff.mp hnot)]
        rfl

/-- Without the closing character nothing is replaced. -/
theorem replaceChars_open (hs : e ∉ s) : replaceChars (t ++ [e]) g 0 s = s := by
  refine replaceChars_none g ?_
  induction s with
  | nil => rfl
  | cons c s ih =>
    have hpre : (t ++ [e]).isPrefixOf (c :: s) = false := by
      refine Bool.eq_false_iff.mpr fun h => hs ?_
      exact (List.isPrefixOf_iff_prefix.mp h).subset (List.mem_append_right _ List.mem_cons_self)
    rw [List.mem_cons, not_or] at hs
    rw [occurrences, hpre, if_neg Bool.false_ne_true, ih hs.2]

/-! ### The text -/

/-- A part: what stands before the character that closes it, and how often the ending follows. -/
abbrev Part := List Char × ℕ

/-- Some copies of the ending. -/
def endings (z : List Char) (k : ℕ) : List Char := (List.replicate k z).flatten

/-- The text of some closed parts, with their endings, and of what follows them. -/
def text (e : Char) (z tail : List Char) : List Part → List Char
  | [] => tail
  | (c, k) :: ps => c ++ e :: (endings z k ++ text e z tail ps)

theorem endings_succ (z : List Char) (k : ℕ) : endings z (k + 1) = z ++ endings z k := by
  rw [endings, List.replicate_succ, List.flatten_cons, endings]

/-- The endings hold no character but their own. -/
theorem notMem_endings (h : a ∉ z) (k : ℕ) : a ∉ endings z k := by
  induction k with
  | zero => exact List.not_mem_nil
  | succ k ih =>
    rw [endings_succ, List.mem_append, not_or]
    exact ⟨h, ih⟩

/-- A target before the closing character is replaced, with one more ending. -/
def turn (t g : List Char) (p : Part) : Part :=
  if t <:+ p.1 then (p.1.take (p.1.length - t.length) ++ g, p.2 + 1) else p

theorem turn_append (t g s : List Char) (k : ℕ) : turn t g (s ++ t, k) = (s ++ g, k + 1) := by
  rw [turn, if_pos (List.suffix_append s t), List.length_append, Nat.add_sub_cancel, List.take_left]

/-- Any other part stays. -/
theorem turn_of_not {p : Part} (h : ¬ t <:+ p.1) : turn t g p = p := if_neg h

/-- Replacing acts on each part by itself. -/
theorem replaceChars_text {ps : List Part} (ht : e ∉ a :: t) (hz : a ∉ z) (htail : e ∉ tail)
    (hps : ∀ p ∈ ps, e ∉ p.1) :
    replaceChars (a :: t ++ [e]) (g ++ e :: z) 0 (text e z tail ps) =
      text e z tail (ps.map (turn (a :: t) g)) := by
  induction ps with
  | nil => exact replaceChars_open htail
  | cons p ps ih =>
    rw [List.forall_mem_cons] at hps
    have hrest : replaceChars (a :: t ++ [e]) (g ++ e :: z) 0 (endings z p.2 ++ text e z tail ps) =
        endings z p.2 ++ text e z tail (ps.map (turn (a :: t) g)) := by
      rw [← ih hps.2]
      exact replaceChars_append _ (startsIn_eq_zero (notMem_endings hz _) _)
    rw [text, replaceChars_closed ht hps.1, hrest, List.map_cons, turn]
    by_cases hend : a :: t <:+ p.1
    · rw [if_pos hend, if_pos hend, text, endings_succ]
      simp only [List.append_assoc, List.cons_append]
    · rw [if_neg hend, if_neg hend, text, List.append_assoc, List.singleton_append]

/-- A text determines its parts. -/
theorem text_inj {ps qs : List Part}
    (h : List.Forall₂ (fun p q => e ∉ p.1 ∧ e ∉ q.1 ∧ (p.1 = q.1 → p.2 = q.2)) ps qs) :
    text e z tail ps = text e z tail qs ↔ ps = qs := by
  refine ⟨fun heq => ?_, fun heq => heq ▸ rfl⟩
  induction h with
  | nil => rfl
  | @cons p q ps qs hpq _ ih =>
    rw [text, text, closed_inj hpq.1 hpq.2.1] at heq
    obtain ⟨hcontent, hrest⟩ := heq
    have hcopies := hpq.2.2 hcontent
    rw [hcopies, List.append_cancel_left_eq] at hrest
    rw [ih hrest, Prod.ext hcontent hcopies]

/-! ### The parts of a text -/

/-- The parts that the character closes. -/
def closedParts (e : Char) (s : List Char) : List (List Char) := (parts [e] 0 s).dropLast

/-- What follows the last of them. -/
def openPart (e : Char) (s : List Char) : List Char := (parts [e] 0 s).getLastD []

/-- A part holds no end mark. -/
theorem notMem_closedParts (h : t ∈ closedParts e s) : e ∉ t :=
  notMem_of_mem_parts (List.mem_of_mem_dropLast h)

/-- A text has a first part. -/
theorem exists_parts (e : Char) (s : List Char) : ∃ x xs, parts [e] 0 s = x :: xs := by
  refine List.exists_cons_of_length_pos ?_
  rw [length_parts_char]
  exact Nat.succ_pos _

/-- What follows the last part holds no end mark. -/
theorem notMem_openPart (e : Char) (s : List Char) : e ∉ openPart e s := by
  obtain ⟨x, xs, hparts⟩ := exists_parts e s
  refine notMem_of_mem_parts (s := s) ?_
  rw [openPart, hparts, List.getLastD_cons]
  exact List.getLastD_mem_cons

/-- A text is made of its parts. -/
theorem text_closedParts (e : Char) (z s : List Char) :
    text e z (openPart e s) ((closedParts e s).map (·, 0)) = s := by
  induction s with
  | nil => rfl
  | cons c s ih =>
    obtain ⟨x, xs, hparts⟩ := exists_parts e s
    have hpre : [e].isPrefixOf (c :: s) = (e == c) := by
      rw [List.isPrefixOf, List.isPrefixOf_nil_left, Bool.and_true]
    rw [openPart, closedParts, hparts] at ih
    rw [openPart, closedParts, parts, hpre]
    by_cases hc : e = c
    · rw [if_pos (beq_iff_eq.mpr hc), List.length_singleton, Nat.sub_self, hparts]
      rw [List.dropLast_cons_of_ne_nil (List.cons_ne_nil x xs), List.map_cons, text]
      subst hc
      exact congrArg (e :: ·) ih
    · rw [if_neg (mt beq_iff_eq.mp hc), hparts, List.modifyHead_cons]
      cases xs with
      | nil => exact congrArg (c :: ·) ih
      | cons y ys => exact congrArg (c :: ·) ih

end Closed
