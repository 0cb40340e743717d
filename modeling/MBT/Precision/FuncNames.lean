import MBT.Precision.GetCppFunc
import MBT.Support.Segments

/-!
# Precision — FuncNames

The name that is cut out of the text gathered from the lines of a declaration.

* `getFuncName_eq`: the name, of a text in front of its first parenthesis.
* `gathered_text`: the text gathered from the lines: the blanks at the line ends are lost.
* `storedName_iff`: where the name is the qualified identifier in front of the parenthesis.
-/

namespace MBT
open Exec Text PyText

namespace GetCppFunc

/-! ### Declarations -/

/-- The text of a token. -/
structure Token where
  text : List Char
  ne : text ≠ []
  plain : ∀ c ∈ text, isSpace c = false ∧ c ≠ '('

/-- An identifier or a keyword. -/
def Token.IsWord (t : Token) : Prop := (t.text.all fun c => c.isAlphanum || c = '_') = true

instance (t : Token) : Decidable t.IsWord := inferInstanceAs (Decidable (_ = true))

/-- `pay`, `~Order`, `Order::pay`, `Order<int>::pay` and `::pay`. -/
inductive QualifiedId : List Token → Prop where
  | name {t : Token} (ht : t.IsWord) : QualifiedId [t]
  | destructor {s t : Token} (hs : s.text = ['~']) (ht : t.IsWord) : QualifiedId [s, t]
  | scoped {t s : Token} {ts : List Token} (ht : t.IsWord) (hs : s.text = [':', ':'])
      (hts : QualifiedId ts) : QualifiedId (t :: s :: ts)
  | template {t l g s : Token} {args ts : List Token} (ht : t.IsWord) (hl : l.text = ['<'])
      (hg : g.text = ['>']) (hs : s.text = [':', ':']) (hts : QualifiedId ts) :
      QualifiedId (t :: l :: (args ++ g :: s :: ts))
  | global {s : Token} {ts : List Token} (hs : s.text = [':', ':']) (hts : QualifiedId ts) :
      QualifiedId (s :: ts)

/-- The token in front of a qualified identifier belongs to it. -/
def Joins (t : Token) (name : List Token) : Prop :=
  t.text = [':', ':'] ∨ t.text = ['~'] ∨
    ((name.head?.any fun s => s.text = [':', ':']) = true ∧ (t.IsWord ∨ t.text = ['>']))

instance (t : Token) (name : List Token) : Decidable (Joins t name) :=
  inferInstanceAs (Decidable (_ ∨ _ ∨ _))

/-- Blanks within a line. -/
abbrev Blanks := { w : List Char // ∀ c ∈ w, isSpace c = true ∧ c ≠ '\n' }

/-- What is in front of a token: blanks, or the end of a line. -/
inductive Gap where
  | blanks (w : Blanks)
  | newline (trailing leading : Blanks)

/-- The characters of a gap. -/
def Gap.chars : Gap → List Char
  | blanks w => w.1
  | newline trailing leading => trailing.1 ++ '\n' :: leading.1

/-- What of it is gathered. -/
def Gap.kept : Gap → List Char
  | blanks w => w.1
  | newline _ _ => []

/-- A token and what is in front of it. -/
structure Piece where
  gap : Gap
  token : Token

/-- A declaration up to its first parenthesis, and the rest of it. -/
structure Declaration where
  before : List Piece
  first : Piece
  more : List Piece
  paren : Gap
  rest : List Char
  qualified : QualifiedId ((first :: more).map Piece.token)
  whole : ∀ p ∈ before.getLast?, ¬ Joins p.token ((first :: more).map Piece.token)
  separated : List.IsChain (fun p q : Piece => p.token.IsWord → q.token.IsWord → q.gap.chars ≠ [])
    (before ++ first :: more)

/-- The text of some tokens with the gaps before them. -/
def spread (ps : List Piece) : List Char := ps.flatMap fun p => p.gap.chars ++ p.token.text

/-- What is gathered of them. -/
def keptOf (ps : List Piece) : List Char := ps.flatMap fun p => p.gap.kept ++ p.token.text

/-- The tokens with nothing between them. -/
def glued (ps : List Piece) : List Char := ps.flatMap fun p => p.token.text

namespace Declaration

/-- The text of a declaration, with its lines. -/
def text (d : Declaration) : List Char :=
  spread (d.before ++ d.first :: d.more) ++ (d.paren.chars ++ '(' :: d.rest)

/-- The lines, as they are read from the file. -/
def lines (d : Declaration) : List String :=
  (parts ['\n'] 0 d.text).map fun l => String.ofList (l ++ ['\n'])

/-- The qualified identifier in front of the parenthesis. -/
def name (d : Declaration) : String := String.ofList (glued (d.first :: d.more))

/-- No blank is kept within the name, one is kept in front of it, and the blanks kept behind it end
with the spaces among them. -/
structure Kept (d : Declaration) : Prop where
  inside : ∀ p ∈ d.more, p.gap.kept = []
  front : d.before = [] ∨ ' ' ∈ d.first.gap.kept
  behind : ∃ a n, d.paren.kept = a ++ List.replicate n ' ' ∧ ' ' ∉ a

end Declaration

/-! ### The name in a text -/

theorem item_append {v w : List Char} {c : Char} :
    item (String.ofList (v ++ c :: w)) (v.length : ℤ) = some c := by
  rw [item, if_neg (by omega), if_neg (by omega), String.toList_ofList, Int.toNat_natCast,
    List.getElem?_append_right le_rfl, Nat.sub_self]
  rfl

/-- The loop goes back over the spaces. -/
theorem skipSpaces_eq {v : List Char} (w : List Char) (hne : v ≠ []) (hhead : v.head? ≠ some ' ') :
    skipSpaces (String.ofList (v ++ w)) (v.length + (v ++ w).length) =
      ((v.rdropWhile (· = ' ')).length : ℤ) := by
  induction v using List.reverseRecOn generalizing w with
  | nil => exact absurd rfl hne
  | append_singleton v c ih =>
    have hlength : (String.ofList (v ++ [c] ++ w)).length = (v ++ [c] ++ w).length :=
      String.length_ofList
    have hassoc : v ++ [c] ++ w = v ++ c :: w := by
      rw [List.append_assoc]
      rfl
    have hn : (v ++ [c]).length + (v ++ [c] ++ w).length = v.length + (v ++ c :: w).length + 1 := by
      rw [hassoc, List.length_append, List.length_singleton]
      omega
    have hpos :
        ((v.length + (v ++ c :: w).length : ℕ) : ℤ) + 1 - (v ++ [c] ++ w).length = v.length + 1 := by
      rw [hassoc]
      omega
    rw [hn, skipSpaces, hlength, hpos, Int.add_sub_cancel, hassoc, item_append]
    by_cases hc : c = ' '
    · have hv : v ≠ [] := by
        rintro rfl
        exact hhead (by rw [hc]; rfl)
      have hhead' : v.head? ≠ some ' ' := by
        rw [List.head?_append_of_ne_nil _ hv] at hhead
        exact hhead
      rw [if_pos (by rw [hc]), ih (c :: w) hv hhead',
        List.rdropWhile_concat_pos (· = ' ') v c (decide_eq_true hc)]
    · rw [if_neg (fun h => hc (Option.some.inj h)),
        List.rdropWhile_concat_neg (· = ' ') v c (by rw [decide_eq_false hc]; exact Bool.false_ne_true),
        List.length_append, List.length_singleton]
      omega

/-- **The name** is what stands behind the last space in front of the parenthesis, where the spaces
directly in front of it do not count. -/
theorem getFuncName_eq {u : List Char} (r : List Char) (hu : '(' ∉ u) (hink : Inked u) :
    getFuncName (String.ofList (u ++ '(' :: r)) =
      strip (String.ofList ((u.rdropWhile (· = ' ')).rtakeWhile (· ≠ ' '))) := by
  obtain ⟨c, u', rfl, hc⟩ := hink
  have hhead : (c :: u').head? ≠ some ' ' := by
    intro h
    rw [Option.some.inj h] at hc
    cases hc
  have hlength : (String.ofList (c :: u' ++ '(' :: r)).length = (c :: u' ++ '(' :: r).length :=
    String.length_ofList
  have hparen : indexOf (String.ofList (c :: u' ++ '(' :: r)) "(" 0 = ((c :: u').length : ℤ) :=
    indexOf_next (p := []) rfl String.toList_ofList hu
  have hstart : (((c :: u').length : ℤ) + (String.ofList (c :: u' ++ '(' :: r)).length).toNat =
      (c :: u').length + (c :: u' ++ '(' :: r).length := by
    rw [hlength]
    omega
  have hskip := skipSpaces_eq ('(' :: r) (List.cons_ne_nil c u') hhead
  generalize hu' : (c :: u') = u at *
  obtain ⟨z, hz⟩ := List.rdropWhile_prefix (· = ' ') u
  have hle : (u.rdropWhile (· = ' ')).length ≤ (u ++ '(' :: r).length := by
    have hlen := congrArg List.length hz
    rw [List.length_append] at hlen ⊢
    omega
  have hclamp :
      ∀ k ≤ (u ++ '(' :: r).length, clamp (String.ofList (u ++ '(' :: r)).length (k : ℤ) = k := by
    intro k hk
    rw [clamp, if_neg (by omega), hlength, Int.toNat_natCast, Nat.min_eq_left hk]
  have htake : (u ++ '(' :: r).take (u.rdropWhile (· = ' ')).length = u.rdropWhile (· = ' ') := by
    conv_lhs => rw [← hz, List.append_assoc, List.take_left' (by rw [hz])]
  obtain ⟨k, hk, hlast, hdrop⟩ := drop_lastIndexOf (u.rdropWhile (· = ' ')) ' '
  rw [getFuncName, hparen]
  dsimp only
  rw [if_neg (by omega), hstart, hskip, rfind, hclamp _ hle, String.toList_ofList, htake, hlast,
    PyText.slice, hclamp _ hle, hclamp _ (hk.trans hle), String.toList_ofList, htake, hdrop]

/-! ### Gathering -/

/-- The text gathered from the lines of a text. -/
def gathered (s : List Char) : List Char := (parts ['\n'] 0 s).flatMap stripped

variable {w s y : List Char}

/-- The first line of a text that begins with a word. -/
theorem exists_parts_inked (h : Inked y) : ∃ l ls, parts ['\n'] 0 y = l :: ls ∧ Inked l := by
  obtain ⟨c, r, rfl, hc⟩ := h
  have hne : c ≠ '\n' := by
    rintro rfl
    cases hc
  obtain ⟨l, ls, hparts⟩ := List.exists_cons_of_ne_nil (parts_ne_nil '\n' r)
  refine ⟨c :: l, ls, ?_, ⟨c, l, rfl, hc⟩⟩
  rw [parts_char_of_ne hne, hparts]
  rfl

/-- Blanks within a line have no line end. -/
theorem notMem_blanks (w : Blanks) : '\n' ∉ w.1 := fun h => (w.2 _ h).2 rfl

theorem parts_blanks_append (hw : '\n' ∉ w) (s : List Char) :
    parts ['\n'] 0 (w ++ s) = (parts ['\n'] 0 s).modifyHead (w ++ ·) :=
  parts_append (Pattern.startsIn_eq_zero hw s)

/-- Blanks in front are not gathered. -/
theorem gathered_blanks (w : Blanks) (s : List Char) : gathered (w.1 ++ s) = gathered s := by
  obtain ⟨l, ls, hparts⟩ := List.exists_cons_of_ne_nil (parts_ne_nil '\n' s)
  rw [gathered, parts_blanks_append (notMem_blanks w), gathered, hparts, List.modifyHead_cons,
    List.flatMap_cons, List.flatMap_cons, stripped_blank_append fun c hc => (w.2 c hc).1]

/-- What is in front of the first token is lost. -/
theorem gathered_gap (g : Gap) (s : List Char) : gathered (g.chars ++ s) = gathered s := by
  cases g with
  | blanks w => exact gathered_blanks w s
  | newline trailing leading =>
    have hline : parts ['\n'] 0 (trailing.1 ++ '\n' :: (leading.1 ++ s)) =
        trailing.1 :: parts ['\n'] 0 (leading.1 ++ s) := by
      rw [parts_blanks_append (notMem_blanks trailing), parts_char_self, List.modifyHead_cons,
        List.append_nil]
    rw [Gap.chars, List.append_assoc, List.cons_append, gathered, hline, List.flatMap_cons,
      stripped_blank fun c hc => (trailing.2 c hc).1, List.nil_append]
    exact gathered_blanks leading s

/-- A token has no blank and no bracket. -/
theorem Token.notMem (t : Token) {c : Char} (hc : isSpace c = true ∨ c = '(') : c ∉ t.text := by
  intro h
  have hplain := t.plain c h
  rcases hc with hc | hc
  · rw [hplain.1] at hc
    cases hc
  · exact hplain.2 hc

/-- A token begins with no blank. -/
theorem Token.inked (t : Token) : Inked t.text := inked_of_ink t.ne fun c hc => (t.plain c hc).1

/-- It ends with none. -/
theorem Token.inked_reverse (t : Token) : Inked t.text.reverse :=
  inked_of_ink (fun h => t.ne (List.reverse_eq_nil_iff.mp h))
    fun c hc => (t.plain c (List.mem_reverse.mp hc)).1

/-- Between two tokens the blanks are kept, and the end of a line is not. -/
theorem gathered_token (t : Token) (g : Gap) (hy : Inked y) :
    gathered (t.text ++ (g.chars ++ y)) = t.text ++ (g.kept ++ gathered y) := by
  have ht := t.notMem (c := '\n') (.inl rfl)
  cases g with
  | blanks w =>
    obtain ⟨l, ls, hparts, hl⟩ := exists_parts_inked hy
    have hline : parts ['\n'] 0 (t.text ++ (w.1 ++ y)) = (t.text ++ (w.1 ++ l)) :: ls := by
      rw [parts_blanks_append ht, parts_blanks_append (notMem_blanks w), hparts]
      rfl
    have hstrip : stripped (t.text ++ (w.1 ++ l)) = t.text ++ (w.1 ++ stripped l) := by
      rw [(t.inked.append _).stripped_eq, ← List.append_assoc, hl.rdropWhile_append, List.append_assoc,
        hl.stripped_eq]
    rw [Gap.chars, Gap.kept, gathered, hline, List.flatMap_cons, hstrip, gathered, hparts,
      List.flatMap_cons]
    simp only [List.append_assoc]
  | newline trailing leading =>
    have hline : parts ['\n'] 0 (t.text ++ (trailing.1 ++ '\n' :: (leading.1 ++ y))) =
        (t.text ++ trailing.1) :: parts ['\n'] 0 (leading.1 ++ y) := by
      rw [parts_blanks_append ht, parts_blanks_append (notMem_blanks trailing), parts_char_self,
        List.modifyHead_cons, List.modifyHead_cons, List.append_nil]
    have hstrip : stripped (t.text ++ trailing.1) = t.text := by
      rw [stripped_append_blank _ fun c hc => (trailing.2 c hc).1, t.inked.stripped_eq,
        List.rdropWhile_eq_self_iff]
      intro hne hlast
      rw [(t.plain _ (List.getLast_mem hne)).1] at hlast
      cases hlast
    rw [Gap.chars, Gap.kept, List.append_assoc, List.cons_append, gathered, hline, List.flatMap_cons,
      hstrip, List.nil_append]
    exact congrArg (t.text ++ ·) (gathered_blanks leading y)

/-- The tokens behind a token, up to the parenthesis. -/
theorem gathered_spread (t : Token) (ps : List Piece) (g : Gap) (hy : Inked y) :
    gathered (t.text ++ (spread ps ++ (g.chars ++ y))) =
      t.text ++ (keptOf ps ++ (g.kept ++ gathered y)) := by
  induction ps generalizing t with
  | nil => exact gathered_token t g hy
  | cons p ps ih =>
    have hspread : spread (p :: ps) ++ (g.chars ++ y) =
        p.gap.chars ++ (p.token.text ++ (spread ps ++ (g.chars ++ y))) := by
      rw [spread, List.flatMap_cons, ← spread, List.append_assoc, List.append_assoc]
    have hkept : keptOf (p :: ps) ++ (g.kept ++ gathered y) =
        p.gap.kept ++ (p.token.text ++ (keptOf ps ++ (g.kept ++ gathered y))) := by
      rw [keptOf, List.flatMap_cons, ← keptOf, List.append_assoc, List.append_assoc]
    rw [hspread, hkept, gathered_token t p.gap (p.token.inked.append _), ih]

/-- The parenthesis is gathered with what follows it. -/
theorem exists_gathered_paren (rest : List Char) : ∃ r, gathered ('(' :: rest) = '(' :: r := by
  have hink : ∀ l, Inked ('(' :: l) := fun l => ⟨'(', l, rfl, rfl⟩
  obtain ⟨l, ls, hparts⟩ := List.exists_cons_of_ne_nil (parts_ne_nil '\n' rest)
  have hline : parts ['\n'] 0 ('(' :: rest) = ('(' :: l) :: ls := by
    rw [parts_char_of_ne (by decide), hparts]
    rfl
  have hstrip : ∃ r, stripped ('(' :: l) = '(' :: r := by
    rw [(hink l).stripped_eq]
    rcases List.prefix_cons_iff.mp (List.rdropWhile_prefix isSpace ('(' :: l)) with hnil | ⟨r, hr, -⟩
    · have hall := List.rdropWhile_eq_nil_iff.mp hnil '(' List.mem_cons_self
      cases hall
    · exact ⟨r, hr⟩
  obtain ⟨r, hr⟩ := hstrip
  rw [gathered, hline, List.flatMap_cons, hr]
  exact ⟨r ++ ls.flatMap stripped, rfl⟩

namespace Declaration

/-- What is gathered in front of the name. -/
def front (d : Declaration) : List Char :=
  match d.before with
  | [] => []
  | p :: ps => p.token.text ++ (keptOf ps ++ d.first.gap.kept)

/-- What is gathered of the name. -/
def middle (d : Declaration) : List Char := d.first.token.text ++ keptOf d.more

/-- What is gathered of a declaration, up to its bracket. -/
theorem gathered_text (d : Declaration) :
    ∃ r, gathered d.text = (d.front ++ (d.middle ++ d.paren.kept)) ++ '(' :: r := by
  obtain ⟨r, hr⟩ := exists_gathered_paren d.rest
  have hink : Inked ('(' :: d.rest) := ⟨'(', d.rest, rfl, rfl⟩
  refine ⟨r, ?_⟩
  rw [text, front, middle, spread]
  cases d.before with
  | nil =>
    rw [List.nil_append, List.flatMap_cons, ← spread, List.append_assoc, List.append_assoc,
      gathered_gap, gathered_spread _ _ _ hink, hr]
    simp only [List.nil_append, List.append_assoc]
  | cons p ps =>
    rw [List.cons_append, List.flatMap_cons, ← spread, List.append_assoc, List.append_assoc,
      gathered_gap, gathered_spread _ _ _ hink, hr]
    simp only [keptOf, List.flatMap_append, List.flatMap_cons, List.append_assoc]

end Declaration

/-- The text gathered from a function whose lines are those of a declaration. -/
theorem text_of_lines (ls : List (List Char)) :
    ((ls.map fun l => String.ofList (l ++ ['\n'])).foldr (fun l text => strip l ++ text) "") =
      String.ofList (ls.flatMap stripped) := by
  induction ls with
  | nil => rfl
  | cons l ls ih =>
    rw [List.map_cons, List.foldr_cons, ih, List.flatMap_cons, strip_ofList,
      stripped_append_blank l (List.forall_mem_singleton.mpr rfl), String.ofList_append]

/-- The text of a function whose lines are those of a declaration. -/
theorem Func.text_of_decl {f : Func} {d : Declaration} (h : f.decl = d.lines) :
    f.text = String.ofList (gathered d.text) := by
  rw [Func.text, h, Declaration.lines, text_of_lines, gathered]

/-! ### Cutting a name out -/

/-- What `strip` takes away. -/
theorem exists_around (s : List Char) :
    ∃ v w, s = v ++ (stripped s ++ w) ∧ (∀ c ∈ v, isSpace c = true) ∧ ∀ c ∈ w, isSpace c = true := by
  refine ⟨s.takeWhile isSpace, (s.dropWhile isSpace).rtakeWhile isSpace, ?_,
    fun c hc => List.mem_takeWhile_imp hc, fun c hc => List.mem_rtakeWhile_imp hc⟩
  rw [stripped, List.rdropWhile_append_rtakeWhile, List.takeWhile_append_dropWhile]

/-- What is no blank is no space. -/
theorem ne_space_of_ink {c : Char} (h : isSpace c = false) : c ≠ ' ' := by
  rintro rfl
  cases h

variable {b k m q n : List Char}

/-- The name is found: only the spaces behind it are cut, and the last space in front of it is found. -/
theorem cut_of_kept (hm : Inked m) (hm' : Inked m.reverse) (hink : ∀ c ∈ m, isSpace c = false)
    (hb : b = [] → k = []) (hk : ∀ c ∈ k, isSpace c = true) (hq : ∀ c ∈ q, isSpace c = true)
    (hfront : b = [] ∨ ' ' ∈ k) (hbehind : ∃ a j, q = a ++ List.replicate j ' ' ∧ ' ' ∉ a) :
    stripped (((b ++ k ++ (m ++ q)).rdropWhile (· = ' ')).rtakeWhile (· ≠ ' ')) = m := by
  obtain ⟨a, j, rfl, ha⟩ := hbehind
  have hlast : ∃ s c, m ++ a = s ++ [c] ∧ c ≠ ' ' := by
    rcases List.eq_nil_or_concat a with rfl | ⟨s, c, rfl⟩
    · obtain ⟨c, r, hr, hc⟩ := hm'
      refine ⟨r.reverse, c, ?_, ne_space_of_ink hc⟩
      rw [List.append_nil, ← List.reverse_reverse m, hr, List.reverse_cons]
    · rw [List.concat_eq_append] at ha ⊢
      refine ⟨m ++ s, c, (List.append_assoc ..).symm, ?_⟩
      rintro rfl
      exact ha (List.mem_append_right s List.mem_cons_self)
  obtain ⟨s, c, hs, hc⟩ := hlast
  have hdrop :
      (b ++ k ++ (m ++ (a ++ List.replicate j ' '))).rdropWhile (· = ' ') = b ++ k ++ (m ++ a) := by
    have hsplit :
        b ++ k ++ (m ++ (a ++ List.replicate j ' ')) = (b ++ k ++ s) ++ c :: List.replicate j ' ' := by
      rw [← List.append_assoc m, hs]
      simp
    rw [hsplit, rdropWhile_append_stop (decide_eq_false hc), hs, List.append_assoc]
    exact fun d hd => decide_eq_true (List.eq_of_mem_replicate hd)
  have hplain : ∀ d ∈ m ++ a, d ≠ ' ' := by
    rintro d hd rfl
    rcases List.mem_append.mp hd with hd | hd
    · exact ne_space_of_ink (hink _ hd) rfl
    · exact ha hd
  have hblank : ∀ c ∈ a, isSpace c = true := fun c hc => hq c (List.mem_append_left _ hc)
  have hstrip : ∀ v : List Char, (∀ c ∈ v, isSpace c = true) → stripped (v ++ (m ++ a)) = m := by
    intro v hv
    have haround := strip_around hv hblank hm hm'
    rw [strip_ofList] at haround
    exact String.ofList_injective haround
  rw [hdrop]
  by_cases hnil : b = []
  · rw [hnil, hb hnil, List.nil_append, List.nil_append,
      rtakeWhile_eq_self fun d hd => decide_eq_true (hplain d hd)]
    exact hstrip [] (List.forall_mem_nil _)
  · obtain ⟨k₂, k₁, hrev, hk₂⟩ :=
      List.eq_append_cons_of_mem (List.mem_reverse.mpr (hfront.resolve_left hnil))
    have hsplit : k = k₁.reverse ++ ' ' :: k₂.reverse := by
      rw [← List.reverse_reverse k, hrev, List.reverse_append, List.reverse_cons, List.append_assoc]
      rfl
    have hcut : b ++ k ++ (m ++ a) = (b ++ k₁.reverse) ++ ' ' :: (k₂.reverse ++ (m ++ a)) := by
      rw [hsplit]
      simp
    have hrest : ∀ d ∈ k₂.reverse ++ (m ++ a), decide (d ≠ ' ') = true := by
      intro d hd
      refine decide_eq_true ?_
      rcases List.mem_append.mp hd with hd | hd
      · rintro rfl
        exact hk₂ (List.mem_reverse.mp hd)
      · exact hplain d hd
    rw [hcut, rtakeWhile_append_stop (by simp), rtakeWhile_eq_self hrest]
    refine hstrip _ fun d hd => hk d ?_
    rw [hsplit]
    exact List.mem_append_right _ (List.mem_cons_of_mem _ hd)

/-- A name that is found is the one in front of the parenthesis, with nothing kept within. -/
theorem kept_of_cut (hm : Inked m) (hm' : Inked m.reverse) (hb : b = [] ∨ Inked b.reverse)
    (hk : ∀ c ∈ k, isSpace c = true) (hq : ∀ c ∈ q, isSpace c = true) (hn : Inked n)
    (hn' : Inked n.reverse)
    (hink : ∀ c ∈ n, isSpace c = false) (hmn : ink m = n)
    (h : stripped (((b ++ k ++ (m ++ q)).rdropWhile (· = ' ')).rtakeWhile (· ≠ ' ')) = n) :
    m = n ∧ (b = [] ∨ ' ' ∈ k) ∧ ∃ a j, q = a ++ List.replicate j ' ' ∧ ' ' ∉ a := by
  have hsplit₁ := @List.rdropWhile_append_rtakeWhile _ (· = ' ') (b ++ k ++ (m ++ q))
  have hsplit₂ :=
    @List.rdropWhile_append_rtakeWhile _ (· ≠ ' ') ((b ++ k ++ (m ++ q)).rdropWhile (· = ' '))
  have hspace : ∀ c ∈ (b ++ k ++ (m ++ q)).rtakeWhile (· = ' '), c = ' ' :=
    fun c hc => of_decide_eq_true (List.mem_rtakeWhile_imp (p := (· = ' ')) hc)
  have hplain : ∀ c ∈ ((b ++ k ++ (m ++ q)).rdropWhile (· = ' ')).rtakeWhile (· ≠ ' '), c ≠ ' ' :=
    fun c hc => of_decide_eq_true (List.mem_rtakeWhile_imp (p := (· ≠ ' ')) hc)
  have hlast : ((b ++ k ++ (m ++ q)).rdropWhile (· = ' ')).rdropWhile (· ≠ ' ') = [] ∨
      ∃ y, ((b ++ k ++ (m ++ q)).rdropWhile (· = ' ')).rdropWhile (· ≠ ' ') = y ++ [' '] := by
    by_cases hnil : ((b ++ k ++ (m ++ q)).rdropWhile (· = ' ')).rdropWhile (· ≠ ' ') = []
    · exact .inl hnil
    · have hnot := List.rdropWhile_last_not (· ≠ ' ') _ hnil
      rw [decide_eq_true_eq, not_not] at hnot
      have hcut := List.dropLast_append_getLast hnil
      rw [hnot] at hcut
      exact .inr ⟨_, hcut.symm⟩
  generalize ((b ++ k ++ (m ++ q)).rdropWhile (· = ' ')).rdropWhile (· ≠ ' ') = y at hsplit₂ hlast
  generalize (b ++ k ++ (m ++ q)).rtakeWhile (· = ' ') = z at hsplit₁ hspace
  generalize ((b ++ k ++ (m ++ q)).rdropWhile (· = ' ')).rtakeWhile (· ≠ ' ') = x at h hsplit₂ hplain
  obtain ⟨v, w, hx, hv, hw⟩ := exists_around x
  rw [h] at hx
  have hinkn : ink n = n := ink_eq_self_iff.mpr hink
  have hinkq : ink q = [] := ink_eq_nil_iff.mpr hq
  have hinkw : ink (w ++ z) = [] := by
    refine ink_eq_nil_iff.mpr fun c hc => ?_
    rcases List.mem_append.mp hc with hc | hc
    · exact hw c hc
    · rw [hspace c hc]
      rfl
  have hall : b ++ k ++ (m ++ q) = (y ++ v) ++ (n ++ (w ++ z)) := by
    rw [← hsplit₁, ← hsplit₂, hx]
    simp only [List.append_assoc]
  have hinks := congrArg ink hall
  rw [ink_append, ink_append m, ink_append (y ++ v), ink_append n, hmn, hinkn, hinkq, hinkw,
    List.append_cancel_right_eq] at hinks
  obtain ⟨hfront, hback⟩ := inked_unique hall (hm.append q) (hn.append _) hinks
  obtain ⟨rfl, rfl⟩ := inked_unique_end hback hm' hn' (hinkq.trans hinkw.symm)
  refine ⟨rfl, ?_, w, z.length, ?_, ?_⟩
  · rcases hb with hb | ⟨c, r, hr, hc⟩
    · exact .inl hb
    refine .inr ?_
    have hbr : b = r.reverse ++ [c] := by
      rw [← List.reverse_reverse b, hr, List.reverse_cons]
    have hc' := ne_space_of_ink hc
    -- the last space in front of the name stands behind the last token, or it would end that token
    rcases List.append_eq_append_iff.mp hfront with ⟨t, rfl, rfl⟩ | ⟨t, rfl, rfl⟩
    · rcases List.eq_nil_or_concat t with rfl | ⟨t, d, rfl⟩
      · rw [List.append_nil, hbr] at hlast
        rcases hlast with hlast | ⟨y', hlast⟩
        · exact absurd hlast (List.append_ne_nil_of_right_ne_nil _ (List.cons_ne_nil _ _))
        · exact absurd (List.singleton_inj.mp (List.append_inj' hlast rfl).2) hc'
      · rw [List.concat_eq_append, ← List.append_assoc] at hlast
        rcases hlast with hlast | ⟨y', hlast⟩
        · exact absurd hlast (List.append_ne_nil_of_right_ne_nil _ (List.cons_ne_nil _ _))
        · rw [List.concat_eq_append, List.singleton_inj.mp (List.append_inj' hlast rfl).2]
          exact List.mem_append_left v (List.mem_append_right t List.mem_cons_self)
    · rcases List.eq_nil_or_concat t with rfl | ⟨t, d, rfl⟩
      · rw [List.append_nil] at hbr
        rw [hbr] at hlast
        rcases hlast with hlast | ⟨y', hlast⟩
        · exact absurd hlast (List.append_ne_nil_of_right_ne_nil _ (List.cons_ne_nil _ _))
        · exact absurd (List.singleton_inj.mp (List.append_inj' hlast rfl).2) hc'
      · rw [List.concat_eq_append, ← List.append_assoc] at hbr
        have hd := List.singleton_inj.mp (List.append_inj' hbr rfl).2
        have hmem : d ∈ t.concat d := by
          rw [List.concat_eq_append]
          exact List.mem_append_right t List.mem_cons_self
        have hblank := hv d (List.mem_append_left k hmem)
        rw [hd, hc] at hblank
        cases hblank
  · exact congrArg (w ++ ·) (List.eq_replicate_of_mem hspace)
  · intro hmem
    refine hplain ' ' ?_ rfl
    rw [hx]
    exact List.mem_append_right v (List.mem_append_right m hmem)

/-! ### The name of a declaration -/

/-- What is gathered of a gap is blank. -/
theorem Gap.blank_of_mem_kept {g : Gap} {c : Char} (h : c ∈ g.kept) : isSpace c = true := by
  cases g with
  | blanks w => exact (w.2 c h).1
  | newline trailing leading => cases h

theorem keptOf_cons (p : Piece) (ps : List Piece) :
    keptOf (p :: ps) = p.gap.kept ++ (p.token.text ++ keptOf ps) := by
  rw [keptOf, List.flatMap_cons, ← keptOf, List.append_assoc]

theorem glued_cons (p : Piece) (ps : List Piece) : glued (p :: ps) = p.token.text ++ glued ps :=
  List.flatMap_cons

/-- Tokens have no blanks. -/
theorem ink_glued {ps : List Piece} : ∀ c ∈ glued ps, isSpace c = false := by
  intro c hc
  obtain ⟨p, -, hmem⟩ := List.mem_flatMap.mp hc
  exact (p.token.plain c hmem).1

/-- Without blanks, the tokens are left. -/
theorem ink_keptOf (ps : List Piece) : ink (keptOf ps) = glued ps := by
  induction ps with
  | nil => rfl
  | cons p ps ih =>
    rw [keptOf_cons, ink_append, ink_append, ih,
      ink_eq_nil_iff.mpr fun c hc => Gap.blank_of_mem_kept hc,
      ink_eq_self_iff.mpr fun c hc => (p.token.plain c hc).1, glued_cons, List.nil_append]

/-- No bracket is gathered before that of the parameters. -/
theorem notMem_keptOf (ps : List Piece) : '(' ∉ keptOf ps := by
  intro h
  obtain ⟨p, -, hmem⟩ := List.mem_flatMap.mp h
  rcases List.mem_append.mp hmem with hmem | hmem
  · cases Gap.blank_of_mem_kept hmem
  · exact p.token.notMem (.inr rfl) hmem

/-- Tokens end with a token. -/
theorem inked_reverse_append (t : Token) (ps : List Piece) : Inked (t.text ++ keptOf ps).reverse := by
  induction ps using List.reverseRecOn with
  | nil =>
    rw [keptOf, List.flatMap_nil, List.append_nil]
    exact t.inked_reverse
  | append_singleton ps p =>
    rw [keptOf, List.flatMap_append, List.flatMap_singleton, ← keptOf, ← List.append_assoc,
      ← List.append_assoc, List.reverse_append]
    exact p.token.inked_reverse.append _

/-- The tokens are glued together exactly where no blank is kept. -/
theorem keptOf_eq_glued_iff (ps : List Piece) : keptOf ps = glued ps ↔ ∀ p ∈ ps, p.gap.kept = [] := by
  constructor
  · intro h p hp
    refine List.eq_nil_iff_forall_not_mem.mpr fun c hc => ?_
    have hmem : c ∈ keptOf ps := List.mem_flatMap.mpr ⟨p, hp, List.mem_append_left _ hc⟩
    rw [h] at hmem
    have hink := ink_glued c hmem
    rw [Gap.blank_of_mem_kept hc] at hink
    cases hink
  · intro h
    refine List.flatMap_congr fun p hp => ?_
    rw [h p hp, List.nil_append]

namespace Declaration

/-- What is gathered in front of the name: tokens, and the blanks behind them. -/
theorem exists_front (d : Declaration) :
    ∃ b k, d.front = b ++ k ∧ (b = [] → k = []) ∧ (b = [] ∨ Inked b.reverse) ∧
      (∀ c ∈ k, isSpace c = true) ∧ '(' ∉ b ∧ (b = [] ∨ Inked b) ∧
      ((b = [] ∨ ' ' ∈ k) ↔ (d.before = [] ∨ ' ' ∈ d.first.gap.kept)) := by
  rw [front]
  cases d.before with
  | nil =>
    exact ⟨[], [], rfl, fun _ => rfl, .inl rfl, List.forall_mem_nil _, List.not_mem_nil, .inl rfl,
      iff_of_true (.inl rfl) (.inl rfl)⟩
  | cons p ps =>
    have hne : p.token.text ++ keptOf ps ≠ [] := List.append_ne_nil_of_left_ne_nil p.token.ne _
    refine ⟨p.token.text ++ keptOf ps, d.first.gap.kept, (List.append_assoc ..).symm,
      fun h => absurd h hne,
      .inr (inked_reverse_append _ _), fun c hc => Gap.blank_of_mem_kept hc, ?_,
      .inr (p.token.inked.append _), ?_⟩
    · rw [List.mem_append, not_or]
      exact ⟨p.token.notMem (.inr rfl), notMem_keptOf ps⟩
    · rw [or_iff_right hne, or_iff_right (List.cons_ne_nil p ps)]

/-- When the name is found in what is gathered. -/
theorem getFuncName_gathered_iff (d : Declaration) :
    getFuncName (String.ofList (gathered d.text)) = d.name ↔ d.Kept := by
  obtain ⟨r, hr⟩ := d.gathered_text
  obtain ⟨b, k, hfront, hbk, hb, hk, hbparen, hbink, hiff⟩ := d.exists_front
  have hmiddle : Inked d.middle := d.first.token.inked.append _
  have hmiddle' : Inked d.middle.reverse := inked_reverse_append _ _
  have hq : ∀ c ∈ d.paren.kept, isSpace c = true := fun c hc => Gap.blank_of_mem_kept hc
  have hparen : '(' ∉ b ++ k ++ (d.middle ++ d.paren.kept) := by
    simp only [List.mem_append, not_or]
    refine ⟨⟨hbparen, fun h => ?_⟩, fun h => ?_, fun h => ?_⟩
    · cases hk _ h
    · rcases List.mem_append.mp h with h | h
      · exact d.first.token.notMem (.inr rfl) h
      · exact notMem_keptOf _ h
    · cases hq _ h
  have hinked : Inked (b ++ k ++ (d.middle ++ d.paren.kept)) := by
    rcases hbink with hnil | hbink
    · rw [hnil, hbk hnil]
      exact hmiddle.append _
    · rw [List.append_assoc]
      exact hbink.append _
  have hmn : ink d.middle = glued (d.first :: d.more) := by
    rw [middle, ink_append, ink_keptOf, ink_eq_self_iff.mpr fun c hc => (d.first.token.plain c hc).1,
      glued_cons]
  have hglued : d.middle = glued (d.first :: d.more) ↔ ∀ p ∈ d.more, p.gap.kept = [] := by
    rw [middle, glued_cons, List.append_cancel_left_eq, keptOf_eq_glued_iff]
  rw [hr, hfront, getFuncName_eq r hparen hinked, strip_ofList, name, String.ofList_inj]
  constructor
  · intro h
    have hne : glued (d.first :: d.more) ≠ [] := by
      rw [glued_cons]
      exact List.append_ne_nil_of_left_ne_nil d.first.token.ne _
    obtain ⟨heq, hcut, hbehind⟩ := kept_of_cut hmiddle hmiddle' hb hk hq (inked_of_ink hne ink_glued)
      (inked_of_ink (fun h => hne (List.reverse_eq_nil_iff.mp h))
        fun c hc => ink_glued c (List.mem_reverse.mp hc))
      ink_glued hmn h
    exact ⟨hglued.mp heq, hiff.mp hcut, hbehind⟩
  · rintro ⟨hinside, hcut, hbehind⟩
    have heq := hglued.mpr hinside
    rw [cut_of_kept hmiddle hmiddle' (heq ▸ ink_glued) hbk hk hq (hiff.mpr hcut) hbehind, heq]

end Declaration

/-- When it is that of the function. -/
theorem name_iff {d : Declaration} {f : Func} (h : f.decl = d.lines) : f.name = d.name ↔ d.Kept := by
  rw [Func.name, Func.text_of_decl h]
  exact d.getFuncName_gathered_iff

/-- A declaration has a name. -/
theorem Declaration.name_ne_empty (d : Declaration) : d.name ≠ "" := by
  rw [Declaration.name, Ne, String.ofList_eq_empty_iff, glued_cons]
  exact List.append_ne_nil_of_left_ne_nil d.first.token.ne _

/-- **The name of a declaration**: it is cut out of the text gathered from the lines, and stored for the
function in every file whose functions stand below blank lines, exactly where no blank is kept
within it and one is kept in front of it, and the blanks kept behind it end with the spaces among
them. -/
theorem storedName_iff {d : Declaration} {f : Func} (h : f.decl = d.lines) :
    ((∀ i info, getFuncName (scan i f.lines (idle info)).sFuncDecl = d.name) ∧
      ∀ (file : CppFile) ps gap qs, (∀ p ∈ file.funcs, p.1 ≠ []) → file.funcs = ps ++ (gap, f) :: qs →
        (getFuncInfo file.lines).lookup ((((linesOf ps).length + gap.length + f.decl.length : ℕ) : ℤ) + 1) =
          some d.name) ↔ d.Kept := by
  have hscan : ∀ i info, getFuncName (scan i f.lines (idle info)).sFuncDecl = f.name := by
    intro i info
    rw [scan_func, Func.name]
  constructor
  · rintro ⟨hname, -⟩
    exact (name_iff h).mp ((hscan 0 ∅).symm.trans (hname 0 ∅))
  · intro hkept
    have hname := (name_iff h).mpr hkept
    refine ⟨fun i info => (hscan i info).trans hname, fun file ps gap qs hblank hfuncs => ?_⟩
    obtain ⟨info, hrun, hinfo⟩ := scan_funcs file.blank hblank file.blank_trailing 0
    have hlookup : ∀ n, (getFuncInfo file.lines).lookup n = info.lookup n := by
      intro n
      rw [getFuncInfo, CppFile.lines, ← idle, hrun]
      rfl
    have hat := nameAt_append ps qs (gap, f) 0
    rw [Nat.zero_add] at hat
    rw [hlookup, hinfo, hfuncs, hat, hname, Option.filter_some, decide_eq_true d.name_ne_empty]
    rfl

/-! ### A name at the beginning of a line -/

/-- A token given by its text. -/
def Token.ofText (s : String) (ne : s.toList ≠ [])
    (h : (s.toList.all fun c => !isSpace c && c != '(') = true) :
    Token where
  text := s.toList
  ne := ne
  plain := by
    intro c hc
    have hplain := List.all_eq_true.mp h c hc
    rwa [Bool.and_eq_true, Bool.not_eq_true', bne_iff_ne] at hplain

/-- The type of the function. -/
def intToken : Token := .ofText "int" (by decide) (by decide)

/-- The name of the function. -/
def payToken : Token := .ofText "pay" (by decide) (by decide)

/-- No blanks. -/
def noBlanks : Blanks := ⟨[], List.forall_mem_nil _⟩

/-- `int`, and `pay(int sum)` behind a gap. -/
def payDeclaration (g : Gap) (hg : g.chars ≠ []) : Declaration where
  before := [⟨.blanks noBlanks, intToken⟩]
  first := ⟨g, payToken⟩
  more := []
  paren := .blanks noBlanks
  rest := "int sum)".toList
  qualified := by
    have hword : payToken.IsWord := by decide
    exact .name hword
  whole := by
    intro p hp
    rw [List.getLast?_singleton, Option.mem_some_iff] at hp
    have hjoins : ¬ Joins intToken [payToken] := by decide
    rw [← hp]
    exact hjoins
  separated := by
    rw [List.singleton_append, List.isChain_cons_cons]
    exact ⟨fun _ _ => hg, List.isChain_singleton _⟩

/-- In two lines, and in one. -/
def payLines : Declaration := payDeclaration (.newline noBlanks noBlanks) (List.cons_ne_nil _ _)

/-- A declaration in one line. -/
def payLine : Declaration :=
  payDeclaration (.blanks ⟨[' '], List.forall_mem_singleton.mpr ⟨rfl, by decide⟩⟩)
    (List.cons_ne_nil _ _)

/-- The line with the opening brace. -/
theorem startsWith_open : startsWith "\x7b\n" "\x7b" = true := by decide

/-- The line with the closing brace. -/
theorem startsWith_close : startsWith "\x7d\n" "\x7d" = true := by decide

/-- The body has no braces at the beginning of a line. -/
theorem not_startsWith_sum : ∀ l ∈ ["    return sum;\n"],
    startsWith l "\x7b" = false ∧ startsWith l "\x7d" = false := by
  decide

/-- A function with this declaration. -/
def payFunc (d : Declaration) (hne : d.lines ≠ []) (hd : ∀ l ∈ d.lines, DeclLine l) : Func where
  decl := d.lines
  brace := "\x7b\n"
  body := ["    return sum;\n"]
  close := "\x7d\n"
  decl_ne_nil := hne
  declLine := hd
  braceLine := startsWith_open
  bodyLine := not_startsWith_sum
  closeLine := startsWith_close

/-- The line is gathered. -/
theorem declLine_payLine : payLine.lines ≠ [] ∧ ∀ l ∈ payLine.lines, DeclLine l := by
  have hlines : payLine.lines = ["int pay(int sum)\n"] := by decide +kernel
  rw [hlines]
  exact ⟨List.cons_ne_nil _ _, List.forall_mem_singleton.mpr ⟨by decide, by decide, by decide⟩⟩

theorem storedName_iff_payLine :
    payLine.lines = (payFunc payLine declLine_payLine.1 declLine_payLine.2).decl ∧
      getFuncName (scan 0 (payFunc payLine declLine_payLine.1 declLine_payLine.2).lines (idle ∅)).sFuncDecl =
        "pay" := by
  refine ⟨rfl, ?_⟩
  have hkept : payLine.Kept := ⟨List.forall_mem_nil _, .inr (by decide), [], 0, rfl, List.not_mem_nil⟩
  exact (((@storedName_iff payLine (payFunc payLine declLine_payLine.1 declLine_payLine.2)
    rfl).mpr hkept).1 0 ∅).trans
    (by decide +kernel)

/-- The lines are gathered. -/
theorem declLine_payLines : payLines.lines ≠ [] ∧ ∀ l ∈ payLines.lines, DeclLine l := by
  have hlines : payLines.lines = ["int\n", "pay(int sum)\n"] := by decide +kernel
  rw [hlines]
  refine ⟨List.cons_ne_nil _ _, List.forall_mem_cons.mpr ⟨⟨by decide, by decide, by decide⟩, ?_⟩⟩
  exact List.forall_mem_singleton.mpr ⟨by decide, by decide, by decide⟩

/-- The return type that ends a line is glued to the name. -/
theorem not_storedName_newline :
    ¬ ∀ (d : Declaration) (f : Func), f.decl = d.lines → ∀ i info,
      getFuncName (scan i f.lines (idle info)).sFuncDecl = d.name := by
  intro h
  have hclaim := h payLines (payFunc payLines declLine_payLines.1 declLine_payLines.2) rfl 0 ∅
  have hcode : getFuncName
      (scan 0 (payFunc payLines declLine_payLines.1 declLine_payLines.2).lines (idle ∅)).sFuncDecl =
        "intpay" := by
    decide +kernel
  have hname : payLines.name = "pay" := by decide +kernel
  rw [hcode, hname] at hclaim
  exact absurd hclaim (by decide)

end GetCppFunc

end MBT
