import MBT.Support.Exec
import MBT.Support.Utf

/-!
# Files — MFile

`MFile.writeFile` and `MFile.readFile`, with UTF-8 as the default charset.  A file is read in blocks
of 1024 bytes that are decoded one by one, and of the last block as many characters are kept as it
has bytes.

* `readLoop_blocks`: a text that the blocks cut between its characters is read back.
* `count_le_of_read`: a character that is cut is read as more replacement characters than it has.
* `readFile_writeFile_iff`: which texts are read back.
-/

namespace MBT
open Exec Utf

namespace MFile

/-- The bytes of the files that exist. -/
abbrev Files := HashMap String (List ℕ)

/-- `content.getBytes()`. -/
def getBytes (content : List UInt16) : List ℕ := bytes (codePoints content)

/-- `writeFile` of a file that can be opened; where `append` is not given it is `false`. -/
def writeFile (files : Files) (filePath : String) (content : List UInt16) (append : Bool) : Files :=
  files.insert filePath ((if append then (files.lookup filePath).getD [] else []) ++ getBytes content)

/-- The loop of `readFile` over the bytes that are left; the buffer is filled up with zeros. -/
def readLoop (left : List ℕ) (content : List UInt16) : Except Exn (List UInt16) :=
  if left = [] then .ok content
  else if left.length < 1024 then
    let s := decode (left ++ List.replicate (1024 - left.length) 0)
    if left.length ≤ s.length then .ok (content ++ s.take left.length) else .error .indexOutOfBounds
  else readLoop (left.drop 1024) (content ++ decode (left.take 1024))
termination_by left.length
decreasing_by
  rw [List.length_drop]
  omega

/-- `none` is `null`. -/
def readFile (files : Files) (filePath : String) : Except Exn (Option (List UInt16)) :=
  match files.lookup filePath with
  | none => .ok none
  | some left => (readLoop left []).map some

/-- The text is made of blocks of 1024 bytes, and of fewer than 1024 characters below 128 behind
them. -/
def Blocked (content : List UInt16) : Prop :=
  ∃ (blocks : List (List UInt16)) (rest : List UInt16), content = blocks.flatten ++ rest ∧
    (∀ block ∈ blocks, WellFormed block ∧ (getBytes block).length = 1024) ∧
    (∀ u ∈ rest, u.toNat < 0x80) ∧ rest.length < 1024

/-! ### The loop -/

variable {left x : List ℕ} {content out : List UInt16} {cs : List ℕ}

theorem readLoop_nil (content : List UInt16) : readLoop [] content = .ok content := by
  rw [readLoop, if_pos rfl]

/-- The last block is decoded with its zeros and cut by the number of bytes. -/
theorem readLoop_last (hne : left ≠ []) (h : left.length < 1024) (content : List UInt16) :
    readLoop left content =
      if left.length ≤ (decode (left ++ List.replicate (1024 - left.length) 0)).length then
        .ok (content ++ (decode (left ++ List.replicate (1024 - left.length) 0)).take left.length)
      else .error .indexOutOfBounds := by
  rw [readLoop, if_neg hne, if_pos h]

/-- A full block is decoded and added. -/
theorem readLoop_block (h : x.length = 1024) (left : List ℕ) (content : List UInt16) :
    readLoop (x ++ left) content = readLoop left (content ++ decode x) := by
  have hne : x ++ left ≠ [] := by
    intro hnil
    rw [(List.append_eq_nil_iff.mp hnil).1] at h
    cases h
  have hle : ¬ (x ++ left).length < 1024 := by
    rw [List.length_append]
    omega
  rw [readLoop, if_neg hne, if_neg hle, ← h, List.take_left, List.drop_left]

/-- What is read does not depend on what was read before. -/
theorem readLoop_content (left : List ℕ) (content : List UInt16) :
    readLoop left content = (readLoop left []).map (content ++ ·) := by
  induction hn : left.length using Nat.strong_induction_on generalizing left content with
  | h n ih =>
    by_cases hnil : left = []
    · rw [hnil, readLoop_nil, readLoop_nil, Except.map, List.append_nil]
    by_cases hlt : left.length < 1024
    · rw [readLoop_last hnil hlt, readLoop_last hnil hlt]
      split <;> rfl
    · have hblock : (left.take 1024).length = 1024 := by
        rw [List.length_take]
        omega
      have hdrop : (left.drop 1024).length < n := by
        rw [List.length_drop]
        omega
      rw [← List.take_append_drop 1024 left, readLoop_block hblock, readLoop_block hblock,
        ih _ hdrop _ _ rfl, ih _ hdrop _ ([] ++ _) rfl]
      cases readLoop (left.drop 1024) [] with
      | error e => rfl
      | ok out => exact congrArg Except.ok (List.append_assoc ..)

/-- What is read behind a full block. -/
theorem of_readLoop_block (hx : x.length = 1024) (h : readLoop (x ++ left) [] = .ok out) :
    ∃ out', readLoop left [] = .ok out' ∧ out = decode x ++ out' := by
  rw [readLoop_block hx, readLoop_content] at h
  cases hleft : readLoop left [] with
  | error e =>
    rw [hleft] at h
    cases h
  | ok out' =>
    rw [hleft] at h
    cases h
    exact ⟨out', rfl, rfl⟩

/-- The last block is read with some zeros behind it. -/
theorem of_readLoop_last (hne : left ≠ []) (h : left.length < 1024) {s : List UInt16}
    (hs : ∀ r, decode (left ++ r) = s ++ decode r) (hle : s.length ≤ left.length)
    (hout : readLoop left [] = .ok out) :
    ∃ k, out = s ++ List.replicate k 0 ∧ (k = 0 → s.length = left.length) := by
  rw [readLoop_last hne h, hs, decode_zeros] at hout
  split at hout
  · rename_i hlength
    rw [List.length_append, List.length_replicate] at hlength
    refine ⟨min (left.length - s.length) (1024 - left.length), ?_, fun hk => by omega⟩
    cases hout
    rw [List.nil_append, List.take_append, List.take_of_length_le hle, List.take_replicate]
  · cases hout

/-! ### What is read of a cut text -/

theorem bytes_eq_nil (h : bytes cs = []) : cs = [] := by
  cases cs with
  | nil => rfl
  | cons c cs =>
    rw [bytes_cons] at h
    have hlen := congrArg List.length h
    have hpos := encode_length_pos c
    rw [List.length_append] at hlen
    rw [List.length_nil] at hlen
    omega

/-- A block that ends inside a code point: its last bytes are read as a replacement character, and the
rest of the code point begins what is left. -/
theorem of_cut_block {f p q e g : List ℕ} {c : ℕ} (hf : ∀ b ∈ f, Continuation b)
    (hcs : ∀ d ∈ p ++ c :: q, d < 0x110000) (hc : encode c = e ++ g) (he : e ≠ []) (hg : g ≠ [])
    (hlen : f.length + (bytes p ++ e).length = 1024)
    (h : readLoop (f ++ bytes (p ++ c :: q)) [] = .ok out) :
    decode (f ++ (bytes p ++ e)) = List.replicate f.length replacement ++ (readable p ++ [replacement]) ∧
    (∀ b ∈ g, Continuation b) ∧
    ∃ out', readLoop (g ++ bytes q) [] = .ok out' ∧ out = decode (f ++ (bytes p ++ e)) ++ out' := by
  obtain ⟨hcut, hcont⟩ := decode_cut (hcs c (List.mem_append_right p List.mem_cons_self)) hc he hg
  have hleft : f ++ bytes (p ++ c :: q) = (f ++ (bytes p ++ e)) ++ (g ++ bytes q) := by
    rw [bytes_append, bytes_cons, hc]
    simp only [List.append_assoc]
  have hblock : (f ++ (bytes p ++ e)).length = 1024 := by
    rw [List.length_append]
    exact hlen
  rw [hleft] at h
  refine ⟨?_, hcont, of_readLoop_block hblock h⟩
  rw [decode_continuations hf, decode_bytes fun d hd => hcs d (List.mem_append_left _ hd), hcut]

/-- **Replacement characters are never fewer**: each byte of a code point whose beginning is missing is
one more. -/
theorem count_le_of_read {f : List ℕ} (hf : ∀ b ∈ f, Continuation b) (hlen : f.length ≤ 1024)
    (hcs : ∀ c ∈ cs, c < 0x110000) (h : readLoop (f ++ bytes cs) [] = .ok out) :
    f.length + (cs.flatMap units).count replacement ≤ out.count replacement := by
  induction hn : (f ++ bytes cs).length using Nat.strong_induction_on generalizing f cs out with
  | h n ih =>
    have hread : ∀ r, decode (f ++ bytes cs ++ r) =
        List.replicate f.length replacement ++ readable cs ++ decode r := by
      intro r
      rw [List.append_assoc, decode_continuations hf, decode_bytes hcs, List.append_assoc]
    have hcount := count_readable cs
    by_cases hnil : f ++ bytes cs = []
    · obtain ⟨hf, hcs⟩ := List.append_eq_nil_iff.mp hnil
      rw [hf, bytes_eq_nil hcs]
      exact Nat.zero_le _
    by_cases hlt : (f ++ bytes cs).length < 1024
    · have hle := length_readable_le hcs
      obtain ⟨k, rfl, -⟩ := of_readLoop_last hnil hlt hread (by
        rw [List.length_append, List.length_append, List.length_replicate]
        omega) h
      rw [List.count_append, List.count_append, List.count_replicate_self]
      omega
    rw [List.length_append] at hlt hn
    rcases cut_bytes cs (n := 1024 - f.length) (by omega) with
      ⟨p, q, rfl, hp⟩ | ⟨p, c, q, e, g, rfl, hc, he, hg, hp⟩
    · -- the block ends between two characters
      have hblock : (f ++ bytes p).length = 1024 := by
        rw [List.length_append]
        omega
      rw [bytes_append, ← List.append_assoc] at h
      obtain ⟨out', hout', rfl⟩ := of_readLoop_block hblock h
      have hp' := fun c hc => hcs c (List.mem_append_left q hc)
      have hq' := fun c hc => hcs c (List.mem_append_right p hc)
      rw [bytes_append, List.length_append] at hn
      have hrest :=
        ih (bytes q).length (by omega) (f := []) (List.forall_mem_nil _) (Nat.zero_le _) hq' hout' rfl
      have hdecode := decode_bytes hp' []
      rw [List.append_nil] at hdecode
      have hcountp := count_readable p
      rw [decode_continuations hf, hdecode, List.flatMap_append, List.count_append, List.count_append,
        List.count_append, List.count_append, List.count_replicate_self]
      rw [List.length_nil, Nat.zero_add] at hrest
      omega
    · -- the block ends inside a character
      obtain ⟨hdecode, hcont, hout⟩ := of_cut_block hf hcs hc he hg (by rw [hp]; omega) h
      obtain ⟨out', hout', rfl⟩ := hout
      have hq' := fun d hd => hcs d (List.mem_append_right p (List.mem_cons_of_mem c hd))
      have hlen := encode_length_le c
      rw [hc, List.length_append] at hlen
      have hrest := ih (g ++ bytes q).length ?_ hcont (by omega) hq' hout' rfl
      · have hcountp := count_readable p
        have hcountc := count_units_le (hcs c (List.mem_append_right p List.mem_cons_self))
        rw [hdecode, List.flatMap_append, List.flatMap_cons]
        simp only [List.count_append, List.count_replicate_self, List.count_singleton_self]
        omega
      · rw [bytes_append, bytes_cons, hc] at hn
        simp only [List.length_append] at hn hp ⊢
        have he' := List.length_pos_of_ne_nil he
        omega

/-- **A text that is read back** is made of blocks and characters below 128. -/
theorem blocks_of_read (hcs : ∀ c ∈ cs, c < 0x110000)
    (h : readLoop (bytes cs) [] = .ok (cs.flatMap units)) :
    ∃ (blocks : List (List ℕ)) (rest : List ℕ), cs = blocks.flatten ++ rest ∧
      (∀ block ∈ blocks, (∀ c ∈ block, ¬ Surrogate c) ∧ (bytes block).length = 1024) ∧
      (∀ c ∈ rest, c < 0x80) ∧ rest.length < 1024 := by
  induction hn : (bytes cs).length using Nat.strong_induction_on generalizing cs with
  | h n ih =>
    by_cases hnil : bytes cs = []
    · rw [bytes_eq_nil hnil]
      exact ⟨[], [], rfl, List.forall_mem_nil _, List.forall_mem_nil _, by decide⟩
    by_cases hlt : (bytes cs).length < 1024
    · -- the last block has no zeros behind it
      obtain ⟨k, hout, hk⟩ := of_readLoop_last hnil hlt (decode_bytes hcs) (length_readable_le hcs) h
      have hlen := congrArg List.length hout
      rw [List.length_append, List.length_replicate, length_readable] at hlen
      have hzero : k = 0 := by omega
      rw [hzero, List.replicate_zero, List.append_nil] at hout
      have hsurrogate := (readable_eq_iff cs).mp hout.symm
      have hascii := ascii_of_length hcs (hk hzero)
      exact ⟨[], cs, rfl, List.forall_mem_nil _,
        fun c hc => (hascii c hc).resolve_left (hsurrogate c hc), (length_le_bytes cs).trans_lt hlt⟩
    rcases cut_bytes cs (n := 1024) (by omega) with ⟨p, q, rfl, hp⟩ | ⟨p, c, q, e, g, rfl, hc, he, hg, hp⟩
    · rw [bytes_append] at h
      obtain ⟨out', hout', hout⟩ := of_readLoop_block hp h
      have hp' := fun c hc => hcs c (List.mem_append_left q hc)
      have hdecode := decode_bytes hp' []
      rw [List.append_nil] at hdecode
      rw [hdecode, List.flatMap_append] at hout
      -- what is read of the block has as many units as the block
      have hlen : (p.flatMap units).length = (readable p ++ decode []).length := by
        rw [List.length_append, length_readable]
        rfl
      obtain ⟨hblock, rfl⟩ := List.append_inj hout hlen
      rw [bytes_append, List.length_append] at hn
      obtain ⟨blocks, rest, rfl, hblocks, hrest, hlt⟩ := ih (bytes q).length (by omega)
        (fun c hc => hcs c (List.mem_append_right p hc)) hout' rfl
      refine ⟨p :: blocks, rest, ?_, List.forall_mem_cons.mpr ⟨⟨?_, hp⟩, hblocks⟩, hrest, hlt⟩
      · rw [List.flatten_cons, List.append_assoc]
      · exact (readable_eq_iff p).mp (hblock.trans (List.append_nil _)).symm
    · -- a block that ends inside a character gives too many replacement characters
      have hcut := of_cut_block (f := []) (List.forall_mem_nil _) hcs hc he hg (by rw [hp]; rfl) h
      obtain ⟨hdecode, hcont, out', hout', hout⟩ := hcut
      have hlen := encode_length_le c
      rw [hc, List.length_append] at hlen
      have hcount := count_le_of_read hcont (by omega)
        (fun d hd => hcs d (List.mem_append_right p (List.mem_cons_of_mem c hd))) hout'
      have hcountc := count_units_le (hcs c (List.mem_append_right p List.mem_cons_self))
      have hcountp := count_readable p
      have hg' := List.length_pos_of_ne_nil hg
      rw [hdecode, List.flatMap_append, List.flatMap_cons] at hout
      have hall := congrArg (List.count replacement) hout
      simp only [List.count_append, List.length_nil, List.replicate_zero, List.nil_append,
        List.count_singleton_self] at hall
      omega

/-! ### Texts of blocks -/

theorem getBytes_append {block : List UInt16} (h : WellFormed block) (content : List UInt16) :
    getBytes (block ++ content) = getBytes block ++ getBytes content := by
  rw [getBytes, codePoints_append h, bytes_append, getBytes, getBytes]

/-- The bytes of a text without single surrogates are read back. -/
theorem decode_getBytes {block : List UInt16} (h : WellFormed block) (r : List ℕ) :
    decode (getBytes block ++ r) = block ++ decode r := by
  rw [getBytes, decode_bytes fun _ => lt_of_mem_codePoints, (readable_eq_iff _).mpr h,
    flatMap_units_codePoints]

/-- Blocks whose bytes fill the buffer are read back one by one. -/
theorem readLoop_blocks {blocks : List (List UInt16)}
    (h : ∀ block ∈ blocks, WellFormed block ∧ (getBytes block).length = 1024)
    (rest content : List UInt16) :
    readLoop (getBytes (blocks.flatten ++ rest)) content =
      readLoop (getBytes rest) (content ++ blocks.flatten) := by
  induction blocks generalizing content with
  | nil => rw [List.flatten_nil, List.nil_append, List.append_nil]
  | cons block blocks ih =>
    obtain ⟨⟨hblock, hlen⟩, hblocks⟩ := List.forall_mem_cons.mp h
    have hdecode := decode_getBytes hblock []
    rw [List.append_nil] at hdecode
    rw [List.flatten_cons, List.append_assoc, getBytes_append hblock, readLoop_block hlen,
      ih hblocks, hdecode, List.append_assoc]
    congr 2
    exact congrArg (· ++ _) (List.append_nil _)

/-- Characters below 128 are their own bytes. -/
theorem getBytes_ascii {rest : List UInt16} (h : ∀ u ∈ rest, u.toNat < 0x80) :
    WellFormed rest ∧ (getBytes rest).length = rest.length := by
  induction rest with
  | nil => exact ⟨List.forall_mem_nil _, rfl⟩
  | cons u rest ih =>
    obtain ⟨hu, hrest⟩ := List.forall_mem_cons.mp h
    obtain ⟨hwf, hlen⟩ := ih hrest
    have hhigh : ¬ High u := by
      rintro ⟨h₁, -⟩
      omega
    have hs : ¬ Surrogate u.toNat := by
      rintro ⟨h₁, -⟩
      omega
    have hpoints := codePoints_cons hhigh rest
    refine ⟨?_, ?_⟩
    · rw [WellFormed, hpoints]
      exact List.forall_mem_cons.mpr ⟨hs, hwf⟩
    · rw [getBytes, hpoints, bytes_cons, encode, if_neg hs, if_pos hu, List.length_append]
      rw [getBytes] at hlen
      rw [hlen, List.length_singleton, List.length_cons, Nat.add_comm]

/-- The last characters are read back, where each has one byte. -/
theorem readLoop_rest {rest : List UInt16} (h : ∀ u ∈ rest, u.toNat < 0x80) (hlt : rest.length < 1024)
    (content : List UInt16) : readLoop (getBytes rest) content = .ok (content ++ rest) := by
  obtain ⟨hwf, hlen⟩ := getBytes_ascii h
  by_cases hnil : getBytes rest = []
  · have hrest : rest = [] := by
      rw [hnil] at hlen
      exact List.length_eq_zero_iff.mp hlen.symm
    rw [hnil, hrest, readLoop_nil, List.append_nil]
  · rw [readLoop_last hnil (hlen ▸ hlt), decode_getBytes hwf, hlen, List.take_left, List.length_append,
      if_pos (Nat.le_add_right _ _)]

/-- An ASCII character is one unit. -/
theorem units_ascii {rest : List ℕ} (h : ∀ c ∈ rest, c < 0x80) :
    rest.flatMap units = rest.map .ofNat := by
  induction rest with
  | nil => rfl
  | cons c rest ih =>
    obtain ⟨hc, hrest⟩ := List.forall_mem_cons.mp h
    rw [List.flatMap_cons, ih hrest, units, if_pos (by omega)]
    rfl

/-- The units of some blocks, block by block. -/
theorem flatMap_flatten (blocks : List (List ℕ)) :
    blocks.flatten.flatMap units = (blocks.map (·.flatMap units)).flatten := by
  induction blocks with
  | nil => rfl
  | cons block blocks ih =>
    rw [List.flatten_cons, List.flatMap_append, ih, List.map_cons, List.flatten_cons]

/-- **The texts that are read back** are those of `Blocked`. -/
theorem readFile_writeFile_iff (files : Files) (filePath : String) (content : List UInt16) :
    readFile (writeFile files filePath content false) filePath = .ok (some content) ↔ Blocked content := by
  have hfile : (writeFile files filePath content false).lookup filePath = some (getBytes content) :=
    AList.lookup_insert files
  have hread : readFile (writeFile files filePath content false) filePath =
      (readLoop (getBytes content) []).map some := by
    rw [readFile, hfile]
  rw [hread]
  constructor
  · intro h
    have hloop :
        readLoop (bytes (codePoints content)) [] = .ok ((codePoints content).flatMap units) := by
      rw [flatMap_units_codePoints]
      rw [getBytes] at h
      cases hout : readLoop (bytes (codePoints content)) [] with
      | error e =>
        rw [hout] at h
        cases h
      | ok out =>
        rw [hout] at h
        cases h
        rfl
    obtain ⟨blocks, rest, hpoints, hblocks, hrest, hlt⟩ :=
      blocks_of_read (fun _ => lt_of_mem_codePoints) hloop
    have hbound : ∀ block ∈ blocks, ∀ c ∈ block, c < 0x110000 := by
      intro block hblock c hc
      refine lt_of_mem_codePoints (s := content) ?_
      rw [hpoints]
      exact List.mem_append_left _ (List.mem_flatten_of_mem hblock hc)
    refine ⟨blocks.map (·.flatMap units), rest.flatMap units, ?_, ?_, ?_, ?_⟩
    · rw [← flatMap_flatten, ← List.flatMap_append, ← hpoints, flatMap_units_codePoints]
    · rw [List.forall_mem_map]
      intro block hblock
      obtain ⟨hs, hlen⟩ := hblocks block hblock
      have hback := codePoints_flatMap_units (hbound block hblock) hs
      rw [WellFormed, getBytes, hback]
      exact ⟨hs, hlen⟩
    · rw [units_ascii hrest, List.forall_mem_map]
      intro c hc
      have hc := hrest c hc
      rw [toNat_unit (by omega)]
      exact hc
    · rw [units_ascii hrest, List.length_map]
      exact hlt
  · rintro ⟨blocks, rest, rfl, hblocks, hrest, hlt⟩
    rw [readLoop_blocks hblocks, readLoop_rest hrest hlt]
    rfl

/-- One character of two bytes is read with a zero behind it. -/
theorem not_readFile_writeFile :
    ¬ ∀ content : List UInt16,
      readFile (writeFile ∅ "sum.txt" content false) "sum.txt" = .ok (some content) := by
  intro h
  have hwrite : (writeFile ∅ "sum.txt" [0xE9] false).lookup "sum.txt" = some [0xC3, 0xA9] := by
    decide +kernel
  have hcode : readFile (writeFile ∅ "sum.txt" [0xE9] false) "sum.txt" = .ok (some [0xE9, 0]) := by
    rw [readFile, hwrite]
    dsimp only
    rw [readLoop_last (List.cons_ne_nil _ _) (by decide)]
    decide +kernel
  rw [h] at hcode
  cases hcode

end MFile

end MBT
