import MBT.Support.Template
import MBT.View.MQTestActionHandler

/-!
# View — SqlExpr

The SQL text of an action becomes an expression of the script: a literal, interrupted by the
variables that stand in it as `${v}`.

* `toList_handleSql`: without a closing brace of its own, the text is written piece by piece.
* `denotes_iff`: the expression stands for the text with its variables replaced exactly when every
  closing brace ends a `${v}`.
-/

namespace MBT
open Exec Text Template

namespace MQTestActionHandler

/-- The argument of the query that a script makes. -/
def sqlExpr (sql : String) : String := "\"" ++ handleSql sql ++ "\""

/-- What is put behind a statement. -/
def terminator (sql : String) : List Char := if endsWith sql ";" then [] else [';']

/-- The statement that is meant: the text with its variables replaced, and ended. -/
def statement (env : String → String) (sql : String) : List Char :=
  Pattern.render (fun v => (env v).toList) (holes 0 sql.toList) ++ terminator sql

/-- The expression stands for the statement, whatever the variables are. -/
def Denotes (sql : String) : Prop :=
  ∃ terms, readExpr (sqlExpr sql) = some terms ∧ ∀ env, value env terms = statement env sql

/-- The handlers of `query` and `dbVerify` make a query of the expression. -/
structure Places (sql : String) : Prop where
  query : ∀ entity rest, query (sql :: entity :: rest) = getSqlVars sql >>= fun sqlVars =>
    .ok (handleDBEntity entity ++ (if sqlVars = "" then sqlVars else sqlVars ++ " = ") ++
      "varDbHandler.query(" ++ sqlExpr sql ++ ")\n")
  dbVerify : ∀ values entity script, dbVerify [sql, values, entity] = .ok script →
    ∃ sqlVars asserts, script =
      handleDBEntity entity ++ sqlVars ++ " = varDbHandler.query(" ++ sqlExpr sql ++ ")\n" ++ asserts

/-- The places of a statement, from left to right. -/
theorem places (sql : String) : Places sql := by
  refine ⟨fun entity rest => ?_, fun values entity script h => ?_⟩
  · rw [query_cons]
    refine congrArg (getSqlVars sql >>= ·) (funext fun sqlVars => congrArg Except.ok ?_)
    simp only [sqlExpr, String.append_assoc]
    rfl
  · rw [dbVerify_three] at h
    obtain ⟨sqlVars, -, h⟩ := bind_eq_ok.mp h
    obtain ⟨vars, -, h⟩ := bind_eq_ok.mp h
    obtain ⟨asserts, -, h⟩ := bind_eq_ok.mp h
    cases h
    refine ⟨sqlVars, String.join asserts, ?_⟩
    simp only [sqlExpr, String.append_assoc]
    rfl

/-! ### The text of the expression -/

/-- What becomes of the characters of a statement. -/
theorem toList_handleSql (sql : String) : (handleSql sql).toList =
    replaceChars ['\x7d'] (plus ++ ['"']) 0
      (replaceChars ['$', '\x7b'] ('"' :: plus) 0 (sql.toList ++ terminator sql)) := by
  have hsql : (if endsWith sql ";" then sql else sql ++ ";").toList = sql.toList ++ terminator sql := by
    rw [terminator]
    split
    · rw [List.append_nil]
    · exact String.toList_append
  have hopen : "$\x7b".toList = ['$', '\x7b'] := by decide
  have hfirst : "\" + ".toList = '"' :: plus := by decide
  have hlast : " + \"".toList = plus ++ ['"'] := by decide
  rw [handleSql, replace, replace, String.toList_ofList, String.toList_ofList, hsql, hopen, hfirst,
    hlast, String.toList_ofList]

/-- No closing brace is left in the expression. -/
theorem notMem_sqlExpr (sql : String) : '\x7d' ∉ (sqlExpr sql).toList := by
  rw [sqlExpr, notMem_append, notMem_append, toList_handleSql]
  exact ⟨⟨by decide, notMem_replaceChars_char (by decide) _⟩, by decide⟩

/-- Without a closing brace of its own, the text is written piece by piece. -/
theorem toList_sqlExpr {sql : String} (h : WellFormed sql.toList)
    (hbrace : .char '\x7d' ∉ holes 0 sql.toList) : (sqlExpr sql).toList =
      '"' :: (written (holes 0 sql.toList ++ (terminator sql).map .char) ++ ['"']) := by
  have hparsed := parsed_holes h
  have hterminator : '$' ∉ terminator sql ∧ (terminator sql).head? ≠ some '\x7b' ∧
      '\x7d' ∉ terminator sql := by
    rw [terminator]
    split <;> decide
  have hquote : "\"".toList = ['"'] := by decide
  rw [sqlExpr, String.toList_append, String.toList_append, toList_handleSql,
    hparsed.replaceChars_open _ hterminator.1 hterminator.2.1, replaceChars_char_append,
    hparsed.replaceChars_close hbrace (by decide), replaceChars_char_of_notMem _ hterminator.2.2,
    written, Pattern.render_append, Pattern.render_chars, hquote]
  rfl

/-- **When a statement is compiled as it is meant.**  Both handlers query the expression, which
stands for the text with its variables replaced exactly when every closing brace ends a `${v}`. -/
theorem denotes_iff (sql : String) (hplain : ∀ c ∈ sql.toList, isPlain c = true)
    (h : WellFormed sql.toList) :
    Places sql ∧ (Denotes sql ↔ .char '\x7d' ∉ holes 0 sql.toList) := by
  refine ⟨places sql, ?_, fun hbrace => ?_⟩
  · rintro ⟨terms, hread, hvalue⟩ hbrace
    -- With empty variables the brace is in the statement, but nothing brings it there.
    have hstatement : '\x7d' ∈ statement (fun _ => "") sql := by
      rw [statement, List.mem_append, Pattern.render, List.mem_flatMap]
      exact .inl ⟨_, hbrace, List.mem_singleton_self _⟩
    exact notMem_sqlExpr sql (mem_of_mem_value hread (hvalue _ ▸ hstatement))
  · have hparsed := parsed_holes h
    have hterminator : ∀ c ∈ terminator sql, isPlain c = true := by
      rw [terminator]
      split
      · exact List.forall_mem_nil _
      · simp [isPlain]
    have hexpr := toList_sqlExpr h hbrace
    have hident : ∀ v, .mark v ∈ holes 0 sql.toList ++ (terminator sql).map .char →
        isIdentifier v.toList = true := by
      intro v hv
      rcases List.mem_append.mp hv with hv | hv
      · exact hparsed.isIdentifier_of_mem hv
      · obtain ⟨c, -, hc⟩ := List.mem_map.mp hv
        cases hc
    have hchars : ∀ c, .char c ∈ holes 0 sql.toList ++ (terminator sql).map .char →
        isPlain c = true := by
      intro c hc
      rcases List.mem_append.mp hc with hc | hc
      · exact hplain c (hparsed.mem_of_mem hc)
      · obtain ⟨d, hd, he⟩ := List.mem_map.mp hc
        cases he
        exact hterminator c hd
    have hfuel : ([] ++ written (holes 0 sql.toList ++
        (terminator sql).map Pattern.Piece.char)).length < (sqlExpr sql).length := by
      rw [← String.length_toList, hexpr]
      simp
    obtain ⟨terms, hterms, hvalue⟩ := exists_readTerms hident hchars (List.forall_mem_nil _) hfuel
    refine ⟨terms, ?_, fun env => ?_⟩
    · rw [readExpr, hexpr]
      exact hterms
    · rw [hvalue env, statement, List.nil_append, Pattern.render_append, Pattern.render_chars]

theorem denotes_iff_where : Places "select a from t where b='$\x7bv\x7d'" ∧
    (Denotes "select a from t where b='$\x7bv\x7d'" ↔
      .char '\x7d' ∉ holes 0 "select a from t where b='$\x7bv\x7d'".toList) :=
  denotes_iff "select a from t where b='$\x7bv\x7d'" (by simp [isPlain]) (by decide +kernel)

/-- A closing brace of the text itself is taken for the end of a hole. -/
theorem not_denotes_brace : ¬ Denotes "insert into t values('\x7d')" := by
  rintro ⟨terms, hread, -⟩
  have hnone : readExpr (sqlExpr "insert into t values('\x7d')") = none := by decide +kernel
  rw [hnone] at hread
  cases hread

end MQTestActionHandler

end MBT
