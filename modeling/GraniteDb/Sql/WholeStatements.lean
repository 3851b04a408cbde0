/- The parser reads statements; when what it returns is the whole input. -/

import GraniteDb.Sql.ExpressionReading

namespace GraniteDb.Sql.WholeStatements

open Lib.Descent Lib.Descent.Recognizes Sql.SelectAst Sql.Parser Sql.Grammar Sql.ExpressionReading
open List (mem_singleton)

variable {bound : Nat}

theorem reads_alias :
    Reads bound parseAlias aliasName ⟨[.asKw, .identifier], [.asKw, .identifier], true, true⟩ :=
  (reads_onMatch (by decide) (fun _ => reads_expect .identifier _ (by decide))
    (reads_onMatch (by decide) (fun _ => .unit _) (.unit _) (by decide) (by decide))
    (by decide) (by decide)).weaken (by decide) (by decide) rfl (by decide)

theorem reads_tableRef :
    Reads bound parseTableRef tableRef ⟨[.identifier], [.asKw, .identifier], false, true⟩ :=
  ((reads_expect .identifier _ (by decide)).bind
    (fun tableName => reads_alias.map (TableRefAST.mk tableName)) (by decide)).weaken
    (by decide) (by decide) rfl (by decide)

theorem reads_selectItem : Reads bound parseSelectItem selectItem
    ⟨.star :: expressionTypes, [.dot, .asKw, .identifier], false, true⟩ :=
  (reads_onMatch (by decide) (fun _ => .unit _)
    (reads_primary.bind (fun expr => reads_alias.map (SelectItemAST.item expr)) (by decide))
    (by decide) (by decide)).weaken (by decide) (by decide) rfl (by decide)

theorem reads_orderByItem : Reads bound parseOrderByItem orderByItem
    ⟨expressionTypes, [.dot, .asc, .desc], false, true⟩ :=
  (reads_primary.bind (fun expr => (reads_onMatch (by decide) (fun _ => .unit _)
    (reads_onMatch (by decide) (fun _ => .unit _) (.unit _) (by decide) (by decide)) (by decide)
    (by decide)).map (OrderByItemAST.mk expr)) (by decide)).weaken (by decide) (by decide) rfl
    (by decide)

theorem number_of_readLimit {t : SqlToken} {n : Nat} (reads : readLimit t = .ok n) :
    t.type ∈ [SqlTokenType.number] := by
  unfold readLimit at reads
  split at reads
  · simpa using ‹t.type = .number›
  · cases reads

theorem reads_limitClause :
    Reads bound parseLimitClause limitClause ⟨[.limitKw], [.limitKw], true, true⟩ :=
  reads_optionally .limitKw (by decide) rfl (.token _ (fun _ _ => Iff.rfl)
    (.token (fun _ _ => number_of_readLimit) ⟨⟨.number, "1"⟩, 1, by decide +kernel⟩ (by decide)))

theorem reads_distinct : Reads bound parseDistinct distinctMark
    ⟨[.distinctKw, .allKw], [.distinctKw, .allKw], true, true⟩ :=
  (reads_onMatch (by decide) (fun _ => .unit _)
    (reads_onMatch (by decide) (fun _ => .unit _) (.unit _) (by decide) (by decide))
    (by decide) (by decide)).weaken (by decide) (by decide) rfl (by decide)

theorem reads_join : Reads bound parseJoin joinClause
    ⟨[.join], .join :: expressionShape.continues, true, true⟩ :=
  (reads_optionally .join (by decide) rfl (reads_tableRef.bind
    (fun table => (reads_expect .onKw _ (by decide)).bind
      (fun _ => reads_expression.map (Prod.mk table)) (by decide)) (by decide))).weaken
    (by decide) (by decide) rfl (by decide)

theorem reads_where : Reads bound (optionally .whereKw parseExpression)
    (clause .whereKw expression) ⟨[.whereKw], .whereKw :: expressionShape.continues, true, true⟩ :=
  (reads_optionally .whereKw (by decide) rfl reads_expression).weaken (by decide) (by decide) rfl
    (by decide)

theorem reads_exprList : Reads bound parseExprList (listOf expression)
    ⟨expressionTypes, .comma :: expressionShape.continues, false, true⟩ :=
  (reads_commaSeparated rfl rfl (by decide) reads_expression).weaken (by decide) (by decide) rfl
    (by decide)

theorem reads_groupBy : Reads bound parseGroupBy groupByClause
    ⟨[.group], .group :: .comma :: expressionShape.continues, true, true⟩ :=
  (reads_optionally .group (by decide) rfl ((reads_expect .byKw _ (by decide)).bind
    (fun _ => reads_exprList) (by decide))).weaken (by decide) (by decide) rfl (by decide)

def coreShape : Shape SqlTokenType where
  first := .distinctKw :: .allKw :: .star :: expressionTypes
  continues := [.asKw, .identifier, .join, .whereKw, .group, .comma] ++ expressionShape.continues
  empty := false
  live := true

theorem reads_selectCore : Reads bound parseSelectCore selectCore coreShape :=
  (reads_distinct.bind (fun _ =>
    (reads_commaSeparated rfl rfl (by decide) reads_selectItem).bind (fun _ =>
      (reads_expect .fromKw _ (by decide)).bind (fun _ =>
        reads_tableRef.bind (fun _ => reads_join.bind (fun _ => reads_where.bind (fun _ =>
          reads_groupBy.bind (fun _ => .unit _) (by decide)) (by decide)) (by decide))
          (by decide)) (by decide)) (by decide)) (by decide)).weaken
    (by decide) (by decide) rfl (by decide)

theorem reads_all : Reads bound parseAll allMark
    ⟨[.allKw, .distinctKw], [.allKw, .distinctKw], true, true⟩ :=
  (reads_onMatch (by decide) (fun _ => .unit _)
    (reads_onMatch (by decide) (fun _ => .unit _) (.unit _) (by decide) (by decide))
    (by decide) (by decide)).weaken (by decide) (by decide) rfl (by decide)

theorem reads_setTerm (operation : SqlToken) (terms : SetTerms) :
    Reads bound (parseSetTerm operation terms) (setTerm operation terms)
      ⟨[.allKw, .distinctKw, .select], coreShape.continues, false, true⟩ :=
  (reads_all.bind (fun _ => (reads_expect .select _ (by decide)).bind
    (fun _ => reads_selectCore.bind (fun _ => .unit _) (by decide)) (by decide))
    (by decide)).weaken (by decide) (by decide) rfl (by decide)

theorem reads_orderBy : Reads bound parseOrderBy orderByClause
    ⟨[.order], [.order, .comma, .dot, .asc, .desc], true, true⟩ :=
  ((reads_optionally .order (by decide) rfl ((reads_expect .byKw _ (by decide)).bind
    (fun _ => reads_commaSeparated rfl rfl (by decide) reads_orderByItem) (by decide))).map
    fun items => items.getD []).weaken (by decide) (by decide) rfl (by decide)

def selectContinues : List SqlTokenType :=
  coreShape.continues ++ setOperationTypes ++ [.order, .asc, .desc, .limitKw, .semicolon]

theorem reads_setTerms (terms : SetTerms) :
    Reads bound (whileMatch SqlToken.type setOperationTypes parseSetTerm terms)
      (Grammar.rounds SqlToken.type setOperationTypes setTerm terms)
      ⟨setOperationTypes, coreShape.continues ++ setOperationTypes, true, true⟩ :=
  Recognizes.whileMatch type_onto (by decide) rfl (by decide)
    (fun operation terms _ => reads_setTerm operation terms) terms

theorem reads_select :
    Reads bound parseSelect select ⟨coreShape.first, selectContinues, false, true⟩ :=
  (reads_selectCore.bind (fun _ =>
    (reads_setTerms _).bind (fun _ =>
        reads_orderBy.bind (fun _ => reads_limitClause.bind (fun _ =>
          (reads_accept .semicolon (by decide)).bind (fun _ => .unit _) (by decide))
          (by decide)) (by decide)) (by decide)) (by decide)).weaken
    (by decide) (by decide) rfl (by decide)

theorem reads_insert :
    Reads bound parseInsert Grammar.insert ⟨[.into], [.semicolon], false, true⟩ :=
  ((reads_expect .into _ (by decide)).bind (fun _ =>
    (reads_expect .identifier _ (by decide)).bind (fun _ =>
      (reads_expect .values _ (by decide)).bind (fun _ =>
        (reads_expect .lparen _ (by decide)).bind (fun _ => reads_exprList.bind (fun _ =>
          (reads_expect .rparen _ (by decide)).bind (fun _ =>
            (reads_accept .semicolon (by decide)).bind (fun _ => .unit _) (by decide))
            (by decide)) (by decide)) (by decide)) (by decide)) (by decide)) (by decide)).weaken
    (by decide) (by decide) rfl (by decide)

theorem reads_assignment :
    Reads bound parseAssignment assignment ⟨[.identifier], [], false, true⟩ :=
  ((reads_expect .identifier _ (by decide)).bind (fun columnName =>
    (reads_expect .eq _ (by decide)).bind (fun _ => reads_literal.map (Assignment.mk columnName))
      (by decide)) (by decide)).weaken (by decide) (by decide) rfl (by decide)

def writeContinues : List SqlTokenType :=
  [.comma, .whereKw, .semicolon] ++ expressionShape.continues

theorem reads_update :
    Reads bound parseUpdate update ⟨[.identifier], writeContinues, false, true⟩ :=
  ((reads_expect .identifier _ (by decide)).bind (fun _ =>
    (reads_expect .setKw _ (by decide)).bind (fun _ =>
      (reads_commaSeparated rfl rfl (by decide) reads_assignment).bind (fun _ =>
        reads_where.bind (fun _ =>
          (reads_accept .semicolon (by decide)).bind (fun _ => .unit _) (by decide))
          (by decide)) (by decide)) (by decide)) (by decide)).weaken
    (by decide) (by decide) rfl (by decide)

theorem reads_delete :
    Reads bound parseDelete delete ⟨[.fromKw], writeContinues, false, true⟩ :=
  ((reads_expect .fromKw _ (by decide)).bind (fun _ =>
    (reads_expect .identifier _ (by decide)).bind (fun _ => reads_where.bind (fun _ =>
      (reads_accept .semicolon (by decide)).bind (fun _ => .unit _) (by decide))
      (by decide)) (by decide)) (by decide)).weaken (by decide) (by decide) rfl (by decide)

theorem number_of_readVarcharLen {t : SqlToken} {n : Nat} (reads : readVarcharLen t = .ok n) :
    t.type ∈ [SqlTokenType.number] := by
  unfold readVarcharLen at reads
  split at reads
  · simpa using ‹t.type = .number›
  · cases reads

theorem reads_varcharLen : Reads bound (next readVarcharLen "Expected VARCHAR length")
    (Grammar.token fun t n => readVarcharLen t = .ok n) (.one [.number]) :=
  .token _ (fun _ _ => Iff.rfl) (.token (fun _ _ => number_of_readVarcharLen)
    ⟨⟨.number, "1"⟩, 1, by decide +kernel⟩ (by decide))

theorem reads_typeName : Reads bound parseTypeName typeName
    ⟨[.booleanT, .intT, .integerT, .bigintT, .doubleT, .varcharT], [], false, true⟩ :=
  (reads_onMatch (by decide) (fun _ => .unit _)
    (reads_onMatch (by decide) (fun _ => .unit _)
      (reads_onMatch (by decide) (fun _ => .unit _)
        (reads_onMatch (by decide) (fun _ => .unit _)
          (reads_onMatch (by decide) (fun _ => (reads_expect .lparen _ (by decide)).bind
            (fun _ => reads_varcharLen.bind (fun _ => (reads_expect .rparen _ (by decide)).bind
              (fun _ => .unit _) (by decide)) (by decide)) (by decide)) (.nothing _)
            (by decide) (by decide)) (by decide) (by decide)) (by decide) (by decide))
      (by decide) (by decide)) (by decide) (by decide)).weaken (by decide) (by decide) rfl
    (by decide)

theorem reads_columnDef :
    Reads bound parseColumnDef columnDef ⟨[.identifier], [.notKw], false, true⟩ :=
  ((reads_expect .identifier _ (by decide)).bind (fun _ => reads_typeName.bind (fun _ =>
    (reads_onMatch (by decide) (fun _ => (reads_expect .nullKw _ (by decide)).bind
      (fun _ => .unit _) (by decide)) (.unit _) (by decide) (by decide)).bind
      (fun _ => .unit _) (by decide)) (by decide)) (by decide)).weaken
    (by decide) (by decide) rfl (by decide)

theorem reads_createTable :
    Reads bound parseCreateTable createTable ⟨[.table], [.semicolon], false, true⟩ :=
  ((reads_expect .table _ (by decide)).bind (fun _ =>
    (reads_expect .identifier _ (by decide)).bind (fun _ =>
      (reads_expect .lparen _ (by decide)).bind (fun _ =>
        (reads_commaSeparated rfl rfl (by decide) reads_columnDef).bind (fun _ =>
          (reads_expect .rparen _ (by decide)).bind (fun _ =>
            (reads_accept .semicolon (by decide)).bind (fun _ => .unit _) (by decide))
            (by decide)) (by decide)) (by decide)) (by decide)) (by decide)).weaken
    (by decide) (by decide) rfl (by decide)

theorem reads_createIndex :
    Reads bound parseCreateIndex createIndex ⟨[.unique, .index], [.semicolon], false, true⟩ :=
  ((reads_accept .unique (by decide)).bind (fun _ =>
    (reads_expect .index _ (by decide)).bind (fun _ =>
      (reads_expect .identifier _ (by decide)).bind (fun _ =>
        (reads_expect .onKw _ (by decide)).bind (fun _ =>
          (reads_expect .identifier _ (by decide)).bind (fun _ =>
            (reads_expect .lparen _ (by decide)).bind (fun _ =>
              (reads_commaSeparated rfl rfl (by decide) (reads_expect .identifier _ (by decide))
                ).bind (fun _ => (reads_expect .rparen _ (by decide)).bind (fun _ =>
                  (reads_accept .semicolon (by decide)).bind (fun _ => .unit _) (by decide))
                  (by decide)) (by decide)) (by decide)) (by decide)) (by decide)) (by decide))
      (by decide)) (by decide)).weaken (by decide) (by decide) rfl (by decide)

theorem reads_create : Reads bound parseCreate
    (Grammar.either createTable (Grammar.either createIndex Grammar.nothing))
    ⟨[.table, .unique, .index], [.semicolon], false, true⟩ :=
  (reads_createTable.ifPeek
    (reads_createIndex.ifPeek (.nothing _) (by decide) (by decide) rfl rfl) (by decide)
    (by decide) rfl rfl).weaken (by decide) (by decide) rfl (by decide)

section Statement

def statementTypes : List SqlTokenType :=
  [.explainKw, .create, .insert, .select, .update, .deleteKw]

def statementShape : Shape SqlTokenType :=
  ⟨statementTypes, selectContinues ++ writeContinues, false, true⟩

def statement : SqlGrammar StatementAST := Statement

def explained : SqlGrammar StatementAST := do
  let inner ← statement
  pure (.explain inner)

def plain : SqlGrammar StatementAST :=
  led [.create] (fun _ => Grammar.either createTable (Grammar.either createIndex Grammar.nothing))
    (led [.insert] (fun _ => Grammar.insert)
      (led [.select] (fun _ => select)
        (led [.update] (fun _ => update)
          (led [.deleteKw] (fun _ => delete) Grammar.nothing))))

variable {s : StatementAST}

theorem plain_iff {w : List SqlToken} : plain w s ↔ ∃ t v, w = t :: v ∧ Body t.type v s := by
  constructor
  · rintro (⟨t, v, rfl, opens, body | body | body⟩ | ⟨t, v, rfl, opens, body⟩ |
      ⟨t, v, rfl, opens, body⟩ | ⟨t, v, rfl, opens, body⟩ | ⟨t, v, rfl, opens, body⟩ | body)
    · exact ⟨t, v, rfl, by simpa [mem_singleton.mp opens] using Body.createTable body⟩
    · exact ⟨t, v, rfl, by simpa [mem_singleton.mp opens] using Body.createIndex body⟩
    · exact body.elim
    · exact ⟨t, v, rfl, by simpa [mem_singleton.mp opens] using Body.insert body⟩
    · exact ⟨t, v, rfl, by simpa [mem_singleton.mp opens] using Body.select body⟩
    · exact ⟨t, v, rfl, by simpa [mem_singleton.mp opens] using Body.update body⟩
    · exact ⟨t, v, rfl, by simpa [mem_singleton.mp opens] using Body.delete body⟩
    · exact body.elim
  · rintro ⟨t, v, rfl, body⟩
    generalize typed : t.type = type at body
    have opens (type' : SqlTokenType) (same : type = type') : t.type ∈ [type'] := by
      simp [typed, same]
    cases body with
    | createTable body => exact .inl ⟨t, v, rfl, opens _ rfl, .inl body⟩
    | createIndex body => exact .inl ⟨t, v, rfl, opens _ rfl, .inr (.inl body)⟩
    | insert body => exact .inr (.inl ⟨t, v, rfl, opens _ rfl, body⟩)
    | select body => exact .inr (.inr (.inl ⟨t, v, rfl, opens _ rfl, body⟩))
    | update body => exact .inr (.inr (.inr (.inl ⟨t, v, rfl, opens _ rfl, body⟩)))
    | delete body => exact .inr (.inr (.inr (.inr (.inl ⟨t, v, rfl, opens _ rfl, body⟩))))

theorem statement_eq : statement = led [.explainKw] (fun _ => explained) plain := by
  ext w s
  constructor
  · intro word
    cases word with
    | plain body => exact .inr (plain_iff.mpr ⟨_, _, rfl, body⟩)
    | @explain t w s opens inner =>
      exact .inl ⟨t, w, rfl, by simp [opens], w, s, [], by simp, inner, rfl, rfl⟩
  · rintro (⟨t, _, rfl, opens, w, s, _, rfl, inner, rfl, rfl⟩ | word)
    · simpa [statement] using Statement.explain (mem_singleton.mp opens) inner
    · obtain ⟨t, v, rfl, body⟩ := plain_iff.mp word
      exact .plain body

theorem reads_plain : Reads bound
    (onMatch [.create] (fun _ => parseCreate)
      (onMatch [.insert] (fun _ => parseInsert)
        (onMatch [.select] (fun _ => parseSelect)
          (onMatch [.update] (fun _ => parseUpdate)
            (onMatch [.deleteKw] (fun _ => parseDelete)
              (throw "Unsupported SQL statement"))))))
    plain ⟨[.create, .insert, .select, .update, .deleteKw], statementShape.continues, false, true⟩ :=
  (reads_onMatch (by decide) (fun _ => reads_create)
    (reads_onMatch (by decide) (fun _ => reads_insert)
      (reads_onMatch (by decide) (fun _ => reads_select)
        (reads_onMatch (by decide) (fun _ => reads_update)
          (reads_onMatch (by decide) (fun _ => reads_delete) (.nothing _) (by decide) (by decide))
          (by decide) (by decide)) (by decide) (by decide)) (by decide) (by decide))
    (by decide) (by decide)).weaken (by decide) (by decide) rfl (by decide)

theorem statement_shape : HasShape SqlToken.type .endToken statement statementShape := by
  have base := (reads_plain : Reads 0 _ _ _).toHasShape
  refine ⟨?_, ?_, ?_, ?_⟩
  · intro t w s word
    cases word with
    | plain body => exact List.mem_cons_of_mem _ (base.first t w s (plain_iff.mpr ⟨t, w, rfl, body⟩))
    | explain opens _ => simp [opens, statementShape, statementTypes]
  · simp only [statementShape, Bool.false_eq_true, iff_false, not_exists]
    intro s word
    cases word
  · intro _
    obtain ⟨w, s, word⟩ := base.live rfl
    obtain ⟨t, v, rfl, body⟩ := plain_iff.mp word
    exact ⟨t :: v, s, .plain body⟩
  · intro w s word
    induction word with
    | @plain t w s body => exact base.proper (t :: w) s (plain_iff.mpr ⟨t, w, rfl, body⟩)
    | explain opens _ ih => simpa [opens] using ih

theorem reads_statementBody {p : Parse StatementAST} (reads : Reads bound p statement statementShape) :
    Reads (bound + 1) (statementBody p) statement statementShape := by
  rw [statement_eq]
  exact (reads_onMatch_succ (by decide) (fun _ => reads.map StatementAST.explain) reads_plain
    (by decide) (by decide)).weaken (by decide) (by decide) rfl (by decide)

theorem reads_statementFuel (n : Nat) (enough : bound ≤ n) :
    Reads bound (statementFuel n) statement statementShape := by
  induction bound generalizing n with
  | zero => exact .zero statement_shape
  | succ bound ih =>
    obtain ⟨m, rfl⟩ : ∃ m, n = m + 1 := ⟨n - 1, by omega⟩
    exact reads_statementBody (ih m (by omega))

theorem steady_statementFuel (n m : Nat) (left : bound ≤ n) (right : bound ≤ m) :
    AgreeBelow bound (statementFuel n) (statementFuel m) := by
  induction bound generalizing n m with
  | zero => exact .zero _ _
  | succ bound ih =>
    obtain ⟨n, rfl⟩ : ∃ k, n = k + 1 := ⟨n - 1, by omega⟩
    obtain ⟨m, rfl⟩ : ∃ k, m = k + 1 := ⟨m - 1, by omega⟩
    refine .ifMatch_succ (fun _ _ => ?_) (.refl _)
    exact .bind (reads_statementFuel n (by omega)) (ih n m (by omega) (by omega)) fun _ => .refl _

theorem reads_statement : Reads bound parseStatement statement statementShape :=
  .of_fuel (fun _ => reads_statementFuel) fun _ => steady_statementFuel

theorem parseStatement_iff {tokens : List SqlToken} {last : SqlToken}
    (ends : last.type = .endToken) :
    parseStatement (tokens ++ [last]) = .ok (s, [last]) ↔ Statement tokens s :=
  accepts_iff (fun _ => reads_statement) ends

theorem executeSql_ignores {Result : Type} {execute : StatementAST → Except String Result}
    {w v : List SqlToken} {t : SqlToken} (prior : Statement w s)
    (ended : ¬ ∃ v' s', Statement (w ++ t :: v') s') :
    executeSql execute (w ++ t :: v) = execute s := by
  have parsed := (stops_iff (fun _ => reads_statement) type_onto prior).mpr ended v
  simp only [executeSql, parsed]
  rfl

/-- Whatever `ParseStatement` returns stands for every token up to `END`. -/
def AcceptsWholeOnly (tokens : List SqlToken) (last : SqlToken) : Prop :=
  ∀ s rest, parseStatement (tokens ++ [last]) = .ok (s, rest) → rest = [last] ∧ Statement tokens s

/-- Every statement that the tokens start with, up to some further token, could go on with that
token. -/
def PrefixesGoOn (tokens : List SqlToken) : Prop :=
  ∀ (w v : List SqlToken) (t : SqlToken) (s : StatementAST), tokens = w ++ t :: v →
    Statement w s → ∃ v' s', Statement (w ++ t :: v') s'

theorem acceptsWholeOnly_iff {tokens : List SqlToken} {last : SqlToken}
    (ends : last.type = .endToken) : AcceptsWholeOnly tokens last ↔ PrefixesGoOn tokens := by
  have reads (bound : Nat) : Reads bound parseStatement statement statementShape := reads_statement
  exact (whole_iff reads type_onto ends).trans
    ⟨fun h w v t s => h w t v s, fun h w t v s => h w v t s⟩

/-- `DELETE FROM t WHERE a = 1` -/
def complete : List SqlToken :=
  [⟨.deleteKw, "DELETE"⟩, ⟨.fromKw, "FROM"⟩, ⟨.identifier, "t"⟩, ⟨.whereKw, "WHERE"⟩,
    ⟨.identifier, "a"⟩, ⟨.eq, "="⟩, ⟨.number, "1"⟩]

theorem acceptsWholeOnly_complete :
    AcceptsWholeOnly complete ⟨.endToken, ""⟩ ∧ PrefixesGoOn complete := by
  have parsed : (parseStatement (complete ++ [⟨.endToken, ""⟩])).toOption.any
      (fun answer => answer.2 == [⟨.endToken, ""⟩]) = true := by decide +kernel
  have whole : AcceptsWholeOnly complete ⟨.endToken, ""⟩ := by
    intro s rest answered
    rw [answered] at parsed
    obtain rfl : rest = [⟨.endToken, ""⟩] := by simpa [Except.toOption] using parsed
    exact ⟨rfl, (parseStatement_iff rfl).mp answered⟩
  exact ⟨whole, (acceptsWholeOnly_iff rfl).mp whole⟩

/-- `DELETE FROM t WHRE a = 1` -/
def misspelt : List SqlToken :=
  [⟨.deleteKw, "DELETE"⟩, ⟨.fromKw, "FROM"⟩, ⟨.identifier, "t"⟩, ⟨.identifier, "WHRE"⟩,
    ⟨.identifier, "a"⟩, ⟨.eq, "="⟩, ⟨.number, "1"⟩]

theorem misspelt_deletesAll :
    parseStatement (misspelt ++ [⟨.endToken, ""⟩])
        = .ok (.delete "t" none, misspelt.drop 3 ++ [⟨.endToken, ""⟩]) ∧
      ¬ AcceptsWholeOnly misspelt ⟨.endToken, ""⟩ := by
  have parsed : parseStatement (misspelt ++ [⟨.endToken, ""⟩])
      = .ok (.delete "t" none, misspelt.drop 3 ++ [⟨.endToken, ""⟩]) := by decide +kernel
  refine ⟨parsed, fun whole => ?_⟩
  have ended := (whole _ _ parsed).1
  simp [misspelt] at ended

end Statement

end GraniteDb.Sql.WholeStatements
