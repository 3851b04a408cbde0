/- The language of complete statements, each with the tree it stands for. -/

import GraniteDb.Sql.Parser

namespace GraniteDb.Sql.Grammar

open Common.Value Lib.Descent Sql.SelectAst Sql.Parser

abbrev SqlGrammar (α : Type) := Grammar SqlToken α

def word (type : SqlTokenType) : SqlGrammar String :=
  Grammar.token fun t text => t.type = type ∧ text = t.text

/-- A token of one of the types and what follows it, or else the alternative. -/
def led {α : Type} (types : List SqlTokenType) (X : SqlToken → SqlGrammar α) (Y : SqlGrammar α) :
    SqlGrammar α :=
  Grammar.choice SqlToken.type types X Y

def mark (type : SqlTokenType) : SqlGrammar Bool := led [type] (fun _ => pure true) (pure false)

def clause {α : Type} (type : SqlTokenType) (X : SqlGrammar α) : SqlGrammar (Option α) :=
  led [type] (fun _ => do let a ← X; pure (some a)) (pure none)

def listOf {α : Type} (item : SqlGrammar α) : SqlGrammar (List α) := do
  let first ← item
  Grammar.rounds SqlToken.type [.comma] (fun _ items => do let a ← item; pure (items ++ [a]))
    [first]

inductive Level
  | primary
  | comparison
  | conjunction
  | disjunction
  deriving DecidableEq

inductive Expression : Level → List SqlToken → ExprAST → Prop
  | literal {t : SqlToken} {e : ExprAST} (reads : readLiteral t = .ok e) :
      Expression .primary [t] e
  | column {t : SqlToken} (name : t.type = .identifier) :
      Expression .primary [t] (.columnRef "" t.text)
  | qualified {q d c : SqlToken} (table : q.type = .identifier) (dot : d.type = .dot)
      (name : c.type = .identifier) : Expression .primary [q, d, c] (.columnRef q.text c.text)
  | parenthesised {o c : SqlToken} {w : List SqlToken} {e : ExprAST} (opening : o.type = .lparen)
      (inner : Expression .disjunction w e) (closing : c.type = .rparen) :
      Expression .primary (o :: (w ++ [c])) e
  | aggregateStar {f o s c : SqlToken} (func : f.type ∈ aggregateTypes)
      (opening : o.type = .lparen) (star : s.type = .star) (closing : c.type = .rparen) :
      Expression .primary [f, o, s, c] (.functionStar (aggregateOf f.type) f.text)
  | aggregate {f o c : SqlToken} {w : List SqlToken} {e : ExprAST} (func : f.type ∈ aggregateTypes)
      (opening : o.type = .lparen) (arg : Expression .primary w e) (closing : c.type = .rparen) :
      Expression .primary (f :: o :: (w ++ [c])) (.functionCall (aggregateOf f.type) f.text e)
  | operand {w : List SqlToken} {e : ExprAST} (only : Expression .primary w e) :
      Expression .comparison w e
  | comparison {u v : List SqlToken} {t : SqlToken} {l r : ExprAST}
      (left : Expression .primary u l) (op : t.type ∈ comparisonTypes)
      (right : Expression .primary v r) :
      Expression .comparison (u ++ t :: v) (.binary (.compare (comparisonOf t.type)) l r)
  | conjunct {w : List SqlToken} {e : ExprAST} (only : Expression .comparison w e) :
      Expression .conjunction w e
  | conjunction {u v : List SqlToken} {t : SqlToken} {l r : ExprAST}
      (left : Expression .conjunction u l) (op : t.type = .andKw)
      (right : Expression .comparison v r) : Expression .conjunction (u ++ t :: v) (.binary .and l r)
  | disjunct {w : List SqlToken} {e : ExprAST} (only : Expression .conjunction w e) :
      Expression .disjunction w e
  | disjunction {u v : List SqlToken} {t : SqlToken} {l r : ExprAST}
      (left : Expression .disjunction u l) (op : t.type = .orKw)
      (right : Expression .conjunction v r) : Expression .disjunction (u ++ t :: v) (.binary .or l r)

def level (l : Level) : SqlGrammar ExprAST := Expression l

def primary : SqlGrammar ExprAST := level .primary

def expression : SqlGrammar ExprAST := level .disjunction

def aliasName : SqlGrammar String :=
  led [.asKw] (fun _ => word .identifier) (led [.identifier] (fun t => pure t.text) (pure ""))

/-- `table [[AS] alias]` -/
def tableRef : SqlGrammar TableRefAST := do
  let tableName ← word .identifier
  let aliasName ← aliasName
  pure { tableName, aliasName }

/-- `* | primary [[AS] alias]` -/
def selectItem : SqlGrammar SelectItemAST :=
  led [.star] (fun _ => pure .star)
    (do
      let expr ← primary
      let aliasName ← aliasName
      pure (.item expr aliasName))

/-- `primary [ASC | DESC]` -/
def orderByItem : SqlGrammar OrderByItemAST := do
  let expr ← primary
  let ascending ← led [.asc] (fun _ => pure true) (led [.desc] (fun _ => pure false) (pure true))
  pure { expr, ascending }

/-- `[LIMIT number]` -/
def limitClause : SqlGrammar (Option Nat) :=
  clause .limitKw (Grammar.token fun t n => readLimit t = .ok n)

/-- `[DISTINCT | ALL]` -/
def distinctMark : SqlGrammar Bool :=
  led [.distinctKw] (fun _ => pure true) (led [.allKw] (fun _ => pure false) (pure false))

/-- `[JOIN table ON predicate]` -/
def joinClause : SqlGrammar (Option (TableRefAST × ExprAST)) :=
  clause .join do
    let table ← tableRef
    let _ ← word .onKw
    let predicate ← expression
    pure (table, predicate)

/-- `[GROUP BY expressions]` -/
def groupByClause : SqlGrammar (Option (List ExprAST)) :=
  clause .group do
    let _ ← word .byKw
    listOf expression

/-- `[DISTINCT | ALL] items FROM table [JOIN ..] [WHERE predicate] [GROUP BY ..]` -/
def selectCore : SqlGrammar SelectStatementAST := do
  let distinct ← distinctMark
  let selectItems ← listOf selectItem
  let _ ← word .fromKw
  let fromTable ← tableRef
  let join ← joinClause
  let wherePredicate ← clause .whereKw expression
  let groupBy ← groupByClause
  pure {
    distinct, selectItems, fromTable, wherePredicate
    joinTable := join.map Prod.fst
    joinPredicate := join.map Prod.snd
    groupByExprs := groupBy.getD []
    orderByItems := []
    limit := none }

/-- `[ALL | DISTINCT]` after a set operation -/
def allMark : SqlGrammar Bool :=
  led [.allKw] (fun _ => pure true) (led [.distinctKw] (fun _ => pure false) (pure false))

/-- `[ALL | DISTINCT] SELECT core`, after the token of the operation -/
def setTerm (operation : SqlToken) (terms : SetTerms) : SqlGrammar SetTerms := do
  let all ← allMark
  let _ ← word .select
  let term ← selectCore
  pure (terms.1 ++ [term], terms.2 ++ [⟨setOperationOf operation.type, all⟩])

/-- `[ORDER BY items]` -/
def orderByClause : SqlGrammar (List OrderByItemAST) := do
  let items ← clause .order do
    let _ ← word .byKw
    listOf orderByItem
  pure (items.getD [])

/-- `core {operation term} [ORDER BY ..] [LIMIT ..] [;]` -/
def select : SqlGrammar StatementAST := do
  let first ← selectCore
  let terms ← Grammar.rounds SqlToken.type setOperationTypes setTerm ([first], [])
  let orderByItems ← orderByClause
  let limit ← limitClause
  let _ ← mark .semicolon
  pure (selectStatement terms first orderByItems limit)

/-- `INTO table VALUES (expressions) [;]` -/
def insert : SqlGrammar StatementAST := do
  let _ ← word .into
  let tableName ← word .identifier
  let _ ← word .values
  let _ ← word .lparen
  let values ← listOf expression
  let _ ← word .rparen
  let _ ← mark .semicolon
  pure (.insert tableName values)

/-- `column = literal` -/
def assignment : SqlGrammar Assignment := do
  let columnName ← word .identifier
  let _ ← word .eq
  let valueExpr ← Grammar.token fun t e => readLiteral t = .ok e
  pure { columnName, valueExpr }

/-- `table SET assignments [WHERE predicate] [;]` -/
def update : SqlGrammar StatementAST := do
  let tableName ← word .identifier
  let _ ← word .setKw
  let assignments ← listOf assignment
  let wherePredicate ← clause .whereKw expression
  let _ ← mark .semicolon
  pure (.update tableName assignments wherePredicate)

/-- `FROM table [WHERE predicate] [;]` -/
def delete : SqlGrammar StatementAST := do
  let _ ← word .fromKw
  let tableName ← word .identifier
  let wherePredicate ← clause .whereKw expression
  let _ ← mark .semicolon
  pure (.delete tableName wherePredicate)

def typeName : SqlGrammar (TypeId × Nat) :=
  led [.booleanT] (fun _ => pure (.boolean, 0))
    (led [.intT, .integerT] (fun _ => pure (.int32, 0))
      (led [.bigintT] (fun _ => pure (.int64, 0))
        (led [.doubleT] (fun _ => pure (.double, 0))
          (led [.varcharT]
            (fun _ => do
              let _ ← word .lparen
              let length ← Grammar.token fun t n => readVarcharLen t = .ok n
              let _ ← word .rparen
              pure (.varchar, length))
            Grammar.nothing))))

/-- `column type [NOT NULL]` -/
def columnDef : SqlGrammar ColumnDefAST := do
  let name ← word .identifier
  let type ← typeName
  let nullable ← led [.notKw]
    (fun _ => do
      let _ ← word .nullKw
      pure false)
    (pure true)
  pure { name, type := type.1, nullable, varcharLen := type.2 }

/-- `TABLE table (columns) [;]` -/
def createTable : SqlGrammar StatementAST := do
  let _ ← word .table
  let tableName ← word .identifier
  let _ ← word .lparen
  let columns ← listOf columnDef
  let _ ← word .rparen
  let _ ← mark .semicolon
  pure (.createTable tableName columns)

/-- `[UNIQUE] INDEX index ON table (columns) [;]` -/
def createIndex : SqlGrammar StatementAST := do
  let unique ← mark .unique
  let _ ← word .index
  let indexName ← word .identifier
  let _ ← word .onKw
  let tableName ← word .identifier
  let _ ← word .lparen
  let columnNames ← listOf (word .identifier)
  let _ ← word .rparen
  let _ ← mark .semicolon
  pure (.createIndex { unique, indexName, tableName, columnNames })

inductive Body : SqlTokenType → List SqlToken → StatementAST → Prop
  | createTable {w : List SqlToken} {s : StatementAST} (body : Grammar.createTable w s) :
      Body .create w s
  | createIndex {w : List SqlToken} {s : StatementAST} (body : Grammar.createIndex w s) :
      Body .create w s
  | insert {w : List SqlToken} {s : StatementAST} (body : Grammar.insert w s) : Body .insert w s
  | select {w : List SqlToken} {s : StatementAST} (body : Grammar.select w s) : Body .select w s
  | update {w : List SqlToken} {s : StatementAST} (body : Grammar.update w s) : Body .update w s
  | delete {w : List SqlToken} {s : StatementAST} (body : Grammar.delete w s) : Body .deleteKw w s

inductive Statement : List SqlToken → StatementAST → Prop
  | plain {t : SqlToken} {w : List SqlToken} {s : StatementAST} (body : Body t.type w s) :
      Statement (t :: w) s
  | explain {t : SqlToken} {w : List SqlToken} {s : StatementAST} (opens : t.type = .explainKw)
      (inner : Statement w s) : Statement (t :: w) (.explain s)

end GraniteDb.Sql.Grammar
