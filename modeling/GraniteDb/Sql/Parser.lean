/- The statement parser: every statement, its clauses and its expressions. -/

import GraniteDb.Lib.Descent
import GraniteDb.Sql.CreateIndex
import GraniteDb.Sql.SelectAst

namespace GraniteDb.Sql.Parser

open Common.Double Common.Value Execution.Expressions Lib.Descent Sql.SelectAst
open Sql.CreateIndex (CreateIndexStatementAST)

inductive SqlTokenType
  | endToken | identifier | number | string
  | comma | semicolon | dot | lparen | rparen | star | eq | neq | lt | lte | gt | gte
  | create | table | index | unique | onKw | insert | into | values | select | fromKw | whereKw
  | join | order | byKw | group | limitKw | asKw | update | setKw | deleteKw | explainKw
  | andKw | orKw | notKw | trueKw | falseKw | nullKw
  | unionKw | intersectKw | exceptKw | allKw | distinctKw
  | count | sum | min | max
  | booleanT | intT | integerT | bigintT | doubleT | varcharT | asc | desc
  deriving DecidableEq

structure SqlToken where
  type : SqlTokenType
  text : String
  deriving DecidableEq

structure ColumnDefAST where
  name : String
  type : TypeId
  nullable : Bool
  varcharLen : Nat
  deriving DecidableEq

inductive SetOperationType
  | unionOp
  | intersectOp
  | exceptOp
  deriving DecidableEq

structure SetOperationAST where
  type : SetOperationType
  all : Bool
  deriving DecidableEq

structure Assignment where
  columnName : String
  valueExpr : ExprAST
  deriving DecidableEq

inductive StatementAST
  | createTable (tableName : String) (columns : List ColumnDefAST)
  | createIndex (statement : CreateIndexStatementAST)
  | insert (tableName : String) (values : List ExprAST)
  | select (statement : SelectStatementAST)
  | compoundSelect (terms : List SelectStatementAST) (operations : List SetOperationAST)
      (orderByItems : List OrderByItemAST) (limit : Option Nat)
  | update (tableName : String) (assignments : List Assignment) (wherePredicate : Option ExprAST)
  | delete (tableName : String) (wherePredicate : Option ExprAST)
  | explain (inner : StatementAST)
  deriving DecidableEq

def digitsValue (digits : List Char) : Nat :=
  digits.foldl (fun n c => 10 * n + (c.toNat - '0'.toNat)) 0

/-- The sign and the digits that an integer conversion reads: blanks, a sign and digits, what
follows being ignored. -/
def integerPrefix (text : String) : Option (Bool × Nat) :=
  let cs := text.toList.dropWhile Char.isWhitespace
  let negative := cs.head? = some '-'
  let unsigned := if negative || cs.head? = some '+' then cs.tail else cs
  let digits := unsigned.takeWhile Char.isDigit
  if digits.isEmpty then none else some (negative, digitsValue digits)

def stoll (text : String) : Except String Int :=
  match integerPrefix text with
  | none => .error "stoll"
  | some (negative, n) =>
    let v : Int := if negative then -n else n
    if -2 ^ 63 ≤ v ∧ v < 2 ^ 63 then .ok v else .error "stoll"

/-- `std::stoul` of a 64-bit `unsigned long`: a negative number wraps around. -/
def stoul (text : String) : Except String Nat :=
  match integerPrefix text with
  | none => .error "stoul"
  | some (negative, n) =>
    if n < 2 ^ 64 then .ok (if negative then (2 ^ 64 - n) % 2 ^ 64 else n) else .error "stoul"

/-- `std::stod` of digits with one point, as the lexer writes them. A result that overflows, or
that underflows with a loss, is out of range. -/
def stod (text : String) : Except String Double :=
  let whole := text.toList.takeWhile Char.isDigit
  let fraction := ((text.toList.dropWhile Char.isDigit).drop 1).takeWhile Char.isDigit
  let num := digitsValue (whole ++ fraction)
  let den := 10 ^ fraction.length
  let d := Double.ofRatio false num den
  if (whole ++ fraction).isEmpty || d.isInf
      || d.exponentField == 0 && d.magnitude * den != num * 2 ^ 1074 then .error "stod"
  else .ok d

/-- The parser's state is the tokens that are left. A token list ends with `END`, which no rule
consumes, so that the parser never looks beyond the list. -/
abbrev Parse (α : Type) := Parser SqlToken String α

def expect (type : SqlTokenType) (message : String) : Parse String :=
  next (fun t => if t.type = type then .ok t.text else .error message) message

/-- `if (Match(type)) ...`. -/
def onMatch {α : Type} (types : List SqlTokenType) (p : SqlToken → Parse α) (q : Parse α) :
    Parse α :=
  ifMatch SqlToken.type types p q

/-- `Match` for its result alone. -/
def accept (type : SqlTokenType) : Parse Bool := onMatch [type] (fun _ => pure true) (pure false)

/-- `if (Match(type)) x = p()`. -/
def optionally {α : Type} (type : SqlTokenType) (p : Parse α) : Parse (Option α) :=
  onMatch [type] (fun _ => do let a ← p; pure (some a)) (pure none)

/-- `xs.push_back(item()); while (Match(COMMA)) xs.push_back(item());` -/
def commaSeparated {α : Type} (item : Parse α) : Parse (List α) := do
  let first ← item
  whileMatch SqlToken.type [.comma] (fun _ items => do let a ← item; pure (items ++ [a])) [first]

def readLiteral (token : SqlToken) : Except String ExprAST :=
  match token.type with
  | .trueKw => .ok (.literal (.boolean true))
  | .falseKw => .ok (.literal (.boolean false))
  | .nullKw => .ok (.literal (.null .invalid))
  | .string => .ok (.literal (.varchar token.text.toUTF8.toList))
  | .number =>
    if '.' ∈ token.text.toList then (stod token.text).map fun d => .literal (.double d)
    else (stoll token.text).map fun v =>
      if -2 ^ 31 ≤ v ∧ v < 2 ^ 31 then .literal (.int32 (BitVec.ofInt 32 v))
      else .literal (.int64 (BitVec.ofInt 64 v))
  | _ => .error "Expected literal value or identifier"

def parseValueLiteral : Parse ExprAST := next readLiteral "Expected literal value or identifier"

def comparisonTypes : List SqlTokenType := [.eq, .neq, .lt, .lte, .gt, .gte]

/-- The operator of a token; the lexer writes one text for each type. -/
def comparisonOf : SqlTokenType → ComparisonType
  | .neq => .neq
  | .lt => .lt
  | .lte => .lte
  | .gt => .gt
  | .gte => .gte
  | _ => .eq

def aggregateTypes : List SqlTokenType := [.count, .sum, .min, .max]

def aggregateOf : SqlTokenType → AggregateType
  | .sum => .sum
  | .min => .min
  | .max => .max
  | _ => .count

/-- `ParseComparison`, over `ParsePrimary`. -/
def parseComparison (primary : Parse ExprAST) : Parse ExprAST := do
  let left ← primary
  onMatch comparisonTypes
    (fun t => do
      let right ← primary
      pure (.binary (.compare (comparisonOf t.type)) left right))
    (pure left)

def parseAnd (primary : Parse ExprAST) : Parse ExprAST := do
  let left ← parseComparison primary
  whileMatch SqlToken.type [.andKw]
    (fun _ left => do
      let right ← parseComparison primary
      pure (.binary .and left right))
    left

def parseOr (primary : Parse ExprAST) : Parse ExprAST := do
  let left ← parseAnd primary
  whileMatch SqlToken.type [.orKw]
    (fun _ left => do
      let right ← parseAnd primary
      pure (.binary .or left right))
    left

def parseAggregate (primary : Parse ExprAST) (func : SqlToken) : Parse ExprAST := do
  let _ ← expect .lparen "Expected '(' after aggregate function"
  let call ← onMatch [.star]
    (fun _ => pure (.functionStar (aggregateOf func.type) func.text))
    (do
      let arg ← primary
      pure (.functionCall (aggregateOf func.type) func.text arg))
  let _ ← expect .rparen "Expected ')' after aggregate argument"
  pure call

def parseColumnRef (first : SqlToken) : Parse ExprAST :=
  onMatch [.dot]
    (fun _ => do
      let second ← expect .identifier "Expected column name after '.'"
      pure (.columnRef first.text second))
    (pure (.columnRef "" first.text))

/-- The body of `ParsePrimary`, over the recursive calls it makes. -/
def primaryBody (primary : Parse ExprAST) : Parse ExprAST :=
  onMatch [.lparen]
    (fun _ => do
      let expr ← parseOr primary
      let _ ← expect .rparen "Expected ')'"
      pure expr)
    (onMatch aggregateTypes (parseAggregate primary)
      (onMatch [.identifier] parseColumnRef parseValueLiteral))

/-- Every recursive call follows a token, so that expressions nest no deeper than there are
tokens. -/
def primaryFuel : Nat → Parse ExprAST
  | 0 => throw "Expected literal value or identifier"
  | fuel + 1 => primaryBody (primaryFuel fuel)

def parsePrimary : Parse ExprAST := fun ts => primaryFuel (ts.length + 1) ts

def parseExpression : Parse ExprAST := parseOr parsePrimary

def parseAlias : Parse String :=
  onMatch [.asKw] (fun _ => expect .identifier "Expected alias after AS")
    (onMatch [.identifier] (fun t => pure t.text) (pure ""))

def parseTableRef : Parse TableRefAST := do
  let tableName ← expect .identifier "Expected table name"
  let aliasName ← parseAlias
  pure { tableName, aliasName }

def parseSelectItem : Parse SelectItemAST :=
  onMatch [.star] (fun _ => pure .star)
    (do
      let expr ← parsePrimary
      let aliasName ← parseAlias
      pure (.item expr aliasName))

def parseSelectList : Parse (List SelectItemAST) := commaSeparated parseSelectItem

def parseOrderByItem : Parse OrderByItemAST := do
  let expr ← parsePrimary
  let ascending ← onMatch [.asc] (fun _ => pure true)
    (onMatch [.desc] (fun _ => pure false) (pure true))
  pure { expr, ascending }

def parseOrderByList : Parse (List OrderByItemAST) := commaSeparated parseOrderByItem

def parseExprList : Parse (List ExprAST) := commaSeparated parseExpression

def readLimit (token : SqlToken) : Except String Nat :=
  if token.type = .number then
    match stoll token.text with
    | .error e => .error e
    | .ok v => if v < 0 then .error "LIMIT cannot be negative" else .ok v.toNat
  else .error "Expected numeric LIMIT value"

def parseLimitClause : Parse (Option Nat) :=
  optionally .limitKw (next readLimit "Expected numeric LIMIT value")

/-- `DISTINCT` sets the flag; otherwise `ALL` may stand there. -/
def parseDistinct : Parse Bool :=
  onMatch [.distinctKw] (fun _ => pure true) (onMatch [.allKw] (fun _ => pure false) (pure false))

def parseJoin : Parse (Option (TableRefAST × ExprAST)) :=
  optionally .join do
    let table ← parseTableRef
    let _ ← expect .onKw "Expected ON after JOIN target"
    let predicate ← parseExpression
    pure (table, predicate)

def parseGroupBy : Parse (Option (List ExprAST)) :=
  optionally .group do
    let _ ← expect .byKw "Expected BY after GROUP"
    parseExprList

/-- `ParseSelectCore`, as a statement without ORDER BY and LIMIT. -/
def parseSelectCore : Parse SelectStatementAST := do
  let distinct ← parseDistinct
  let selectItems ← parseSelectList
  let _ ← expect .fromKw "Expected FROM"
  let fromTable ← parseTableRef
  let join ← parseJoin
  let wherePredicate ← optionally .whereKw parseExpression
  let groupBy ← parseGroupBy
  pure {
    distinct, selectItems, fromTable, wherePredicate
    joinTable := join.map Prod.fst
    joinPredicate := join.map Prod.snd
    groupByExprs := groupBy.getD []
    orderByItems := []
    limit := none }

def setOperationTypes : List SqlTokenType := [.unionKw, .intersectKw, .exceptKw]

def setOperationOf : SqlTokenType → SetOperationType
  | .intersectKw => .intersectOp
  | .exceptKw => .exceptOp
  | _ => .unionOp

/-- `ALL` sets the flag; otherwise `DISTINCT` may stand there. -/
def parseAll : Parse Bool :=
  onMatch [.allKw] (fun _ => pure true) (onMatch [.distinctKw] (fun _ => pure false) (pure false))

abbrev SetTerms := List SelectStatementAST × List SetOperationAST

/-- One round of the loop of `ParseSelect`. -/
def parseSetTerm (operation : SqlToken) (terms : SetTerms) : Parse SetTerms := do
  let all ← parseAll
  let _ ← expect .select "Expected SELECT after set operation"
  let term ← parseSelectCore
  pure (terms.1 ++ [term], terms.2 ++ [⟨setOperationOf operation.type, all⟩])

def parseOrderBy : Parse (List OrderByItemAST) := do
  let items ← optionally .order do
    let _ ← expect .byKw "Expected BY after ORDER"
    parseOrderByList
  pure (items.getD [])

def selectStatement (terms : SetTerms) (first : SelectStatementAST)
    (orderByItems : List OrderByItemAST) (limit : Option Nat) : StatementAST :=
  if terms.2.isEmpty then .select { first with orderByItems, limit }
  else .compoundSelect terms.1 terms.2 orderByItems limit

/-- `ParseSelect`. Without a set operation the loop makes no round; the clauses after it are
the same. -/
def parseSelect : Parse StatementAST := do
  let first ← parseSelectCore
  let terms ← whileMatch SqlToken.type setOperationTypes parseSetTerm ([first], [])
  let orderByItems ← parseOrderBy
  let limit ← parseLimitClause
  let _ ← accept .semicolon
  pure (selectStatement terms first orderByItems limit)

def parseInsert : Parse StatementAST := do
  let _ ← expect .into "Expected INTO after INSERT"
  let tableName ← expect .identifier "Expected table name"
  let _ ← expect .values "Expected VALUES"
  let _ ← expect .lparen "Expected '(' before VALUES list"
  let values ← parseExprList
  let _ ← expect .rparen "Expected ')' after VALUES list"
  let _ ← accept .semicolon
  pure (.insert tableName values)

def parseAssignment : Parse Assignment := do
  let columnName ← expect .identifier "Expected column name in SET clause"
  let _ ← expect .eq "Expected '=' in SET clause"
  let valueExpr ← parseValueLiteral
  pure { columnName, valueExpr }

def parseUpdate : Parse StatementAST := do
  let tableName ← expect .identifier "Expected table name after UPDATE"
  let _ ← expect .setKw "Expected SET"
  let assignments ← commaSeparated parseAssignment
  let wherePredicate ← optionally .whereKw parseExpression
  let _ ← accept .semicolon
  pure (.update tableName assignments wherePredicate)

def parseDelete : Parse StatementAST := do
  let _ ← expect .fromKw "Expected FROM after DELETE"
  let tableName ← expect .identifier "Expected table name after DELETE FROM"
  let wherePredicate ← optionally .whereKw parseExpression
  let _ ← accept .semicolon
  pure (.delete tableName wherePredicate)

def readVarcharLen (token : SqlToken) : Except String Nat :=
  if token.type = .number then (stoul token.text).map (· % 2 ^ 32)
  else .error "Expected VARCHAR length"

/-- `ParseTypeName`, with the length it writes. -/
def parseTypeName : Parse (TypeId × Nat) :=
  onMatch [.booleanT] (fun _ => pure (.boolean, 0))
    (onMatch [.intT, .integerT] (fun _ => pure (.int32, 0))
      (onMatch [.bigintT] (fun _ => pure (.int64, 0))
        (onMatch [.doubleT] (fun _ => pure (.double, 0))
          (onMatch [.varcharT]
            (fun _ => do
              let _ ← expect .lparen "Expected '(' after VARCHAR"
              let length ← next readVarcharLen "Expected VARCHAR length"
              let _ ← expect .rparen "Expected ')' after VARCHAR length"
              pure (.varchar, length))
            (throw "Unsupported SQL type")))))

def parseColumnDef : Parse ColumnDefAST := do
  let name ← expect .identifier "Expected column name"
  let type ← parseTypeName
  let nullable ← onMatch [.notKw]
    (fun _ => do
      let _ ← expect .nullKw "Expected NULL after NOT"
      pure false)
    (pure true)
  pure { name, type := type.1, nullable, varcharLen := type.2 }

def parseColumnDefs : Parse (List ColumnDefAST) := commaSeparated parseColumnDef

def parseCreateTable : Parse StatementAST := do
  let _ ← expect .table "Expected TABLE after CREATE"
  let tableName ← expect .identifier "Expected table name"
  let _ ← expect .lparen "Expected '(' after table name"
  let columns ← parseColumnDefs
  let _ ← expect .rparen "Expected ')' after column definitions"
  let _ ← accept .semicolon
  pure (.createTable tableName columns)

def parseCreateIndex : Parse StatementAST := do
  let unique ← accept .unique
  let _ ← expect .index "Expected INDEX"
  let indexName ← expect .identifier "Expected index name"
  let _ ← expect .onKw "Expected ON after index name"
  let tableName ← expect .identifier "Expected table name"
  let _ ← expect .lparen "Expected '(' before index column list"
  let columnNames ← commaSeparated (expect .identifier "Expected index column")
  let _ ← expect .rparen "Expected ')' after index columns"
  let _ ← accept .semicolon
  pure (.createIndex { unique, indexName, tableName, columnNames })

def parseCreate : Parse StatementAST :=
  ifPeek SqlToken.type [.table] parseCreateTable
    (ifPeek SqlToken.type [.unique, .index] parseCreateIndex
      (throw "Expected TABLE or INDEX after CREATE"))

/-- The body of `ParseStatement`, over the call that `ParseExplain` makes. -/
def statementBody (statement : Parse StatementAST) : Parse StatementAST :=
  onMatch [.explainKw]
    (fun _ => do
      let inner ← statement
      pure (.explain inner))
    (onMatch [.create] (fun _ => parseCreate)
      (onMatch [.insert] (fun _ => parseInsert)
        (onMatch [.select] (fun _ => parseSelect)
          (onMatch [.update] (fun _ => parseUpdate)
            (onMatch [.deleteKw] (fun _ => parseDelete)
              (throw "Unsupported SQL statement"))))))

def statementFuel : Nat → Parse StatementAST
  | 0 => throw "Unsupported SQL statement"
  | fuel + 1 => statementBody (statementFuel fuel)

def parseStatement : Parse StatementAST := fun ts => statementFuel (ts.length + 1) ts

/-- `ExecuteSql` from its tokens on: bind and execute whatever `ParseStatement` returns. -/
def executeSql {Result : Type} (execute : StatementAST → Except String Result)
    (tokens : List SqlToken) : Except String Result := do
  let parsed ← parseStatement tokens
  execute parsed.1

end GraniteDb.Sql.Parser
