/- The syntax tree of a SELECT, as the parser builds it. -/

import GraniteDb.Execution.Expressions

namespace GraniteDb.Sql.SelectAst

open Common.Value Execution.Expressions

/-- The operators of a `BinaryExprAST`; the parser writes no others. -/
inductive BinaryOp
  | and
  | or
  | compare (type : ComparisonType)
  deriving DecidableEq

inductive AggregateType
  | count
  | sum
  | min
  | max
  deriving DecidableEq

/-- `ExprAST`. A function call is an aggregate, with its name as it was written. -/
inductive ExprAST
  | literal (value : Value)
  | columnRef (qualifier columnName : String)
  | binary (op : BinaryOp) (left right : ExprAST)
  | functionStar (type : AggregateType) (name : String)
  | functionCall (type : AggregateType) (name : String) (arg : ExprAST)
  deriving DecidableEq

inductive SelectItemAST
  | star
  | item (expr : ExprAST) (aliasName : String)
  deriving DecidableEq

structure OrderByItemAST where
  expr : ExprAST
  ascending : Bool
  deriving DecidableEq

structure TableRefAST where
  tableName : String
  aliasName : String
  deriving DecidableEq

structure SelectStatementAST where
  distinct : Bool
  selectItems : List SelectItemAST
  fromTable : TableRefAST
  joinTable : Option TableRefAST
  joinPredicate : Option ExprAST
  wherePredicate : Option ExprAST
  groupByExprs : List ExprAST
  orderByItems : List OrderByItemAST
  limit : Option Nat
  deriving DecidableEq

end GraniteDb.Sql.SelectAst
