/- Expressions written with no needless parentheses, and read back. -/

import GraniteDb.Sql.ExpressionReading
import Mathlib.Data.List.TakeWhile

namespace GraniteDb.Sql.ExpressionPrinting

open Common.Value Execution.Expressions Sql.SelectAst Sql.Parser Sql.Grammar Sql.ExpressionReading

/-- The expressions. The integers are those that a literal can hold, and an empty qualifier is
none. -/
inductive Tree
  | column (qualifier name : String)
  | integer (n : Fin (2 ^ 63))
  | string (text : String)
  | boolean (b : Bool)
  | null
  | aggregateStar (type : AggregateType) (name : String)
  | aggregate (type : AggregateType) (name : String) (arg : Tree)
  | comparison (type : ComparisonType) (left right : Tree)
  | and (left right : Tree)
  | or (left right : Tree)
  deriving DecidableEq

/-- The smaller type of the two integer types that hold the number. -/
def integerValue (n : Nat) : Value :=
  if n < 2 ^ 31 then .int32 (BitVec.ofNat 32 n) else .int64 (BitVec.ofNat 64 n)

/-- The nodes of `ast.h`. -/
def Tree.ast : Tree → ExprAST
  | .column qualifier name => .columnRef qualifier name
  | .integer n => .literal (integerValue n)
  | .string text => .literal (.varchar text.toUTF8.toList)
  | .boolean b => .literal (.boolean b)
  | .null => .literal (.null .invalid)
  | .aggregateStar type name => .functionStar type name
  | .aggregate type name arg => .functionCall type name arg.ast
  | .comparison type left right => .binary (.compare type) left.ast right.ast
  | .and left right => .binary .and left.ast right.ast
  | .or left right => .binary .or left.ast right.ast

def opening : SqlToken := ⟨.lparen, "("⟩

def closing : SqlToken := ⟨.rparen, ")"⟩

def comparisonToken : ComparisonType → SqlToken
  | .eq => ⟨.eq, "="⟩
  | .neq => ⟨.neq, "!="⟩
  | .lt => ⟨.lt, "<"⟩
  | .lte => ⟨.lte, "<="⟩
  | .gt => ⟨.gt, ">"⟩
  | .gte => ⟨.gte, ">="⟩

def aggregateType : AggregateType → SqlTokenType
  | .count => .count
  | .sum => .sum
  | .min => .min
  | .max => .max

def rank : Level → Nat
  | .primary => 0
  | .comparison => 1
  | .conjunction => 2
  | .disjunction => 3

def Tree.level : Tree → Level
  | .comparison .. => .comparison
  | .and .. => .conjunction
  | .or .. => .disjunction
  | _ => .primary

/-- Parentheses, where an operand of its level is not allowed without. -/
def enclose (own allowed : Level) (w : List SqlToken) : List SqlToken :=
  if rank own ≤ rank allowed then w else opening :: (w ++ [closing])

/-- A tree as tokens. The right operand of `AND` and `OR` stands one level below the left one. -/
def Tree.print : Tree → List SqlToken
  | .column qualifier name =>
    if qualifier = "" then [⟨.identifier, name⟩]
    else [⟨.identifier, qualifier⟩, ⟨.dot, "."⟩, ⟨.identifier, name⟩]
  | .integer n => [⟨.number, Nat.repr n⟩]
  | .string text => [⟨.string, text⟩]
  | .boolean b => if b then [⟨.trueKw, "TRUE"⟩] else [⟨.falseKw, "FALSE"⟩]
  | .null => [⟨.nullKw, "NULL"⟩]
  | .aggregateStar type name => [⟨aggregateType type, name⟩, opening, ⟨.star, "*"⟩, closing]
  | .aggregate type name arg =>
    ⟨aggregateType type, name⟩ :: opening :: (enclose arg.level .primary arg.print ++ [closing])
  | .comparison type left right =>
    enclose left.level .primary left.print ++
      comparisonToken type :: enclose right.level .primary right.print
  | .and left right =>
    enclose left.level .conjunction left.print ++
      ⟨.andKw, "AND"⟩ :: enclose right.level .comparison right.print
  | .or left right =>
    enclose left.level .disjunction left.print ++
      ⟨.orKw, "OR"⟩ :: enclose right.level .conjunction right.print

theorem digitsValue_repr (n : Nat) : digitsValue (Nat.repr n).toList = n := by
  rw [Nat.toList_repr, digitsValue, ← Nat.ofDigitChars_eq_foldl]
  exact Nat.ofDigitChars_ten_toDigits

theorem digit_char {c : Char} (digit : c.isDigit = true) :
    c.isWhitespace = false ∧ c ≠ '-' ∧ c ≠ '+' ∧ c ≠ '.' := by
  refine ⟨?_, ?_, ?_, ?_⟩
  · by_contra blank
    rw [Bool.not_eq_false] at blank
    simp only [Char.isWhitespace, Bool.or_eq_true, decide_eq_true_eq] at blank
    rcases blank with ((rfl | rfl) | rfl) | rfl
    all_goals exact absurd digit (by decide)
  all_goals
    rintro rfl
    exact absurd digit (by decide)

theorem digits_repr (n : Nat) : ∀ c ∈ (Nat.repr n).toList, c.isDigit = true := by
  intro c member
  rw [Nat.toList_repr] at member
  exact Nat.isDigit_of_mem_toDigits (by decide) (by decide) member

theorem integerPrefix_repr (n : Nat) : integerPrefix (Nat.repr n) = some (false, n) := by
  have value := digitsValue_repr n
  have digits := digits_repr n
  have nonempty : (Nat.repr n).toList ≠ [] := by
    rw [Nat.toList_repr]
    exact Nat.toDigits_ne_nil
  unfold integerPrefix
  generalize (Nat.repr n).toList = cs at value digits nonempty
  cases cs with
  | nil => exact absurd rfl nonempty
  | cons c rest =>
    obtain ⟨notBlank, notMinus, notPlus, -⟩ := digit_char (digits c List.mem_cons_self)
    have trimmed : (c :: rest).dropWhile Char.isWhitespace = c :: rest :=
      List.dropWhile_cons_of_neg (by simp [notBlank])
    have taken : (c :: rest).takeWhile Char.isDigit = c :: rest :=
      List.takeWhile_eq_self_iff.mpr digits
    simp [trimmed, taken, value, notMinus, notPlus]

theorem readLiteral_repr {n : Nat} (small : n < 2 ^ 63) :
    readLiteral ⟨.number, Nat.repr n⟩ = .ok (.literal (integerValue n)) := by
  have noPoint : '.' ∉ (Nat.repr n).toList :=
    fun member => (digit_char (digits_repr n '.' member)).2.2.2 rfl
  have read : stoll (Nat.repr n) = .ok (n : Int) := by
    unfold stoll
    rw [integerPrefix_repr]
    exact if_pos ⟨by omega, by omega⟩
  unfold readLiteral
  simp only [noPoint, if_false, read]
  unfold integerValue
  by_cases fits : n < 2 ^ 31
  · have inRange : -2 ^ 31 ≤ (n : Int) ∧ (n : Int) < 2 ^ 31 := by omega
    rw [if_pos fits, ← BitVec.ofInt_natCast]
    exact congrArg Except.ok (if_pos inRange)
  · have outOfRange : ¬(-2 ^ 31 ≤ (n : Int) ∧ (n : Int) < 2 ^ 31) := by omega
    rw [if_neg fits, ← BitVec.ofInt_natCast]
    exact congrArg Except.ok (if_neg outOfRange)

theorem lift {own allowed : Level} {w : List SqlToken} {e : ExprAST}
    (below : rank own ≤ rank allowed) (word : Expression own w e) : Expression allowed w e := by
  have raise : ∀ l, Expression .primary w e → Expression l w e := by
    intro l word
    cases l with
    | primary => exact word
    | comparison => exact .operand word
    | conjunction => exact .conjunct (.operand word)
    | disjunction => exact .disjunct (.conjunct (.operand word))
  cases own with
  | primary => exact raise allowed word
  | comparison =>
    cases allowed with
    | primary => exact absurd below (by decide)
    | comparison => exact word
    | conjunction => exact .conjunct word
    | disjunction => exact .disjunct (.conjunct word)
  | conjunction =>
    cases allowed with
    | primary | comparison => exact absurd below (by decide)
    | conjunction => exact word
    | disjunction => exact .disjunct word
  | disjunction =>
    cases allowed with
    | primary | comparison | conjunction => exact absurd below (by decide)
    | disjunction => exact word

theorem enclose_word {own : Level} (allowed : Level) {w : List SqlToken} {e : ExprAST}
    (word : Expression own w e) : Expression allowed (enclose own allowed w) e := by
  unfold enclose
  split
  · rename_i below
    exact lift below word
  · have whole : Expression .disjunction w e := lift (by cases own <;> decide) word
    exact lift (by cases allowed <;> decide) (.parenthesised rfl whole rfl)

theorem comparisonOf_token (type : ComparisonType) :
    (comparisonToken type).type ∈ comparisonTypes ∧
      comparisonOf (comparisonToken type).type = type := by
  cases type <;> decide

theorem aggregateOf_type (type : AggregateType) :
    aggregateType type ∈ aggregateTypes ∧ aggregateOf (aggregateType type) = type := by
  cases type <;> decide

theorem print_word (tree : Tree) : Expression tree.level tree.print tree.ast := by
  induction tree with
  | column qualifier name =>
    unfold Tree.print
    split
    · rename_i none
      rw [none]
      exact .column (t := ⟨.identifier, name⟩) rfl
    · exact .qualified (q := ⟨.identifier, qualifier⟩) (c := ⟨.identifier, name⟩) rfl rfl rfl
  | integer n => exact .literal (readLiteral_repr n.isLt)
  | string text => exact .literal rfl
  | boolean b =>
    cases b with
    | true => exact .literal rfl
    | false => exact .literal rfl
  | null => exact .literal rfl
  | aggregateStar type name =>
    obtain ⟨isAggregate, same⟩ := aggregateOf_type type
    have word := Expression.aggregateStar (f := ⟨aggregateType type, name⟩) (o := opening)
      (s := ⟨.star, "*"⟩) (c := closing) isAggregate rfl rfl rfl
    rw [same] at word
    exact word
  | aggregate type name arg ih =>
    obtain ⟨isAggregate, same⟩ := aggregateOf_type type
    have word := Expression.aggregate (f := ⟨aggregateType type, name⟩) (o := opening)
      (c := closing) isAggregate rfl (enclose_word .primary ih) rfl
    rw [same] at word
    exact word
  | comparison type left right ihL ihR =>
    obtain ⟨isComparison, same⟩ := comparisonOf_token type
    have word := Expression.comparison (enclose_word .primary ihL) isComparison
      (enclose_word .primary ihR)
    rw [same] at word
    exact word
  | and left right ihL ihR =>
    exact .conjunction (enclose_word .conjunction ihL) rfl (enclose_word .comparison ihR)
  | or left right ihL ihR =>
    exact .disjunction (enclose_word .disjunction ihL) rfl (enclose_word .conjunction ihR)

theorem print_expression (tree : Tree) : expression tree.print tree.ast :=
  lift (by cases tree.level <;> decide) (print_word tree)

/-- `ParseExpression` reads every tree back from what is written, and leaves what follows. -/
theorem parseExpression_print (tree : Tree) {t : SqlToken} (rest : List SqlToken)
    (stops : t.type ∉ .andKw :: .orKw :: .dot :: comparisonTypes) :
    parseExpression (tree.print ++ t :: rest) = .ok (tree.ast, t :: rest) := by
  have apart : t.type ∉ expressionShape.continues := by
    intro member
    apply stops
    simp only [expressionShape, conjunctionShape, comparisonShape, List.mem_cons] at member ⊢
    tauto
  exact (reads_expression.stops (print_expression tree) apart) rest (Nat.lt_succ_self _)

/-- `(a OR t.b) AND COUNT(*) < 5 AND 'x' = (1 = 2)`, before the end of the input. -/
def nested : Tree :=
  .and (.and (.or (.column "" "a") (.column "t" "b"))
    (.comparison .lt (.aggregateStar .count "count") (.integer 5)))
    (.comparison .eq (.string "x") (.comparison .eq (.integer 1) (.integer 2)))

theorem parseExpression_print_nested :
    parseExpression (nested.print ++ [⟨.endToken, ""⟩]) = .ok (nested.ast, [⟨.endToken, ""⟩]) :=
  parseExpression_print nested [] (by decide)

end GraniteDb.Sql.ExpressionPrinting
