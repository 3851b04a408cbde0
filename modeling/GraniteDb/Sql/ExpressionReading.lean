/- The parser reads exactly the expressions, each to where it ends. -/

import GraniteDb.Sql.Grammar

namespace GraniteDb.Sql.ExpressionReading

open Lib.Descent Lib.Descent.Recognizes Sql.SelectAst Sql.Parser Sql.Grammar

abbrev Reads {α : Type} (bound : Nat) (p : Parse α) (X : SqlGrammar α) (s : Shape SqlTokenType) :
    Prop :=
  Recognizes bound SqlToken.type .endToken p X s

theorem type_onto : Function.Surjective SqlToken.type := fun type => ⟨⟨type, ""⟩, rfl⟩

section Tools

variable {α : Type} {bound : Nat} {p : Parse α} {X : SqlGrammar α} {s : Shape SqlTokenType}

theorem reads_expect (type : SqlTokenType) (message : String) (proper : .endToken ≠ type) :
    Reads bound (expect type message) (word type) (.one [type]) := by
  refine .token message (fun t text => ?_) (.token (fun t text => ?_) ?_ (by simpa using proper))
  · by_cases h : t.type = type <;> simp [h, eq_comm]
  · rintro ⟨same, -⟩
    simp [same]
  · exact ⟨⟨type, ""⟩, "", rfl, rfl⟩

theorem reads_onMatch {types : List SqlTokenType} {p : SqlToken → Parse α} {q : Parse α}
    {X : SqlToken → SqlGrammar α} {Y : SqlGrammar α} {r : Shape SqlTokenType}
    (proper : .endToken ∉ types) (left : ∀ t, Reads bound (p t) (X t) s)
    (right : Reads bound q Y r) (apart : ∀ k ∈ types, k ∉ r.first)
    (live : r.empty = true → s.live = true) :
    Reads bound (onMatch types p q) (led types X Y) (.choice types s r) :=
  .choice type_onto proper (fun t _ => left t) right apart live

theorem reads_onMatch_succ {types : List SqlTokenType} {p : SqlToken → Parse α} {q : Parse α}
    {X : SqlToken → SqlGrammar α} {Y : SqlGrammar α} {r : Shape SqlTokenType}
    (proper : .endToken ∉ types) (left : ∀ t, Reads bound (p t) (X t) s)
    (right : Reads (bound + 1) q Y r) (apart : ∀ k ∈ types, k ∉ r.first)
    (live : r.empty = true → s.live = true) :
    Reads (bound + 1) (onMatch types p q) (led types X Y) (.choice types s r) :=
  .choice_succ type_onto proper (fun t _ => left t) right apart live

theorem reads_accept (type : SqlTokenType) (proper : .endToken ≠ type) :
    Reads bound (accept type) (mark type) ⟨[type], [type], true, true⟩ :=
  reads_onMatch (by simpa using proper) (fun _ => .unit true) (.unit false) (by simp [Shape.unit])
    (fun _ => rfl)

theorem reads_optionally (type : SqlTokenType) (proper : .endToken ≠ type) (live : s.live = true)
    (reads : Reads bound p X s) :
    Reads bound (optionally type p) (clause type X) ⟨[type], s.continues ++ [type], true, true⟩ := by
  refine (reads_onMatch (by simpa using proper) (fun _ => reads.map some) (.unit none)
    (by simp [Shape.unit]) (fun _ => live)).weaken ?_ ?_ rfl ?_
  · simp [Shape.choice, Shape.unit]
  · simp [Shape.choice, Shape.unit]
  · simp [Shape.choice, Shape.unit]

theorem reads_commaSeparated (opens : s.empty = false) (live : s.live = true)
    (apart : .comma ∉ s.continues) (reads : Reads bound p X s) :
    Reads bound (commaSeparated p) (listOf X)
      ⟨s.first, s.continues ++ [.comma], false, true⟩ := by
  have loop (first : List α) : Reads bound
      (whileMatch SqlToken.type [.comma] (fun _ items => do let a ← p; pure (items ++ [a])) first)
      (Grammar.rounds SqlToken.type [.comma] (fun _ items => do let a ← X; pure (items ++ [a]))
        first)
      (loopShape [.comma] s) :=
    .whileMatch type_onto (by simp) live (by simpa using apart)
      (fun _ items _ => reads.map fun a => items ++ [a]) first
  refine (reads.bind (fun a => loop [a]) ?_).weaken ?_ ?_ ?_ ?_
  · simpa [loopShape] using apart
  · simp [Shape.seq, opens]
  · simp [Shape.seq, loopShape]
  · simp [Shape.seq, opens]
  · simp [Shape.seq, loopShape, live]

end Tools

section Expressions

def literalTypes : List SqlTokenType := [.trueKw, .falseKw, .nullKw, .string, .number]

def expressionTypes : List SqlTokenType := .lparen :: aggregateTypes ++ .identifier :: literalTypes

def primaryShape : Shape SqlTokenType := ⟨expressionTypes, [.dot], false, true⟩

def comparisonShape : Shape SqlTokenType :=
  ⟨expressionTypes, .dot :: comparisonTypes, false, true⟩

def conjunctionShape : Shape SqlTokenType :=
  ⟨expressionTypes, .andKw :: comparisonShape.continues, false, true⟩

def expressionShape : Shape SqlTokenType :=
  ⟨expressionTypes, .orKw :: conjunctionShape.continues, false, true⟩

variable {e : ExprAST}

theorem literal_type {t : SqlToken} (reads : readLiteral t = .ok e) : t.type ∈ literalTypes := by
  unfold readLiteral at reads
  split at reads <;> simp_all [literalTypes]

theorem expression_opens {level : Level} {w : List SqlToken} (word : Expression level w e) :
    ∃ t v, w = t :: v ∧ t.type ∈ expressionTypes := by
  induction word with
  | literal reads => exact ⟨_, _, rfl, by simp [expressionTypes, literal_type reads]⟩
  | column name => exact ⟨_, _, rfl, by simp [expressionTypes, name]⟩
  | qualified table _ _ => exact ⟨_, _, rfl, by simp [expressionTypes, table]⟩
  | parenthesised opening _ _ => exact ⟨_, _, rfl, by simp [expressionTypes, opening]⟩
  | aggregateStar func _ _ _ => exact ⟨_, _, rfl, by simp [expressionTypes, func]⟩
  | aggregate func _ _ _ => exact ⟨_, _, rfl, by simp [expressionTypes, func]⟩
  | operand _ ih => exact ih
  | conjunct _ ih => exact ih
  | disjunct _ ih => exact ih
  | comparison _ _ _ ih _ =>
    obtain ⟨t, v, rfl, opens⟩ := ih
    exact ⟨t, _, rfl, opens⟩
  | conjunction _ _ _ ih _ =>
    obtain ⟨t, v, rfl, opens⟩ := ih
    exact ⟨t, _, rfl, opens⟩
  | disjunction _ _ _ ih _ =>
    obtain ⟨t, v, rfl, opens⟩ := ih
    exact ⟨t, _, rfl, opens⟩

theorem ne_end {t : SqlToken} {types : List SqlTokenType} (member : t.type ∈ types)
    (proper : .endToken ∉ types) : t.type ≠ .endToken := by
  intro same
  exact proper (same ▸ member)

theorem expression_proper {level : Level} {w : List SqlToken} (word : Expression level w e) :
    ∀ t ∈ w, t.type ≠ .endToken := by
  induction word with
  | literal reads => simpa using ne_end (literal_type reads) (by decide)
  | column name => simp [name]
  | qualified table dot name => simp [table, dot, name]
  | parenthesised opening _ closing ih => simpa [opening, closing, or_imp, forall_and] using ih
  | aggregateStar func opening star closing =>
    simpa [opening, star, closing] using ne_end func (by decide)
  | aggregate func opening _ closing ih =>
    have proper := ne_end func (by decide)
    simpa [opening, closing, or_imp, forall_and, proper] using ih
  | operand _ ih => exact ih
  | conjunct _ ih => exact ih
  | disjunct _ ih => exact ih
  | comparison _ op _ ihl ihr =>
    have proper := ne_end op (by decide)
    simpa [or_imp, forall_and, proper] using And.intro ihl ihr
  | conjunction _ op _ ihl ihr =>
    simpa [or_imp, forall_and, op] using And.intro ihl ihr
  | disjunction _ op _ ihl ihr =>
    simpa [or_imp, forall_and, op] using And.intro ihl ihr

theorem level_shape {l : Level} (continues : List SqlTokenType)
    (base : ∀ w e, Expression .primary w e → Expression l w e) :
    HasShape SqlToken.type .endToken (level l) ⟨expressionTypes, continues, false, true⟩ where
  first t w e word := by
    obtain ⟨t', v, same, opens⟩ := expression_opens word
    obtain ⟨rfl, -⟩ := List.cons.inj same
    exact opens
  empty := by
    simp only [Bool.false_eq_true, iff_false, not_exists]
    intro e word
    obtain ⟨t, v, same, -⟩ := expression_opens word
    cases same
  live _ := ⟨[⟨.nullKw, ""⟩], _, base _ _ (.literal rfl)⟩
  proper w e word := expression_proper word

theorem comparison_eq : level .comparison = (do
    let left ← primary
    led comparisonTypes
      (fun t => do
        let right ← primary
        pure (.binary (.compare (comparisonOf t.type)) left right))
      (pure left)) := by
  ext w e
  constructor
  · intro word
    cases word with
    | operand only => exact ⟨w, e, [], by simp, only, .inr ⟨rfl, rfl⟩⟩
    | @comparison u v t l r left op right =>
      exact ⟨u, l, t :: v, rfl, left, .inl ⟨t, v, rfl, op, v, r, [], by simp, right, rfl, rfl⟩⟩
  · rintro ⟨u, l, v, rfl, left, ⟨t, v, rfl, op, v, r, _, rfl, right, rfl, rfl⟩ | ⟨rfl, rfl⟩⟩
    · simpa [level] using Expression.comparison left op right
    · simpa [level] using Expression.operand left

def joined (type : SqlTokenType) (op : BinaryOp) (lower : SqlGrammar ExprAST) : SqlGrammar ExprAST := do
  let left ← lower
  Grammar.rounds SqlToken.type [type]
    (fun _ left => do
      let right ← lower
      pure (.binary op left right))
    left

theorem joined_eq {upper lower : Level} {type : SqlTokenType} {op : BinaryOp}
    (single : ∀ w e, Expression lower w e → Expression upper w e)
    (more : ∀ u v (t : SqlToken) l r, Expression upper u l → t.type = type → Expression lower v r →
      Expression upper (u ++ t :: v) (.binary op l r))
    (split : ∀ w e, Expression upper w e → Expression lower w e ∨
      ∃ u v, ∃ t : SqlToken, ∃ l r, w = u ++ t :: v ∧ e = .binary op l r ∧ Expression upper u l ∧
        t.type = type ∧ Expression lower v r) :
    level upper = joined type op (level lower) := by
  ext w e
  constructor
  · intro word
    induction h : w.length using Nat.strong_induction_on generalizing w e with
    | _ n ih =>
      rcases split w e word with only | ⟨u, v, t, l, r, rfl, rfl, left, typed, right⟩
      · exact ⟨w, e, [], by simp, only, .done e⟩
      · have shorter : u.length < n := by
          rw [← h]
          simp
        obtain ⟨u₁, l₁, v₁, rfl, first, rounds⟩ := ih u.length shorter u l left rfl
        refine ⟨u₁, l₁, v₁ ++ t :: v, by simp, first, rounds.snoc (by simp [typed]) ?_⟩
        exact ⟨v, r, [], by simp, right, rfl, rfl⟩
  · rintro ⟨u, l, v, rfl, left, rounds⟩
    have start : Expression upper u l := single u l left
    clear left
    induction rounds generalizing u with
    | done => simpa [level] using start
    | @again t a b c v₁ v₂ opens round _ ih =>
      obtain ⟨v₁, r, _, rfl, right, rfl, rfl⟩ := round
      have longer := more u v₁ t _ r start (List.mem_singleton.mp opens) right
      simpa using ih (u ++ t :: v₁) longer

theorem conjunction_eq : level .conjunction = joined .andKw .and (level .comparison) := by
  refine joined_eq (fun w e => .conjunct) (fun u v t l r => .conjunction) ?_
  intro w e word
  cases word with
  | conjunct only => exact .inl only
  | conjunction left op right => exact .inr ⟨_, _, _, _, _, rfl, rfl, left, op, right⟩

theorem expression_eq : expression = joined .orKw .or (level .conjunction) := by
  refine joined_eq (fun w e => .disjunct) (fun u v t l r => .disjunction) ?_
  intro w e word
  cases word with
  | disjunct only => exact .inl only
  | disjunction left op right => exact .inr ⟨_, _, _, _, _, rfl, rfl, left, op, right⟩

/-- `ParsePrimary`'s aggregate call after the function's name. -/
def aggregateCall (func : SqlToken) : SqlGrammar ExprAST := do
  let _ ← word .lparen
  let call ← led [.star]
    (fun _ => pure (.functionStar (aggregateOf func.type) func.text))
    (do
      let arg ← primary
      pure (.functionCall (aggregateOf func.type) func.text arg))
  let _ ← word .rparen
  pure call

def columnRef (first : SqlToken) : SqlGrammar ExprAST :=
  led [.dot]
    (fun _ => do
      let second ← word .identifier
      pure (.columnRef first.text second))
    (pure (.columnRef "" first.text))

def literal : SqlGrammar ExprAST := Grammar.token fun t e => readLiteral t = .ok e

def parenthesised : SqlGrammar ExprAST := do
  let expr ← expression
  let _ ← word .rparen
  pure expr

theorem primary_eq : primary = led [.lparen] (fun _ => parenthesised)
    (led aggregateTypes aggregateCall (led [.identifier] columnRef literal)) := by
  ext w e
  constructor
  · intro phrase
    cases phrase with
    | literal reads => exact .inr (.inr (.inr ⟨_, rfl, reads⟩))
    | column name => exact .inr (.inr (.inl ⟨_, [], rfl, by simp [name], .inr ⟨rfl, rfl⟩⟩))
    | @qualified q d c table dot name =>
      refine .inr (.inr (.inl ⟨q, _, rfl, by simp [table], .inl ⟨d, _, rfl, by simp [dot], ?_⟩⟩))
      exact ⟨[c], c.text, [], rfl, ⟨c, rfl, name, rfl⟩, rfl, rfl⟩
    | @parenthesised o c w e opening inner closing =>
      refine .inl ⟨o, _, rfl, by simp [opening], w, e, [c], rfl, inner, ?_⟩
      exact ⟨[c], c.text, [], rfl, ⟨c, rfl, closing, rfl⟩, rfl, rfl⟩
    | @aggregateStar f o s c func opening star closing =>
      refine .inr (.inl ⟨f, _, rfl, func, [o], o.text, [s, c], rfl, ⟨o, rfl, opening, rfl⟩, ?_⟩)
      refine ⟨[s], _, [c], rfl, .inl ⟨s, [], rfl, by simp [star], rfl, rfl⟩, ?_⟩
      exact ⟨[c], c.text, [], rfl, ⟨c, rfl, closing, rfl⟩, rfl, rfl⟩
    | @aggregate f o c w e func opening arg closing =>
      refine .inr (.inl ⟨f, _, rfl, func, [o], o.text, w ++ [c], rfl, ⟨o, rfl, opening, rfl⟩, ?_⟩)
      refine ⟨w, _, [c], rfl, .inr ⟨w, e, [], by simp, arg, rfl, rfl⟩, ?_⟩
      exact ⟨[c], c.text, [], rfl, ⟨c, rfl, closing, rfl⟩, rfl, rfl⟩
  · rintro (⟨o, _, rfl, opening, body⟩ | ⟨f, _, rfl, func, body⟩ | ⟨q, _, rfl, table, body⟩ |
      ⟨t, rfl, reads⟩)
    · obtain ⟨v, e', _, rfl, inner, _, _, _, rfl, ⟨c, rfl, closing, rfl⟩, rfl, rfl⟩ := body
      exact .parenthesised (by simpa using opening) inner closing
    · obtain ⟨_, _, _, rfl, ⟨o, rfl, opening, rfl⟩, u, call, _, rfl, inner, _, _, _, rfl,
        ⟨c, rfl, closing, rfl⟩, rfl, rfl⟩ := body
      rcases inner with ⟨s, _, rfl, star, rfl, rfl⟩ | ⟨v, e', _, rfl, arg, rfl, rfl⟩
      · exact .aggregateStar func opening (by simpa using star) closing
      · simpa [primary, level] using Expression.aggregate func opening arg closing
    · rcases body with ⟨d, _, rfl, dot, _, _, _, rfl, ⟨c, rfl, name, rfl⟩, rfl, rfl⟩ | ⟨rfl, rfl⟩
      · exact .qualified (by simpa using table) (by simpa using dot) name
      · exact .column (by simpa using table)
    · exact .literal reads

variable {bound : Nat} {p : Parse ExprAST}

theorem reads_comparison (reads : Reads bound p primary primaryShape) :
    Reads bound (parseComparison p) (level .comparison) comparisonShape := by
  rw [comparison_eq]
  exact (reads.bind (fun left => reads_onMatch (by decide)
    (fun t => reads.map (ExprAST.binary (.compare (comparisonOf t.type)) left)) (.unit left)
    (by decide) (by decide)) (by decide)).weaken (by decide) (by decide) rfl (by decide)

theorem reads_joined {operand : Parse ExprAST} {lower : SqlGrammar ExprAST}
    {s : Shape SqlTokenType} {type : SqlTokenType} (op : BinaryOp) (proper : .endToken ≠ type)
    (live : s.live = true) (opens : s.empty = false) (apart : type ∉ s.continues)
    (reads : Reads bound operand lower s) :
    Reads bound
      (do
        let left ← operand
        whileMatch SqlToken.type [type]
          (fun _ left => do
            let right ← operand
            pure (.binary op left right))
          left)
      (joined type op lower) ⟨s.first, type :: s.continues, false, true⟩ := by
  have loop (left : ExprAST) : Reads bound
      (whileMatch SqlToken.type [type]
        (fun _ left => do let right ← operand; pure (.binary op left right)) left)
      (Grammar.rounds SqlToken.type [type]
        (fun _ left => do let right ← lower; pure (.binary op left right)) left)
      (loopShape [type] s) :=
    .whileMatch type_onto (by simpa using proper) live (by simpa using apart)
      (fun _ left _ => reads.map (ExprAST.binary op left)) left
  refine (reads.bind loop (by simpa [loopShape] using apart)).weaken ?_ ?_ ?_ ?_
  · simp [Shape.seq, opens]
  · intro k
    simp only [Shape.seq, loopShape, if_true, List.mem_append, List.mem_cons]
    tauto
  · simp [Shape.seq, opens]
  · simp [Shape.seq, loopShape, live]

theorem reads_and (reads : Reads bound p primary primaryShape) :
    Reads bound (parseAnd p) (level .conjunction) conjunctionShape := by
  rw [conjunction_eq]
  exact reads_joined .and (by decide) rfl rfl (by decide) (reads_comparison reads)

theorem reads_or (reads : Reads bound p primary primaryShape) :
    Reads bound (parseOr p) expression expressionShape := by
  rw [expression_eq]
  exact reads_joined .or (by decide) rfl rfl (by decide) (reads_and reads)

theorem reads_literal : Reads bound parseValueLiteral literal (.one literalTypes) :=
  .token _ (fun _ _ => Iff.rfl)
    (.token (fun _ _ => literal_type) ⟨⟨.nullKw, ""⟩, _, rfl⟩ (by decide))

theorem reads_columnRef (first : SqlToken) :
    Reads bound (parseColumnRef first) (columnRef first) ⟨[.dot], [.dot], true, true⟩ :=
  (reads_onMatch (by decide)
    (fun _ => (reads_expect .identifier _ (by decide)).map (ExprAST.columnRef first.text))
    (.unit _) (by decide) (by decide)).weaken (by decide) (by decide) rfl (by decide)

section

variable (reads : Reads bound p primary primaryShape)

include reads

theorem reads_argument (func : SqlToken) :
    Reads bound
      (onMatch [.star] (fun _ => pure (ExprAST.functionStar (aggregateOf func.type) func.text))
        (do
          let arg ← p
          pure (ExprAST.functionCall (aggregateOf func.type) func.text arg)))
      (led [.star] (fun _ => pure (ExprAST.functionStar (aggregateOf func.type) func.text))
        (do
          let arg ← primary
          pure (ExprAST.functionCall (aggregateOf func.type) func.text arg)))
      (.choice [.star] .unit primaryShape) :=
  reads_onMatch (by decide) (fun _ => .unit _)
    (reads.map (ExprAST.functionCall (aggregateOf func.type) func.text)) (by decide) (by decide)

theorem reads_aggregate (func : SqlToken) :
    Reads bound (parseAggregate p func) (aggregateCall func) (.one [.lparen]) :=
  ((reads_expect .lparen _ (by decide)).bind
    (fun _ => (reads_argument reads func).bind
      (fun _ => (reads_expect .rparen _ (by decide)).bind (fun _ => .unit _) (by decide))
      (by decide))
    (by decide)).weaken (by decide) (by decide) rfl (by decide)

theorem reads_parenthesised :
    Reads bound
      (do
        let expr ← parseOr p
        let _ ← expect .rparen "Expected ')'"
        pure expr)
      parenthesised ⟨expressionTypes, [], false, true⟩ :=
  ((reads_or reads).bind (fun _ => (reads_expect .rparen _ (by decide)).bind
    (fun _ => .unit _) (by decide)) (by decide)).weaken (by decide) (by decide) rfl (by decide)

end

theorem primary_shape : HasShape SqlToken.type .endToken primary primaryShape :=
  level_shape _ fun _ _ word => word

theorem reads_primaryBody (reads : Reads bound p primary primaryShape) :
    Reads (bound + 1) (primaryBody p) primary primaryShape := by
  rw [primary_eq]
  exact (reads_onMatch_succ (by decide) (fun _ => reads_parenthesised reads)
    (reads_onMatch_succ (by decide) (reads_aggregate reads)
      (reads_onMatch (by decide) reads_columnRef reads_literal (by decide) (by decide))
      (by decide) (by decide))
    (by decide) (by decide)).weaken (by decide) (by decide) rfl (by decide)

theorem reads_primaryFuel (n : Nat) (enough : bound ≤ n) :
    Reads bound (primaryFuel n) primary primaryShape := by
  induction bound generalizing n with
  | zero => exact .zero primary_shape
  | succ bound ih =>
    obtain ⟨m, rfl⟩ : ∃ m, n = m + 1 := ⟨n - 1, by omega⟩
    exact reads_primaryBody (ih m (by omega))

section Steady

variable {q : Parse ExprAST}

theorem agree_comparison (reads : Reads bound p primary primaryShape) (same : AgreeBelow bound p q) :
    AgreeBelow bound (parseComparison p) (parseComparison q) :=
  .bind reads same fun _ => .ifMatch (fun _ _ => .bind reads same fun _ => .refl _) (.refl _)

theorem agree_joined {operand operand' : Parse ExprAST} {lower : SqlGrammar ExprAST}
    {s : Shape SqlTokenType} (type : SqlTokenType) (op : BinaryOp)
    (reads : Reads bound operand lower s) (same : AgreeBelow bound operand operand') :
    AgreeBelow bound
      (do
        let left ← operand
        whileMatch SqlToken.type [type]
          (fun _ left => do let right ← operand; pure (ExprAST.binary op left right)) left)
      (do
        let left ← operand'
        whileMatch SqlToken.type [type]
          (fun _ left => do let right ← operand'; pure (ExprAST.binary op left right)) left) :=
  .bind reads same (agree_whileMatch (fun _ left _ => reads.map (ExprAST.binary op left))
    (fun _ _ _ => .bind reads same fun _ => .refl _))

section

variable (reads : Reads bound p primary primaryShape)

include reads

theorem agree_or (same : AgreeBelow bound p q) :
    AgreeBelow bound (parseOr p) (parseOr q) :=
  agree_joined .orKw .or (reads_and reads)
    (agree_joined .andKw .and (reads_comparison reads) (agree_comparison reads same))

theorem agree_aggregate (same : AgreeBelow bound p q)
    (func : SqlToken) : AgreeBelow bound (parseAggregate p func) (parseAggregate q func) := by
  refine .bind (reads_expect .lparen _ (by decide)) (.refl _) fun _ => ?_
  refine .bind (reads_argument reads func) ?_ fun _ => .refl _
  exact .ifMatch (fun _ _ => .refl _) (.bind reads same fun _ => .refl _)

theorem agree_primaryBody
    (same : AgreeBelow bound p q) :
    AgreeBelow (bound + 1) (primaryBody p) (primaryBody q) := by
  refine .ifMatch_succ (fun _ _ => ?_)
    (.ifMatch_succ (fun t _ => agree_aggregate reads same t) (.refl _))
  exact .bind (reads_or reads) (agree_or reads same) fun _ => .refl _

end

theorem steady_primaryFuel (n m : Nat) (left : bound ≤ n) (right : bound ≤ m) :
    AgreeBelow bound (primaryFuel n) (primaryFuel m) := by
  induction bound generalizing n m with
  | zero => exact .zero _ _
  | succ bound ih =>
    obtain ⟨n, rfl⟩ : ∃ k, n = k + 1 := ⟨n - 1, by omega⟩
    obtain ⟨m, rfl⟩ : ∃ k, m = k + 1 := ⟨m - 1, by omega⟩
    exact agree_primaryBody (reads_primaryFuel n (by omega)) (ih n m (by omega) (by omega))

end Steady

theorem reads_primary : Reads bound parsePrimary primary primaryShape :=
  .of_fuel (fun _ => reads_primaryFuel) fun _ => steady_primaryFuel

theorem reads_expression : Reads bound parseExpression expression expressionShape :=
  reads_or reads_primary

end Expressions

end GraniteDb.Sql.ExpressionReading
