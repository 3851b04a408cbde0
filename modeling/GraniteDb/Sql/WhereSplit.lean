/- A WHERE holds exactly if its conjuncts do, wherever the binder puts them. -/

import GraniteDb.Optimizer.BaseAccess
import GraniteDb.Sql.BinderFacts

namespace GraniteDb.Sql.WhereSplit

open Common.Value Catalog.CatalogManager Execution.Expressions Optimizer.PhysicalPath
open Optimizer.BaseAccess Sql.SelectAst Sql.Binder Sql.BinderFacts
open Option (bind_eq_some_iff bind_eq_bind map_eq_some_iff bind_some map_some)

section Conjuncts

/-- A condition of the source text, bound over some tables, is true of a row. -/
def Holds (tables : List TableBinding) (schema : Schema) (ast : ExprAST) (row : Row) : Prop :=
  ∃ info, bindSourceExpr tables schema ast = some info ∧ info.expr.Accepts row

variable {tables : List TableBinding} {schema : Schema} {row : Row}

theorem holds_and {l r : ExprAST} : Holds tables schema (.binary .and l r) row ↔
    Holds tables schema l row ∧ Holds tables schema r row := by
  constructor
  · rintro ⟨info, bound, accepted⟩
    simp only [bindSourceExpr, bind_eq_bind, bind_eq_some_iff] at bound
    obtain ⟨left, boundLeft, right, boundRight, same⟩ := bound
    cases same
    obtain ⟨leftTrue, rightTrue⟩ := conjunction_accepts.mp accepted
    exact ⟨⟨left, boundLeft, leftTrue⟩, ⟨right, boundRight, rightTrue⟩⟩
  · rintro ⟨⟨left, boundLeft, leftTrue⟩, ⟨right, boundRight, rightTrue⟩⟩
    refine ⟨⟨.conjunction left.expr right.expr, .boolean, none, "bool_expr"⟩, ?_,
      conjunction_accepts.mpr ⟨leftTrue, rightTrue⟩⟩
    simp [bindSourceExpr, boundLeft, boundRight]

theorem holds_iff_conjuncts {ast : ExprAST} : Holds tables schema ast row ↔
    ∀ conj ∈ collectConjuncts ast, Holds tables schema conj row := by
  induction ast with
  | literal _ | columnRef _ _ | functionStar _ _ | functionCall _ _ _ _ =>
    simp [collectConjuncts]
  | binary op l r ihLeft ihRight =>
    cases op with
    | and =>
      rw [holds_and, ihLeft, ihRight, collectConjuncts]
      simp only [List.mem_append, or_imp, forall_and]
    | or | compare _ => simp [collectConjuncts]

theorem joined_accepts_iff {conjs : List ExprAST} {whole : Option Expression}
    (bound : (conjs.mapM (bindBooleanSourceExpr tables schema)).map conjoin = some whole) :
    (∀ e ∈ whole, e.Accepts row) ↔ ∀ conj ∈ conjs, Holds tables schema conj row := by
  obtain ⟨parts, mapped, joined⟩ := map_eq_some_iff.mp bound
  have byParts : (∀ e ∈ whole, e.Accepts row) ↔ ∀ part ∈ parts, part.Accepts row := by
    cases whole with
    | none =>
      cases parts with
      | nil => simp
      | cons first rest => cases joined
    | some e => simpa using conjoin_accepts joined
  rw [byParts]
  constructor
  · intro accepted conj member
    obtain ⟨part, inParts, isBound⟩ := exists_of_mapM_some mapped member
    obtain ⟨info, found, rfl⟩ := map_eq_some_iff.mp isBound
    exact ⟨info, found, accepted _ inParts⟩
  · intro holds part member
    obtain ⟨conj, inConjs, isBound⟩ := mem_of_mapM_some mapped member
    obtain ⟨info, found, isTrue⟩ := holds conj inConjs
    rw [bindBooleanSourceExpr, found] at isBound
    cases isBound
    exact isTrue

end Conjuncts

section Parts

private theorem candidates_of_resolved {table : TableBinding} {qualifier columnName : String}
    {position : Nat}
    (resolved : resolveColumn [{ table with offset := 0 }] qualifier columnName =
      some position) : table.candidates qualifier columnName = [position] := by
  unfold resolveColumn at resolved
  split at resolved
  · rename_i position' shape
    cases resolved
    simpa [TableBinding.candidates, TableBinding.qualifies] using shape
  · cases resolved

theorem bindSourceExpr_part {tables : List TableBinding} {schema : Schema} {table : TableBinding}
    {side : Nat} {row part : Row}
    (moved : ∀ qualifier columnName, referencedTables tables qualifier columnName = [side] →
      ∀ position < table.schema.length, table.candidates qualifier columnName = [position] →
        ∃ position', resolveColumn tables qualifier columnName = some position' ∧
          schema[position']? = table.schema[position]? ∧ row[position']? = part[position]?)
    {ast : ExprAST} {refs : List Nat}
    (refers : collectReferencedTableIndexes tables ast = some refs)
    (only : ∀ tableIdx ∈ refs, tableIdx = side) {info : BoundExprInfo}
    (bound : bindSourceExpr [{ table with offset := 0 }] table.schema ast = some info) :
    ∃ info', bindSourceExpr tables schema ast = some info' ∧
      info'.expr.evaluateRow row = info.expr.evaluateRow part := by
  induction ast generalizing refs info with
  | literal value =>
    cases bound
    exact ⟨_, rfl, rfl⟩
  | columnRef qualifier columnName =>
    simp only [collectReferencedTableIndexes] at refers
    split at refers
    · rename_i tableIdx referenced
      cases refers
      have here := only tableIdx (List.mem_singleton_self _)
      obtain ⟨position, resolved, isColumn⟩ := bind_eq_some_iff.mp bound
      obtain ⟨col, read, rfl⟩ := map_eq_some_iff.mp isColumn
      obtain ⟨position', resolved', column, value⟩ := moved qualifier columnName (here ▸ referenced)
        position (List.getElem?_eq_some_iff.mp read).1 (candidates_of_resolved resolved)
      refine ⟨⟨.column .single position', col.type, some position', col.name⟩, ?_, value⟩
      simp only [bindSourceExpr, resolved', bind_some, boundColumn, column, read, map_some]
    · cases refers
  | binary op l r ihLeft ihRight =>
    simp only [collectReferencedTableIndexes, bind_eq_bind, bind_eq_some_iff]
      at refers
    obtain ⟨leftRefs, refersLeft, rightRefs, refersRight, same⟩ := refers
    cases same
    simp only [bindSourceExpr, bind_eq_bind, bind_eq_some_iff] at bound
    obtain ⟨left, boundLeft, right, boundRight, shape⟩ := bound
    obtain ⟨left', boundLeft', sameLeft⟩ := ihLeft refersLeft
      (fun k member => only k (List.mem_union_iff.mpr (.inl member))) boundLeft
    obtain ⟨right', boundRight', sameRight⟩ := ihRight refersRight
      (fun k member => only k (List.mem_union_iff.mpr (.inr member))) boundRight
    simp only [Expression.evaluateRow] at sameLeft sameRight
    cases op with
    | and | or | compare type =>
      cases shape
      simp only [bindSourceExpr, bind_eq_bind, boundLeft', boundRight',
        bind_some]
      refine ⟨_, rfl, ?_⟩
      simp only [Expression.evaluateRow, Expression.evaluate, sameLeft, sameRight]
  | functionStar type name => cases bound
  | functionCall type name arg _ => cases bound

variable {first second : TableBinding} {l r : Row}

private theorem referencedTables_pair {qualifier columnName : String} {side : Nat}
    (referenced : referencedTables [first, second] qualifier columnName = [side]) :
    (side = 0 ∧ second.candidates qualifier columnName = []) ∨
      (side = 1 ∧ first.candidates qualifier columnName = []) := by
  cases inFirst : first.candidates qualifier columnName with
  | nil =>
    cases inSecond : second.candidates qualifier columnName with
    | nil => simp [referencedTables, inFirst, inSecond] at referenced
    | cons _ _ =>
      refine .inr ⟨?_, rfl⟩
      simpa [referencedTables, inFirst, inSecond] using referenced.symm
  | cons _ _ =>
    cases inSecond : second.candidates qualifier columnName with
    | nil =>
      refine .inl ⟨?_, rfl⟩
      simpa [referencedTables, inFirst, inSecond] using referenced.symm
    | cons _ _ => simp [referencedTables, inFirst, inSecond] at referenced

private theorem candidates_first (offset : first.offset = 0)
    (long : l.length = first.schema.length) (qualifier columnName : String)
    (referenced : referencedTables [first, second] qualifier columnName = [0]) (position : Nat)
    (inside : position < first.schema.length)
    (here : first.candidates qualifier columnName = [position]) :
    ∃ position', resolveColumn [first, second] qualifier columnName = some position' ∧
      (first.schema ++ second.schema)[position']? = first.schema[position]? ∧
      (l ++ r)[position']? = l[position]? := by
  have notSecond : second.candidates qualifier columnName = [] := by
    rcases referencedTables_pair referenced with ⟨_, empty⟩ | ⟨isOne, _⟩
    · exact empty
    · cases isOne
  refine ⟨position, ?_, List.getElem?_append_left inside,
    List.getElem?_append_left (long ▸ inside)⟩
  simp [resolveColumn, notSecond, here, offset]

private theorem candidates_second (offset : second.offset = first.schema.length)
    (long : l.length = first.schema.length) (qualifier columnName : String)
    (referenced : referencedTables [first, second] qualifier columnName = [1]) (position : Nat)
    (here : second.candidates qualifier columnName = [position]) :
    ∃ position', resolveColumn [first, second] qualifier columnName = some position' ∧
      (first.schema ++ second.schema)[position']? = second.schema[position]? ∧
      (l ++ r)[position']? = r[position]? := by
  have notFirst : first.candidates qualifier columnName = [] := by
    rcases referencedTables_pair referenced with ⟨isZero, _⟩ | ⟨_, empty⟩
    · cases isZero
    · exact empty
  refine ⟨first.schema.length + position, ?_, ?_, ?_⟩
  · simp [resolveColumn, notFirst, here, offset]
  · rw [List.getElem?_append_right (Nat.le_add_right _ _), Nat.add_sub_cancel_left]
  · rw [← long, List.getElem?_append_right (Nat.le_add_right _ _), Nat.add_sub_cancel_left]

end Parts

theorem splitConjuncts_facts {tables : List TableBinding} {conjs : List ExprAST}
    {pushdown : Pushdown} (split_ : splitConjuncts tables conjs = some pushdown) :
    (∀ conj, conj ∈ conjs ↔
      conj ∈ pushdown.left ∨ conj ∈ pushdown.right ∨ conj ∈ pushdown.residual) ∧
    (∀ conj ∈ pushdown.left, collectReferencedTableIndexes tables conj = some [0]) ∧
    ∀ conj ∈ pushdown.right, ∃ k, k ≠ 0 ∧
      collectReferencedTableIndexes tables conj = some [k] := by
  induction conjs generalizing pushdown with
  | nil =>
    cases split_
    simp
  | cons conj rest ih =>
    simp only [splitConjuncts, bind_eq_bind, bind_eq_some_iff] at split_
    obtain ⟨refs, refers, later, inner, outcome⟩ := split_
    obtain ⟨members, ofLeft, ofRight⟩ := ih inner
    split at outcome
    · cases outcome
      refine ⟨fun e => ?_, fun e member => ?_, ofRight⟩
      · simp only [List.mem_cons, members e, or_assoc]
      · rcases List.mem_cons.mp member with rfl | inLater
        · exact refers
        · exact ofLeft e inLater
    · rename_i k notZero
      cases outcome
      refine ⟨fun e => ?_, ofLeft, fun e member => ?_⟩
      · simp only [List.mem_cons, members e]
        grind
      · rcases List.mem_cons.mp member with rfl | inLater
        · exact ⟨k, fun isZero => notZero (by rw [isZero]), refers⟩
        · exact ofRight e inLater
    · cases outcome
      refine ⟨fun e => ?_, ofLeft, ofRight⟩
      simp only [List.mem_cons, members e]
      grind

private theorem references_below_two {first second : TableBinding} {ast : ExprAST}
    {refs : List Nat} (refers : collectReferencedTableIndexes [first, second] ast = some refs) :
    ∀ k ∈ refs, k = 0 ∨ k = 1 := by
  induction ast generalizing refs with
  | literal value | functionStar type name =>
    cases refers
    simp
  | columnRef qualifier columnName =>
    simp only [collectReferencedTableIndexes] at refers
    split at refers
    · rename_i tableIdx referenced
      cases refers
      intro k member
      rw [List.mem_singleton.mp member]
      exact (referencedTables_pair referenced).imp And.left And.left
    · cases refers
  | binary op l r ihLeft ihRight =>
    simp only [collectReferencedTableIndexes, bind_eq_bind, bind_eq_some_iff]
      at refers
    obtain ⟨leftRefs, refersLeft, rightRefs, refersRight, same⟩ := refers
    cases same
    intro k member
    rcases List.mem_union_iff.mp member with inLeft | inRight
    · exact ihLeft refersLeft k inLeft
    · exact ihRight refersRight k inRight
  | functionCall type name arg ih => exact ih refers

theorem single_where_iff {catalog : CatalogManager} {ast : SelectStatementAST}
    {source : BoundSource} {table : TableBinding} (single : SingleSource catalog ast source table)
    {row : Row} : (∀ e ∈ ast.wherePredicate, Holds [table] table.schema e row) ↔
      ∀ e ∈ source.wherePredicate, e.Accepts row := by
  have atZero : { table with offset := 0 } = table := by
    rw [← single.offset]
  have bound := single.predicate
  rw [bindPushdownPredicates, atZero] at bound
  rw [joined_accepts_iff bound]
  cases ast.wherePredicate with
  | none => simp
  | some e => simpa using holds_iff_conjuncts

private theorem holds_part {tables : List TableBinding} {schema : Schema} {table : TableBinding}
    {conjs : List ExprAST} {predicate : Option Expression} {row part : Row}
    (bound : bindPushdownPredicates conjs table = some predicate)
    (same : ∀ conj ∈ conjs, ∀ info,
      bindSourceExpr [{ table with offset := 0 }] table.schema conj = some info →
        ∃ info', bindSourceExpr tables schema conj = some info' ∧
          info'.expr.evaluateRow row = info.expr.evaluateRow part) :
    (∀ e ∈ predicate, e.Accepts part) ↔ ∀ conj ∈ conjs, Holds tables schema conj row := by
  rw [joined_accepts_iff bound]
  refine forall₂_congr fun conj member => ?_
  obtain ⟨parts, mapped, _⟩ := map_eq_some_iff.mp bound
  obtain ⟨e, _, isBound⟩ := exists_of_mapM_some mapped member
  obtain ⟨info, found, _⟩ := map_eq_some_iff.mp isBound
  obtain ⟨info', found', equal⟩ := same conj member info found
  constructor
  · rintro ⟨info₂, isInfo, accepted⟩
    rw [found] at isInfo
    cases isInfo
    exact ⟨info', found', by rwa [Expression.Accepts, equal]⟩
  · rintro ⟨info₂, isInfo, accepted⟩
    rw [found'] at isInfo
    cases isInfo
    exact ⟨info, found, by rwa [Expression.Accepts, ← equal]⟩

theorem join_where_iff {catalog : CatalogManager} {ast : SelectStatementAST}
    {source : BoundSource} {first second : TableBinding} {pushdown : Pushdown}
    {firstPredicate secondPredicate : Option Expression} {keys : Nat × Nat}
    (join : JoinSource catalog ast source first second pushdown firstPredicate secondPredicate
      keys) {l r : Row} (long : l.length = first.schema.length) :
    (∀ e ∈ ast.wherePredicate, Holds [first, second] (first.schema ++ second.schema) e (l ++ r)) ↔
      (∀ e ∈ firstPredicate, e.Accepts l) ∧ (∀ e ∈ secondPredicate, e.Accepts r) ∧
        ∀ e ∈ source.wherePredicate, e.Accepts (l ++ r) := by
  have split_ := join.conjuncts
  simp only [pushdownConjuncts, if_true] at split_
  obtain ⟨members, ofLeft, ofRight⟩ := splitConjuncts_facts split_
  have byConjuncts : (∀ e ∈ ast.wherePredicate,
      Holds [first, second] (first.schema ++ second.schema) e (l ++ r)) ↔
        ∀ conj ∈ (ast.wherePredicate.map collectConjuncts).getD [],
          Holds [first, second] (first.schema ++ second.schema) conj (l ++ r) := by
    cases ast.wherePredicate with
    | none => simp
    | some e => simpa using holds_iff_conjuncts
  have onFirst := holds_part join.firstBound fun conj member info isInfo =>
    bindSourceExpr_part (candidates_first (r := r) join.firstOffset long) (ofLeft conj member)
      (by simp) isInfo
  have onSecond := holds_part join.secondBound fun conj member info isInfo => by
    obtain ⟨k, notZero, refers⟩ := ofRight conj member
    have isOne : k = 1 := by
      have below := references_below_two refers k (List.mem_singleton_self k)
      omega
    exact bindSourceExpr_part (fun qualifier columnName referenced position _ =>
      candidates_second (r := r) join.secondOffset long qualifier columnName referenced position)
      refers (by simp [isOne]) isInfo
  rw [byConjuncts, onFirst, onSecond, joined_accepts_iff join.residual]
  simp only [members, or_imp, forall_and]

end GraniteDb.Sql.WhereSplit
