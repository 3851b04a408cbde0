/- Arithmetic expressions, and when their integers survive the way through doubles. -/

import GraniteDb.Common.DoubleArithmetic
import GraniteDb.Execution.Aggregates
import GraniteDb.Execution.ValueText
import Mathlib.Data.BitVec

namespace GraniteDb.Execution.Arithmetic

open Common.Double Common.Value Execution.Expressions Execution.Aggregates Execution.ValueText
open Double (FitsInt64 nearest)
open Option (bind_some bind_eq_bind bind_eq_some_iff)

inductive ArithmeticType
  | add
  | sub
  | mul
  | div
  deriving DecidableEq

/-- `std::fabs(d) < 1e-12`. -/
def belowEpsilon (d : Double) : Bool :=
  !d.isNaN && d.magnitude < (Double.ofRatio false 1 (10 ^ 12)).magnitude

def int64Result (n : Int) : Option Value :=
  if FitsInt64 n then some (.int64 (BitVec.ofInt 64 n)) else none

/-- `MakeArithmeticResult`; `none` is an exception or a result that the language does not
define. -/
def makeArithmeticResult (x y : Double) (op : ArithmeticType) (resultType : TypeId) :
    Option Value :=
  if resultType = .double then
    match op with
    | .add => some (.double (x.add y))
    | .sub => some (.double (x.sub y))
    | .mul => some (.double (x.mul y))
    | .div => if belowEpsilon y then none else some (.double (x.div y))
  else do
    let xi ← x.toInt64
    let yi ← y.toInt64
    match op with
    | .add => int64Result (xi + yi)
    | .sub => int64Result (xi - yi)
    | .mul => int64Result (xi * yi)
    | .div => if yi = 0 then none else int64Result (xi.tdiv yi)

/-- `ArithmeticExpression`, over operands that are other expressions. -/
inductive ArithmeticExpression
  | operand (e : Expression)
  | node (type : ArithmeticType) (left right : ArithmeticExpression)
  deriving DecidableEq

/-- `ArithmeticExpression::Evaluate` on evaluated operands. -/
def evaluateArithmetic (type : ArithmeticType) (lv rv : Value) : Option Value :=
  if lv.isNull || rv.isNull then some (.null .double)
  else if !isNumericType lv.typeId || !isNumericType rv.typeId then none
  else do
    let resultType : TypeId :=
      if type = .div || lv.typeId = .double || rv.typeId = .double then .double else .int64
    let x ← valueToDouble lv
    let y ← valueToDouble rv
    makeArithmeticResult x y type resultType

def ArithmeticExpression.evaluate (left right : Option Row) : ArithmeticExpression → Option Value
  | .operand e => e.evaluate left right
  | .node type l r => do
    let lv ← l.evaluate left right
    let rv ← r.evaluate left right
    evaluateArithmetic type lv rv

section Exactness

/-- The operation on the integers; a quotient is a double and is none. -/
def ArithmeticType.apply : ArithmeticType → Int → Int → Option Int
  | .add, a, b => some (a + b)
  | .sub, a, b => some (a - b)
  | .mul, a, b => some (a * b)
  | .div, _, _ => none

/-- The value that sums, differences and products of integer columns and constants mean. -/
def ArithmeticExpression.exactly (left right : Option Row) : ArithmeticExpression → Option Int
  | .operand e => (e.evaluate left right).bind integer
  | .node type l r => do
    let a ← l.exactly left right
    let b ← r.exactly left right
    type.apply a b

def ArithmeticExpression.subtrees : ArithmeticExpression → List ArithmeticExpression
  | .operand e => [.operand e]
  | .node type l r => .node type l r :: (l.subtrees ++ r.subtrees)

theorem ArithmeticExpression.mem_subtrees_self (t : ArithmeticExpression) : t ∈ t.subtrees := by
  cases t with
  | operand e => exact List.mem_singleton.mpr rfl
  | node type l r => exact List.mem_cons_self

/-- Rounding both operands to 53 binary digits leaves them in range and does not change the
result. -/
def Faithful (type : ArithmeticType) (a b : Int) : Prop :=
  FitsInt64 (nearest a) ∧ FitsInt64 (nearest b) ∧
    type.apply (nearest a) (nearest b) = type.apply a b

instance (type : ArithmeticType) (a b : Int) : Decidable (Faithful type a b) := by
  unfold Faithful
  infer_instance

variable {n : Int} {type : ArithmeticType} {r l : ArithmeticExpression}

theorem valueToDouble_integer {v : Value} (means : integer v = some n) :
    valueToDouble v = some (.ofInt n) ∧ v.isNull = false ∧ isNumericType v.typeId = true ∧
      v.typeId ≠ .double := by
  cases v with
  | int32 m =>
    cases means
    exact ⟨rfl, rfl, rfl, TypeId.noConfusion⟩
  | int64 m =>
    cases means
    exact ⟨rfl, rfl, rfl, TypeId.noConfusion⟩
  | _ => cases means

theorem int64Result_ofInt {m : Int} (fits : FitsInt64 n) :
    int64Result m = some (.int64 (BitVec.ofInt 64 n)) ↔ m = n := by
  unfold int64Result
  constructor
  · intro same
    split at same
    · rename_i fitsM
      have bits : BitVec.ofInt 64 m = BitVec.ofInt 64 n := Value.int64.inj (Option.some.inj same)
      have values := congrArg BitVec.toInt bits
      obtain ⟨lowM, highM⟩ := fitsM
      obtain ⟨lowN, highN⟩ := fits
      rw [BitVec.toInt_ofInt_eq_self (by omega) (by omega) (by omega),
        BitVec.toInt_ofInt_eq_self (by omega) (by omega) (by omega)] at values
      exact values
    · cases same
  · rintro rfl
    rw [if_pos fits]

theorem makeArithmeticResult_int64 (x y : Double) (notDiv : type ≠ .div) :
    makeArithmeticResult x y type .int64 = x.toInt64.bind fun xi => y.toInt64.bind fun yi =>
      (type.apply xi yi).bind int64Result := by
  unfold makeArithmeticResult
  rw [if_neg TypeId.noConfusion]
  generalize x.toInt64 = xi
  generalize y.toInt64 = yi
  cases type with
  | div => exact absurd rfl notDiv
  | _ => rfl

theorem evaluateArithmetic_numbers {lv rv : Value} {x y : Double}
    (doubleL : valueToDouble lv = some x) (doubleR : valueToDouble rv = some y)
    (null : lv.isNull = false ∧ rv.isNull = false)
    (numeric : isNumericType lv.typeId = true ∧ isNumericType rv.typeId = true)
    (whole : lv.typeId ≠ .double ∧ rv.typeId ≠ .double) (notDiv : type ≠ .div) :
    evaluateArithmetic type lv rv = x.toInt64.bind fun xi => y.toInt64.bind fun yi =>
      (type.apply xi yi).bind int64Result := by
  rw [← makeArithmeticResult_int64 x y notDiv]
  simp [evaluateArithmetic, null, numeric, whole, notDiv, doubleL, doubleR]

theorem evaluateArithmetic_iff {lv rv : Value} {a b : Int} (meansL : integer lv = some a)
    (meansR : integer rv = some b) (fitsA : FitsInt64 a) (fitsB : FitsInt64 b)
    (applied : type.apply a b = some n) (fits : FitsInt64 n) :
    evaluateArithmetic type lv rv = some (.int64 (BitVec.ofInt 64 n)) ↔ Faithful type a b := by
  obtain ⟨doubleL, nullL, numericL, wholeL⟩ := valueToDouble_integer meansL
  obtain ⟨doubleR, nullR, numericR, wholeR⟩ := valueToDouble_integer meansR
  have notDiv : type ≠ .div := by
    rintro rfl
    cases applied
  have smallA : a.natAbs < 2 ^ 64 := by
    obtain ⟨low, high⟩ := fitsA
    omega
  have smallB : b.natAbs < 2 ^ 64 := by
    obtain ⟨low, high⟩ := fitsB
    omega
  have computed := evaluateArithmetic_numbers doubleL doubleR ⟨nullL, nullR⟩
    ⟨numericL, numericR⟩ ⟨wholeL, wholeR⟩ notDiv
  rw [computed, Double.toInt64_ofInt smallA, Double.toInt64_ofInt smallB, Faithful, applied]
  by_cases roundsA : FitsInt64 (nearest a)
  · by_cases roundsB : FitsInt64 (nearest b)
    · rw [if_pos roundsA, if_pos roundsB]
      simp only [bind_some, roundsA, roundsB, true_and]
      cases rounded : type.apply (nearest a) (nearest b) with
      | none =>
        constructor
        · intro no
          cases no
        · intro no
          cases no
      | some m =>
        rw [bind_some, int64Result_ofInt fits, Option.some.injEq]
    · simp [roundsA, roundsB]
  · simp [roundsA]

variable (left right : Option Row)

def NodeExact (type : ArithmeticType) (l r : ArithmeticExpression) : Prop :=
  ∃ n, ArithmeticExpression.exactly left right (.node type l r) = some n ∧
    ArithmeticExpression.evaluate left right (.node type l r) = some (.int64 (BitVec.ofInt 64 n))

/-- The exact values of the node's operands may be rounded to 53 binary digits. -/
def NodeFaithful (type : ArithmeticType) (l r : ArithmeticExpression) : Prop :=
  ∃ a b, l.exactly left right = some a ∧ r.exactly left right = some b ∧ Faithful type a b

def NodesExact (t : ArithmeticExpression) : Prop :=
  ∀ type l r, .node type l r ∈ t.subtrees → NodeExact left right type l r

def NodesFaithful (t : ArithmeticExpression) : Prop :=
  ∀ type l r, .node type l r ∈ t.subtrees → NodeFaithful left right type l r

variable {left right}

theorem forall_nodes {P : ArithmeticType → ArithmeticExpression → ArithmeticExpression → Prop} :
    (∀ type' l' r', .node type' l' r' ∈ (ArithmeticExpression.node type l r).subtrees →
      P type' l' r') ↔
    P type l r ∧ (∀ type' l' r', .node type' l' r' ∈ l.subtrees → P type' l' r') ∧
      ∀ type' l' r', .node type' l' r' ∈ r.subtrees → P type' l' r' := by
  constructor
  · intro all
    refine ⟨all _ _ _ List.mem_cons_self, fun type' l' r' member => ?_,
      fun type' l' r' member => ?_⟩
    · exact all _ _ _ (List.mem_cons_of_mem _ (List.mem_append_left _ member))
    · exact all _ _ _ (List.mem_cons_of_mem _ (List.mem_append_right _ member))
  · rintro ⟨root, inLeft, inRight⟩ type' l' r' member
    rcases List.mem_cons.mp member with same | below
    · cases same
      exact root
    · rcases List.mem_append.mp below with atLeft | atRight
      · exact inLeft _ _ _ atLeft
      · exact inRight _ _ _ atRight

theorem NodesExact.evaluates {s : ArithmeticExpression} (exact : NodesExact left right s)
    (means : s.exactly left right = some n) (fits : FitsInt64 n) :
    ∃ v, s.evaluate left right = some v ∧ integer v = some n := by
  cases s with
  | operand e => exact bind_eq_some_iff.mp means
  | node type l r =>
    obtain ⟨m, meansM, evaluated⟩ := exact type l r (ArithmeticExpression.mem_subtrees_self _)
    rw [meansM] at means
    cases means
    refine ⟨_, evaluated, ?_⟩
    obtain ⟨low, high⟩ := fits
    rw [integer, BitVec.toInt_ofInt_eq_self (by omega) (by omega) (by omega)]

theorem node_iff {a b root : Int} (exactL : NodesExact left right l)
    (exactR : NodesExact left right r) (meansA : l.exactly left right = some a)
    (meansB : r.exactly left right = some b) (applied : type.apply a b = some root)
    (fitsA : FitsInt64 a) (fitsB : FitsInt64 b) (fits : FitsInt64 root) :
    NodeExact left right type l r ↔ NodeFaithful left right type l r := by
  obtain ⟨lv, evaluatedL, integerL⟩ := exactL.evaluates meansA fitsA
  obtain ⟨rv, evaluatedR, integerR⟩ := exactR.evaluates meansB fitsB
  have node : ArithmeticExpression.evaluate left right (.node type l r) =
      evaluateArithmetic type lv rv := by
    simp only [ArithmeticExpression.evaluate, evaluatedL, evaluatedR, bind_eq_bind,
      bind_some]
  have means : ArithmeticExpression.exactly left right (.node type l r) = some root := by
    simp only [ArithmeticExpression.exactly, meansA, meansB, bind_eq_bind,
      bind_some, applied]
  have step := evaluateArithmetic_iff integerL integerR fitsA fitsB applied fits
  constructor
  · rintro ⟨n, meansN, evaluated⟩
    rw [means] at meansN
    cases meansN
    rw [node] at evaluated
    exact ⟨a, b, meansA, meansB, step.mp evaluated⟩
  · rintro ⟨a', b', meansA', meansB', faithful⟩
    rw [meansA] at meansA'
    rw [meansB] at meansB'
    cases meansA'
    cases meansB'
    exact ⟨root, means, node.trans (step.mpr faithful)⟩

/-- Every node is exact if and only if the operands of every node may be rounded. A leaf is
always exact, and the step up is that of one node. -/
theorem exact_iff {t : ArithmeticExpression} {root : Int}
    (integers : t.exactly left right = some root)
    (fits : ∀ s ∈ t.subtrees, ∀ n, s.exactly left right = some n → FitsInt64 n) :
    NodesExact left right t ↔ NodesFaithful left right t := by
  induction t generalizing root with
  | operand e =>
    constructor
    · intro _ type l r member
      cases List.mem_singleton.mp member
    · intro _ type l r member
      cases List.mem_singleton.mp member
  | node type l r ihL ihR =>
    obtain ⟨a, meansA, rest⟩ := bind_eq_some_iff.mp integers
    obtain ⟨b, meansB, applied⟩ := bind_eq_some_iff.mp rest
    have fitsL : ∀ s ∈ l.subtrees, ∀ n, s.exactly left right = some n → FitsInt64 n :=
      fun s member => fits s (List.mem_cons_of_mem _ (List.mem_append_left _ member))
    have fitsR : ∀ s ∈ r.subtrees, ∀ n, s.exactly left right = some n → FitsInt64 n :=
      fun s member => fits s (List.mem_cons_of_mem _ (List.mem_append_right _ member))
    have fitsA : FitsInt64 a := fitsL l l.mem_subtrees_self a meansA
    have fitsB : FitsInt64 b := fitsR r r.mem_subtrees_self b meansB
    have fitsRoot : FitsInt64 root := fits _ (ArithmeticExpression.mem_subtrees_self _) _ integers
    have belowL := ihL meansA fitsL
    have belowR := ihR meansB fitsR
    have exact : NodesExact left right (.node type l r) ↔ NodeExact left right type l r ∧
        NodesExact left right l ∧ NodesExact left right r := forall_nodes
    have faithful : NodesFaithful left right (.node type l r) ↔
        NodeFaithful left right type l r ∧ NodesFaithful left right l ∧
          NodesFaithful left right r := forall_nodes
    rw [exact, faithful, ← belowL, ← belowR]
    apply and_congr_left
    rintro ⟨exactL, exactR⟩
    exact node_iff exactL exactR meansA meansB applied fitsA fitsB fitsRoot

/-- `(2 ^ 53 - 1) * 2 + 7`, of a column and constants. -/
def doubled : ArithmeticExpression :=
  .node .add (.node .mul (.operand (.column .single 0)) (.operand (.constant (.int32 2))))
    (.operand (.constant (.int64 7)))

theorem exact_iff_doubled : NodesExact (some [.int64 (2 ^ 53 - 1)]) none doubled :=
  have means : doubled.exactly (some [.int64 (2 ^ 53 - 1)]) none = some (2 ^ 54 + 5) := by decide
  (exact_iff means (by decide)).mpr (by
    refine forall_nodes.mpr ⟨⟨2 ^ 54 - 2, 7, by decide, by decide, by decide⟩,
      forall_nodes.mpr ⟨⟨2 ^ 53 - 1, 2, by decide, by decide, by decide⟩, ?_, ?_⟩, ?_⟩
    all_goals
      intro type l r member
      cases List.mem_singleton.mp member)

/-- `(2 ^ 53 + 1) + 0`, of constants. -/
def plusZero : ArithmeticExpression :=
  .node .add (.operand (.constant (.int64 (2 ^ 53 + 1)))) (.operand (.constant (.int32 0)))

/-- The sum loses its last digit. -/
theorem inexact_plusZero : ¬∀ (left right : Option Row) (t : ArithmeticExpression) (root : Int),
    t.exactly left right = some root →
    (∀ s ∈ t.subtrees, ∀ n, s.exactly left right = some n → FitsInt64 n) →
    ∀ type l r, t = .node type l r →
      t.evaluate left right = some (.int64 (BitVec.ofInt 64 root)) := by
  intro rule
  have evaluated := rule none none plusZero (2 ^ 53 + 1) (by decide) (by decide) _ _ _ rfl
  have computed : plusZero.evaluate none none =
      evaluateArithmetic .add (.int64 (2 ^ 53 + 1)) (.int32 0) := by
    simp only [plusZero, ArithmeticExpression.evaluate, Expression.evaluate, bind_eq_bind,
      bind_some]
  rw [computed] at evaluated
  have faithful : Faithful .add (2 ^ 53 + 1) 0 :=
    (evaluateArithmetic_iff rfl rfl (by decide) (by decide) rfl (by decide)).mp evaluated
  revert faithful
  decide

end Exactness

end GraniteDb.Execution.Arithmetic
