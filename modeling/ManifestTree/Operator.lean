import ManifestTree.Token.Kind

/-!
# Operators

Ranks and associativity of the operators.  A lower rank binds tighter.  A prefix operator binds
tighter than every binary one, and the statement forms of `and` and `or` bind loosest of all.
-/

namespace ManifestTree

/-- How operators of one rank group. -/
inductive Associativity where
  | left | right
deriving DecidableEq, Repr

/-- An operator's rank and how it groups. -/
structure Operator where
  /-- How it is written. -/
  symbol : String
  /-- How loosely it binds. -/
  rank : Nat
  /-- How it groups. -/
  associativity : Associativity
deriving DecidableEq, Repr

namespace Operator

/-- The loosest rank of a right operand: an operator that groups to the right takes its own rank
there, one that groups to the left only tighter ones. -/
def rightRank (o : Operator) : Nat :=
  match o.associativity with
  | .right => o.rank
  | .left => o.rank - 1

/-- The operators that stand before their operand. -/
def unary? : TokenKind → Option Operator
  | .symbol .bang => some ⟨"!", 1, .right⟩
  | .symbol .minus => some ⟨"-", 2, .right⟩
  | .symbol .times => some ⟨"*", 3, .right⟩
  | _ => none

/-- The operators that stand between their operands. -/
def binary? : TokenKind → Option Operator
  | .keyword .in => some ⟨"in", 4, .left⟩
  | .symbol .isMatch => some ⟨"=~", 5, .right⟩
  | .symbol .notMatch => some ⟨"!~", 5, .right⟩
  | .symbol .times => some ⟨"*", 6, .left⟩
  | .symbol .slash => some ⟨"/", 6, .left⟩
  | .symbol .percent => some ⟨"%", 6, .left⟩
  | .symbol .plus => some ⟨"+", 7, .left⟩
  | .symbol .minus => some ⟨"-", 7, .left⟩
  | .symbol .leftShift => some ⟨"<<", 8, .left⟩
  | .symbol .rightShift => some ⟨">>", 8, .left⟩
  | .symbol .less => some ⟨"<", 9, .left⟩
  | .symbol .lessEqual => some ⟨"<=", 9, .left⟩
  | .symbol .greater => some ⟨">", 9, .left⟩
  | .symbol .greaterEqual => some ⟨">=", 9, .left⟩
  | .symbol .isEqual => some ⟨"==", 10, .right⟩
  | .symbol .notEqual => some ⟨"!=", 10, .right⟩
  | .keyword .and => some ⟨"and", 11, .left⟩
  | .keyword .or => some ⟨"or", 12, .left⟩
  | .symbol .equals => some ⟨"=", 13, .right⟩
  | _ => none

/-- The operators that join whole statement expressions. -/
def command? : TokenKind → Option Operator
  | .keyword .and => some ⟨"and", 14, .left⟩
  | .keyword .or => some ⟨"or", 15, .left⟩
  | _ => none

/-- The loosest rank of an expression: that of an assignment. -/
def expressionRank : Nat := 13

/-- The loosest rank of a value that may not be a bare assignment. -/
def valueRank : Nat := 12

/-- The loosest rank of all, for statements. -/
def commandRank : Nat := 15

/-- The expression rank is that of the assignment operator, the value rank that of `or`, and the
command rank that of the statement form of `or`. -/
theorem ranks :
    (binary? (.symbol .equals)).map rank = some expressionRank ∧
      (binary? (.keyword .or)).map rank = some valueRank ∧
      (command? (.keyword .or)).map rank = some commandRank := ⟨rfl, rfl, rfl⟩

/-- Kinds of tokens that can only go on with an expression, never begin one. -/
def continues (k : TokenKind) : Bool :=
  (binary? k).isSome || match k with
    | .symbol s => [Symbol.fatArrow, .plusArrow, .inEdge, .inEdgeSub, .dot, .question, .leftCollect,
        .rightCollect, .leftExport, .rightExport].contains s
    | _ => false

end Operator

end ManifestTree
