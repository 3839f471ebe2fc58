import ArrayDiff.Decimal.Text
import ArrayDiff.Expr.Basic

/-!
# Text of expressions

Expressions as they are shown to people, with the names that a graph gives to its targets.
-/

namespace ArrayDiff.Expr

variable {κ : Type} [Literal κ]

mutual

def text (nameOf : Target → String) : Expr κ → String
  | const c => Literal.text c
  | var x => x
  | rvar x => x
  | param p => nameOf (.param p)
  | call f args => s!"{nameOf (.func f)}({textList nameOf args})"
  | load b args => s!"{nameOf (.buffer b)}({textList nameOf args})"
  | unary op a => s!"{op.name}({text nameOf a})"
  | binary op a b =>
    match op.symbol? with
    | some symbol => s!"({text nameOf a} {symbol} {text nameOf b})"
    | none => s!"{op.name}({text nameOf a}, {text nameOf b})"
  | compare op a b => s!"({text nameOf a} {op.symbol} {text nameOf b})"
  | and a b => s!"({text nameOf a} && {text nameOf b})"
  | or a b => s!"({text nameOf a} || {text nameOf b})"
  | not a => s!"!{text nameOf a}"
  | select c t f => s!"select({text nameOf c}, {text nameOf t}, {text nameOf f})"

/-- Arguments, separated by commas. -/
def textList (nameOf : Target → String) : List (Expr κ) → String
  | [] => ""
  | [e] => text nameOf e
  | e :: es => s!"{text nameOf e}, {textList nameOf es}"

end

end ArrayDiff.Expr
