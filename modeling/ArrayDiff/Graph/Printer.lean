import ArrayDiff.Expr.Printer
import ArrayDiff.Graph.Basic

/-!
# Text of graphs

Every definition on a line of its own, in the order in which the funcs were made.
-/

namespace ArrayDiff

variable {κ : Type} [Literal κ]

/-- `f(position) = value over ranges`. -/
def Definition.text (nameOf : Target → String) (func : Name) (d : Definition κ) : String :=
  let ranges := match d.rdom with
    | some r => s!" over {r.text}"
    | none => ""
  s!"{func}({Expr.textList nameOf d.lhs}) = {d.value.text nameOf}{ranges}\n"

/-- All definitions in the order of ids, each after the id of its func. -/
def Graph.text (g : Graph κ) : String :=
  String.join (g.funcIds.map fun f =>
    String.join ((g.func f).definitions.map fun (_, d) => s!"{f.index}: {d.text g.nameOf (g.func f).name}"))

end ArrayDiff
