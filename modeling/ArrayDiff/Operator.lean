import ArrayDiff.Scalar

/-!
# Operators

Elementwise functions of one and two operands, and comparisons: their names, their symbols and what they compute.
-/

namespace ArrayDiff

/-- Functions of one operand. -/
inductive UnaryOp where
  | neg | exp | log | sin | cos | tanh | sqrt | abs | floor
  deriving DecidableEq

/-- Arithmetic of two operands. -/
inductive BinaryOp where
  | add | sub | mul | div | min | max | pow
  deriving DecidableEq

/-- Comparisons answer 1 or 0. -/
inductive Comparison where
  | lt | le | gt | ge | eq | ne
  deriving DecidableEq

namespace UnaryOp

def name : UnaryOp → String
  | neg => "neg"
  | exp => "exp"
  | log => "log"
  | sin => "sin"
  | cos => "cos"
  | tanh => "tanh"
  | sqrt => "sqrt"
  | abs => "abs"
  | floor => "floor"

def all : List UnaryOp := [neg, exp, log, sin, cos, tanh, sqrt, abs, floor]

def ofName? (name : String) : Option UnaryOp := all.find? (·.name = name)

def apply {α : Type} [Scalar α] : UnaryOp → α → α
  | neg => Scalar.neg
  | exp => Scalar.exp
  | log => Scalar.log
  | sin => Scalar.sin
  | cos => Scalar.cos
  | tanh => Scalar.tanh
  | sqrt => Scalar.sqrt
  | abs => Scalar.abs
  | floor => Scalar.floor

end UnaryOp

namespace BinaryOp

def name : BinaryOp → String
  | add => "add"
  | sub => "sub"
  | mul => "mul"
  | div => "div"
  | min => "min"
  | max => "max"
  | pow => "pow"

/-- The infix symbol; operators without one are written as calls. -/
def symbol? : BinaryOp → Option String
  | add => some "+"
  | sub => some "-"
  | mul => some "*"
  | div => some "/"
  | min | max | pow => none

def all : List BinaryOp := [add, sub, mul, div, min, max, pow]

def ofName? (name : String) : Option BinaryOp := all.find? (·.name = name)

def apply {α : Type} [Scalar α] : BinaryOp → α → α → α
  | add => Scalar.add
  | sub => Scalar.sub
  | mul => Scalar.mul
  | div => Scalar.div
  | min => Scalar.min
  | max => Scalar.max
  | pow => Scalar.pow

end BinaryOp

namespace Comparison

def symbol : Comparison → String
  | lt => "<"
  | le => "<="
  | gt => ">"
  | ge => ">="
  | eq => "=="
  | ne => "!="

def all : List Comparison := [lt, le, gt, ge, eq, ne]

def ofSymbol? (symbol : String) : Option Comparison := all.find? (·.symbol = symbol)

def holds {α : Type} [Scalar α] : Comparison → α → α → Bool
  | lt, a, b => Scalar.less a b
  | le, a, b => Scalar.lessEq a b
  | gt, a, b => Scalar.less b a
  | ge, a, b => Scalar.lessEq b a
  | eq, a, b => Scalar.equal a b
  | ne, a, b => !Scalar.equal a b

/-- The comparison that says the same with its operands swapped. -/
def flip : Comparison → Comparison
  | lt => gt
  | le => ge
  | gt => lt
  | ge => le
  | eq => eq
  | ne => ne

/-- The comparison that bounds a variable where `c` fails; the failure of an equality bounds nothing. -/
def negate? : Comparison → Option Comparison
  | lt => some ge
  | le => some gt
  | gt => some le
  | ge => some lt
  | ne => some eq
  | eq => none

end Comparison

end ArrayDiff
