import MissionTime.Formula.Basic
import MissionTime.Text

/-!
# Written formulas

The written form of a formula, without blanks: operators of one operand stand before it, those of
two operands between them inside parentheses, and a list stands in brackets behind its connective.

**Definitions.**
* `Formula.chars` and `Formula.text`, the written form;
* `Formula.outline`, the tree of operators, and `Outline.text`, its drawing.
-/

namespace MissionTime

/-- `p3`, or `~p3` for the complement. -/
def Variable.chars (var : Variable) : List Char :=
  if var.negated then '~' :: 'p' :: Nat.toDigits 10 var.index
  else 'p' :: Nat.toDigits 10 var.index

/-- The written form as a text. -/
def Variable.text (var : Variable) : String :=
  String.ofList var.chars

/-- `T`, `F`, or the variable. -/
def Literal.chars : Literal → List Char
  | .top => ['T']
  | .bot => ['F']
  | .var x => x.chars

/-- The written form as a text. -/
def Literal.text (literal : Literal) : String :=
  String.ofList literal.chars

namespace Formula

mutual

/-- The written form of a formula. -/
def chars : Formula → List Char
  | .literal l => l.chars
  | .neg sub => '~' :: chars sub
  | .unary op int sub => op.symbol :: (int.chars ++ chars sub)
  | .temporal lhs op int rhs =>
    '(' :: (chars lhs ++ op.symbol :: (int.chars ++ (chars rhs ++ [')'])))
  | .binary lhs op rhs => '(' :: (chars lhs ++ op.symbol :: (chars rhs ++ [')']))
  | .list op subs =>
    '(' :: op.symbol :: '[' :: (joinCommas (charsOfList subs) ++ [']', ')'])

/-- The written forms of the members of a list. -/
def charsOfList : List Formula → List (List Char)
  | [] => []
  | sub :: subs => chars sub :: charsOfList subs

end

@[simp] theorem charsOfList_eq_map
    (subs : List Formula) :
    charsOfList subs = subs.map chars := by
  induction subs with
  | nil => rfl
  | cons sub subs ih => simp [charsOfList, ih]

/-- The written form as a text. -/
def text (f : Formula) : String :=
  String.ofList f.chars

end Formula

/-- A tree of labels. -/
inductive Outline
  | node (label : String) (children : List Outline)

namespace Outline

/-- Draws a branch: `first` stands before its first line and `rest` before the others. -/
def indent (first rest : String) : List String → List String
  | [] => []
  | line :: lines => (first ++ line) :: lines.map (rest ++ ·)

mutual

/-- The lines of the drawing, the label first. -/
def lines : Outline → List String
  | .node label children => label :: branches children

/-- The lines of the branches below one label. The last branch turns the corner. -/
def branches : List Outline → List String
  | [] => []
  | [child] => indent "└── " "    " (lines child)
  | child :: next :: children =>
    indent "├── " "│   " (lines child) ++ branches (next :: children)

end

/-- The drawing; every line ends in a line break. -/
def text (tree : Outline) : String :=
  String.join (tree.lines.map (· ++ "\n"))

end Outline

namespace Formula

mutual

/-- The tree of operators. -/
def outline : Formula → Outline
  | .literal l => .node l.text []
  | .neg sub => .node "~" [outline sub]
  | .unary op int sub => .node (String.ofList (op.symbol :: int.chars)) [outline sub]
  | .temporal lhs op int rhs =>
    .node (String.ofList (op.symbol :: int.chars)) [outline lhs, outline rhs]
  | .binary lhs op rhs => .node (String.ofList [op.symbol]) [outline lhs, outline rhs]
  | .list op subs => .node (String.ofList [op.symbol] ++ "[..]") (outlineOfList subs)

/-- The trees of the members of a list. -/
def outlineOfList : List Formula → List Outline
  | [] => []
  | sub :: subs => outline sub :: outlineOfList subs

end

end Formula

end MissionTime
