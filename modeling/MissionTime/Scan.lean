/-!
# Landmarks of a written formula

Scans over the text of a formula that find a landmark without reading the formula: the first
interval, the connective between two formulas in parentheses, the first comma between the members
of a list. Positions are counted in bytes.

**Definitions.**
* `Scan.interval`, `Scan.connective` and `Scan.separator`;
* `ScanError`: a landmark is missing only in a text that could be one; a stray symbol or bracket is
  reported at its place.
-/

namespace MissionTime

/-- What a scan looks for. -/
inductive Landmark
  | interval
  | connective
  | separator
deriving DecidableEq, Repr

/-- The name of the landmark in a message. -/
def Landmark.text : Landmark → String
  | .interval => "interval"
  | .connective => "connective"
  | .separator => "list separator"

/-- Why a scan failed. -/
inductive ScanError
  | unbalanced (position : Nat)
  | unexpectedSymbol (symbol : Char) (position : Nat)
  | notFound (landmark : Landmark)
deriving DecidableEq, Repr

/-- The wording of the failure. -/
def ScanError.message : ScanError → String
  | .unbalanced position => s!"unbalanced bracket at position {position}"
  | .unexpectedSymbol symbol position =>
    s!"unexpected symbol `{symbol}` at position {position}"
  | .notFound landmark => s!"no {landmark.text} found"

/-- Byte positions of the brackets and the comma of an interval. -/
structure IntervalSpan where
  opening : Nat
  comma : Nat
  closing : Nat
deriving DecidableEq, Repr

namespace Scan

/-- The symbols that may stand between two formulas. -/
def isConnective (c : Char) : Bool :=
  c == 'v' || c == '&' || c == '=' || c == '>' || c == 'U' || c == 'R'

/-- The symbols that a formula is written with. -/
def isFormulaSymbol (c : Char) : Bool :=
  c.isDigit || isConnective c || c == 'p' || c == 'T' || c == 'F' || c == '!' || c == 'G' ||
    c == '~' || c == '(' || c == ')' || c == '[' || c == ']' || c == ','

/-- How far the search for an interval has come: positions of the bracket and the comma. -/
inductive IntervalPhase
  | outside
  | lower (opening : Nat)
  | upper (opening comma : Nat)
deriving DecidableEq, Repr

/-- Searches the rest of a text, from a byte position. -/
def intervalFrom : IntervalPhase → Nat → List Char → Except ScanError IntervalSpan
  | .outside, _, [] => .error (.notFound .interval)
  | .lower opening, _, [] => .error (.unbalanced opening)
  | .upper opening _, _, [] => .error (.unbalanced opening)
  | .outside, position, c :: rest =>
    if c = '[' then intervalFrom (.lower position) (position + c.utf8Size) rest
    else if isFormulaSymbol c then intervalFrom .outside (position + c.utf8Size) rest
    else .error (.unexpectedSymbol c position)
  | .lower opening, position, c :: rest =>
    if c = ',' then intervalFrom (.upper opening position) (position + c.utf8Size) rest
    else if c.isDigit then intervalFrom (.lower opening) (position + c.utf8Size) rest
    else .error (.unexpectedSymbol c position)
  | .upper opening comma, position, c :: rest =>
    if c = ']' ∧ opening + 1 < comma ∧ comma + 1 < position then
      .ok ⟨opening, comma, position⟩
    else if c.isDigit then intervalFrom (.upper opening comma) (position + c.utf8Size) rest
    else .error (.unexpectedSymbol c position)

/-- The first interval of a text. -/
def interval (text : List Char) : Except ScanError IntervalSpan :=
  intervalFrom .outside 0 text

/-- Searches the rest of a text for the connective. `opened` holds the positions of the parentheses
that are still open, the innermost first; `found` is the first connective directly inside the
outermost pair. -/
def connectiveFrom : List Nat → Option Nat → Nat → List Char → Except ScanError Nat
  | [], found, _, [] =>
    match found with
    | some position => .ok position
    | none => .error (.notFound .connective)
  | innermost :: _, _, _, [] => .error (.unbalanced innermost)
  | [], _, position, c :: _ => .error (.unexpectedSymbol c position)
  | innermost :: outer, found, position, c :: rest =>
    if c = '(' then
      connectiveFrom (position :: innermost :: outer) found (position + c.utf8Size) rest
    else if c = ')' then connectiveFrom outer found (position + c.utf8Size) rest
    else if !isFormulaSymbol c then .error (.unexpectedSymbol c position)
    else if outer.isEmpty && found.isNone && isConnective c then
      connectiveFrom (innermost :: outer) (some position) (position + c.utf8Size) rest
    else connectiveFrom (innermost :: outer) found (position + c.utf8Size) rest

/-- The connective of two formulas in parentheses: the first one inside the outermost pair and
outside all others. -/
def connective : List Char → Except ScanError Nat
  | [] => .error (.notFound .connective)
  | c :: rest =>
    if c = '(' then connectiveFrom [0] none c.utf8Size rest
    else .error (.unexpectedSymbol c 0)

/-- The two kinds of brackets. -/
inductive Bracket
  | round
  | square
deriving DecidableEq, Repr

/-- The bracket that a symbol opens. -/
def opens? (c : Char) : Option Bracket :=
  if c = '(' then some .round else if c = '[' then some .square else none

/-- The bracket that a symbol closes. -/
def closes? (c : Char) : Option Bracket :=
  if c = ')' then some .round else if c = ']' then some .square else none

/-- Searches the rest of a text for a comma outside all brackets. `opened` holds the open brackets
and their positions, the innermost first. -/
def separatorFrom (opened : List (Bracket × Nat)) (found : Option Nat) (position : Nat) :
    List Char → Except ScanError Nat
  | [] =>
    match opened, found with
    | (_, innermost) :: _, _ => .error (.unbalanced innermost)
    | [], some separator => .ok separator
    | [], none => .error (.notFound .separator)
  | c :: rest =>
    if !isFormulaSymbol c then .error (.unexpectedSymbol c position)
    else match opens? c, closes? c with
      | some bracket, _ =>
        separatorFrom ((bracket, position) :: opened) found (position + c.utf8Size) rest
      | none, some bracket =>
        match opened with
        | (innermost, _) :: outer =>
          if innermost = bracket then separatorFrom outer found (position + c.utf8Size) rest
          else .error (.unbalanced position)
        | [] => .error (.unbalanced position)
      | none, none =>
        if c = ',' ∧ opened = [] ∧ found = none then
          separatorFrom opened (some position) (position + c.utf8Size) rest
        else separatorFrom opened found (position + c.utf8Size) rest

/-- The first comma between the members of a list. -/
def separator (text : List Char) : Except ScanError Nat :=
  separatorFrom [] none 0 text

end Scan

end MissionTime
