/-!
# Expectations

What a reader could have taken at the place where it stopped, and how a message names it.

**Definitions.**
* `Expectation` and its text;
* `Expectation.describe`, the wording of several of them: sorted, each once.
-/

namespace MissionTime

/-- Something that could stand at a place of a text. -/
inductive Expectation
  | symbol (c : Char)
  | digit
  | smallNumber
  | endOfText
deriving DecidableEq, Repr

namespace Expectation

/-- The name of the expectation in a message. -/
def text : Expectation → String
  | .symbol c => String.ofList ['"', c, '"']
  | .digit => "['0'..='9']"
  | .smallNumber => "number fitting in usize"
  | .endOfText => "EOF"

/-- The texts in increasing order, each once. -/
def sortedTexts (expected : List Expectation) : List String :=
  ((expected.map text).mergeSort (fun a b => decide (a ≤ b))).eraseDups

/-- One expectation stands alone; several are listed. -/
def describe (expected : List Expectation) : String :=
  match sortedTexts expected with
  | [single] => single
  | several => "one of " ++ ", ".intercalate several

end Expectation

end MissionTime
