import MissionTime.Pattern.Basic

/-!
# Reading patterns

A text is a pattern if it consists of blocks of one length over `0`, `1` and `s`, with commas between
blocks. The first block sets the length.

**Definitions.**
* `Pattern.ofText`, with the first fault of the text from left to right.
-/

namespace MissionTime

namespace Pattern

/-- Reads the symbols of a block. -/
def readSymbols : List Char → Except PatternFault Word
  | [] => .ok []
  | c :: rest =>
    match Bit.ofSymbol? c with
    | some b => (readSymbols rest).map (b :: ·)
    | none => .error (.unexpectedSymbol c)

/-- Reads blocks of `width` bytes, the first of them being that of a given step. -/
def readBlocks (width : Nat) : (step : Nat) → List (List Char) → Except PatternFault Word
  | _, [] => .ok []
  | step, block :: rest =>
    if byteLength block = width then do
      let bits ← readSymbols block
      let others ← readBlocks width (step + 1) rest
      return bits ++ others
    else .error (.unevenBlock step (byteLength block) width)

/-- Reads the bits of a text and the length of its blocks. -/
def readBits (text : List Char) : Except PatternFault (Nat × Word) :=
  let blocks := commaParts text
  let width := byteLength (blocks.headD [])
  if width = 0 then .error .emptyBlock
  else (readBlocks width 0 blocks).map (width, ·)

/-- Reads a pattern; the whole text must be one. -/
def ofText (text : String) : Except Error Pattern :=
  match readBits text.toList with
  | .ok (width, bits) => ofBits width bits
  | .error fault => .error (.malformedPattern text fault)

end Pattern

end MissionTime
