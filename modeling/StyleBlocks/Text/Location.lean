import StyleBlocks.Text.Blank

/-!
# Locations in a text

Lines and columns are counted from one.  A column counts units of sixteen bits, so a character
beyond the Basic Multilingual Plane takes two columns.  A carriage return directly before a line
feed ends the same line as that line feed.
-/

namespace StyleBlocks

structure Location where
  line : Nat
  column : Nat
deriving DecidableEq, Repr

namespace Location

def start : Location := ⟨1, 1⟩

/-- The location of what no text contains, such as a rule made by the compiler. -/
def nowhere : Location := ⟨0, 0⟩

instance : Inhabited Location := ⟨nowhere⟩

/-- The number of units of sixteen bits that a character takes. -/
def units (c : Char) : Nat :=
  if c.toNat < 0x10000 then 1 else 2

/-- The location behind the text `s` that starts at `p`. -/
def advance (p : Location) : List Char → Location
  | [] => p
  | '\r' :: '\n' :: s => advance ⟨p.line + 1, 1⟩ s
  | c :: s =>
    if isNewline c then advance ⟨p.line + 1, 1⟩ s
    else advance ⟨p.line, p.column + units c⟩ s

end Location

end StyleBlocks
