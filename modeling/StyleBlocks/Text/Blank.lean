/-!
# Blank characters

Two notions of blank are used side by side.  A stylesheet is split into tokens at spaces, tabs and
line ends only (`isSpace`).  A piece of stylesheet text that is kept as written, such as a selector
or a value, is trimmed of every character with the White_Space property (`isBlank`).
-/

namespace StyleBlocks

def isNewline (c : Char) : Bool :=
  c == '\n' || c == '\r' || c == '\x0c'

def isSpace (c : Char) : Bool :=
  c == ' ' || c == '\t' || isNewline c

/-- The first and last character of each run of characters with the White_Space property. -/
def blankRanges : List (Nat × Nat) :=
  [(0x09, 0x0D), (0x20, 0x20), (0x85, 0x85), (0xA0, 0xA0), (0x1680, 0x1680), (0x2000, 0x200A),
   (0x2028, 0x2029), (0x202F, 0x202F), (0x205F, 0x205F), (0x3000, 0x3000)]

/-- The characters with the White_Space property. -/
def isBlank (c : Char) : Bool :=
  blankRanges.any fun (lo, hi) => lo ≤ c.toNat && c.toNat ≤ hi

theorem isBlank_of_isSpace {c : Char} (h : isSpace c) : isBlank c := by
  simp only [isSpace, isNewline, Bool.or_eq_true, beq_iff_eq] at h
  rcases h with (rfl | rfl) | (rfl | rfl) | rfl <;> decide

def trimEnd (s : List Char) : List Char :=
  (s.reverse.dropWhile isBlank).reverse

def trim (s : List Char) : List Char :=
  trimEnd (s.dropWhile isBlank)

def lowercase (s : String) : String :=
  s.map Char.toLower

/-- Equality of texts that does not tell `A` to `Z` from `a` to `z`. -/
def sameIgnoringCase (s t : String) : Bool :=
  lowercase s == lowercase t

end StyleBlocks
