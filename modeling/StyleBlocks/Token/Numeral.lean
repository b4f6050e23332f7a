import StyleBlocks.Token.Single

/-!
# Numerals

A number in a stylesheet is kept as it is written: sign, digits before and behind the point, and
exponent.  Its printed form is that of the nearest number of single precision.
-/

namespace StyleBlocks

inductive Sign where
  | plus
  | minus
deriving DecidableEq, Repr

/-- A number as it is written. -/
structure Numeral where
  sign : Option Sign
  whole : List Char
  fraction : Option (List Char)
  exponent : Option (Option Sign × List Char)
deriving DecidableEq, Repr

namespace Numeral

def digit (c : Char) : Float :=
  Float.ofNat (c.toNat - '0'.toNat)

def magnitude (n : Numeral) : Float :=
  let whole := n.whole.foldl (fun v c => v * 10 + digit c) 0
  let fraction := (n.fraction.getD []).foldl
    (fun (v, unit) c => (v + digit c * unit, unit * 0.1)) ((0, 0.1) : Float × Float)
  match n.exponent with
  | none => whole + fraction.1
  | some (sign, digits) =>
    let exponent := Float.ofNat
      (min 400 (digits.foldl (fun v c => 10 * v + (c.toNat - '0'.toNat)) 0))
    (whole + fraction.1) * Float.pow 10 (if sign == some .minus then -exponent else exponent)

def isInteger (n : Numeral) : Bool :=
  n.fraction.isNone && n.exponent.isNone

/-- The sign and the printed form of a magnitude.  What is no number has no sign. -/
def renderWith (n : Numeral) (x : Single) : List Char :=
  let text := x.render n.isInteger
  match x, n.sign with
  | .undefined, _ | _, none => text
  | _, some .plus => '+' :: text
  | _, some .minus => '-' :: text

def render (n : Numeral) : List Char :=
  n.renderWith (Single.ofFloat n.magnitude)

def renderPercentage (n : Numeral) : List Char :=
  n.renderWith ((Single.ofFloat (n.magnitude / 100)).scale 100)

end Numeral

end StyleBlocks
