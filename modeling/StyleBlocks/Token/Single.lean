/-!
# Numbers of single precision

Binary numbers with a significand of 24 bits, and the decimal numbers that are printed for them.

The decimal numbers that read back as a given binary one form an interval.  Its ends and its middle
are multiplied by a power of ten and rounded to 32 bits, and the ends are moved inwards by one unit,
so that rounding cannot have put them outside.  Of the decimal numbers between the ends one with the
fewest digits is taken.  It always reads back; as the ends are moved inwards, it may have one digit
more than is needed.
-/

namespace StyleBlocks

/-- Numbers of the form `significand * 2 ^ exponent` with a significand below `2 ^ 24` and an
exponent between `-149` and `104`, and what lies beyond them. -/
inductive Single where
  | finite (significand : Nat) (exponent : Int)
  | infinite
  | undefined
deriving DecidableEq, Repr

/-- The decimal number `digits * 10 ^ exponent`. -/
structure Decimal where
  digits : Nat
  exponent : Int
deriving DecidableEq, Repr

def power (b : Nat) (e : Int) : Nat × Nat :=
  if 0 ≤ e then (Nat.pow b e.toNat, 1) else (1, Nat.pow b (-e).toNat)

/-! ## Binary numbers -/

namespace Single

/-- The finite number nearest to `m * 2 ^ e`; of two that are equally near, the even one. -/
def round (m : Nat) (e : Int) : Single :=
  let excess := max ((m.log2 : Int) - 23) (-149 - e)
  let (m, e) :=
    if excess ≤ 0 then (m, e)
    else
      let step := Nat.pow 2 excess.toNat
      let q := m / step
      let r := m % step
      (if step < 2 * r || (step == 2 * r && q % 2 == 1) then q + 1 else q, e + excess)
  let (m, e) := if m == Nat.pow 2 24 then (Nat.pow 2 23, e + 1) else (m, e)
  if 0 < m && 128 ≤ (m.log2 : Int) + e then infinite else finite m e

/-- The number nearest to a float that is not negative. -/
def ofFloat (x : Float) : Single :=
  let bits := x.toBits.toNat
  let field : Nat := bits / Nat.pow 2 52 % Nat.pow 2 11
  let mantissa := bits % Nat.pow 2 52
  if field == 2047 then (if mantissa == 0 then infinite else undefined)
  else if field == 0 then round mantissa (-1074)
  else round (Nat.pow 2 52 + mantissa) (Int.ofNat field - 1075)

def scale (k : Nat) : Single → Single
  | finite m e => round (k * m) e
  | infinite => infinite
  | undefined => undefined

def isWhole : Single → Bool
  | finite m e => 0 ≤ e || m % Nat.pow 2 (-e).toNat == 0
  | _ => false

/-- The significand and the exponent that are printed.  A number that is too large is printed as
`2 ^ 128`, the least one that is, and what is no number as one and a half times that. -/
def parts : Single → Nat × Int
  | finite m e => (m, e)
  | infinite => (Nat.pow 2 23, 105)
  | undefined => (3 * Nat.pow 2 22, 105)

end Single

/-! ## Decimal numbers in an interval -/

/-- The numbers from `low` to `high`, and `middle` between them, with `places` binary places. -/
structure Window where
  low : Nat
  middle : Nat
  high : Nat
  places : Nat
deriving DecidableEq, Repr

namespace Window

/-- The upper 32 bits of a product of two numbers of 32 bits, rounded to the nearest. -/
def upperProduct (a b : Nat) : Nat :=
  (a * b + Nat.pow 2 31) / Nat.pow 2 32

/-- A power of ten with 32 bits: `10 ^ k` is nearly `f * 2 ^ e` for the result `(f, e)`. -/
def tenPower (k : Int) : Nat × Int :=
  let (p, p') := power 10 k
  let e := if 0 ≤ k then (p.log2 : Int) - 31 else -(p'.log2 : Int) - 32
  let (u, u') := power 2 e
  ((2 * p * u' + p' * u) / (2 * p' * u), e)

/-- The exponent of the power of ten for numbers of 32 bits times `2 ^ e`: one of `-36`, `-28`, …
`52`, so chosen that the product has some binary places, but no more than 28. -/
def tenExponent (e : Int) : Int :=
  8 * ((35 - (e + 29) * 30103 / 100000) / 8) - 28

/-- An interval of numbers that read back as `m * 2 ^ e`, times a power of ten, and the exponent
that takes the power of ten back.  Below a power of two numbers lie closer together. -/
def around (m : Nat) (e : Int) : Window × Int :=
  let shift := 31 - m.log2
  let e := e - shift
  let k := tenExponent e
  let (f, e') := tenPower k
  let middle := m * Nat.pow 2 shift
  let above := Nat.pow 2 (shift - 1)
  let below := if m == Nat.pow 2 23 then Nat.pow 2 (shift - 2) else above
  (⟨upperProduct (middle - below) f + 1, upperProduct middle f, upperProduct (middle + above) f - 1,
    (-(e + e' + 32)).toNat⟩, -k)

/-- Lowers the last of some digits, at most `n` times, as long as that brings the number nearer to
the middle and keeps it in the interval.  The number lies `rest` below the upper end, the middle
`gap`, the lower end `width`; the last digit counts `step`. -/
def lower (gap width step : Nat) : Nat → Nat → Nat → Nat
  | 0, digits, _ => digits
  | n + 1, digits, rest =>
    if rest < gap && rest + step ≤ width
        && (rest + step < gap || rest + step - gap < gap - rest) then
      lower gap width step n (digits - 1) (rest + step)
    else digits

/-- The digits of the multiple of `step` nearest to the middle, if the interval is made larger by
the factor `factor`. -/
def digitsAt (w : Window) (factor step : Nat) : Nat :=
  lower ((w.high - w.middle) * factor) ((w.high - w.low) * factor) step 9
    (w.high * factor / step) (w.high * factor % step)

/-- A decimal number with few digits in the interval.  Digits before the point are tried first: the
fewest of them such that the number below the upper end is not below the lower end.  If all are
needed, so are some behind the point, but no more than nine. -/
def decimal (w : Window) : Decimal :=
  let one := Nat.pow 2 w.places
  let width := w.high - w.low
  let count := (Nat.toDigits 10 (w.high / one)).length
  match (List.range count).reverse.find? fun k => w.high % (Nat.pow 10 k * one) ≤ width with
  | some k => ⟨w.digitsAt 1 (Nat.pow 10 k * one), k⟩
  | none =>
    let enough := fun j => w.high * Nat.pow 10 j % one < width * Nat.pow 10 j
    let j := ((List.range' 1 8).find? enough).getD 9
    ⟨w.digitsAt (Nat.pow 10 j) one, -(j : Int)⟩

end Window

namespace Decimal

def magnitude (d : Decimal) : Int :=
  (Nat.toDigits 10 d.digits).length + d.exponent

def dropZeros : Nat → Decimal → Decimal
  | 0, d => d
  | n + 1, d => if d.digits % 10 == 0 then dropZeros n ⟨d.digits / 10, d.exponent + 1⟩ else d

def sixDigits (d : Decimal) : Decimal :=
  let n := (Nat.toDigits 10 d.digits).length
  if n ≤ 6 then d
  else
    let step := Nat.pow 10 (n - 6)
    dropZeros 10 ⟨(d.digits + step / 2) / step, d.exponent + (n - 6 : Nat)⟩

def positional (d : Decimal) : List Char :=
  let digits := Nat.toDigits 10 d.digits
  if 0 ≤ d.exponent then digits ++ List.replicate d.exponent.toNat '0'
  else
    let behind := (-d.exponent).toNat
    let padded := List.replicate (behind + 1 - digits.length) '0' ++ digits
    padded.take (padded.length - behind) ++ '.' :: padded.drop (padded.length - behind)

/-- The number as a multiple of a power of ten. -/
def scientific (exponent : Int) (d : Decimal) : List Char :=
  positional ⟨d.digits, d.exponent - exponent⟩ ++ 'e' :: (toString exponent).toList

end Decimal

namespace Single

/-- A decimal number with few digits that reads back as the given number. -/
def decimal (x : Single) : Decimal :=
  let (m, e) := x.parts
  let (w, k) := Window.around m e
  let d := w.decimal
  ⟨d.digits, d.exponent + k⟩

/-- The printed form of a number that is not negative.  A number that is whole although it is not
written as an integer keeps a zero behind the point.  Very large and very small numbers are written
with an exponent, which is chosen before the number is cut to six digits: where that makes the
number longer, there are two digits before the point. -/
def render (integer : Bool) (x : Single) : List Char :=
  if x.parts.1 = 0 then (if integer then ['0'] else "0.0".toList)
  else
    let d := x.decimal
    let short := d.sixDigits
    if -6 < d.magnitude && d.magnitude ≤ 21 then
      let text := short.positional
      if !integer && x.isWhole && !text.contains '.' then text ++ ".0".toList else text
    else short.scientific (d.magnitude - 1)

end Single

end StyleBlocks
