/-!
# Decimals

A number that is not whole is held in 64 bits: it is a multiple of the least positive value with at
most 53 significant bits. Such a value is given here by how many times it holds the least one. It
is written with the fewest digits that read back to it.
-/

namespace Flowchart.Decimal

/-- One is this many times the least positive value. -/
def one : Nat := Nat.pow 2 1074

/-- The quotient rounded to nearest, halves to the even side. -/
def roundDiv (num den : Nat) : Nat :=
  let q := num / den
  let twice := 2 * (num % den)
  if twice < den ∨ twice = den ∧ q % 2 = 0 then q else q + 1

/-- The step from a value to the next one of its size. -/
def gap (n : Nat) : Nat := Nat.pow 2 (n.log2 - 52)

/-- The value nearest to a fraction, unless that is too large. -/
def round? (num den : Nat) : Option Nat :=
  let step := gap (num / den)
  let n := roundDiv num (den * step) * step
  if n < Nat.pow 2 1024 * one then some n else none

def mul? (a b : Nat) : Option Nat := round? (a * b) one

def div? (a b : Nat) : Option Nat := round? (a * one) b

def powerOfTen? (k : Nat) : Option Nat := round? (Nat.pow 10 k * one) 1

/-- As many of the digits of a number as fit 64 bits, and the power of ten that they are for. -/
structure Scientific where
  digits : Nat
  exponent : Int

def Scientific.fits (s : Scientific) (digit : Nat) : Bool := 10 * s.digits + digit < Nat.pow 2 64

/-- Takes the digits before the point. Those that do not fit count as zeros. -/
def Scientific.addWhole (s : Scientific) : List Nat → Scientific
  | [] => s
  | digit :: rest =>
    if s.fits digit then addWhole { s with digits := 10 * s.digits + digit } rest
    else { s with exponent := s.exponent + (rest.length + 1) }

/-- Takes the digits after the point. Those that do not fit are left out. -/
def Scientific.addFraction (s : Scientific) : List Nat → Scientific
  | [] => s
  | digit :: rest =>
    if s.fits digit then addFraction ⟨10 * s.digits + digit, s.exponent - 1⟩ rest else s

def Scientific.ofParts (whole fraction : List Nat) (exponent : Int) : Scientific :=
  let s := (Scientific.mk 0 0).addWhole whole |>.addFraction fraction
  { s with exponent := s.exponent + exponent }

/-- A value times a power of ten, by steps of at most 308. Since what fits 64 bits is zero after
three divisions by that power, four steps are enough. -/
def scale? : Nat → Nat → Int → Option Nat
  | 0, n, _ => some n
  | steps + 1, n, exponent =>
    if exponent.natAbs ≤ 308 then
      if 0 ≤ exponent then do mul? n (← powerOfTen? exponent.natAbs)
      else do div? n (← powerOfTen? exponent.natAbs)
    else if n = 0 then some 0
    else if 0 < exponent then none
    else do scale? steps (← div? n (← powerOfTen? 308)) (exponent + 308)

/-- The value of a number, unless it is too large. -/
def Scientific.value? (s : Scientific) : Option Nat := do
  scale? 4 (← round? (s.digits * one) 1) s.exponent

/-- Compares `digits * 10 ^ exponent` with a quarter of `quarters` values. -/
def compareScaled (digits : Nat) (exponent : Int) (quarters : Nat) : Ordering :=
  compare (4 * digits * Nat.pow 10 exponent.toNat * one) (quarters * Nat.pow 10 (-exponent).toNat)

/-- Whether `digits * 10 ^ exponent` reads back to `n`. Below a power of two the values stand twice
as close as above it. -/
def readsBack (n digits : Nat) (exponent : Int) : Bool :=
  let below := if n = Nat.pow 2 n.log2 ∧ 1 < gap n then gap n else 2 * gap n
  let low := compareScaled digits exponent (4 * n - below)
  let high := compareScaled digits exponent (4 * n + 2 * gap n)
  let even := n / gap n % 2 = 0
  (low = .gt ∨ low = .eq ∧ even) ∧ (high = .lt ∨ high = .eq ∧ even)

/-- The least power of ten above a value, found from its size in bits. -/
def magnitude (n : Nat) : Int :=
  let guess := ((n.log2 : Int) - 1074) * 1233 / 4096
  ([guess, guess + 1].find? fun k => compareScaled 1 k (4 * n) = .gt).getD (guess + 2)

/-- The two decimals next to `n` with a last digit for `10 ^ exponent`. Of those that read back, the
nearer one is chosen, and the even one if both are as near. -/
def candidate? (n : Nat) (exponent : Int) : Option Nat :=
  let c := n * Nat.pow 10 (-exponent).toNat / (one * Nat.pow 10 exponent.toNat)
  match readsBack n c exponent, readsBack n (c + 1) exponent with
  | false, false => none
  | true, false => some c
  | false, true => some (c + 1)
  | true, true =>
    match compareScaled (2 * c + 1) exponent (8 * n) with
    | .gt => some c
    | .lt => some (c + 1)
    | .eq => some (if c % 2 = 0 then c else c + 1)

/-- The fewest digits that read back to a value that is not zero, and the power of ten of the last
one. Seventeen digits always do. -/
def shortest (n : Nat) : Nat × Int :=
  let top := magnitude n
  let found := (List.range' 1 17).findSome? fun (count : Nat) =>
    (candidate? n (top - count)).map fun digits => (digits, top - count)
  match found with
  | some (digits, exponent) =>
    if digits % 10 = 0 then (digits / 10, exponent + 1) else (digits, exponent)
  | none => (n, 0)

def zeros (count : Nat) : List Char := List.replicate count '0'

/-- A value without its sign. From 1e-5 up to, but not including, 1e16 the point stands in its
place; otherwise there is one digit before it, and an exponent with its sign. -/
def text (n : Nat) : List Char :=
  if n = 0 then ['0', '.', '0']
  else
    let (digits, exponent) := shortest n
    let ds := Nat.toDigits 10 digits
    let point := (ds.length : Int) + exponent
    if 0 ≤ exponent ∧ point ≤ 16 then ds ++ zeros exponent.toNat ++ ['.', '0']
    else if 0 < point ∧ point ≤ 16 then ds.take point.toNat ++ '.' :: ds.drop point.toNat
    else if -5 < point ∧ point ≤ 0 then ['0', '.'] ++ zeros (-point).toNat ++ ds
    else
      let mantissa := match ds with
        | [d] => [d]
        | d :: rest => d :: '.' :: rest
        | [] => []
      mantissa ++ ['e', if 0 < point then '+' else '-'] ++ Nat.toDigits 10 (point - 1).natAbs

end Flowchart.Decimal
