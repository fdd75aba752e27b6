import SiteTree.Number.Power

/-!
The shortest decimal that reads back as a given binary floating point number, and its layouts.
-/

namespace SiteTree.Number

structure Binary where
  mantissa : Nat
  exponent : Int
  deriving DecidableEq, Repr

structure Decimal where
  digits : Nat
  exponent : Int
  deriving DecidableEq, Repr

def isNegative (f : Float) : Bool := f.toBits.toNat / twoTo 63 == 1

def binary (f : Float) : Binary :=
  let bits := f.toBits.toNat % twoTo 63
  let e := bits / twoTo 52
  let m := bits % twoTo 52
  if e = 0 then ⟨m, -1074⟩ else ⟨m + twoTo 52, Int.ofNat e - 1075⟩

/-- A ratio of two whole numbers for `n · 2 ^ b · 10 ^ d`. -/
def ratio (n : Nat) (b d : Int) : Nat × Nat :=
  (n * twoTo b.toNat * tenTo d.toNat, twoTo (-b).toNat * tenTo (-d).toNat)

def digitCount (n : Nat) : Nat := (Nat.toDigits 10 n).length

/-- The number of decimal digits in front of the point, or minus the zeros right after it. -/
def magnitude (x : Binary) : Int :=
  let (n, d) := ratio x.mantissa x.exponent 0
  if d ≤ n then digitCount (n / d)
  else
    let l := digitCount (d / n)
    if tenTo (l - 1) * n = d then 2 - (l : Int) else 1 - (l : Int)

/-- Ends of the interval that reads back as the number, in quarters of its last place. -/
def readBack (x : Binary) : Nat × Nat :=
  let lower := if x.mantissa = twoTo 52 && -1074 < x.exponent then 1 else 2
  (4 * x.mantissa - lower, 4 * x.mantissa + 2)

/-- The neighbour of the number on the grid of `10 ^ e` that reads back and is nearest. -/
def onGrid? (x : Binary) (e : Int) : Option Nat :=
  let (lo, hi) := readBack x
  let (n, d) := ratio (4 * x.mantissa) (x.exponent - 2) (-e)
  let (ln, _) := ratio lo (x.exponent - 2) (-e)
  let (hn, _) := ratio hi (x.exponent - 2) (-e)
  let fits (c : Nat) : Bool :=
    if x.mantissa % 2 = 0 then ln ≤ c * d && c * d ≤ hn else ln < c * d && c * d < hn
  let c := n / d
  let below := n - c * d
  let above := (c + 1) * d - n
  match fits c, fits (c + 1) with
  | true, true => some (if below < above || (below == above && c % 2 == 0) then c else c + 1)
  | true, false => some c
  | false, true => some (c + 1)
  | false, false => none

def strip : Nat → Decimal → Decimal
  | 0, x => x
  | n + 1, x =>
    if x.digits ≠ 0 && x.digits % 10 = 0 then strip n ⟨x.digits / 10, x.exponent + 1⟩ else x

/-- The first grid with a hit, from one digit upwards; seventeen digits always suffice. -/
def shortest (x : Binary) : Decimal :=
  if x.mantissa = 0 then ⟨0, 0⟩
  else
    let top := magnitude x
    let grids := (List.range 17).map fun (i : Nat) => top - 1 - (i : Int)
    match grids.findSome? fun e => (onGrid? x e).map fun c => Decimal.mk c e with
    | some r => strip 20 r
    | none => ⟨x.mantissa, 0⟩

/-- Where positional writing ends, and whether a positive exponent gets a sign. -/
structure Layout where
  lowest : Option Int
  highest : Option Int
  plus : Bool
  deriving Repr

/-- Positional from five zeros after the point up to sixteen digits before it. -/
def Layout.compact : Layout := ⟨some (-4), some 16, true⟩

def Layout.positional : Layout := ⟨none, none, true⟩

/-- As compact as before, but with fewer zeros and no sign before a positive exponent. -/
def Layout.plain : Layout := ⟨some (-3), some 16, false⟩

/-- A decimal text always shows a point or an exponent. -/
def Decimal.text (layout : Layout) (x : Decimal) : String :=
  let ds := Nat.toDigits 10 x.digits
  let len : Int := ds.length
  let point := len + x.exponent
  let plain := layout.lowest.all (· ≤ point) && layout.highest.all (point ≤ ·)
  if x.digits = 0 then "0.0"
  else if plain then
    if point ≤ 0 then "0." ++ String.ofList (List.replicate (-point).toNat '0' ++ ds)
    else if len ≤ point then String.ofList (ds ++ List.replicate (point - len).toNat '0') ++ ".0"
    else String.ofList (ds.take point.toNat) ++ "." ++ String.ofList (ds.drop point.toNat)
  else
    let e := point - 1
    let tail := if ds.length = 1 then [] else '.' :: ds.drop 1
    String.ofList (ds.take 1 ++ tail) ++
      (if e < 0 then "e-" else if layout.plus then "e+" else "e") ++ toString e.natAbs

def floatText (layout : Layout) (f : Float) : String :=
  (if isNegative f then "-" else "") ++ (shortest (binary f)).text layout

end SiteTree.Number
