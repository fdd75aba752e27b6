import SiteTree.Number.Power

/-!
The binary floating point number nearest to an exact ratio.
-/

namespace SiteTree.Number

/-- The whole number nearest to a ratio; a half goes to the even neighbour. -/
def roundRatio (num den : Nat) : Nat :=
  let q := num / den
  let twice := 2 * (num % den)
  if twice < den then q
  else if twice = den then q + q % 2
  else q + 1

theorem roundRatio_near (num : Nat) {den : Nat} (h : 0 < den) :
    2 * num ≤ (2 * roundRatio num den + 1) * den ∧ 2 * roundRatio num den * den ≤ 2 * num + den := by
  have hq : den * (num / den) + num % den = num := Nat.div_add_mod num den
  have hr : num % den < den := Nat.mod_lt _ h
  have h2 : num / den % 2 = 0 ∨ num / den % 2 = 1 := Nat.mod_two_eq_zero_or_one _
  simp only [roundRatio]
  generalize num / den = q at *
  generalize num % den = r at *
  subst hq
  split
  next hlt => constructor <;> grind
  next =>
    split
    next he =>
      rcases h2 with h2 | h2 <;> rw [h2] <;> constructor <;> grind
    next hne => constructor <;> grind

def scaledRatio (num den : Nat) (q : Int) : Nat :=
  if q ≤ 0 then roundRatio (num * twoTo (-q).toNat) den
  else roundRatio num (den * twoTo q.toNat)

/-- Bits of the number `m · 2 ^ q`, where `m` has at most 53 bits and `q` is at least -1074. -/
def packBits (m : Nat) (q : Int) : Nat :=
  if m < twoTo 52 then m
  else
    let e := (q + 1075).toNat
    if 2047 ≤ e then 2047 * twoTo 52 else e * twoTo 52 + (m - twoTo 52)

/-- The exponent is chosen so that 53 bits remain, or as low as exponents go. -/
def ratioBits (num den : Nat) : Nat :=
  if num = 0 then 0
  else
    let guess : Int := (num.log2 : Int) - den.log2 - 52
    let q := max (-1074) (if scaledRatio num den guess < twoTo 52 then guess - 1 else guess)
    let m := scaledRatio num den q
    if m < twoTo 53 then packBits m q else packBits (m / 2) (q + 1)

def ofRatio (num den : Nat) : Float := Float.ofBits (ratioBits num den).toUInt64

def ofDecimal (digits : Nat) (exponent : Int) : Float :=
  if digits = 0 then 0.0
  else if 400 < exponent then Float.ofBits 0x7FF0000000000000
  else if exponent + (Nat.log2 digits : Int) < -1500 then 0.0
  else if 0 ≤ exponent then ofRatio (digits * tenTo exponent.toNat) 1
  else ofRatio digits (tenTo (-exponent).toNat)

end SiteTree.Number
