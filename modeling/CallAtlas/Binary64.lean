import CallAtlas.Bytes

/-! # Binary64 numbers and their decimal text

Reading rounds the exact ratio that a decimal literal writes to the nearest binary64 number, a tie
going to the even significand. Writing takes the exact value of the number, rounds it to seventeen
significant digits with ties to even, and drops trailing zeros. Both work on natural numbers only;
`Float.ofBits` and `Float.toBits` are the only contact with machine floats.
-/
namespace CallAtlas.Binary64

/-- The quotient rounded to the nearest natural number, a tie going to the even one. -/
def roundDiv (num den : Nat) : Nat :=
  let q := num / den
  let r := 2 * (num % den)
  if r < den then q else if den < r then q + 1 else q + q % 2

theorem roundDiv_bounds (num den : Nat) :
    num / den ≤ roundDiv num den ∧ roundDiv num den ≤ num / den + 1 := by
  simp only [roundDiv]
  split
  · omega
  · split <;> omega

def scale2 (num den : Nat) (k : Int) : Nat × Nat :=
  (num <<< k.toNat, den <<< (-k).toNat)

def scale10 (num den : Nat) (k : Int) : Nat × Nat :=
  (num * Nat.pow 10 k.toNat, den * Nat.pow 10 (-k).toNat)

/-! ### Reading -/

/-- The exponent of the last significand bit: 53 bits are kept, and none below `2 ^ -1074`. -/
def lastBit (num den : Nat) : Int :=
  let guess : Int := (Nat.log2 num : Int) - (Nat.log2 den : Int) - 53
  let (n, d) := scale2 num den (-guess)
  max (-1074) (if n / d < 1 <<< 53 then guess else guess + 1)

/-- The bits of the binary64 number nearest to `num / den`, for a positive `den`. Values from the
rounding limit on are infinite. -/
def nearestBits (num den : Nat) : UInt64 :=
  if num = 0 then 0
  else
    let e := lastBit num den
    let (n, d) := scale2 num den (-e)
    -- A significand that rounds up to the next power of two carries into the exponent field.
    let bits := ((e + 1074).toNat <<< 52) + roundDiv n d
    UInt64.ofNat (min bits (0x7FF <<< 52))

/-- The number nearest to `m * 10 ^ e`. An exponent far outside the range of binary64 decides the
result by itself. -/
def ofDecimal (negative : Bool) (m : Nat) (e : Int) : Float :=
  let magnitude : UInt64 :=
    if m = 0 then 0
    else
      let top := e + (Bytes.decimal m).length
      if 400 < top then 0x7FF0000000000000
      else if top < -400 then 0
      else
        let (n, d) := scale10 m 1 e
        nearestBits n d
  Float.ofBits (if negative then magnitude + 0x8000000000000000 else magnitude)

def ofInt (i : Int) : Float := ofDecimal (i < 0) i.natAbs 0

/-! ### Writing -/

def precision : Nat := 17

def decimalExponent (num den : Nat) : Int :=
  let guess : Int := ((Bytes.decimal num).length : Int) - (Bytes.decimal den).length
  let (n, d) := scale10 num den (-guess)
  if d ≤ n then guess else guess - 1

def significant (num den : Nat) : Bytes × Int :=
  let e := decimalExponent num den
  let (n, d) := scale10 num den ((precision : Int) - 1 - e)
  let rounded := Bytes.decimal (roundDiv n d)
  let digits := (rounded.reverse.dropWhile fun (b : UInt8) => b == '0').reverse
  (digits, if precision < rounded.length then e + 1 else e)

def fraction (digits : Bytes) : Bytes :=
  if digits.isEmpty then [] else '.' :: digits

/-- Digits written positionally for exponents from -4 up to the precision, and otherwise with a
signed exponent of at least two digits. -/
def layout (digits : Bytes) (e : Int) : Bytes :=
  if e < -4 ∨ (precision : Int) ≤ e then
    let power := Bytes.decimal e.natAbs
    let padded : Bytes := if power.length < 2 then '0' :: power else power
    digits.take 1 ++ fraction (digits.drop 1) ++ text (if e < 0 then "e-" else "e+") ++ padded
  else if e < 0 then
    text "0." ++ List.replicate ((-e).toNat - 1) ('0' : UInt8) ++ digits
  else
    let whole := e.toNat + 1
    digits.take whole ++ List.replicate (whole - digits.length) ('0' : UInt8) ++
      fraction (digits.drop whole)

def ratio (bits : Nat) : Nat × Nat :=
  let e : Nat := bits >>> 52
  let m : Nat := bits % (1 <<< 52)
  if e = 0 then scale2 m 1 (-1074) else scale2 (m + (1 <<< 52)) 1 ((e : Int) - 1075)

/-- The text of a finite number; `none` for an infinity or a NaN. The text always shows a point or
an exponent, so that it reads back as a float. -/
def toText? (f : Float) : Option Bytes :=
  let bits := f.toBits.toNat
  let magnitude := bits % (1 <<< 63)
  if 0x7FF <<< 52 ≤ magnitude then none
  else
    let sign : Bytes := if 1 <<< 63 ≤ bits then ['-'] else []
    let body : Bytes :=
      if magnitude = 0 then ['0']
      else
        let (n, d) := ratio magnitude
        let (digits, e) := significant n d
        layout digits e
    let marked := if body.any (fun b => b == '.' || b == 'e') then body else body ++ text ".0"
    some (sign ++ marked)

end CallAtlas.Binary64
