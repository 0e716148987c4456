/-! How values, ranges, variables and constraints are written. -/
namespace FiniteDomains

def valueChars : Int → List Char
  | .ofNat n => Nat.toDigits 10 n
  | .negSucc n => '-' :: Nat.toDigits 10 (n + 1)

def valueText (v : Int) : String := String.ofList (valueChars v)

/-- A range is written with two dots between its ends, a single value alone. -/
def rangeChars (lo hi : Int) : List Char :=
  if lo = hi then valueChars lo else valueChars lo ++ '.' :: '.' :: valueChars hi

def rangeText (lo hi : Int) : String := String.ofList (rangeChars lo hi)

/-- The ends of a range in square brackets, which may be inverted. -/
def endsText (lo hi : Int) : String := "[" ++ valueText lo ++ ", " ++ valueText hi ++ "]"

/-- A variable of a store, by its position. -/
abbrev VarId := Nat

/-- A constraint of an engine, by its position. -/
abbrev ConstraintId := Nat

def variableText (x : VarId) : String := "x" ++ toString x

def constraintText (c : ConstraintId) : String := "c" ++ toString c

end FiniteDomains
