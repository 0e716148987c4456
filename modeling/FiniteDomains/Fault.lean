import FiniteDomains.Text

/-! Misuse of the library. A fault ends the computation it arises in, unlike the emptying of a
domain, which is an answer that a search goes on from. -/
namespace FiniteDomains

/-- What was asked for that cannot be done. -/
inductive Fault where
  | malformedInterval (lo hi : Int)
  | malformedRange (lo hi : Int)
  | shiftOutside (offset : Int)
  | sparseComplement (lo hi : Int) (limit : Nat)
  | emptyStart (x : VarId)
  | changedAbove (x : VarId) (stamp level : Nat)
  | notActive (position active : Nat)
  | emptyVariable (lo hi : Int)
  | variableBelowRoot (level : Nat)
  | backtrackUp (current level : Nat)
  | propagatorBelowRoot
  | emptyInStore
  | noSuchEntry
  | notAtFixedPoint
  | unsettled
  deriving DecidableEq, Repr

def Fault.message : Fault → String
  | .malformedInterval lo hi => "malformed interval " ++ endsText lo hi
  | .malformedRange lo hi => "malformed range " ++ endsText lo hi
  | .shiftOutside offset =>
    "cannot shift by " ++ valueText offset ++ ", which is outside the universe"
  | .sparseComplement lo hi limit =>
    "the sparse complement over " ++ rangeText lo hi ++ " exceeds the limit of "
      ++ toString limit ++ " values"
  | .emptyStart x => "variable " ++ variableText x ++ " cannot start with an empty domain"
  | .changedAbove x stamp level =>
    variableText x ++ " was changed at level " ++ toString stamp
      ++ " and cannot be changed at level " ++ toString level
  | .notActive position active =>
    "position " ++ toString position ++ " is not an active entry, only " ++ toString active
      ++ " are active"
  | .emptyVariable lo hi => "cannot create a variable with domain " ++ endsText lo hi
  | .variableBelowRoot level =>
    "variables can only be created at the root, the current level is " ++ toString level
  | .backtrackUp current level =>
    "cannot backtrack from level " ++ toString current ++ " to level " ++ toString level
  | .propagatorBelowRoot => "propagators can only be added at the root"
  | .emptyInStore => "domains in the store are never empty"
  | .noSuchEntry => "index out of bounds"
  | .notAtFixedPoint => "assertion failed"
  | .unsettled => "propagation did not settle"

end FiniteDomains
