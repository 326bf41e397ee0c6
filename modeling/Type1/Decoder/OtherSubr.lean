import Type1.Decoder.Blend
import Type1.Decoder.Calculate
import Type1.Decoder.Flex
import Type1.Decoder.Hint

/-!
# The other subroutines

An other subroutine is called with a count of arguments and a selector on the operand stack. What it
leaves there are its results, so fetching a result moves nothing.

* `OtherSubr.ofSelector?`: the subroutines by their selectors.
* `OtherSubr.arity`: how many operands each needs, whatever the count of arguments says.
* `Decode.callOtherSubr`: the call.
-/

namespace Type1

/-- The other subroutines. -/
inductive OtherSubr where
  /-- Ends a flex. -/
  | endFlex
  /-- Starts a flex. -/
  | startFlex
  /-- Marks a point of a flex. -/
  | flexPoint
  /-- Asks for a new set of hints. -/
  | renewHints
  /-- Counter hints, and whether they are the last. -/
  | counterHints (complete : Bool)
  /-- Blends a number of values. -/
  | blend (n : Nat)
  /-- Copies the weights into cells. -/
  | storeWeights
  /-- Performs a calculation. -/
  | calculate (op : Calculation)
deriving DecidableEq, Repr

namespace OtherSubr

/-- The subroutine that a selector stands for. -/
def ofSelector? : Int → Option OtherSubr
  | 0 => some endFlex
  | 1 => some startFlex
  | 2 => some flexPoint
  | 3 => some renewHints
  | 12 => some (counterHints false)
  | 13 => some (counterHints true)
  | 14 => some (blend 1)
  | 15 => some (blend 2)
  | 16 => some (blend 3)
  | 17 => some (blend 4)
  | 18 => some (blend 6)
  | 19 => some storeWeights
  | 20 => some (calculate .add)
  | 21 => some (calculate .sub)
  | 22 => some (calculate .mul)
  | 23 => some (calculate .div)
  | 24 => some (calculate .put)
  | 25 => some (calculate .get)
  | 27 => some (calculate .ifelse)
  | 28 => some (calculate .random)
  | 29 => some (calculate .dup)
  | 30 => some (calculate .exch)
  | _ => none

/-- The number of operands that a subroutine needs, called with `n` arguments. Blending counts its
operands itself, after it has looked at the number of masters. -/
def arity (n : Nat) : OtherSubr → Nat
  | endFlex => 3
  | startFlex | flexPoint | blend _ => 0
  | renewHints | storeWeights => 1
  | counterHints _ => n
  | calculate op => op.arity

end OtherSubr

namespace Decode

/-- Copies the weights of the masters into cells from an index on. -/
def storeWeights (setup : Setup) : Decode Unit := do
  let masters := setup.font.masters
  if Storage.maxMasters < masters then throw .invalidWeightVector
  let v ← take 1
  let cell ← toIndex v.first
  if cell + masters ≤ Storage.cellCount then
    modify fun d =>
      { d with storage := d.storage.writeCells cell (segment d.storage.weights 0 masters) }
  else
    throw .boundsCheck

/-- Performs an other subroutine with `n` arguments. -/
def performOtherSubr (setup : Setup) (n : Nat) : OtherSubr → Decode Unit
  | .endFlex => endFlex setup n
  | .startFlex => modify (·.startFlex)
  | .flexPoint => pure ()
  | .renewHints => modify (·.renewHints)
  | .counterHints complete => counterHints setup n complete
  | .blend k => blend setup k
  | .storeWeights => storeWeights setup
  | .calculate op => calculate op

/-- Calls the other subroutine that the top operand selects, with the number of arguments that the
operand below it states. -/
def callOtherSubr (setup : Setup) : Decode Unit := do
  let v ← take 2
  let n ← toIndex v.first
  require n
  let selector ← orFail .invalidOtherSubr v.second.truncate?
  match OtherSubr.ofSelector? selector with
  | some subr =>
    require (subr.arity n)
    performOtherSubr setup n subr
  | none => refuse (.unknownOtherSubr selector) .invalidOtherSubr

end Decode

end Type1
