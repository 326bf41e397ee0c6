import Type1.Decoder

/-!
# Blending of masters

A font with several masters gives each value as that of the first master, and for each other master
the difference to it.

* `blendValue`: one value, the weighted differences added in the order of the masters.
* `blendValues`: a list of values; their differences follow one another, value by value.
* `Decode.blend`: the same on the operand stack.
-/

namespace Type1

/-- The value of the first master with the weighted differences of the others added, one by one. -/
def blendValue (weights : List Number) (base : Number) (differences : List Number) : Number :=
  (weights.zip differences).foldl (fun v (weight, difference) => v + weight * difference) base

/-- Values of the first master, each blended with as many differences as there are weights. -/
def blendValues (weights : List Number) : List Number → List Number → List Number
  | [], _ => []
  | base :: bases, differences =>
    blendValue weights base (differences.take weights.length) ::
      blendValues weights bases (differences.drop weights.length)

/-- Blending keeps the number of values. -/
theorem length_blendValues (weights bases differences : List Number) :
    (blendValues weights bases differences).length = bases.length := by
  induction bases generalizing differences with
  | nil => rfl
  | cons base bases ih => rw [blendValues, List.length_cons, ih, List.length_cons]

/-- Replaces the values of the first master and the differences on top of the operand stack by `n`
blended values. -/
def Decode.blend (setup : Setup) (n : Nat) : Decode Unit := do
  let masters := setup.font.masters
  if masters ≤ 1 ∨ Storage.maxMasters < masters then throw .invalidWeightVector
  let values := (← take (n * masters)).toList
  let weights := segment (← get).storage.weights 1 (masters - 1)
  pushAll (blendValues weights (values.take n) (values.drop n))
  modify ({ · with blended := true })

end Type1
