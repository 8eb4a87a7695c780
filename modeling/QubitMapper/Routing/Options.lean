import QubitMapper.Decimal.Shortest

/-!
# Routing options
-/

namespace QubitMapper

/-- What steers the choice of swaps. -/
structure Options where
  /-- The greatest number of operations that are looked at ahead; none for zero. -/
  lookaheadSize : Nat := 20
  /-- The weight of the operations ahead beside those that wait. -/
  lookaheadWeight : Float := 0.5
  /-- What a swap adds to the weight of its two qubits. -/
  decayStep : Float := 0.5
  /-- After this many searches for a swap all weights start afresh. -/
  decayPeriod : Nat := 5
  /-- After this many swaps without progress the oldest waiting operation is forced. -/
  releaseAfter : Nat := 100

/-- Why options cannot be used. -/
inductive OptionsError where
  | zeroDecayPeriod
  | zeroReleaseAfter
  | badLookaheadWeight (value : Float)
  | badDecayStep (value : Float)

/-- The wording of an error. -/
def OptionsError.message : OptionsError → String
  | zeroDecayPeriod => "Invalid pass configuration: rounds_decay_reset must be at least 1"
  | zeroReleaseAfter => "Invalid pass configuration: release_valve must be at least 1"
  | badLookaheadWeight x =>
      "Invalid pass configuration: extended_layer_weight must be a non-negative number, got " ++
        Decimal.messageText x
  | badDecayStep x =>
      "Invalid pass configuration: decay_delta must be a non-negative number, got " ++
        Decimal.messageText x

namespace Options

/-- Whether a float is a number that is not negative. -/
def isWeight (x : Float) : Bool := x.isFinite && !(x < 0.0)

/-- The options can be used. -/
def validate (o : Options) : Except OptionsError Unit :=
  if o.decayPeriod = 0 then .error .zeroDecayPeriod
  else if o.releaseAfter = 0 then .error .zeroReleaseAfter
  else if !isWeight o.lookaheadWeight then .error (.badLookaheadWeight o.lookaheadWeight)
  else if !isWeight o.decayStep then .error (.badDecayStep o.decayStep)
  else .ok ()

end Options

end QubitMapper
