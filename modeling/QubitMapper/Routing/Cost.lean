import QubitMapper.Device.Basic
import QubitMapper.Placement.Basic
import QubitMapper.Routing.Frontier

/-!
# The cost of a swap

A layer costs the mean over its operations of one less than the distance of their two qubits. A swap
is judged by the layers as they would stand after it, and by how much its qubits were swapped of
late.
-/

namespace QubitMapper

namespace Cost

/-- What the two qubits of an operation add to the cost of a layer; nothing if there is no way
between them. -/
def distance? (d : Device) (p : Placement) (r : ReadyOp) : Option Float :=
  match r.qubits with
  | [v, w] =>
      match p.slot? v, p.slot? w with
      | some a, some b => (d.distance? a b).map fun n => n.toUInt64.toFloat - 1.0
      | _, _ => none
  | _ => none

/-- The cost of a layer. -/
def layer (d : Device) (p : Placement) (ops : List ReadyOp) : Float :=
  if ops.isEmpty then 0.0
  else (ops.filterMap (distance? d p)).foldl (· + ·) 0.0 / ops.length.toUInt64.toFloat

/-- The cost of the two layers, the operations ahead weighted by `weight`. -/
def layers (d : Device) (p : Placement) (front ahead : List ReadyOp) (weight : Float) : Float :=
  let cost := layer d p front
  if ahead.isEmpty then cost
  else
    cost / front.length.toUInt64.toFloat +
      weight * (layer d p ahead / ahead.length.toUInt64.toFloat)

/-- The greater of two floats, and the number if one of them is none. -/
def greater (x y : Float) : Float :=
  if x.isNaN then y else if y.isNaN then x else if x < y then y else x

end Cost

/-- The first of some things whose cost no other one is below. -/
def firstCheapest {α γ : Type} [LT γ] [DecidableLT γ] (cost : α → γ) :
    List α → Option α
  | [] => none
  | a :: rest => some (go a (cost a) rest)
where
  /-- The search continued from the cheapest thing so far. -/
  go (best : α) (lowest : γ) : List α → α
    | [] => best
    | a :: rest =>
        let c := cost a
        if c < lowest then go a c rest else go best lowest rest

end QubitMapper
