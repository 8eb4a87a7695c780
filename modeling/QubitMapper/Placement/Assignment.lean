import QubitMapper.Placement.Basic

/-!
# Published assignments

An assignment tells where each program qubit is when a mapped circuit ends. It puts what a device
measured, one value for each physical qubit, back into program order.
-/

namespace QubitMapper

/-- The physical qubit of each program qubit at the end. -/
structure Assignment where
  places : List Nat
  deriving DecidableEq, Repr

namespace Assignment

/-- The places of the first `n` virtual qubits of a placement. -/
def freeze (p : Placement) (n : Nat) : Assignment := ⟨p.firstSlots n⟩

/-- The values of a device in program order; nothing if a program qubit lies outside them. -/
def restore {α : Type} (a : Assignment) (device : List α) : Option (List α) :=
  a.places.mapM (device[·]?)

/-- A text with one character for each physical qubit, in program order. -/
def restoreText (a : Assignment) (bits : String) : Option String :=
  (a.restore bits.toList).map String.ofList

end Assignment

end QubitMapper
