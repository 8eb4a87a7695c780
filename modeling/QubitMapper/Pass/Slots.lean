/-!
# Slots

A family of optional values: each name has a slot of its own type, which is empty or holds a value.

## Main results

* `get?_insert`, `get?_remove`, `get?_modify`: what a slot holds after each change.
-/

namespace QubitMapper

/-- Optional values by name, each of the type that belongs to its name. -/
structure Slots {ι : Type} (β : ι → Type) where
  get? : (i : ι) → Option (β i)

namespace Slots

variable {ι : Type} [DecidableEq ι] {β : ι → Type}

/-- All slots empty. -/
def empty : Slots β := ⟨fun _ => none⟩

/-- The slots with one of them set. -/
def set (s : Slots β) (i : ι) (value : Option (β i)) : Slots β :=
  ⟨fun j => if h : j = i then h ▸ value else s.get? j⟩

/-- The slots with a value put into one of them. -/
def insert (s : Slots β) (i : ι) (b : β i) : Slots β := s.set i (some b)

/-- The slots with one of them emptied. -/
def remove (s : Slots β) (i : ι) : Slots β := s.set i none

/-- The slots with the value of one of them changed, if there is one. -/
def modify (s : Slots β) (i : ι) (f : β i → β i) : Slots β := s.set i ((s.get? i).map f)

@[simp] theorem get?_set_self (s : Slots β) (i : ι) (value : Option (β i)) :
    (s.set i value).get? i = value := by
  simp [set]

@[simp] theorem get?_set_of_ne (s : Slots β) {i j : ι} (value : Option (β i)) (h : j ≠ i) :
    (s.set i value).get? j = s.get? j := by
  simp [set, h]

@[simp] theorem get?_insert (s : Slots β) (i : ι) (b : β i) :
    (s.insert i b).get? i = some b := by
  simp [insert]

@[simp] theorem get?_remove (s : Slots β) (i : ι) : (s.remove i).get? i = none := by
  simp [remove]

@[simp] theorem get?_modify (s : Slots β) (i : ι) (f : β i → β i) :
    (s.modify i f).get? i = (s.get? i).map f := by
  simp [modify]

end Slots

end QubitMapper
