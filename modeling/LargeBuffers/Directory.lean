/-! # Directories

A directory maps names to entries. A name has at most one entry; putting a new one under it
takes the old one's place.
-/

namespace LargeBuffers

abbrev Directory (α : Type) := List (String × α)

namespace Directory

variable {α : Type}

def get? (d : Directory α) (name : String) : Option α :=
  (d.find? (·.1 == name)).map (·.2)

def erase (d : Directory α) (name : String) : Directory α :=
  d.filter (·.1 != name)

def put (d : Directory α) (name : String) (a : α) : Directory α :=
  d.erase name ++ [(name, a)]

def sorted (d : Directory α) : Directory α :=
  d.mergeSort fun x y => x.1 ≤ y.1

@[simp]
theorem get?_erase_self (d : Directory α) (name : String) : (d.erase name).get? name = none := by
  simp [get?, erase]

theorem get?_erase_of_ne {d : Directory α} {name other : String} (h : other ≠ name) :
    (d.erase name).get? other = d.get? other := by
  simp only [get?, erase, List.find?_filter]
  congr 2
  funext x
  by_cases hx : x.1 = other <;> simp [hx, h]

@[simp]
theorem get?_put_self (d : Directory α) (name : String) (a : α) :
    (d.put name a).get? name = some a := by
  have h : (d.erase name).find? (·.1 == name) = none := by simp [erase]
  simp [get?, put, List.find?_append, h]

theorem get?_put_of_ne {d : Directory α} {name other : String} (a : α) (h : other ≠ name) :
    (d.put name a).get? other = d.get? other := by
  rw [← get?_erase_of_ne (d := d) h, get?, put, List.find?_append]
  simp [get?, Ne.symm h]

end Directory

end LargeBuffers
