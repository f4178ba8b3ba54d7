import LargeBuffers.Span.ReadOnly

/-! # Writable spans

A window is a writable span on its bytes. It is sliced and cast as a window, has constructors
and checked accesses of its own, and leaves copies to the read-only span on the same bytes.
-/

namespace LargeBuffers

def indexPanic (len index : UInt64) : Failure :=
  .panic (some ("index out of range: " ++ toString index ++ " >= " ++ toString len))

namespace Window

/-! ## Constructors -/

def fromArray (e : Element) (array : Option Contents) (start length : UInt64) :
    Except Error Window :=
  match array with
  | none => if start = 0 ∧ length = 0 then .ok (empty e) else .error (.nullArgument "array")
  | some c => do
    checkRange c.count start length
    return (whole c).sub start length

/-- The first `length` values at a pointer, by the word of the caller. -/
def fromRawParts (pointer : Option Contents) (length : UInt64) : Except Error Window :=
  match pointer with
  | none => .error (.nullArgument "pointer")
  | some c => do
    checkByteLength c.element.stride length
    return (whole c).sub 0 length

/-! ## Requests -/

variable (w : Window)

def fetch (index : UInt64) (bytes : List UInt8) : Except Error Value := do
  checkIndex w.len index
  return w.get index bytes

def index (i : UInt64) (bytes : List UInt8) : Except Failure Value :=
  if i < w.len then .ok (w.get i bytes) else .error (indexPanic w.len i)

def copyTo (bytes : List UInt8) (dest : Contents) : Except Error Contents :=
  w.asReadOnly.copyTo bytes dest

def tryCopyTo (bytes : List UInt8) (dest : Contents) : Bool × Contents :=
  w.asReadOnly.tryCopyTo bytes dest

def describe : String :=
  "LargeSpan" ++ " \x7b type: \"" ++ w.element.name ++ "\", len: " ++ toString w.len ++ ", .. \x7d"

end Window

end LargeBuffers
