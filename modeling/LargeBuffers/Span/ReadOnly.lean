import LargeBuffers.Window

/-! # Read-only spans

A read-only span has constructors, requests, slices, casts and copies of its own. It shares
nothing with the writable span but the guards of ranges and of byte lengths.
-/

namespace LargeBuffers

/-- A destination holds at least as many values as a copy has to bring. -/
def checkCopy (source dest : UInt64) : Except Error Unit :=
  if source ≤ dest then .ok ()
  else .error (.outOfRange "destination" ("destination length " ++ toString dest ++
    " is shorter than source length " ++ toString source))

structure ReadOnlySpan where
  element : Element
  offset : UInt64
  len : UInt64
  deriving DecidableEq, Repr

namespace ReadOnlySpan

variable (s : ReadOnlySpan)

def place (index : UInt64) : UInt64 := s.offset + index * s.element.stride

def sliceUnchecked (start length : UInt64) : ReadOnlySpan where
  element := s.element
  offset := s.place start
  len := length

/-! ## Constructors -/

def empty (e : Element) : ReadOnlySpan where
  element := e
  offset := e.align
  len := 0

def new (array : Contents) : ReadOnlySpan where
  element := array.element
  offset := 0
  len := array.count

/-- A missing array has the empty range alone. -/
def fromArray (e : Element) (array : Option Contents) (start length : UInt64) :
    Except Error ReadOnlySpan :=
  match array with
  | none => if start = 0 ∧ length = 0 then .ok (empty e) else .error (.nullArgument "array")
  | some c => do
    checkRange c.count start length
    return (new c).sliceUnchecked start length

/-- The first `length` values at a pointer, by the word of the caller. -/
def fromRawParts (pointer : Option Contents) (length : UInt64) : Except Error ReadOnlySpan :=
  match pointer with
  | none => .error (.nullArgument "pointer")
  | some c => do
    checkByteLength c.element.stride length
    return { element := c.element, offset := 0, len := length }

/-! ## Requests -/

def contents (bytes : List UInt8) : Contents where
  element := s.element
  count := s.len
  bytes := (bytes.drop s.offset.toNat).take (s.len.toNat * s.element.size)

/-- The value at `index`, whether it belongs to the span or not. -/
def get (index : UInt64) (bytes : List UInt8) : Value :=
  s.element.decode ((bytes.drop (s.place index).toNat).take s.element.size)

def fetch (index : UInt64) (bytes : List UInt8) : Except Error Value := do
  verifyRange (index < s.len) "index" "index < self.len"
  return s.get index bytes

def index (i : UInt64) (bytes : List UInt8) : Except Failure Value :=
  if i < s.len then .ok (s.get i bytes)
  else .error (.panic (some ("index out of range: " ++ toString i ++ " >= " ++ toString s.len)))

def copyUnchecked (bytes : List UInt8) (dest : Contents) : Contents :=
  { dest with bytes := splice 0 (s.contents bytes).bytes dest.bytes }

def copyTo (bytes : List UInt8) (dest : Contents) : Except Error Contents := do
  checkCopy s.len dest.count
  return s.copyUnchecked bytes dest

def tryCopyTo (bytes : List UInt8) (dest : Contents) : Bool × Contents :=
  if dest.count < s.len then (false, dest) else (true, s.copyUnchecked bytes dest)

def describe : String :=
  "ReadOnlyLargeSpan" ++ " \x7b type: \"" ++ s.element.name ++ "\", len: " ++ toString s.len ++
    ", .. \x7d"

/-! ## Derived spans -/

def slice (start length : UInt64) : Except Error ReadOnlySpan := do
  checkRange s.len start length
  return s.sliceUnchecked start length

def sliceFrom (start : UInt64) : Except Error ReadOnlySpan := do
  verifyRange (start ≤ s.len) "start" "start <= self.len"
  return s.sliceUnchecked start (s.len - start)

/-- Shows the bytes as values of another type, with the documented refusals of bytemuck's
`try_cast_slice`: the address has to suit the type, then the bytes have to come out even. -/
def cast (base : UInt64) (e : Element) : Except Error ReadOnlySpan :=
  if ¬isAligned (base + s.offset) e.align then
    .error (.arrayTypeMismatch e.name "TargetAlignmentGreaterAndInputNotAligned")
  else if s.len % e.stride ≠ 0 then
    .error (.arrayTypeMismatch e.name "OutputSliceWouldHaveSlop")
  else .ok { element := e, offset := s.offset, len := s.len / e.stride }

def window : Window := ⟨s.element, s.offset, s.len⟩

end ReadOnlySpan

def Window.asReadOnly (w : Window) : ReadOnlySpan := ⟨w.element, w.offset, w.len⟩

end LargeBuffers
