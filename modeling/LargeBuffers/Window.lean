import LargeBuffers.Contents
import LargeBuffers.Error
import LargeBuffers.Range

/-! # Windows

A window shows part of a byte sequence as a run of values: it has an element type, a byte
offset and a number of values. Slicing and casting give windows on the same bytes.
-/

namespace LargeBuffers

/-- Puts `new` over the entries of `old` from `start` on. -/
def splice {α : Type} (start : Nat) (new old : List α) : List α :=
  old.take start ++ new ++ old.drop (start + new.length)

theorem length_splice {α : Type} {start : Nat} {new old : List α}
    (h : start + new.length ≤ old.length) : (splice start new old).length = old.length := by
  simp only [splice, List.length_append, List.length_take, List.length_drop]
  omega

structure Window where
  element : Element
  offset : UInt64
  len : UInt64
  deriving DecidableEq, Repr

namespace Window

/-- An empty window over no storage; it is placed at the alignment of its type. -/
def empty (e : Element) : Window := ⟨e, e.align, 0⟩

def whole (c : Contents) : Window := ⟨c.element, 0, c.count⟩

def byteLength (w : Window) : Nat := w.len.toNat * w.element.size

def read (w : Window) (bytes : List UInt8) : List UInt8 :=
  (bytes.drop w.offset.toNat).take w.byteLength

def contents (w : Window) (bytes : List UInt8) : Contents :=
  ⟨w.element, w.len, w.read bytes⟩

def write (w : Window) (new bytes : List UInt8) : List UInt8 :=
  splice w.offset.toNat new bytes

/-- The window of `length` values from the value `start` on, whether there are so many or not. -/
def sub (w : Window) (start length : UInt64) : Window :=
  { w with offset := w.offset + start * w.element.stride, len := length }

def cell (w : Window) (index : UInt64) : Window := w.sub index 1

def get (w : Window) (index : UInt64) (bytes : List UInt8) : Value :=
  w.element.decode ((w.cell index).read bytes)

def set (w : Window) (index : UInt64) (v : Value) (bytes : List UInt8) : List UInt8 :=
  (w.cell index).write v.encode bytes

def slice (w : Window) (start length : UInt64) : Except Error Window := do
  checkRange w.len start length
  return w.sub start length

def sliceFrom (w : Window) (start : UInt64) : Except Error Window := do
  checkStart w.len start
  return w.sub start (w.len - start)

/-- Shows the same bytes as values of another type. The bytes start at the address `base`, the
first shown byte has to be aligned for the type, and no byte may be left over: so the checked
cast `try_cast_slice_mut` of bytemuck documents its refusals, and in this order. -/
def cast (base : UInt64) (w : Window) (e : Element) : Except Error Window :=
  if isAligned (base + w.offset) e.align then
    if w.len % e.stride = 0 then
      .ok { element := e, offset := w.offset, len := w.len / e.stride }
    else .error (.arrayTypeMismatch e.name "OutputSliceWouldHaveSlop")
  else .error (.arrayTypeMismatch e.name "TargetAlignmentGreaterAndInputNotAligned")

end Window

end LargeBuffers
