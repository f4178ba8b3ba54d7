import LargeBuffers.Range
import LargeBuffers.Value

/-! # Runs of values

`Contents` is a run of values of one type in its stored form. The count is kept beside the
bytes, since values of the unit type take none.
-/

namespace LargeBuffers

/-- The first `n` pieces of `size` entries, the last piece first, in front of `done`. -/
def piecesInto {α : Type} (size : Nat) : Nat → List α → List (List α) → List (List α)
  | 0, _, done => done
  | n + 1, xs, done => piecesInto size n (xs.drop size) (xs.take size :: done)

/-- The whole pieces of `size` entries, in order; there are none of no size. -/
def pieces {α : Type} (size : Nat) (xs : List α) : List (List α) :=
  (piecesInto size (xs.length / size) xs []).reverse

def reversePieces {α : Type} (size : Nat) (xs : List α) : List α :=
  (piecesInto size (xs.length / size) xs []).flatten

structure Contents where
  element : Element
  count : UInt64
  bytes : List UInt8
  deriving DecidableEq, Repr

namespace Contents

def empty (e : Element) : Contents := ⟨e, 0, []⟩

/-- The bytes are those of `count` values of type `e`, and one region can span them. -/
def fits (c : Contents) (e : Element) : Bool :=
  c.element == e && c.bytes.length == c.count.toNat * e.size && c.bytes.length ≤ maxBytes.toNat

def ofValues (e : Element) (values : List Value) : Contents :=
  ⟨e, UInt64.ofNat values.length, values.flatMap Value.encode⟩

def ofValues? (e : Element) (values : List Value) : Option Contents :=
  if values.all (·.fits e) && values.length < UInt64.size then some (ofValues e values) else none

def repeated (v : Value) (n : UInt64) : Contents where
  element := v.element
  count := n
  bytes := if v.element.size = 0 then [] else (List.replicate n.toNat v.encode).flatten

def repeated? (e : Element) (v : Value) (n : UInt64) : Option Contents :=
  if v.fits e then some (repeated v n) else none

def zeros (e : Element) (n : UInt64) : Contents :=
  ⟨e, n, List.replicate (n.toNat * e.size) 0⟩

def values (c : Contents) : List Value :=
  if c.element.size = 0 then List.replicate c.count.toNat (c.element.decode [])
  else (pieces c.element.size c.bytes).map c.element.decode

def reversed (c : Contents) : Contents :=
  { c with bytes := reversePieces c.element.size c.bytes }

end Contents

end LargeBuffers
