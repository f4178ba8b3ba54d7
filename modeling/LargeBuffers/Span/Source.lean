import LargeBuffers.Span.Run

/-! # Spans over an array

The ways to make a span over an array that may be missing, and the run of a program on it.
-/

namespace LargeBuffers

inductive Source where
  /-- The empty span over no storage. -/
  | empty
  /-- All values of the array. -/
  | whole
  /-- The first value of the array alone. -/
  | first
  | range (start length : UInt64)
  /-- So many values from the first byte on, by the word of the caller. -/
  | raw (length : UInt64)
  deriving DecidableEq, Repr

/-- The address at which arrays and storages start; only its alignment can be observed. -/
def placement : UInt64 := 64

namespace Source

def readOnlySpan (e : Element) : Source → Option Contents → Except Failure ReadOnlySpan
  | empty, _ => .ok (ReadOnlySpan.empty e)
  | whole, some c => .ok (ReadOnlySpan.new c)
  | whole, none => .error .badInput
  | first, some c =>
    if 0 < c.count then .ok ((ReadOnlySpan.new c).sliceUnchecked 0 1) else .error .badInput
  | first, none => .error .badInput
  | range start length, array => Failure.lift (ReadOnlySpan.fromArray e array start length)
  | raw length, array => Failure.lift (ReadOnlySpan.fromRawParts array length)

def writableSpan (e : Element) : Source → Option Contents → Except Failure Window
  | empty, _ => .ok (Window.empty e)
  | whole, some c => .ok (Window.whole c)
  | whole, none => .error .badInput
  | first, some c => if 0 < c.count then .ok ((Window.whole c).sub 0 1) else .error .badInput
  | first, none => .error .badInput
  | range start length, array => Failure.lift (Window.fromArray e array start length)
  | raw length, array => Failure.lift (Window.fromRawParts array length)

/-- Where the span of the kind `a` lies. -/
def window (e : Element) (a : Access) (s : Source) (array : Option Contents) :
    Except Failure Window :=
  match a with
  | .readOnly => (s.readOnlySpan e array).map (·.window)
  | .writable => s.writableSpan e array

/-- The transcript of a program on the span, and the array afterwards. -/
def run (e : Element) (a : Access) (s : Source) (array : Option Contents) (p : Program) :
    Except Failure Transcript × Option Contents :=
  match s.window e a array with
  | .error f => (.error f, array)
  | .ok w =>
    match array with
    | none => (.ok (p.run placement a w []).1, none)
    | some c =>
      let (t, bytes) := p.run placement a w c.bytes
      (.ok t, some { c with bytes := bytes })

end Source

end LargeBuffers
