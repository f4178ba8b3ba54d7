import LargeBuffers.Span.Program
import LargeBuffers.Span.Writable

/-! # Running span programs

`Program.run` interprets a program on a window of a byte sequence, with the access that tells
which of the two types of span lies there: each has its own answers. Queries leave the bytes
alone, an update replaces them or fails, and a program on a derived window works on the same
bytes as the program around it.
-/

namespace LargeBuffers

/-- Asks the span of the kind `a` at a window, by `f` if it is a read-only one. -/
def Access.ask {α : Type} (a : Access) (f : ReadOnlySpan → α) (g : Window → α) (w : Window) : α :=
  match a with
  | .readOnly => f w.asReadOnly
  | .writable => g w

/-- Asks for a span of the same kind on the same bytes. -/
def Access.derive (a : Access) (f : ReadOnlySpan → Except Error ReadOnlySpan)
    (g : Window → Except Error Window) (w : Window) : Except Failure (Access × Window) :=
  match a with
  | .readOnly => (Failure.lift (f w.asReadOnly)).map fun s => (.readOnly, s.window)
  | .writable => (Failure.lift (g w)).map fun w' => (.writable, w')

def Reading.ofCopy (dest : Contents) : Except Error Contents → Reading
  | .ok dest' => .copied none dest'
  | .error e => .copied (some e) dest

def Reading.ofOffer (outcome : Bool × Contents) : Reading := .offered outcome.1 outcome.2

def Query.answer (a : Access) (w : Window) (bytes : List UInt8) : Query → Except Failure Reading
  | .length => .ok (.length (a.ask (·.len) (·.len) w))
  | .contents => .ok (.contents (a.ask (·.contents bytes) (·.contents bytes) w))
  | .backwards => .ok (.backwards (a.ask (·.contents bytes) (·.contents bytes) w).reversed)
  | .get i => (Failure.lift (a.ask (·.fetch i bytes) (·.fetch i bytes) w)).map .value
  | .index i => (a.ask (·.index i bytes) (·.index i bytes) w).map .value
  | .describe => .ok (.text (a.ask (·.describe) (·.describe) w))
  | .copyTo dest =>
    if dest.fits w.element then
      .ok (.ofCopy dest (a.ask (·.copyTo bytes dest) (·.copyTo bytes dest) w))
    else .error .badInput
  | .tryCopyTo dest =>
    if dest.fits w.element then
      .ok (.ofOffer (a.ask (·.tryCopyTo bytes dest) (·.tryCopyTo bytes dest) w))
    else .error .badInput

def Update.apply (w : Window) (bytes : List UInt8) : Update → Except Failure (List UInt8)
  | .set i v =>
    if v.fits w.element then
      match checkIndex w.len i with
      | .ok _ => .ok (w.set i v bytes)
      | .error e => .error (.error e)
    else .error .badInput
  | .setIndex i v =>
    if v.fits w.element then
      if i < w.len then .ok (w.set i v bytes) else .error (indexPanic w.len i)
    else .error .badInput
  | .fill v =>
    if v.fits w.element then .ok (w.write (Contents.repeated v w.len).bytes bytes)
    else .error .badInput
  | .clear => .ok (w.write (Contents.zeros w.element w.len).bytes bytes)
  | .reverse => .ok (w.write (w.contents bytes).reversed.bytes bytes)
  | .assign values =>
    if values.fits w.element then .ok (w.write (values.bytes.take w.byteLength) bytes)
    else .error .badInput

/-- The access and the window that a derivation leads to. Only bytes can be cast, and only a
writable span can be lent on or narrowed. -/
def Derivation.apply (base : UInt64) (a : Access) (w : Window) :
    Derivation → Except Failure (Access × Window)
  | .slice start length => a.derive (·.slice start length) (·.slice start length) w
  | .sliceFrom start => a.derive (·.sliceFrom start) (·.sliceFrom start) w
  | .cast e =>
    if w.element = .u8 then a.derive (·.cast base e) (·.cast base e) w else .error .badInput
  | .reborrow => if a = .writable then .ok (.writable, w) else .error .badInput
  | .narrow =>
    if a = .writable then .ok (.readOnly, w.asReadOnly.window) else .error .badInput

/-- Runs a program on a window of bytes that start at the address `base`. -/
def Program.run (base : UInt64) :
    Program → Access → Window → List UInt8 → Transcript × List UInt8
  | .done, _, _, bytes => (.done, bytes)
  | .query q rest, a, w, bytes =>
    let (t, bytes') := rest.run base a w bytes
    match q.answer a w bytes with
    | .ok r => (.answered r t, bytes')
    | .error f => (.refused f t, bytes')
  | .update _ rest, .readOnly, w, bytes =>
    let (t, bytes') := rest.run base .readOnly w bytes
    (.refused .badInput t, bytes')
  | .update u rest, .writable, w, bytes =>
    match u.apply w bytes with
    | .ok bytes₁ =>
      let (t, bytes') := rest.run base .writable w bytes₁
      (.answered .done t, bytes')
    | .error f =>
      let (t, bytes') := rest.run base .writable w bytes
      (.refused f t, bytes')
  | .derive d body rest, a, w, bytes =>
    match d.apply base a w with
    | .ok (a', w') =>
      let (inner, bytes₁) := body.run base a' w' bytes
      let (t, bytes') := rest.run base a w bytes₁
      (.derived inner t, bytes')
    | .error f =>
      let (t, bytes') := rest.run base a w bytes
      (.refused f t, bytes')
  | .unreadable rest, a, w, bytes =>
    let (t, bytes') := rest.run base a w bytes
    (.refused .badInput t, bytes')

namespace Program

variable {base : UInt64} {a a' : Access} {w w' : Window} {bytes : List UInt8} {d : Derivation}
  {body rest : Program}

theorem run_derive_of_ok (h : d.apply base a w = .ok (a', w')) :
    (derive d body rest).run base a w bytes =
      (.derived (body.run base a' w' bytes).1
          (rest.run base a w (body.run base a' w' bytes).2).1,
        (rest.run base a w (body.run base a' w' bytes).2).2) := by
  simp only [run, h]

theorem run_derive_of_error {f : Failure} (h : d.apply base a w = .error f) :
    (derive d body rest).run base a w bytes =
      (.refused f (rest.run base a w bytes).1, (rest.run base a w bytes).2) := by
  simp only [run, h]

end Program

end LargeBuffers
