import LargeBuffers.Session.Step

/-! # Pins that are held

A pin can be kept, and given up later than others that were taken after it. What was pinned is
borrowed as long as the pin is held; here nothing depends on that, and any operations may run
meanwhile.
-/

namespace LargeBuffers

/-- A session and the pins that are held, in the order in which they were taken. -/
structure Pinning where
  session : Session
  pins : List Pin := []

inductive PinAct where
  /-- Pins through the handle under a name, and keeps the pin. -/
  | take (slot : String) (index : Option UInt64)
  /-- Gives up the pin at a place among those that are held. -/
  | giveUp (place : Nat)
  | step (op : Op)
  deriving DecidableEq, Repr

namespace Pinning

variable (b : Pinning)

/-- A pin that fails is not held, but may have been noted. -/
def receive : Except Error Pin × Store → Pinning
  | (.ok pin, store) => ⟨b.session.withStore store, b.pins ++ [pin]⟩
  | (.error _, store) => { b with session := b.session.withStore store }

def take (slot : String) (index : Option UInt64) : Pinning :=
  match b.session.slots.get? slot with
  | some h =>
    match b.session.pinThrough h index with
    | .ok r => b.receive r
    | .error _ => b
  | none => b

def giveUp (place : Nat) : Pinning :=
  match b.pins[place]? with
  | some pin => ⟨b.session.withStore (b.session.store.unpin pin), b.pins.eraseIdx place⟩
  | none => b

def step (p : Platform) (b : Pinning) : PinAct → Pinning
  | .take slot index => b.take slot index
  | .giveUp place => b.giveUp place
  | .step op => { b with session := (b.session.step p op).2 }

def after (p : Platform) (b : Pinning) (acts : List PinAct) : Pinning := acts.foldl (step p) b

def start (e : Element) : Pinning := { session := .start e }

end Pinning

end LargeBuffers
