/-! # Causes of failure

A refused operation names its cause. `Error` holds the causes that the buffers themselves
report, and `Error.message` fixes their wording. `Failure` adds what can go wrong before a
buffer is reached at all.
-/

namespace LargeBuffers

inductive Error where
  | outOfRange (name message : String)
  | nullArgument (name : String)
  | invalidArgument (name message : String)
  | invalidOperation (name : String)
  | arrayTypeMismatch (expected message : String)
  | disposed (object : String)
  | allocationFailed (size : UInt64)
  deriving DecidableEq, Repr

namespace Error

def message : Error → String
  | outOfRange name message => name ++ " is out of range: " ++ message
  | nullArgument name => "required argument " ++ name ++ " is missing"
  | invalidArgument name message => "invalid argument " ++ name ++ ": " ++ message
  | invalidOperation name => "invalid operation " ++ name
  | arrayTypeMismatch expected message =>
    "array type mismatch, expected " ++ expected ++ ": " ++ message
  | disposed object => "cannot access a disposed object: " ++ object
  | allocationFailed size => "failed to allocate " ++ toString size ++ " bytes"

def isOutOfRange : Error → Bool
  | outOfRange .. => true
  | _ => false

def isInvalidOperation : Error → Bool
  | invalidOperation .. => true
  | _ => false

/-- The storage behind a manager has been given up. -/
def released : Error := .invalidOperation "access to a released buffer manager"

/-- Writing needs the only handle to the backing. -/
def sharedBacking : Error := .invalidOperation "writable span over a shared backing"

end Error

theorem bind_eq_ok_iff {ε α β : Type} {x : Except ε α} {f : α → Except ε β} {b : β} :
    x >>= f = .ok b ↔ ∃ a, x = .ok a ∧ f a = .ok b := by
  cases x <;> simp [bind, Except.bind]

/-- A range condition on the argument `name` that has to hold. -/
def verifyRange (holds : Bool) (name condition : String) : Except Error Unit :=
  if holds then .ok () else .error (.outOfRange name ("expected " ++ condition))

def verifyArgument (holds : Bool) (name condition : String) : Except Error Unit :=
  if holds then .ok () else .error (.invalidArgument name condition)

theorem verifyRange_eq_ok_iff {holds : Bool} {name condition : String} :
    verifyRange holds name condition = .ok () ↔ holds = true := by
  cases holds <;> simp [verifyRange]

theorem verifyArgument_eq_ok_iff {holds : Bool} {name condition : String} :
    verifyArgument holds name condition = .ok () ↔ holds = true := by
  cases holds <;> simp [verifyArgument]

inductive Failure where
  | error (cause : Error)
  /-- An access beyond the end through an operation that has no error result. -/
  | panic (message : Option String)
  /-- The request makes no sense for its object or its element type. -/
  | badInput
  /-- A named handle is missing or of an unsuitable kind. -/
  | badSlot
  /-- Exclusive use of a manager to which other handles refer. -/
  | shared
  deriving DecidableEq, Repr

def Failure.lift {α : Type} : Except Error α → Except Failure α
  | .ok a => .ok a
  | .error e => .error (.error e)

end LargeBuffers
