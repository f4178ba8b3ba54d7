import LargeBuffers.Session.Step

/-! # Scripts

A script runs operations on a fresh session and drops in the end what is left. It can watch the
counters, which are shown whenever they change, and show the log lines of each step.
-/

namespace LargeBuffers

inductive Counters where
  | allocator (t : Statistics)
  | importation (references : Int) (tracked : UInt64)
  deriving DecidableEq, Repr

structure Watch where
  gauge : UInt64
  slots : Directory Counters
  frees : Directory Nat
  releases : Directory (List (UInt64 × UInt64))
  deriving DecidableEq, Repr

namespace Session

variable (s : Session)

def counters : Handle → Option Counters
  | .allocator a => (s.store.allocators[a]?).map fun al => .allocator al.statistics
  | .importation i =>
    (s.store.importations[i]?).map fun imp => .importation imp.references imp.tracked
  | _ => none

def watch : Watch where
  gauge := s.store.gauge
  slots := (s.slots.filterMap fun (name, h) => (s.counters h).map (name, ·)) |> Directory.sorted
  frees := (s.importations.map fun (name, i) => (name, finalReleases i s.store.journal)) |>
    Directory.sorted
  releases := (s.recorders.map fun (name, o) =>
    (name, releasesTo (.recorder o) s.store.journal)) |> Directory.sorted

def dropKinds (kind : Handle → Bool) : Session :=
  let names := (s.slots.filter (kind ·.2) |> Directory.sorted).map (·.1)
  names.foldl drop s

def dropSlots : Session :=
  s.dropKinds fun
    | .allocator _ | .importation _ => false
    | _ => true

def dropImportations : Session :=
  s.dropKinds fun
    | .importation _ => true
    | _ => false

end Session

structure Entry (α : Type) where
  result : α
  watch : Option Watch
  logs : Option (List String)
  deriving Repr

structure Script where
  element : Element
  ops : List Op
  watch : Bool
  logs : Bool
  deriving Repr

namespace Script

/-- The entry of a step from one session to another, when `last` was shown before. -/
def entry {α : Type} (script : Script) (before after : Session) (last : Option Watch) (result : α) :
    Entry α where
  result := result
  watch := if script.watch ∧ some after.watch ≠ last then some after.watch else none
  logs :=
    if script.logs then
      some ((after.store.journal.drop before.store.journal.length).filterMap Event.line?)
    else none

/-- The entries of some operations, the session afterwards, and the counters shown last. -/
def runOps (p : Platform) (script : Script) :
    List Op → Session → Option Watch → List (Entry (Except Failure Answer)) × Session × Option Watch
  | [], s, last => ([], s, last)
  | op :: ops, s, last =>
    let (result, s₁) := s.step p op
    let e := script.entry s s₁ last result
    let (es, end_) := script.runOps p ops s₁ (e.watch.or last)
    (e :: es, end_)

/-- The entries of all steps, of the end of the slots, and of the end of the importations. -/
def run (p : Platform) (script : Script) :
    List (Entry (Except Failure Answer)) × Entry Unit × Entry Unit :=
  let (es, s, last) := script.runOps p script.ops (.start script.element) none
  let s₁ := s.dropSlots
  let e₁ := script.entry s s₁ last ()
  let s₂ := s₁.dropImportations
  let e₂ := script.entry s₁ s₂ (e₁.watch.or last) ()
  (es, e₁, e₂)

end Script

end LargeBuffers
