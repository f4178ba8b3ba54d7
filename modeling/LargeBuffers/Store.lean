import LargeBuffers.Allocator
import LargeBuffers.Journal
import LargeBuffers.Memory
import LargeBuffers.Span.Source

/-! # The store

All objects to which handles refer, in registers that only grow: an identifier is a position
and stands for the same object for ever. The gauge measures the native memory that is alive.
-/

namespace LargeBuffers

/-- All arrays and managers of a store hold values of one type. -/
structure Store where
  element : Element
  blocks : List Block := []
  regions : List Region := []
  managers : List Manager := [.null]
  importations : List Importation := []
  allocators : List Allocator := [{ supply := .native defaultAlignment }]
  /-- For each recorder, whether its regions may be handed off. -/
  recorders : List Bool := []
  gauge : UInt64 := 0
  journal : List Event := []
  deriving Repr

/-- The manager that stands for every buffer of no bytes. -/
def nullSingleton : ManagerId := 0

def defaultAllocator : AllocatorId := 0

namespace Store

variable (s : Store)

def note (e : Event) : Store := { s with journal := s.journal ++ [e] }

def addBlock (b : Block) : Store := { s with blocks := s.blocks ++ [b] }

def addRegion (g : Region) : Store := { s with regions := s.regions ++ [g] }

def addManager (m : Manager) : Store := { s with managers := s.managers ++ [m] }

def addImportation : Store := { s with importations := s.importations ++ [{}] }

def addAllocator (supply : Supply) : Store :=
  { s with allocators := s.allocators ++ [{ supply }] }

def addRecorder (exclusive : Bool) : Store := { s with recorders := s.recorders ++ [exclusive] }

def setManager (m : ManagerId) (manager : Manager) : Store :=
  { s with managers := s.managers.set m manager }

def setImportation (i : ImportationId) (importation : Importation) : Store :=
  { s with importations := s.importations.set i importation }

def setAllocator (a : AllocatorId) (allocator : Allocator) : Store :=
  { s with allocators := s.allocators.set a allocator }

/-- The gauge wraps when it is raised and stops at zero when it is lowered. -/
def raiseGauge (bytes : UInt64) : Store := { s with gauge := s.gauge + bytes }

def lowerGauge (bytes : UInt64) : Store := { s with gauge := monus s.gauge bytes }

def addContents (c : Contents) : Store := s.addBlock ⟨placement, c⟩

-- Each of these changes one register, and statements are about single registers.
attribute [simp] note addBlock addRegion addManager addImportation addAllocator addRecorder
  setManager setImportation setAllocator raiseGauge lowerGauge addContents

def contentsOf (b : BlockId) : Contents :=
  match s.blocks[b]? with
  | some block => block.contents
  | none => .empty s.element

def setBytes (b : BlockId) (bytes : List UInt8) : Store :=
  { s with blocks := s.blocks.modify b fun block =>
      { block with contents := { block.contents with bytes } } }

def bytesOf (v : View) : List UInt8 :=
  match v.block with
  | some b => (s.contentsOf b).bytes
  | none => []

def baseOf (v : View) : UInt64 :=
  match v.block.bind (s.blocks[·]?) with
  | some block => block.base
  | none => placement

def read (v : View) : Contents := v.window.contents (s.bytesOf v)

def write (v : View) (bytes : List UInt8) : Store :=
  match v.block with
  | some b => s.setBytes b bytes
  | none => s

def blockView (b : BlockId) : View := ⟨some b, .whole (s.contentsOf b)⟩

/-- The answers of a program on a view, and the bytes afterwards. -/
def runOn (v : View) (a : Access) (p : Program) : Transcript × List UInt8 :=
  p.run (s.baseOf v) a v.window (s.bytesOf v)

end Store

end LargeBuffers
