import LargeBuffers.Store

/-! # Resolving managers and memories

What a manager reports of itself, and the views and pins that managers and memories lead to.
Each way checks what it needs in an order of its own.
-/

namespace LargeBuffers.Store

variable (s : Store)

/-! ## Managers -/

def managerState (m : ManagerId) : Lifecycle :=
  match s.managers[m]? with
  | some .null => .empty
  | some (.array _ live) => if live then .live else .released
  | some (.native _ held) => if held then .live else .released
  | some (.probe p) => p.state
  | none => .released

/-- The number of values that a manager reports. A native one keeps it after its release. -/
def managerLength (m : ManagerId) : UInt64 :=
  match s.managers[m]? with
  | some (.array b live) => if live then (s.contentsOf b).count else 0
  | some (.native r _) =>
    match s.regions[r]? with
    | some g => g.len
    | none => 0
  | some (.probe p) => p.claim.getD (s.contentsOf p.block).count
  | _ => 0

def regionView (g : Region) : View := ⟨some g.block, ⟨.u8, g.offset, g.len⟩⟩

def managerView (m : ManagerId) : Except Error View :=
  match s.managers[m]? with
  | some .null => .ok (.empty s.element)
  | some (.array b true) => .ok (s.blockView b)
  | some (.native r true) =>
    match s.regions[r]? with
    | some g => .ok (regionView g)
    | none => .error .released
  | some (.probe p) =>
    if p.state = .released then .error (.invalidOperation "probe is released")
    else .ok (s.blockView p.block)
  | _ => .error .released

def managerArray (m : ManagerId) : Option View :=
  match s.managers[m]? with
  | some (.array b true) => some (s.blockView b)
  | some (.probe p) => if p.exposesArray then some (s.blockView p.block) else none
  | _ => none

/-- Pins the value `index`; the place after the last one can be pinned too. -/
def pinManager (m : ManagerId) (index : UInt64) : Except Error Pin × Store :=
  match s.managers[m]? with
  | some .null =>
    match verifyRange (index = 0) "element_index" "element_index == 0" with
    | .ok _ => (.ok ((View.empty s.element).pin 0 none), s)
    | .error e => (.error e, s)
  | some (.array b true) =>
    match verifyRange (index ≤ (s.contentsOf b).count) "element_index"
        "element_index <= data.len() as u64" with
    | .ok _ => (.ok ((s.blockView b).pin index (some m)), s.note (.pinned m index))
    | .error e => (.error e, s)
  | some (.native r held) =>
    match s.regions[r]? with
    | some g =>
      match verifyRange (index ≤ g.len) "element_index" "element_index <= self.len" with
      | .ok _ =>
        if held then (.ok ((regionView g).pin index (some m)), s.note (.pinned m index))
        else (.error .released, s)
      | .error e => (.error e, s)
    | none => (.error .released, s)
  | some (.probe p) =>
    let s₁ := s.note (.pinned m index)
    if index ≤ (s.contentsOf p.block).count then
      (.ok ((s.blockView p.block).pin index (some m)), s₁)
    else (.error (.outOfRange "index" "probe"), s₁)
  | _ => (.error .released, s)

def unpinManager (m : ManagerId) : Store :=
  match s.managers[m]? with
  | some .null | none => s
  | some _ => s.note (.unpinned m)

def unpin (p : Pin) : Store :=
  match p.manager with
  | some m => s.unpinManager m
  | none => s

/-! ## Memories -/

def view (m : Memory) : Except Failure View :=
  match m.backing with
  | .nothing => .ok (.empty s.element)
  | .array b => (s.blockView b).range m.start m.len
  | .manager k => Failure.lift do (← s.managerView k).slice m.start m.len

/-- The values of a memory, to be written. An empty region has no values to share; otherwise
the memory has to be the sole handle to its backing. -/
def viewMut (m : Memory) (sole : Bool) : Except Failure View :=
  match m.backing with
  | .nothing => .ok (.empty s.element)
  | .array b =>
    if m.isEmpty then .ok (.empty s.element)
    else if sole then (s.blockView b).range m.start m.len
    else .error (.error .sharedBacking)
  | .manager k =>
    if s.managerState k = .released then .error (.error .released)
    else if m.isEmpty then .ok (.empty s.element)
    else if sole then Failure.lift do (← s.managerView k).slice m.start m.len
    else .error (.error .sharedBacking)

def arrayOf (m : Memory) : Except Failure (Option View) :=
  match m.backing with
  | .nothing => .ok none
  | .array b => do return some (← (s.blockView b).range m.start m.len)
  | .manager k =>
    match s.managerArray k with
    | some v => do return some (← v.range m.start m.len)
    | none => .ok none

def pin (m : Memory) : Except Error Pin × Store :=
  match m.backing with
  | .nothing => (.ok ((View.empty s.element).pin 0 none), s)
  | .array b => (.ok ((s.blockView b).pin m.start none), s)
  | .manager k => s.pinManager k m.start

end LargeBuffers.Store
