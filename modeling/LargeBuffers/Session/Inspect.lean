import LargeBuffers.Session.Op

/-! # Looking at handles

Operations that leave the session as it is, and the texts in which objects are described.
-/

namespace LargeBuffers

namespace Memory

def describe (m : Memory) (kind : String) (e : Element) : String :=
  kind ++ "<" ++ e.name ++ ">[" ++ toString m.len ++ "]"

end Memory

namespace Region

/-- The offset of a region, unless the alignment of a buffer made it. -/
def visibleOffset (g : Region) : Option UInt64 :=
  match g.owner with
  | .allocator _ => none
  | _ => some g.offset

def describe (g : Region) (held : Bool) : String :=
  "ptr: " ++ (if held then "PTR" else "0x0") ++ ", offset: " ++
    (match g.visibleOffset with
    | some n => toString n
    | none => "N") ++ ", len: " ++ toString g.len

end Region

def Statistics.describe (t : Statistics) : String :=
  "AllocatorStats \x7b allocations: " ++ toString t.allocations ++
    ", bytes_allocated: " ++ toString t.bytesAllocated ++
    ", releases: " ++ toString t.releases ++
    ", bytes_released: " ++ toString t.bytesReleased ++ " \x7d"

def Allocator.describe (al : Allocator) : String :=
  match al.supply with
  | .native alignment =>
    "NativeMemoryAllocator \x7b alignment: " ++ toString alignment ++ ", stats: " ++
      al.statistics.describe ++ " \x7d"
  | .metered .. => al.statistics.describe

namespace Session

variable (s : Session)

/-! ## Descriptions -/

def managerDetails (m : ManagerId) : Option ManagerDetails :=
  match s.store.managers[m]? with
  | some .null => some (.described "NullMemoryManager")
  | some (.array b live) =>
    let len := if live then "Some(" ++ toString (s.store.contentsOf b).count ++ ")" else "None"
    some (.described ("ArrayMemoryManager \x7b type: \"" ++ s.store.element.name ++ "\", len: " ++
      len ++ " \x7d"))
  | some (.native r held) =>
    (s.store.regions[r]?).map fun g =>
      let exclusive := s.store.exclusive g.owner
      .native (!held) exclusive g.visibleOffset
        ("NativeMemoryManager \x7b " ++ g.describe held ++ ", exclusive: " ++ toString exclusive ++
          " \x7d")
  | _ => none

def describe : Handle → Except Failure Info
  | .array b => .ok (.array (s.store.contentsOf b).count)
  | .memory m => .ok (.memory m (m.describe "LargeMemory" s.store.element))
  | .readOnly m => .ok (.readOnly m (m.describe "ReadOnlyLargeMemory" s.store.element))
  | .owner m => .ok (.owner m ("LargeMemoryOwner \x7b memory: " ++
      m.describe "LargeMemory" s.store.element ++ " \x7d"))
  | .shared m => .ok (.manager (s.store.managerLength m) (s.store.managerState m) none)
  | .manager m =>
    .ok (.manager (s.store.managerLength m) (s.store.managerState m) (s.managerDetails m))
  | .raw r =>
    match s.store.regions[r]?, (s.store.regions[r]?).bind (s.store.blocks[·.block]?) with
    | some g, some block =>
      .ok (.raw g.len g.visibleOffset (block.base + g.offset - block.base == g.offset)
        ("RawAllocation \x7b " ++ g.describe true ++ " \x7d"))
    | _, _ => .error .badSlot
  | .allocator a =>
    match s.store.allocators[a]? with
    | some al => .ok (.allocator al.supply.alignment
        (if a = LargeBuffers.defaultAllocator then none else some al.describe))
    | none => .error .badSlot
  | .importation i =>
    match s.store.importations[i]? with
    | some imp => .ok (.importation imp.references imp.tracked)
    | none => .error .badSlot

def info (slot : String) : Except Failure Answer :=
  match s.slots.get? slot with
  | some h => do return .info (← s.describe h)
  | none => .error .badSlot

/-! ## Contents -/

def viewOf (h : Handle) : Except Failure View :=
  match h.memory?, h.manager? with
  | some (_, m), _ => s.store.view m
  | _, some k => Failure.lift (s.store.managerView k)
  | none, none => .error .badSlot

def storageBytes (storage : String) : Except Failure Answer :=
  match s.storages.get? storage with
  | some b => .ok (.contents (some (s.store.contentsOf b)))
  | none => .error .badSlot

def values (slot : String) : Except Failure Answer :=
  match (s.slots.get? slot).bind Handle.memory? with
  | some (_, m) => do return .contents (some (s.store.read (← s.store.view m)))
  | none => .error .badSlot

def getArray (slot : String) : Except Failure Answer :=
  match s.slots.get? slot with
  | some h =>
    match h.memory?, h.manager? with
    | some (_, m), _ => do return .contents ((← s.store.arrayOf m).map s.store.read)
    | _, some k => .ok (.contents ((s.store.managerArray k).map s.store.read))
    | none, none => .error .badSlot
  | none => .error .badSlot

def span (slot : String) (p : Program) : Except Failure Answer :=
  match s.slots.get? slot with
  | some h => do return .transcript (s.store.runOn (← s.viewOf h) .readOnly p).1
  | none => .error .badSlot

/-! ## Identity -/

def sameManager (slot₁ slot₂ : String) : Except Failure Answer :=
  let manager? (slot : String) : Except Failure (Option ManagerId) :=
    match s.slots.get? slot with
    | some (.shared k) => .ok (some k)
    | some (.memory m) => .ok m.manager?
    | _ => .error .badSlot
  do
    match ← manager? slot₁, ← manager? slot₂ with
    | some k₁, some k₂ => return .sameManager (some (k₁ = k₂))
    | _, _ => return .sameManager none

def equal (slot₁ slot₂ : String) : Except Failure Answer :=
  match s.slots.get? slot₁, s.slots.get? slot₂ with
  | some (.memory m₁), some (.memory m₂)
  | some (.readOnly m₁), some (.readOnly m₂) =>
    .ok (.equality (m₁ = m₂) (m₁.hashKey = m₂.hashKey))
  | _, _ => .error .badSlot

/-- The memories among some handles, as often as they differ. -/
def distinct (slots : List String) : Except Failure Answer := do
  let hs ← slots.mapM fun slot =>
    match s.slots.get? slot with
    | some (.memory m) => .ok (Handle.memory m)
    | some (.readOnly m) => .ok (Handle.readOnly m)
    | _ => .error .badSlot
  let different := hs.eraseDups
  return .distinct (different.countP (·.writable?.isSome)) (different.countP (·.writable?.isNone))

end Session

end LargeBuffers
