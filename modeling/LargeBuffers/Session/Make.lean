import LargeBuffers.Session.Op

/-! # Making handles

Operations that put a handle under a name. Each checks all it needs before it changes
anything.
-/

namespace LargeBuffers.Session

variable (s : Session)

/-- Puts a handle under a name and has nothing to tell. -/
def make (name : String) (h : Handle) : Result := (s.put name h).answer .done

def convert (name slot : String) (h : Handle) : Result := (s.remove slot).make name h

def makeStorage (name : String) (c : Contents) : Result :=
  if c.fits .u8 then
    let b := s.store.blocks.length
    ({ s with store := s.store.addContents c, storages := s.storages.put name b } : Session).answer
      .done
  else s.refuse .badInput

def makeRecorder (name : String) (exclusive : Bool) : Result :=
  let o := s.store.recorders.length
  ({ s with
    store := s.store.addRecorder exclusive
    recorders := s.recorders.put name o } : Session).answer .done

def makeArray (name : String) (c : Contents) : Result :=
  if c.fits s.store.element then
    let b := s.store.blocks.length
    ((s.withStore (s.store.addContents c)).put name (.array b)).answer (.length c.count)
  else s.refuse .badInput

def makeMemory (name : String) (a : Access) : MemorySource → Result
  | .nothing => s.make name (.ofMemory a .empty)
  | .values c =>
    if c.fits s.store.element then
      let b := s.store.blocks.length
      (s.withStore (s.store.addContents c)).make name (.ofMemory a ⟨.array b, 0, c.count⟩)
    else s.refuse .badInput
  | .array slot =>
    match s.slots.get? slot with
    | some (.array b) => s.make name (.ofMemory a ⟨.array b, 0, (s.store.contentsOf b).count⟩)
    | _ => s.refuse .badSlot
  | .range slot start length =>
    match s.slots.get? slot with
    | some (.array b) =>
      match checkRange (s.store.contentsOf b).count start length with
      | .ok _ => s.make name (.ofMemory a ⟨.array b, start, length⟩)
      | .error e => s.refuse (.error e)
    | _ => s.refuse .badSlot
  | .manager slot take =>
    match s.slots.get? slot with
    | some (.shared m) =>
      let h := Handle.ofMemory a ⟨.manager m, 0, s.store.managerLength m⟩
      if take then s.convert name slot h else s.make name h
    | _ => s.refuse .badSlot

def makeNarrow (name slot : String) : Result :=
  match s.slots.get? slot with
  | some (.memory m) => s.convert name slot (.readOnly m)
  | _ => s.refuse .badSlot

def makeClone (name slot : String) : Result :=
  match (s.slots.get? slot).bind Handle.clone? with
  | some h => s.make name h
  | none => s.refuse .badSlot

def makeSlice (name slot : String) (part : Memory → Except Error Memory) : Result :=
  match (s.slots.get? slot).bind Handle.memory? with
  | some (a, m) =>
    match part m with
    | .ok m' => s.make name (.ofMemory a m')
    | .error e => s.refuse (.error e)
  | none => s.refuse .badSlot

def makeManager (name : String) (store : Store) : Result :=
  let s := s.withStore store
  s.make name (.manager s.newestManager)

def makeArrayManager (name : String) (c : Contents) : Result :=
  if c.fits s.store.element then s.makeManager name (s.store.addArrayManager c)
  else s.refuse .badInput

def ofBytes (r : Result) : Result :=
  if s.store.element = .u8 then r else s.refuse .badInput

def makeNullSingleton (name : String) : Result := s.ofBytes (s.make name (.shared nullSingleton))

def storagePart (storage : String) (offset length : UInt64) : Except Failure BlockId :=
  match s.storages.get? storage with
  | some b =>
    match checkRange (s.store.contentsOf b).count offset length with
    | .ok _ => .ok b
    | .error _ => .error .badInput
  | none => .error .badSlot

def makeNative (name storage recorder : String) (offset length : UInt64) : Result :=
  s.ofBytes <|
    match s.storagePart storage offset length, s.recorders.get? recorder with
    | .error f, _ => s.refuse f
    | .ok b, some o => s.makeManager name (s.store.addNative ⟨b, offset, length, .recorder o⟩)
    | .ok _, none => s.refuse .badSlot

def makeShared (name slot : String) : Result :=
  match s.slots.get? slot with
  | some (.manager m) => s.convert name slot (.shared m)
  | _ => s.refuse .badSlot

def tryAcquire (name slot : String) : Result :=
  match s.slots.get? slot with
  | some (.manager m) =>
    match s.store.managers[m]? with
    | some (.native ..) =>
      match s.store.handOff m with
      | (some r, store) => ((s.withStore store).put name (.raw r)).answer (.flag true)
      | (none, store) => (s.withStore store).answer (.flag false)
    | _ => s.refuse .badSlot
  | _ => s.refuse .badSlot

def intoManager (name slot : String) : Result :=
  match s.slots.get? slot with
  | some (.raw r) => (s.remove slot).makeManager name (s.store.addManager (.native r true))
  | _ => s.refuse .badSlot

def makeImportation (name : String) : Result :=
  s.ofBytes <|
    let i := s.store.importations.length
    let s : Session := { s with
      store := s.store.addImportation
      importations := s.importations.put name i }
    s.make name (.importation i)

def makeAlias (name slot storage : String) (offset length : UInt64) : Result :=
  s.ofBytes <|
    match s.storagePart storage offset length, s.slots.get? slot with
    | .error f, _ => s.refuse f
    | .ok b, some (.importation i) =>
      match s.store.addAlias i b offset length with
      | (.ok _, store) => s.makeManager name store
      | (.error e, store) => (s.withStore store).refuse (.error e)
    | .ok _, _ => s.refuse .badSlot

def makeAllocatorOf (name : String) (supply : Supply) : Result :=
  let a := s.store.allocators.length
  ((s.withStore (s.store.addAllocator supply)).put name (.allocator a)).answer
    (.alignment supply.alignment)

def makeAllocator (name : String) (alignment : Option UInt64) : Result :=
  s.ofBytes <|
    match checkAlignment (alignment.getD defaultAlignment) with
    | .ok alignment => s.makeAllocatorOf name (.native alignment)
    | .error e => s.refuse (.error e)

def makeDefaultAllocator (name : String) : Result :=
  s.ofBytes ((s.put name (.allocator defaultAllocator)).answer (.alignment defaultAlignment))

def makeMeteredAllocator (name : String) (limit pad : UInt64) : Result :=
  s.ofBytes (s.makeAllocatorOf name (.metered limit pad))

def makeBuffer (name : String) (form : BufferForm) (m : ManagerId) : Result :=
  match form with
  | .shared => s.make name (.shared m)
  | .native => s.make name (.manager m)
  | .owner => s.make name (.owner ⟨.manager m, 0, s.store.managerLength m⟩)

/-- Buffers of no bytes are all the null singleton, except as native managers, which only
padded requests can give. -/
def allocate (p : Platform) (name slot : String) (form : BufferForm) (length : UInt64) : Result :=
  s.ofBytes <|
    match s.slots.get? slot with
    | some (.allocator a) =>
      match form, (s.store.allocators[a]?).map Allocator.supply with
      | .native, some (.metered ..) => s.refuse .badSlot
      | _, _ =>
        if length = 0 ∧ form ≠ .native then s.makeBuffer name form nullSingleton
        else
          match s.store.allocate p a length with
          | (.ok _, store) =>
            let s := s.withStore store
            s.makeBuffer name form s.newestManager
          | (.error e, store) => (s.withStore store).refuse (.error e)
    | _ => s.refuse .badSlot

def makeOwner (name slot : String) : Result :=
  match s.slots.get? slot with
  | some (.memory m) => s.convert name slot (.owner m)
  | _ => s.refuse .badSlot

def unmakeOwner (name slot : String) : Result :=
  match s.slots.get? slot with
  | some (.owner m) => s.convert name slot (.memory m)
  | _ => s.refuse .badSlot

def makeProbe (name : String) (c : Contents) (claim : Option UInt64) (state : Lifecycle)
    (exposesArray : Bool) : Result :=
  if c.fits s.store.element then
    let m := s.store.managers.length
    let s : Session := { s with probes := s.probes.put name (m, 0) }
    s.makeManager name (s.store.addProbe c claim state exposesArray)
  else s.refuse .badInput

end LargeBuffers.Session
