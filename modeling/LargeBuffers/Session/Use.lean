import LargeBuffers.Session.Inspect

/-! # Using handles

Operations that write through handles, pin, give back or drop what is under a name.
-/

namespace LargeBuffers.Session

variable (s : Session)

/-! ## Writing -/

/-- The writable view of a memory, owner or manager. A shared manager has to be held alone. -/
def viewMutOf (h : Handle) : Except Failure View :=
  match h.writable?, h with
  | some m, _ => s.store.viewMut m (s.sole m.backing)
  | none, .manager k => Failure.lift (s.store.managerView k)
  | none, .shared k =>
    if s.sole (.manager k) then Failure.lift (s.store.managerView k) else .error .shared
  | none, _ => .error .badSlot

def spanMut (slot : String) (p : Program) : Result :=
  match s.slots.get? slot with
  | some h =>
    match s.viewMutOf h with
    | .ok v =>
      let (t, bytes) := s.store.runOn v .writable p
      (s.withStore (s.store.write v bytes)).answer (.transcript t)
    | .error f => s.refuse f
  | none => s.refuse .badSlot

/-- Copies the values of one view to the front of another. They are read before any is
written. -/
def copyView (source dest : View) : Except Error Session := do
  checkCopy source.window.len dest.window.len
  return s.withStore (s.store.write dest
    (dest.window.write (s.store.read source).bytes (s.store.bytesOf dest)))

def copyEnds (slot dest : String) : Except Failure (Memory × Memory) :=
  match s.slots.get? slot, (s.slots.get? dest).bind Handle.writable? with
  | some (.memory m₁), some m₂
  | some (.readOnly m₁), some m₂ => if slot = dest then .error .badSlot else .ok (m₁, m₂)
  | _, _ => .error .badSlot

/-- The views of a copy's ends. The source is resolved first. -/
def copyViews (slot dest : String) : Except Failure (View × View) := do
  let (m₁, m₂) ← s.copyEnds slot dest
  let v₁ ← s.store.view m₁
  let v₂ ← s.store.viewMut m₂ (s.sole m₂.backing)
  return (v₁, v₂)

def copy (slot dest : String) : Result :=
  match s.copyViews slot dest with
  | .ok (v₁, v₂) =>
    match s.copyView v₁ v₂ with
    | .ok s' => s'.answer .done
    | .error e => s.refuse (.error e)
  | .error f => s.refuse f

def tryCopy (slot dest : String) : Result :=
  match s.copyViews slot dest with
  | .ok (v₁, v₂) =>
    match s.copyView v₁ v₂ with
    | .ok s' => s'.answer (.flag true)
    | .error _ => s.answer (.flag false)
  | .error f => s.refuse f

def copyToSpan (slot dest : String) : Result :=
  match s.slots.get? slot, (s.slots.get? dest).bind Handle.writable? with
  | some (.readOnly m₁), some m₂ =>
    match s.store.viewMut m₂ (s.sole m₂.backing), s.store.view m₁ with
    | .error f, _ => s.refuse f
    | .ok _, .error f => s.refuse f
    | .ok v₂, .ok v₁ =>
      match s.copyView v₁ v₂ with
      | .ok s' => s'.answer .done
      | .error e => s.refuse (.error e)
  | _, _ => s.refuse .badSlot

/-! ## Pins -/

def pinReport (pin : Pin) (view : Except Failure View) : PinReport :=
  match view with
  | .error _ => ⟨none, none, pin.manager.isSome⟩
  | .ok v =>
    let position := (pin.offset - v.window.offset) / v.window.element.stride
    let value :=
      if position < v.window.len then some (v.window.get position (s.store.bytesOf v)) else none
    ⟨some position, value, pin.manager.isSome⟩

/-- The pin that a handle asks for: of the first value of a memory, or of the value `index` of a
manager. -/
def pinThrough (h : Handle) (index : Option UInt64) : Except Failure (Except Error Pin × Store) :=
  match h.memory?, h.manager?, index with
  | some (_, m), _, _ => .ok (s.store.pin m)
  | none, some k, some i => .ok (s.store.pinManager k i)
  | none, some _, none => .error .badInput
  | none, none, _ => .error .badSlot

/-- Pins a place and gives it up at once. -/
def pin (slot : String) (index : Option UInt64) : Result :=
  match s.slots.get? slot with
  | none => s.refuse .badSlot
  | some h =>
    match s.pinThrough h index with
    | .ok (.ok pin, store) =>
      let s := s.withStore store
      (s.withStore (store.unpin pin)).answer (.pin (s.pinReport pin (s.viewOf h)))
    | .ok (.error e, store) => (s.withStore store).refuse (.error e)
    | .error f => s.refuse f

def unpin (slot : String) : Result :=
  match (s.slots.get? slot).bind Handle.manager? with
  | some k => (s.withStore (s.store.unpinManager k)).answer .done
  | none => s.refuse .badSlot

/-- The calls to a probe that have not been shown yet. -/
def calls (probe : String) : Result :=
  match s.probes.get? probe with
  | some (m, shown) =>
    let all := callsTo m s.store.journal
    let s : Session := { s with probes := s.probes.put probe (m, all.length) }
    s.answer (.calls (all.drop shown))
  | none => s.refuse .badSlot

/-! ## Giving back -/

/-- Whether the disposal of an owner releases what is behind it: the owner is the sole handle,
and there is something to release. -/
def releases (m : Memory) : Bool :=
  s.sole m.backing &&
    match m.backing with
    | .nothing => false
    | .array _ => true
    | .manager k => s.store.managerState k = .live

def disposeBacking (m : Memory) : Session :=
  match m.backing with
  | .manager k => if s.sole m.backing then s.withStore (s.store.dispose k) else s
  | _ => s

def dispose (slot : String) : Result :=
  match s.slots.get? slot with
  | some (.owner m) => ((s.disposeBacking m).drop slot).answer (.flag (s.releases m))
  | some (.manager k) => (s.withStore (s.store.dispose k)).answer .done
  | some (.shared k) =>
    if s.sole (.manager k) then (s.withStore (s.store.dispose k)).answer .done
    else s.refuse .shared
  | _ => s.refuse .badSlot

def dropSlot (slot : String) : Result :=
  match s.slots.get? slot with
  | some _ => (s.drop slot).answer .done
  | none => s.refuse .badSlot

/-- Drops those of the names that have a handle, and tells how many had. -/
def dropAll (slots : List String) : Result :=
  let (n, s) := slots.foldl (fun (n, s) slot =>
    if (s.slots.get? slot).isSome then (n + 1, s.drop slot) else (n, s)) (0, s)
  s.answer (.number n)

def release (slot : String) : Result :=
  match s.slots.get? slot with
  | some (.importation _) => (s.drop slot).answer .done
  | _ => s.refuse .badSlot

def intoInner (slot : String) : Result :=
  match s.slots.get? slot with
  | some (.manager k) =>
    match s.store.managers[k]? with
    | some (.array ..) =>
      (s.remove slot).answer (.contents ((s.store.managerArray k).map s.store.read))
    | _ => s.refuse .badSlot
  | _ => s.refuse .badSlot

end LargeBuffers.Session
