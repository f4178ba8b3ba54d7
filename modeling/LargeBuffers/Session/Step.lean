import LargeBuffers.Session.Make
import LargeBuffers.Session.Use

/-! # Steps of a session

One operation on a session: its answer or the reason why it has none, and the session
afterwards.
-/

namespace LargeBuffers.Session

def step (p : Platform) (s : Session) : Op → Result
  | .storage name c => s.makeStorage name c
  | .storageBytes storage => s.reply (s.storageBytes storage)
  | .recorder name exclusive => s.makeRecorder name exclusive
  | .array name c => s.makeArray name c
  | .memory name a source => s.makeMemory name a source
  | .narrow name slot => s.makeNarrow name slot
  | .clone name slot => s.makeClone name slot
  | .slice name slot start length => s.makeSlice name slot (·.slice start length)
  | .sliceFrom name slot start => s.makeSlice name slot (·.sliceFrom start)
  | .arrayManager name c => s.makeArrayManager name c
  | .nullManager name => s.makeManager name (s.store.addManager .null)
  | .nullSingleton name => s.makeNullSingleton name
  | .native name storage recorder offset length => s.makeNative name storage recorder offset length
  | .share name slot => s.makeShared name slot
  | .tryAcquire name slot => s.tryAcquire name slot
  | .intoManager name slot => s.intoManager name slot
  | .importation name => s.makeImportation name
  | .addAlias name slot storage offset length => s.makeAlias name slot storage offset length
  | .allocator name alignment => s.makeAllocator name alignment
  | .defaultAllocator name => s.makeDefaultAllocator name
  | .meteredAllocator name limit pad => s.makeMeteredAllocator name limit pad
  | .allocate name slot form length => s.allocate p name slot form length
  | .own name slot => s.makeOwner name slot
  | .disown name slot => s.unmakeOwner name slot
  | .probe name c claim state exposesArray => s.makeProbe name c claim state exposesArray
  | .drop slot => s.dropSlot slot
  | .dropAll slots => s.dropAll slots
  | .release slot => s.release slot
  | .dispose slot => s.dispose slot
  | .unpin slot => s.unpin slot
  | .intoInner slot => s.intoInner slot
  | .calls probe => s.calls probe
  | .sameManager slot₁ slot₂ => s.reply (s.sameManager slot₁ slot₂)
  | .equal slot₁ slot₂ => s.reply (s.equal slot₁ slot₂)
  | .distinct slots => s.reply (s.distinct slots)
  | .values slot => s.reply (s.values slot)
  | .getArray slot => s.reply (s.getArray slot)
  | .span slot p => s.reply (s.span slot p)
  | .spanMut slot p => s.spanMut slot p
  | .pin slot index => s.pin slot index
  | .copy slot dest => s.copy slot dest
  | .tryCopy slot dest => s.tryCopy slot dest
  | .copyToSpan slot dest => s.copyToSpan slot dest
  | .raiseGauge bytes =>
    let s := s.withStore (s.store.raiseGauge bytes)
    s.answer (.number s.store.gauge.toNat)
  | .lowerGauge bytes =>
    let s := s.withStore (s.store.lowerGauge bytes)
    s.answer (.number s.store.gauge.toNat)
  | .info slot => s.reply (s.info slot)
  | .unreadable => s.refuse .badInput

def after (p : Platform) (s : Session) (ops : List Op) : Session :=
  ops.foldl (fun s op => (s.step p op).2) s

end LargeBuffers.Session
