import LargeBuffers.Proofs.Trail
import LargeBuffers.Session.Pins

/-! # Pins and their ends

A manager that is not null names itself in the pins that it grants, and is told of the end of each
of them. So whatever happens in between, a manager has granted as many pins as it has been told
the end of, and as are still held.
-/

namespace LargeBuffers

def unpins (k : ManagerId) (journal : List Event) : ℕ := journal.count (.unpinned k)

theorem unpins_append (k : ManagerId) (journal journal' : List Event) :
    unpins k (journal ++ journal') = unpins k journal + unpins k journal' :=
  List.count_append

theorem unpins_congr {journal journal' : List Event} (h : directs journal' = directs journal)
    (k : ManagerId) : unpins k journal' = unpins k journal := by
  have hd : ∀ l, unpins k (directs l) = unpins k l := fun _ => List.count_filter rfl
  rw [← hd journal', h, hd]

namespace Store

variable {st st' : Store} {k : ManagerId} {i : UInt64}

/-- The manager is there and not null. Then it is named in the pins that it grants. -/
def Registers (st : Store) (k : ManagerId) : Prop := ∃ m, st.managers[k]? = some m ∧ m ≠ .null

inductive PinOutcome (st : Store) (b : Backing) (i : UInt64) : Except Error Pin × Store → Prop
  | registered {k : ManagerId} {pin : Pin} (hb : b = .manager k) (hk : st.Registers k)
      (hp : pin.manager = some k) : PinOutcome st b i (.ok pin, st.note (.pinned k i))
  | unregistered {pin : Pin} (hb : ∀ k, b = .manager k → st.managers[k]? = some .null)
      (hp : pin.manager = none) : PinOutcome st b i (.ok pin, st)
  | refused (c : Error) : PinOutcome st b i (.error c, st)
  /-- A probe remembers that it was asked. -/
  | failed {k : ManagerId} (c : Error) (hb : b = .manager k) (hk : st.Registers k) :
    PinOutcome st b i (.error c, st.note (.pinned k i))

theorem pinManager_outcome (st : Store) (k : ManagerId) (i : UInt64) :
    st.PinOutcome (.manager k) i (st.pinManager k i) := by
  unfold pinManager
  split
  · rename_i hk
    split
    · refine .unregistered ?_ rfl
      rintro _ ⟨⟩
      exact hk
    · exact .refused _
  · rename_i hk
    split
    · exact .registered rfl ⟨_, hk, nofun⟩ rfl
    · exact .refused _
  · rename_i hk
    repeat' split
    · exact .registered rfl ⟨_, hk, nofun⟩ rfl
    · exact .refused _
    · exact .refused _
    · exact .refused _
  · rename_i hk
    dsimp only
    split
    · exact .registered rfl ⟨_, hk, nofun⟩ rfl
    · exact .failed _ rfl ⟨_, hk, nofun⟩
  · exact .refused _

theorem pin_outcome (st : Store) (m : Memory) : st.PinOutcome m.backing m.start (st.pin m) := by
  obtain ⟨_ | b | k, start, len⟩ := m
  · exact .unregistered nofun rfl
  · exact .unregistered nofun rfl
  · exact st.pinManager_outcome k start

theorem unpinManager_of_registers (h : st.Registers k) :
    st.unpinManager k = st.note (.unpinned k) := by
  obtain ⟨m, hk, hm⟩ := h
  cases m with
  | null => exact absurd rfl hm
  | _ => simp only [unpinManager, hk]

theorem Grows.registers (hg : st.Grows st') (h : st.Registers k) : st'.Registers k := by
  obtain ⟨m, hk, hm⟩ := h
  obtain ⟨m', hk', hb⟩ := hg.managers hk
  refine ⟨m', hk', ?_⟩
  rintro rfl
  cases hb
  exact hm rfl

theorem Grows.null (hg : st.Grows st') (h : st.managers[k]? = some .null) :
    st'.managers[k]? = some .null := by
  obtain ⟨m', hk', hb⟩ := hg.managers h
  cases hb
  exact hk'

end Store

namespace Session

variable {p : Platform} {s s' : Session}

theorem pinThrough_outcome {x : Handle} {index : Option UInt64} {r : Except Error Pin × Store}
    (h : s.pinThrough x index = .ok r) : ∃ i, s.store.PinOutcome x.backing i r := by
  unfold pinThrough at h
  split at h
  · rename_i m hm
    obtain rfl := Except.ok.inj h
    rw [Handle.backing_of_memory? hm]
    exact ⟨_, s.store.pin_outcome m⟩
  · rename_i k i hm hk
    obtain rfl := Except.ok.inj h
    rw [Handle.backing_of_manager? hk]
    exact ⟨i, s.store.pinManager_outcome k i⟩
  · cases h
  · cases h

theorem unpins_step {op : Op} (hp : op.pins = false) (k : ManagerId) :
    unpins k (s.step p op).2.store.journal = unpins k s.store.journal := by
  cases ha : op.acquires with
  | false => exact unpins_congr (quiet_step ha hp) k
  | true =>
    cases op with
    | tryAcquire name slot =>
      obtain ⟨j, r, g, he⟩ | he | ⟨f, he⟩ := s.tryAcquire_cases name slot
      · rw [step, he]
        exact (unpins_congr (directs_put ..) k).trans (unpins_append k s.store.journal _)
      · rw [step, he]
        rfl
      · rw [step, he]
        rfl
    | _ => cases ha

def takesPin (s : Session) (k : ManagerId) (slot : String) (index : Option UInt64) : Bool :=
  match s.slots.get? slot with
  | some x =>
    match s.pinThrough x index with
    | .ok (.ok _, _) => x.backing = .manager k
    | _ => false
  | none => false

end Session

namespace Pinning

variable {p : Platform} {b b' : Pinning} {slot : String} {index : Option UInt64} {k : ManagerId}
  {t : String → List Cut} {n : ManagerId → ℕ}

def alive (b : Pinning) (k : ManagerId) : ℕ := b.pins.countP (·.manager = some k)

def takes (b : Pinning) (k : ManagerId) : PinAct → ℕ
  | .take slot index | .step (.pin slot index) =>
    if b.session.takesPin k slot index then 1 else 0
  | _ => 0

def taken (p : Platform) (k : ManagerId) (b : Pinning) : List PinAct → ℕ
  | [] => 0
  | act :: acts => b.takes k act + taken p k (b.step p act) acts

/-- The slices that led to each memory, after some acts. -/
def trail (p : Platform) (b : Pinning) (t : String → List Cut) :
    List PinAct → String → List Cut
  | [] => t
  | .step op :: acts => trail p (b.step p (.step op)) (b.session.trace p t op) acts
  | act :: acts => trail p (b.step p act) t acts

/-! ## Single acts -/

inductive Took (b : Pinning) (slot : String) (index : Option UInt64) : Pinning → Prop
  | registered {k : ManagerId} {i : UInt64} {pin : Pin} (hk : b.session.store.Registers k)
      (hp : pin.manager = some k) (ht : ∀ j, b.session.takesPin j slot index = decide (k = j)) :
    Took b slot index
      ⟨b.session.withStore (b.session.store.note (.pinned k i)), b.pins ++ [pin]⟩
  | unregistered {pin : Pin} (hp : pin.manager = none)
      (ht : ∀ j, b.session.takesPin j slot index = true →
        b.session.store.managers[j]? = some .null) :
    Took b slot index { b with pins := b.pins ++ [pin] }
  | failed {st : Store} (hs : st = b.session.store ∨ ∃ k i, st = b.session.store.note (.pinned k i))
      (ht : ∀ j, b.session.takesPin j slot index = false) :
    Took b slot index { b with session := b.session.withStore st }

theorem took (b : Pinning) (slot : String) (index : Option UInt64) :
    b.Took slot index (b.take slot index) := by
  unfold take
  split
  · rename_i x hx
    split
    · rename_i r hr
      have ht : ∀ j, b.session.takesPin j slot index = match r with
          | (.ok _, _) => decide (x.backing = .manager j)
          | (.error _, _) => false := by
        intro j
        simp only [Session.takesPin, hx, hr]
        rcases r with ⟨e | pin, st⟩ <;> rfl
      obtain ⟨i, ho⟩ := Session.pinThrough_outcome hr
      cases ho with
      | @registered k pin hb hk hp =>
        refine .registered hk hp fun j => (ht j).trans ?_
        simp only [hb, Backing.manager.injEq]
      | unregistered hb hp =>
        exact .unregistered hp fun j hj => hb j (of_decide_eq_true ((ht j).symm.trans hj))
      | refused c => exact .failed (.inl rfl) ht
      | failed c hb hk => exact .failed (.inr ⟨_, _, rfl⟩) ht
    · rename_i f hr
      exact .failed (.inl rfl) fun j => by simp only [Session.takesPin, hx, hr]
  · rename_i hx
    exact .failed (.inl rfl) fun j => by simp only [Session.takesPin, hx]

/-- An operation that pins keeps nothing: the pin is given up at once. -/
theorem step_pin (b : Pinning) (slot : String) (index : Option UInt64) :
    b.step p (.step (.pin slot index)) = (b.take slot index).giveUp b.pins.length := by
  have hnone : ∀ s, (Pinning.mk s b.pins).giveUp b.pins.length = ⟨s, b.pins⟩ := by
    intro s
    simp only [giveUp, List.getElem?_length]
  simp only [step, Session.step, Session.pin, take]
  rcases hx : b.session.slots.get? slot with _ | x
  · exact (hnone _).symm
  rcases hr : b.session.pinThrough x index with f | ⟨c | pin, st⟩
  · simp only [hr]
    exact (hnone _).symm
  · simp only [hr]
    exact (hnone _).symm
  · have hp : (b.pins ++ [pin]).eraseIdx b.pins.length = b.pins := by
      simp [List.eraseIdx_append_of_length_le le_rfl]
    simp only [hr, receive, giveUp, List.getElem?_concat_length, hp]
    rfl

/-! ## What acts keep -/

structure Sound (b : Pinning) (t : String → List Cut) : Prop where
  distinct : b.session.slots.Distinct
  regular : b.session.estate.Regular
  traced : b.session.Traced t

/-- The pins of each manager are those of whose end it was told, and those that are held. A null
manager has neither. -/
structure Balanced (b : Pinning) (n : ManagerId → ℕ) : Prop where
  held : ∀ pin ∈ b.pins, ∀ k, pin.manager = some k → b.session.store.Registers k
  told : ∀ k, unpins k b.session.store.journal ≠ 0 → b.session.store.Registers k
  balance : ∀ k, b.session.store.managers[k]? ≠ some .null →
    unpins k b.session.store.journal + b.alive k = n k

theorem Sound.noted {st : Store} (h : b.Sound t) (hn : Session.Noted b.session.store st)
    (pins : List Pin) : Sound ⟨b.session.withStore st, pins⟩ t := by
  obtain ⟨events, he, rfl⟩ := hn
  exact ⟨h.distinct, (Estate.stable_regular .bounded).deed h.regular (.calls he), h.traced⟩

theorem Sound.take (h : b.Sound t) (slot : String) (index : Option UInt64) :
    (b.take slot index).Sound t := by
  have ht := b.took slot index
  generalize b.take slot index = b' at ht ⊢
  cases ht with
  | registered => exact h.noted (Session.noted_pinned ..) _
  | unregistered => exact h.noted (.refl _) _
  | failed hs =>
    obtain rfl | ⟨k, i, rfl⟩ := hs
    · exact h.noted (.refl _) _
    · exact h.noted (Session.noted_pinned _ k i) _

theorem Sound.giveUp (h : b.Sound t) (place : ℕ) : (b.giveUp place).Sound t := by
  unfold Pinning.giveUp
  split
  · exact h.noted (Session.noted_unpin ..) _
  · exact h

theorem Sound.step (h : b.Sound t) (op : Op) :
    (b.step p (.step op)).Sound (b.session.trace p t op) where
  distinct := Session.distinct_step h.distinct op
  regular := (Estate.stable_regular p).step h.distinct h.regular op
  traced := Session.traced_step h.regular.bounded h.traced op

theorem Balanced.grow {s : Session} (h : b.Balanced n) (hg : b.session.store.Grows s.store)
    (hu : ∀ k, unpins k s.store.journal = unpins k b.session.store.journal) :
    Balanced { b with session := s } n where
  held pin hp k hk := hg.registers (h.held pin hp k hk)
  told k hk := hg.registers (h.told k (hu k ▸ hk))
  balance k hk := by
    rw [hu k]
    exact h.balance k fun hn => hk (hg.null hn)

theorem Balanced.hold {pin : Pin} (h : b.Balanced n)
    (hp : ∀ k, pin.manager = some k → b.session.store.Registers k) :
    Balanced { b with pins := b.pins ++ [pin] } fun k =>
      n k + if pin.manager = some k then 1 else 0 where
  held := by
    intro pin' hm k hk
    obtain hm | hm := List.mem_append.mp hm
    · exact h.held pin' hm k hk
    · obtain rfl := List.mem_singleton.mp hm
      exact hp k hk
  told := h.told
  balance k hk := by
    have ha : alive { b with pins := b.pins ++ [pin] } k =
        b.alive k + if pin.manager = some k then 1 else 0 := by
      simp [alive, List.countP_append, List.countP_singleton]
    rw [ha, ← Nat.add_assoc, h.balance k hk]

theorem Balanced.congr {n' : ManagerId → ℕ} (h : b.Balanced n)
    (hn : ∀ k, b.session.store.managers[k]? ≠ some .null → n' k = n k) : b.Balanced n' where
  held := h.held
  told := h.told
  balance k hk := (h.balance k hk).trans (hn k hk).symm

theorem Balanced.note (h : b.Balanced n) (k : ManagerId) (i : UInt64) :
    Balanced { b with session := b.session.withStore (b.session.store.note (.pinned k i)) } n :=
  h.grow (Store.grows_note ..) fun j => unpins_append j _ [.pinned k i]

theorem Balanced.take (h : b.Balanced n) (slot : String) (index : Option UInt64) :
    (b.take slot index).Balanced fun k =>
      n k + if b.session.takesPin k slot index then 1 else 0 := by
  have ht := b.took slot index
  generalize b.take slot index = b' at ht ⊢
  cases ht with
  | @registered k i pin hk hp ht =>
    have hr : ∀ j, pin.manager = some j → b.session.store.Registers j := by
      intro j hj
      obtain rfl := Option.some.inj (hp.symm.trans hj)
      exact hk
    refine ((h.note k i).hold hr).congr fun j _ => ?_
    simp only [ht j, hp, decide_eq_true_eq, Option.some.injEq]
  | unregistered hp ht =>
    refine (h.hold fun k hk => by cases hp.symm.trans hk).congr fun k hk => ?_
    have hf : b.session.takesPin k slot index = false :=
      Bool.eq_false_iff.mpr fun hc => hk (ht k hc)
    simp [hf, hp]
  | failed hs ht =>
    have hz : (fun k => n k + if b.session.takesPin k slot index then 1 else 0) = n :=
      funext fun k => by rw [ht k]; rfl
    rw [hz]
    obtain rfl | ⟨k, i, rfl⟩ := hs
    · exact h
    · exact h.note k i

theorem unpin_of_held {pin : Pin} (h : b.Balanced n) (hm : pin ∈ b.pins)
    (hk : pin.manager = some k) :
    b.session.store.unpin pin = b.session.store.note (.unpinned k) := by
  simp only [Store.unpin, hk]
  exact Store.unpinManager_of_registers (h.held pin hm k hk)

theorem alive_eraseIdx {place : ℕ} {pin : Pin} (hp : b.pins[place]? = some pin) (k : ManagerId) :
    b.alive k = (b.pins.eraseIdx place).countP (·.manager = some k) +
      if pin.manager = some k then 1 else 0 := by
  obtain ⟨hlt, rfl⟩ := List.getElem?_eq_some_iff.mp hp
  rw [alive, ← (List.getElem_cons_eraseIdx_perm hlt).countP_eq, List.countP_cons]
  simp

theorem unpins_note (st : Store) (k j : ManagerId) :
    unpins j (st.note (.unpinned k)).journal = unpins j st.journal + if k = j then 1 else 0 := by
  refine (unpins_append j _ [.unpinned k]).trans ?_
  simp [unpins, List.count_singleton]

section GiveUp

variable {place : ℕ} {pin : Pin} (h : b.Balanced n) (hp : b.pins[place]? = some pin)

include h hp

theorem Balanced.lose (hk : pin.manager = none) :
    Balanced { b with pins := b.pins.eraseIdx place } n where
  held x hx := h.held x (List.mem_of_mem_eraseIdx hx)
  told := h.told
  balance j hj := by
    have hb := h.balance j hj
    rw [alive_eraseIdx hp, hk] at hb
    exact hb

theorem Balanced.tell (hk : pin.manager = some k) :
    Balanced ⟨b.session.withStore (b.session.store.note (.unpinned k)), b.pins.eraseIdx place⟩
      n where
  held x hx := h.held x (List.mem_of_mem_eraseIdx hx)
  told j hj := by
    by_cases hkj : k = j
    · exact hkj ▸ h.held pin (List.mem_of_getElem? hp) k hk
    · refine h.told j fun hz => hj ?_
      exact (unpins_note b.session.store k j).trans (by rw [hz, if_neg hkj])
  balance j hj := by
    have hb := h.balance j hj
    rw [alive_eraseIdx hp, hk, Nat.add_comm (List.countP ..), ← Nat.add_assoc] at hb
    refine Eq.trans ?_ hb
    refine congrArg (· + _) ((unpins_note b.session.store k j).trans ?_)
    simp only [Option.some.injEq]

end GiveUp

theorem Balanced.giveUp (h : b.Balanced n) (place : ℕ) : (b.giveUp place).Balanced n := by
  unfold Pinning.giveUp
  split
  · rename_i pin hp
    rcases hk : pin.manager with _ | k
    · have hu : b.session.store.unpin pin = b.session.store := by
        simp only [Store.unpin, hk]
      rw [hu]
      exact h.lose hp hk
    · rw [unpin_of_held h (List.mem_of_getElem? hp) hk]
      exact h.tell hp hk
  · exact h

theorem Balanced.step {op : Op} (hs : b.Sound t) (h : b.Balanced n)
    (hu : ∀ slot, op ≠ .unpin slot) :
    (b.step p (.step op)).Balanced fun k => n k + b.takes k (.step op) := by
  by_cases hp : ∃ slot index, op = .pin slot index
  · obtain ⟨slot, index, rfl⟩ := hp
    rw [step_pin]
    exact (h.take slot index).giveUp _
  · have hno : op.pins = false := by
      cases op with
      | pin slot index => exact absurd ⟨slot, index, rfl⟩ hp
      | unpin slot => exact absurd rfl (hu slot)
      | _ => rfl
    have hz : (fun k => n k + b.takes k (.step op)) = n := by
      funext k
      cases op with
      | pin => cases hno
      | _ => rfl
    rw [hz]
    exact h.grow (Session.grows_step hs.distinct op) (Session.unpins_step hno)

/-! ## Runs -/

variable {acts : List PinAct}

theorem sound_after (p : Platform) (h : b.Sound t) (acts : List PinAct) :
    (b.after p acts).Sound (b.trail p t acts) := by
  induction acts generalizing b t with
  | nil => exact h
  | cons act acts ih =>
    cases act with
    | take slot index => exact ih (h.take slot index)
    | giveUp place => exact ih (h.giveUp place)
    | step op => exact ih (h.step op)

theorem balanced_after (p : Platform) (hs : b.Sound t) (h : b.Balanced n)
    (hu : ∀ slot, .step (.unpin slot) ∉ acts) :
    (b.after p acts).Balanced fun k => n k + taken p k b acts := by
  induction acts generalizing b t n with
  | nil => exact h
  | cons act acts ih =>
    have hrest : ∀ slot, .step (.unpin slot) ∉ acts :=
      fun slot hm => hu slot (List.mem_cons_of_mem _ hm)
    have hsum : (fun k => n k + taken p k b (act :: acts)) =
        fun k => n k + b.takes k act + taken p k (b.step p act) acts :=
      funext fun k => (Nat.add_assoc ..).symm
    rw [hsum]
    cases act with
    | take slot index => exact ih (hs.take slot index) (h.take slot index) hrest
    | giveUp place => exact ih (hs.giveUp place) (h.giveUp place) hrest
    | step op =>
      refine ih (hs.step op) (h.step hs fun slot ho => ?_) hrest
      exact hu slot (ho ▸ List.mem_cons_self)

theorem sound_start (e : Element) (t : String → List Cut) : (start e).Sound t where
  distinct := Directory.distinct_nil
  regular := Session.regular_run .bounded e []
  traced := nofun

theorem balanced_start (e : Element) : (start e).Balanced fun _ => 0 where
  held := nofun
  told := fun _ hk => absurd rfl hk
  balance _ _ := rfl

/-! ## Single pins -/

/-- What a pin through a handle asks for, if `t` tells the slices that led to each memory. -/
structure Forwards (b : Pinning) (t : String → List Cut) : Prop where
  /-- A memory pins the manager behind it, at the sum of the starts of its slices. -/
  memory : ∀ {slot x a m k}, b.session.slots.get? slot = some x → x.memory? = some (a, m) →
    m.backing = .manager k → m.start.toNat = Cut.offset (t slot) ∧ ∀ index,
      b.session.pinThrough x index =
        .ok (b.session.store.pinManager k (UInt64.ofNat (Cut.offset (t slot))))
  manager : ∀ {x k}, x.manager? = some k → ∀ i,
    b.session.pinThrough x (some i) = .ok (b.session.store.pinManager k i)
  /-- A memory of an array or of nothing has nobody to tell. -/
  plain : ∀ {x a m}, x.memory? = some (a, m) → (∀ k, m.backing ≠ .manager k) → ∀ index,
    ∃ pin : Pin, pin.manager = none ∧
      b.session.pinThrough x index = .ok (.ok pin, b.session.store)

theorem Sound.forwards (h : b.Sound t) : b.Forwards t where
  memory := by
    intro slot x a m k hx hm hb
    have hstart : Cut.offset (t slot) = m.start.toNat := h.traced slot x a m hx hm
    refine ⟨hstart.symm, fun index => ?_⟩
    rw [hstart, UInt64.ofNat_toNat]
    simp only [Session.pinThrough, hm, Store.pin, hb]
  manager := by
    intro x k hk i
    have hm : x.memory? = none := by cases x <;> cases hk <;> rfl
    simp only [Session.pinThrough, hm, hk]
  plain := by
    intro x a m hm hb index
    simp only [Session.pinThrough, hm]
    obtain ⟨_ | j | k, start, len⟩ := m
    · exact ⟨_, rfl, rfl⟩
    · exact ⟨_, rfl, rfl⟩
    · exact absurd rfl (hb k)

theorem take_of_error {x : Handle} {c : Error} {st : Store}
    (hx : b.session.slots.get? slot = some x)
    (hr : b.session.pinThrough x index = .ok (.error c, st)) :
    b.take slot index = { b with session := b.session.withStore st } ∧
      ∀ k, unpins k st.journal = unpins k b.session.store.journal := by
  refine ⟨by simp only [take, hx, hr, receive], fun j => ?_⟩
  obtain ⟨i, ho⟩ := Session.pinThrough_outcome hr
  cases ho with
  | refused => rfl
  | failed => exact unpins_append j _ _

theorem giveUp_of_balanced {place : ℕ} {pin : Pin} (h : b.Balanced n)
    (hp : b.pins[place]? = some pin) :
    (b.giveUp place).pins = b.pins.eraseIdx place ∧
      (b.giveUp place).session = match pin.manager with
        | some k => b.session.withStore (b.session.store.note (.unpinned k))
        | none => b.session := by
  simp only [giveUp, hp, true_and]
  split
  · rename_i k hk
    rw [unpin_of_held h (List.mem_of_getElem? hp) hk]
  · rename_i hk
    simp only [Store.unpin, hk]
    rfl

/-! ## Outcome -/

/-- If managers are told of the ends of pins by the pins only, then each manager that is not null
has granted as many pins as it has been told the end of and as are held, at every moment. A pin
through a memory asks its manager for the place at the sum of the starts of all slices that led to
it. A pin that fails is not held and has no end. When a pin is given up, the manager that granted
it is told once; nobody is told of pins of null managers, of arrays or of nothing. -/
theorem pins_balance (p : Platform) (e : Element) (acts : List PinAct)
    (hu : ∀ slot, .step (.unpin slot) ∉ acts) :
    let b := (start e).after p acts
    let st := b.session.store
    (∀ k, st.managers[k]? ≠ some .null →
      unpins k st.journal + b.alive k = taken p k (start e) acts) ∧
    (∀ k, st.managers[k]? = some .null → unpins k st.journal = 0 ∧ b.alive k = 0) ∧
    b.Forwards ((start e).trail p (fun _ => []) acts) ∧
    (∀ k i, st.PinOutcome (.manager k) i (st.pinManager k i)) ∧
    (∀ slot index x c st', b.session.slots.get? slot = some x →
      b.session.pinThrough x index = .ok (.error c, st') →
      b.take slot index = { b with session := b.session.withStore st' } ∧
        ∀ k, unpins k st'.journal = unpins k st.journal) ∧
    ∀ place pin, b.pins[place]? = some pin →
      (b.giveUp place).pins = b.pins.eraseIdx place ∧
        (b.giveUp place).session = match pin.manager with
          | some k => b.session.withStore (st.note (.unpinned k))
          | none => b.session := by
  intro b st
  have hs : b.Sound ((start e).trail p (fun _ => []) acts) := sound_after p (sound_start e _) acts
  have hb := balanced_after p (sound_start e fun _ => []) (balanced_start e) hu
  refine ⟨fun k hk => (hb.balance k hk).trans (Nat.zero_add _), fun k hk => ?_, hs.forwards,
    st.pinManager_outcome, fun _ _ _ _ _ => take_of_error, fun _ _ => giveUp_of_balanced hb⟩
  have hno : ¬ st.Registers k := by
    rintro ⟨m, hm, hn⟩
    exact hn (Option.some.inj (hm.symm.trans hk))
  refine ⟨by_contra fun hc => hno (hb.told k hc), List.countP_eq_zero.mpr fun pin hp hc => ?_⟩
  exact hno (hb.held pin hp k (of_decide_eq_true hc))

/-- Three pins of a probe, two of them through slices of a memory, and one that it refuses. -/
theorem pins_balance_of_slices :
    let acts : List PinAct := [
      .step (.probe "m" ⟨.u8, 8, [1, 2, 3, 4, 5, 6, 7, 8]⟩ none .live false),
      .step (.share "s" "m"), .step (.memory "h" .writable (.manager "s" false)),
      .step (.slice "a" "h" 1 6), .step (.sliceFrom "b" "a" 2), .step (.narrow "r" "a"),
      .take "b" none, .take "s" (some 5), .take "r" none, .giveUp 1, .take "s" (some 9), .giveUp 0]
    let b := (start .u8).after .bounded acts
    (∀ slot, .step (.unpin slot) ∉ acts) ∧
      callsTo 1 b.session.store.journal = [.pin 3, .pin 5, .pin 1, .unpin, .pin 9, .unpin] ∧
      b.alive 1 = 1 ∧ taken .bounded 1 (start .u8) acts = 3 ∧
      ∀ x, b.session.slots.get? "b" = some x →
        b.session.pinThrough x none = .ok (b.session.store.pinManager 1 3) := by
  intro acts b
  have hu : ∀ slot, .step (.unpin slot) ∉ acts := by simp [acts]
  have hk : b.session.store.managers[1]? ≠ some .null := by decide +kernel
  have halive : b.alive 1 = 1 := by decide +kernel
  have hun : unpins 1 b.session.store.journal = 2 := by decide +kernel
  have hslot : b.session.slots.get? "b" = some (.memory ⟨.manager 1, 3, 4⟩) := by decide +kernel
  obtain ⟨hbalance, -, hforwards, -⟩ := pins_balance .bounded .u8 acts hu
  refine ⟨hu, by decide +kernel, halive, ?_, fun x hx => ?_⟩
  · have htaken := hbalance 1 hk
    rw [hun, halive] at htaken
    exact htaken.symm
  · obtain rfl := Option.some.inj (hslot.symm.trans hx)
    obtain ⟨hstart, hpin⟩ := hforwards.memory hx rfl rfl
    rw [← hstart] at hpin
    exact hpin none

end Pinning

end LargeBuffers
