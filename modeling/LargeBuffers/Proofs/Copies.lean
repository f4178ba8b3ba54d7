import LargeBuffers.Proofs.Encoding
import LargeBuffers.Proofs.Exclusive
import LargeBuffers.Proofs.Coherence

/-! # Copies between memories

A copy resolves its source, then its destination, then compares their lengths, and only then
writes. The values are read before any is written, so it does not matter whether both ends are
over the same bytes.
-/

namespace LargeBuffers

def Error.tooShort (source dest : UInt64) : Error :=
  .outOfRange "destination" ("destination length " ++ toString dest ++
    " is shorter than source length " ++ toString source)

theorem checkCopy_eq (source dest : UInt64) : checkCopy source dest =
    if source ≤ dest then .ok () else .error (.tooShort source dest) :=
  rfl

theorem checkRange_ne_tooShort (len start length a b : UInt64) :
    checkRange len start length ≠ .error (.tooShort a b) := by
  intro h
  have hne : ∀ holds name condition, name ≠ "destination" →
      verifyRange holds name condition ≠ .error (.tooShort a b) := by
    intro holds name condition hn hv
    unfold verifyRange at hv
    split at hv
    · cases hv
    · exact hn (Error.outOfRange.inj (Except.error.inj hv)).1
  obtain h | ⟨-, -, h⟩ := bind_eq_error_iff.mp h
  · exact hne _ _ _ (by decide) h
  · exact hne _ _ _ (by decide) h

theorem View.slice_ne_tooShort (v : View) (start length a b : UInt64) :
    v.slice start length ≠ .error (.tooShort a b) := by
  intro h
  obtain h | ⟨w, -, h⟩ := bind_eq_error_iff.mp h
  · obtain h | ⟨-, -, h⟩ := bind_eq_error_iff.mp h
    · exact checkRange_ne_tooShort _ _ _ a b h
    · cases h
  · cases h

namespace Store

variable {st : Store} {m : Memory} {v : View}

theorem managerView_ne_tooShort (st : Store) (k : ManagerId) (a b : UInt64) :
    st.managerView k ≠ .error (.tooShort a b) := by
  unfold managerView
  repeat' split
  all_goals nofun

theorem view_ne_tooShort (st : Store) (m : Memory) (a b : UInt64) :
    st.view m ≠ .error (.error (.tooShort a b)) := by
  intro h
  unfold view at h
  rcases hm : m.backing with _ | j | k
  · simp only [hm] at h
    cases h
  · simp only [hm, View.range] at h
    split at h <;> cases h
  · simp only [hm] at h
    obtain h | ⟨w, -, h⟩ := bind_eq_error_iff.mp (lift_eq_error_iff.mp h)
    · exact st.managerView_ne_tooShort k a b h
    · exact w.slice_ne_tooShort _ _ a b h

theorem viewMut_eq_error {sole : Bool} {f : Failure} (h : st.viewMut m sole = .error f) :
    f = .error .released ∨ f = .error .sharedBacking ∨ st.view m = .error f := by
  unfold viewMut at h
  unfold view
  rcases hb : m.backing with _ | j | k
  · simp only [hb] at h
    cases h
  · simp only [hb] at h
    split at h
    · cases h
    · split at h
      · exact .inr (.inr h)
      · exact .inr (.inl (Except.error.inj h).symm)
  · simp only [hb] at h
    split at h
    · exact .inl (Except.error.inj h).symm
    · split at h
      · cases h
      · split at h
        · exact .inr (.inr h)
        · exact .inr (.inl (Except.error.inj h).symm)

theorem len_of_view (hb : st.Bounds m) (h : st.view m = .ok v) : v.window.len = m.len := by
  unfold view at h
  rcases hm : m.backing with _ | j | k
  · simp only [hm] at h
    obtain rfl := Except.ok.inj h
    rw [Bounds, hm] at hb
    exact (UInt64.toNat_inj.mp (Nat.le_zero.mp ((Nat.le_add_left ..).trans hb))).symm
  · simp only [hm] at h
    obtain ⟨-, rfl⟩ := View.slice_eq_ok_iff.mp (View.range_eq_ok_iff.mp h)
    rfl
  · simp only [hm] at h
    obtain ⟨w, -, hs⟩ := bind_eq_ok_iff.mp (lift_eq_ok_iff.mp h)
    obtain ⟨-, rfl⟩ := View.slice_eq_ok_iff.mp hs
    rfl

theorem len_of_viewMut {sole : Bool} (hb : st.Bounds m) (h : st.viewMut m sole = .ok v) :
    v.window.len = m.len := by
  obtain ⟨hz, rfl⟩ | h := view_of_viewMut h
  · exact (eq_of_beq hz).symm
  · exact len_of_view hb h

theorem exists_error_of_released (hs : st.backingState m.backing = .released) :
    ∃ f, st.view m = .error f := by
  by_cases hh : st.Honest m.backing
  · exact ⟨_, view_of_released hh hs⟩
  · obtain ⟨k, pr, hb, hk⟩ : ∃ k pr, m.backing = .manager k ∧
        st.managers[k]? = some (.probe pr) := by
      simpa [Honest] using hh
    have hp : pr.state = .released := by
      rw [hb] at hs
      simpa only [backingState, managerState, hk] using hs
    exact ⟨_, by simp only [view, hb, managerView, hk, hp, if_true]; rfl⟩

end Store

namespace Session

variable {p : Platform} {s : Session} {slot dest : String} {h₁ h₂ : Handle} {m₁ m₂ : Memory}
  {v₁ v₂ : View}

def copied (s : Session) (v₁ v₂ : View) : Session :=
  s.withStore (s.store.write v₂ (v₂.window.write (s.store.read v₁).bytes (s.store.bytesOf v₂)))

theorem copyView_eq (s : Session) (v₁ v₂ : View) : s.copyView v₁ v₂ =
    if v₁.window.len ≤ v₂.window.len then .ok (s.copied v₁ v₂)
    else .error (.tooShort v₁.window.len v₂.window.len) := by
  rw [copyView, checkCopy_eq]
  split <;> rfl

/-! ## The order of the checks -/

section Ends

variable (hn : slot ≠ dest) (hs₁ : s.slots.get? slot = some h₁)
  (hm₁ : h₁ = .memory m₁ ∨ h₁ = .readOnly m₁) (hs₂ : s.slots.get? dest = some h₂)
  (hm₂ : h₂.writable? = some m₂)

include hn hs₁ hm₁ hs₂ hm₂

theorem copyEnds_of_memories : s.copyEnds slot dest = .ok (m₁, m₂) := by
  obtain rfl | rfl := hm₁
  · simp only [copyEnds, hs₁, hs₂, Option.bind_some, hm₂, if_neg hn]
  · simp only [copyEnds, hs₁, hs₂, Option.bind_some, hm₂, if_neg hn]

theorem copyViews_of_memories : s.copyViews slot dest = do
    let v₁ ← s.store.view m₁
    let v₂ ← s.viewMutOf h₂
    return (v₁, v₂) := by
  rw [copyViews, copyEnds_of_memories hn hs₁ hm₁ hs₂ hm₂, viewMutOf_of_writable? hm₂]
  rfl

theorem copy_of_refused {f : Failure} (hf : s.store.view m₁ = .error f ∨
      (∃ v₁, s.store.view m₁ = .ok v₁) ∧ s.viewMutOf h₂ = .error f) :
    s.copy slot dest = s.refuse f ∧ s.tryCopy slot dest = s.refuse f := by
  have hv : s.copyViews slot dest = .error f := by
    rw [copyViews_of_memories hn hs₁ hm₁ hs₂ hm₂]
    obtain hv | ⟨⟨v₁, hv₁⟩, hv₂⟩ := hf
    · rw [hv]
      rfl
    · rw [hv₁, hv₂]
      rfl
  simp only [copy, tryCopy, hv, and_self]

variable (hv₁ : s.store.view m₁ = .ok v₁) (hv₂ : s.viewMutOf h₂ = .ok v₂)

include hv₁ hv₂

theorem copyViews_of_views : s.copyViews slot dest = .ok (v₁, v₂) := by
  rw [copyViews_of_memories hn hs₁ hm₁ hs₂ hm₂, hv₁, hv₂]
  rfl

theorem copy_of_lt (hl : v₂.window.len < v₁.window.len) :
    s.copy slot dest = s.refuse (.error (.tooShort v₁.window.len v₂.window.len)) ∧
      s.tryCopy slot dest = s.answer (.flag false) := by
  have hv := copyViews_of_views hn hs₁ hm₁ hs₂ hm₂ hv₁ hv₂
  have hc := s.copyView_eq v₁ v₂
  rw [if_neg (UInt64.not_le.mpr hl)] at hc
  simp only [copy, tryCopy, hv, hc, and_self]

theorem copy_of_le (hl : v₁.window.len ≤ v₂.window.len) :
    s.copy slot dest = (s.copied v₁ v₂).answer .done ∧
      s.tryCopy slot dest = (s.copied v₁ v₂).answer (.flag true) := by
  have hv := copyViews_of_views hn hs₁ hm₁ hs₂ hm₂ hv₁ hv₂
  have hc := s.copyView_eq v₁ v₂
  rw [if_pos hl] at hc
  simp only [copy, tryCopy, hv, hc, and_self]

end Ends

section Agreement

variable (hn : slot ≠ dest) (hr : s.estate.Regular) (hs₁ : s.slots.get? slot = some h₁)
  (hm₁ : h₁ = .memory m₁ ∨ h₁ = .readOnly m₁) (hs₂ : s.slots.get? dest = some h₂)
  (hm₂ : h₂.writable? = some m₂)

include hn hr hs₁ hm₁ hs₂ hm₂

/-- Both variants of a copy are refused for the same reason, or the destination is too short, or
both end in the same session. -/
theorem copy_tryCopy_cases :
    (∃ f, f ≠ .error (.tooShort m₁.len m₂.len) ∧ s.copy slot dest = s.refuse f ∧
      s.tryCopy slot dest = s.refuse f) ∨
    (s.copy slot dest = s.refuse (.error (.tooShort m₁.len m₂.len)) ∧
      s.tryCopy slot dest = s.answer (.flag false)) ∨
    ∃ s' : Session, s.copy slot dest = s'.answer .done ∧
      s.tryCopy slot dest = s'.answer (.flag true) := by
  have hx₁ : ∃ a, h₁.memory? = some (a, m₁) := by
    obtain rfl | rfl := hm₁ <;> exact ⟨_, rfl⟩
  have hb₁ : s.store.Bounds m₁ := hr.bounded (mem_handles hs₁) hx₁.choose_spec
  have hb₂ : s.store.Bounds m₂ :=
    hr.bounded (mem_handles hs₂) (Handle.memory?_of_writable? hm₂)
  rcases hv₁ : s.store.view m₁ with f | v₁
  · have hne : f ≠ .error (.tooShort m₁.len m₂.len) := by
      rintro rfl
      exact s.store.view_ne_tooShort _ _ _ hv₁
    exact .inl ⟨f, hne, copy_of_refused hn hs₁ hm₁ hs₂ hm₂ (.inl hv₁)⟩
  · rcases hv₂ : s.viewMutOf h₂ with f | v₂
    · have hne : f ≠ .error (.tooShort m₁.len m₂.len) := by
        rintro rfl
        obtain h | h | h := Store.viewMut_eq_error ((viewMutOf_of_writable? hm₂).symm.trans hv₂)
        · cases h
        · cases h
        · exact s.store.view_ne_tooShort _ _ _ h
      exact .inl ⟨f, hne, copy_of_refused hn hs₁ hm₁ hs₂ hm₂ (.inr ⟨⟨v₁, hv₁⟩, hv₂⟩)⟩
    · rcases Nat.lt_or_ge v₂.window.len.toNat v₁.window.len.toNat with hl | hl
      · have hc := copy_of_lt hn hs₁ hm₁ hs₂ hm₂ hv₁ hv₂ (UInt64.lt_iff_toNat_lt.mpr hl)
        rw [Store.len_of_view hb₁ hv₁,
          Store.len_of_viewMut hb₂ ((viewMutOf_of_writable? hm₂).symm.trans hv₂)] at hc
        exact .inr (.inl hc)
      · have hc := copy_of_le hn hs₁ hm₁ hs₂ hm₂ hv₁ hv₂ (UInt64.le_iff_toNat_le.mpr hl)
        exact .inr (.inr ⟨_, hc⟩)

theorem tryCopy_agrees :
    (s.tryCopy slot dest).2 = (s.copy slot dest).2 ∧
      ((s.tryCopy slot dest).1 = .ok (.flag true) ↔ (s.copy slot dest).1 = .ok .done) ∧
      ((s.tryCopy slot dest).1 = .ok (.flag false) ↔
        (s.copy slot dest).1 = .error (.error (.tooShort m₁.len m₂.len))) ∧
      ∀ f, (s.tryCopy slot dest).1 = .error f ↔
        (s.copy slot dest).1 = .error f ∧ f ≠ .error (.tooShort m₁.len m₂.len) := by
  obtain ⟨f, hne, hc, ht⟩ | ⟨hc, ht⟩ | ⟨s', hc, ht⟩ :=
    copy_tryCopy_cases hn hr hs₁ hm₁ hs₂ hm₂
  · rw [hc, ht]
    refine ⟨rfl, iff_of_false nofun nofun, iff_of_false nofun ?_, fun g => ?_⟩
    · exact fun h => hne (Except.error.inj h)
    · refine ⟨fun h => ⟨h, ?_⟩, And.left⟩
      obtain rfl := Except.error.inj h
      exact hne
  · rw [hc, ht]
    refine ⟨rfl, iff_of_false nofun nofun, iff_of_true rfl rfl, fun g => iff_of_false nofun ?_⟩
    rintro ⟨h, hg⟩
    exact hg (Except.error.inj h).symm
  · rw [hc, ht]
    exact ⟨rfl, iff_of_true rfl rfl, iff_of_false nofun nofun, fun g => iff_of_false nofun nofun⟩

end Agreement

/-! ## What is copied -/

/-- What a writable view shows after a copy to it. The values that are copied are those before the
copy, wherever they lie. -/
theorem values_copied (hr : s.estate.Regular) {x₁ x₂ : Handle} (hx₁ : x₁ ∈ s.estate.handles)
    (hx₂ : x₂ ∈ s.estate.handles) (hv₁ : s.viewOf x₁ = .ok v₁) (hv₂ : s.viewMutOf x₂ = .ok v₂)
    (hl : v₁.window.len ≤ v₂.window.len) :
    ((s.copied v₁ v₂).store.read v₂).values =
      (s.store.read v₁).values ++ (s.store.read v₂).values.drop v₁.window.len.toNat := by
  obtain ⟨roles, hlay⟩ := hr.layout
  have hsh₁ := ((Resolves.span hv₁).shows hlay hx₁).1
  have hsh₂ := ((Resolves.spanMut hv₂).shows hlay hx₂).1
  have hc := hsh₁.within.sound_contents hsh₁.lt
  have he : v₁.window.element = v₂.window.element := hsh₁.element.trans hsh₂.element.symm
  have hle : (s.store.read v₁).bytes.length ≤ v₂.window.byteLength := by
    refine hc.length.trans_le ?_
    change v₁.window.len.toNat * v₁.window.element.size ≤ _
    rw [he]
    exact Nat.mul_le_mul_right _ (UInt64.le_iff_toNat_le.mp hl)
  have hb := bytesOf_write_window hr hx₂ hv₂ rfl hle
  rw [Store.read, copied, withStore, hb]
  exact hsh₂.within.values_write_bytes hsh₂.lt hc he hl

theorem values_dest (hr : s.estate.Regular) (hx₁ : h₁ ∈ s.estate.handles)
    (hv₁ : s.viewOf h₁ = .ok v₁) (hs₂ : s.slots.get? dest = some h₂)
    (hm₂ : h₂.writable? = some m₂) (hv₂ : s.viewMutOf h₂ = .ok v₂)
    (hl : v₁.window.len ≤ v₂.window.len) {c₂ : Contents}
    (hc₂ : s.values dest = .ok (.contents (some c₂))) :
    c₂.values.length = v₂.window.len.toNat ∧
      ∃ c, (s.copied v₁ v₂).values dest = .ok (.contents (some c)) ∧
        c.values = (s.store.read v₁).values ++ c₂.values.drop v₁.window.len.toNat := by
  have hx₂ := mem_handles hs₂
  have hm := Handle.memory?_of_writable? hm₂
  obtain ⟨roles, hlay⟩ := hr.layout
  obtain ⟨u, hu, rfl⟩ : ∃ u, s.store.view m₂ = .ok u ∧ c₂ = s.store.read u := by
    rcases hu : s.store.view m₂ with f | u
    · rw [(values_of_error hs₂ hm hu).1] at hc₂
      cases hc₂
    · rw [(values_of_view hs₂ hm hu).1] at hc₂
      cases hc₂
      exact ⟨u, rfl, rfl⟩
  have hsh := hlay.shows_view hx₂ hm hu
  have hlen : (s.store.read u).values.length = u.window.len.toNat :=
    Contents.length_values hsh.within.length_read
  have hb := hr.bounded hx₂ hm
  have hul : u.window.len = v₂.window.len := by
    rw [viewMutOf_of_writable? hm₂] at hv₂
    exact (Store.len_of_view hb hu).trans (Store.len_of_viewMut hb hv₂).symm
  refine ⟨hlen.trans (congrArg UInt64.toNat hul), ?_⟩
  have hu' : (s.copied v₁ v₂).store.view m₂ = .ok u := by
    refine (Store.view_congr ?_).trans hu
    rw [← Handle.backing_of_memory? hm]
    exact storageOf_write hr hx₂ _ _
  refine ⟨_, (values_of_view (s := s.copied v₁ v₂) hs₂ hm hu').1, ?_⟩
  obtain ⟨hz, rfl⟩ | hw := Store.view_of_viewMut ((viewMutOf_of_writable? hm₂).symm.trans hv₂)
  · -- Nothing is written to an empty memory, and there is nothing to copy.
    have hz₁ : v₁.window.len = 0 := by
      have h0 := UInt64.le_iff_toNat_le.mp hl
      exact UInt64.toNat_inj.mp (Nat.le_zero.mp h0)
    have hr₁ : (s.store.read v₁).values = [] := by
      have hsh₁ := ((Resolves.span hv₁).shows hlay hx₁).1
      refine List.length_eq_zero_iff.mp ((Contents.length_values hsh₁.within.length_read).trans ?_)
      exact congrArg UInt64.toNat hz₁
    rw [hr₁, hz₁]
    rfl
  · obtain rfl := Except.ok.inj (hw.symm.trans hu)
    exact values_copied hr hx₁ hx₂ hv₁ hv₂ hl

/-- A copy between two memories fails as the span of its source does, else as the writable span of
its destination, else if the destination is shorter, and else puts the values of the source before
the copy in the place of the first ones of the destination, even if both are over the same bytes. A
failed copy changes nothing. The variant with a flag differs only in that it tells a destination
that is too short by the flag. The span of a memory fails if the backing was released, and a
writable one also if another handle refers to the backing of a memory that is not empty; over
managers that are no probes there are no other failures. -/
theorem copy_all_or_nothing (p : Platform) (e : Element) (ops : List Op) (slot dest : String)
    (h₁ h₂ : Handle) (m₁ m₂ : Memory) (hn : slot ≠ dest)
    (hs₁ : ((start e).after p ops).slots.get? slot = some h₁)
    (hm₁ : h₁ = .memory m₁ ∨ h₁ = .readOnly m₁)
    (hs₂ : ((start e).after p ops).slots.get? dest = some h₂) (hm₂ : h₂.writable? = some m₂) :
    let s := (start e).after p ops
    let short : Failure := .error (.tooShort m₁.len m₂.len)
    (∀ f, s.viewOf h₁ = .error f ∨ (∃ v₁, s.viewOf h₁ = .ok v₁) ∧ s.viewMutOf h₂ = .error f →
      s.copy slot dest = s.refuse f) ∧
    (∀ v₁ v₂, s.viewOf h₁ = .ok v₁ → s.viewMutOf h₂ = .ok v₂ →
      (m₂.len < m₁.len → s.copy slot dest = s.refuse short) ∧
      (m₁.len ≤ m₂.len → ∃ (c₁ : Contents) (s' : Session),
        s.values slot = .ok (.contents (some c₁)) ∧ c₁.values.length = m₁.len.toNat ∧
        s.copy slot dest = s'.answer .done ∧ s'.slots = s.slots ∧
        ∀ c₂ : Contents, s.values dest = .ok (.contents (some c₂)) →
          c₂.values.length = m₂.len.toNat ∧
            ∃ c : Contents, s'.values dest = .ok (.contents (some c)) ∧
              c.values = c₁.values ++ c₂.values.drop m₁.len.toNat)) ∧
    ((s.tryCopy slot dest).2 = (s.copy slot dest).2 ∧
      ((s.tryCopy slot dest).1 = .ok (.flag true) ↔ (s.copy slot dest).1 = .ok .done) ∧
      ((s.tryCopy slot dest).1 = .ok (.flag false) ↔ (s.copy slot dest).1 = .error short) ∧
      ∀ f, (s.tryCopy slot dest).1 = .error f ↔ (s.copy slot dest).1 = .error f ∧ f ≠ short) ∧
    (s.store.backingState m₁.backing = .released → ∃ f, s.viewOf h₁ = .error f ∧
      (s.store.Honest m₁.backing → f = .error .released)) ∧
    (s.store.backingState m₁.backing ≠ .released → s.store.Honest m₁.backing →
      ∃ v₁, s.viewOf h₁ = .ok v₁) ∧
    (s.store.backingState m₂.backing = .released → s.viewMutOf h₂ = .error (.error .released)) ∧
    (s.store.backingState m₂.backing ≠ .released → m₂.len ≠ 0 → s.Shares dest m₂.backing →
      s.viewMutOf h₂ = .error (.error .sharedBacking)) ∧
    (m₁.backing = m₂.backing → s.Shares dest m₂.backing) ∧
    (s.store.backingState m₂.backing ≠ .released → s.store.Honest m₂.backing →
      m₂.len = 0 ∨ ¬s.Shares dest m₂.backing →
        ∃ v₂ c₂, s.viewMutOf h₂ = .ok v₂ ∧ s.values dest = .ok (.contents (some c₂))) := by
  intro s short
  have hd : s.slots.Distinct := distinct_run p e ops
  have hr : s.estate.Regular := regular_run p e ops
  obtain ⟨roles, hlay⟩ := hr.layout
  have hx₁ := mem_handles hs₁
  have hx₂ := mem_handles hs₂
  obtain ⟨a, hma⟩ : ∃ a, h₁.memory? = some (a, m₁) := by
    obtain rfl | rfl := hm₁ <;> exact ⟨_, rfl⟩
  have hmb := Handle.memory?_of_writable? hm₂
  have hb₁ : s.store.Bounds m₁ := hr.bounded hx₁ hma
  have hb₂ : s.store.Bounds m₂ := hr.bounded hx₂ hmb
  have hview : s.viewOf h₁ = s.store.view m₁ := by
    unfold viewOf
    rw [hma]
  have hmut := viewMutOf_of_writable? (s := s) hm₂
  rw [hview]
  refine ⟨?_, ?_, tryCopy_agrees hn hr hs₁ hm₁ hs₂ hm₂, ?_, ?_, ?_, ?_, ?_, ?_⟩
  · intro f hf
    exact (copy_of_refused hn hs₁ hm₁ hs₂ hm₂ hf).1
  · intro v₁ v₂ hv₁ hv₂
    have hl₁ := Store.len_of_view hb₁ hv₁
    have hl₂ := Store.len_of_viewMut hb₂ (hmut.symm.trans hv₂)
    constructor
    · intro hl
      rw [← hl₁, ← hl₂] at hl
      have hc := (copy_of_lt hn hs₁ hm₁ hs₂ hm₂ hv₁ hv₂ hl).1
      rwa [hl₁, hl₂] at hc
    · intro hl
      rw [← hl₁, ← hl₂] at hl
      have hsh := hlay.shows_view hx₁ hma hv₁
      refine ⟨_, _, (values_of_view hs₁ hma hv₁).1, ?_,
        (copy_of_le hn hs₁ hm₁ hs₂ hm₂ hv₁ hv₂ hl).1, rfl, fun c₂ hc₂ => ?_⟩
      · rw [← hl₁]
        exact Contents.length_values hsh.within.length_read
      · have hdest := values_dest hr hx₁ (hview.trans hv₁) hs₂ hm₂ hv₂ hl hc₂
        rwa [hl₁, hl₂] at hdest
  · intro hrel
    obtain ⟨f, hf⟩ := Store.exists_error_of_released hrel
    refine ⟨f, hf, fun hh => ?_⟩
    exact Except.error.inj (hf.symm.trans (Store.view_of_released hh hrel))
  · intro hlive hh
    obtain ⟨v, hv, -⟩ := hlay.view_of_live hh hb₁ hlive
    exact ⟨v, hv⟩
  · intro hrel
    exact hmut.trans (Store.viewMut_of_released hrel _)
  · intro hlive hl ho
    exact hmut.trans (viewMut_of_shares hd hr hs₂ hm₂ hlive hl ho)
  · intro hb
    exact ⟨slot, h₁, hn, hs₁, (Handle.backing_of_memory? hma).trans hb⟩
  · intro hlive hh ho
    obtain ⟨u, hu, -⟩ := hlay.view_of_live hh hb₂ hlive
    have hvalues := (values_of_view hs₂ hmb hu).1
    obtain hl | ho := ho
    · exact ⟨_, _, hmut.trans (viewMut_of_empty hr hs₂ hm₂ hlive hl _), hvalues⟩
    · obtain ⟨v, hv, -⟩ := exists_viewMut hd hr hs₂ hm₂ hlive hh ho
      exact ⟨v, _, hv, hvalues⟩

/-- Two native managers over overlapping parts of one storage, copied towards the end. -/
theorem copy_all_or_nothing_of_overlap :
    let ops : List Op := [.storage "b" ⟨.u8, 4, [1, 2, 3, 4]⟩, .recorder "r" false,
      .native "x" "b" "r" 0 3, .native "y" "b" "r" 1 3, .share "t" "x", .share "u" "y",
      .memory "m" .readOnly (.manager "t" true), .memory "n" .writable (.manager "u" true)]
    let m₁ : Memory := ⟨.manager 1, 0, 3⟩
    let m₂ : Memory := ⟨.manager 2, 0, 3⟩
    let s := (start .u8).after .bounded ops
    s.slots.get? "m" = some (.readOnly m₁) ∧ s.slots.get? "n" = some (.memory m₂) ∧
      ∃ (c₁ c : Contents) (s' : Session), s.values "m" = .ok (.contents (some c₁)) ∧
        s.copy "m" "n" = s'.answer .done ∧
        s'.values "n" = .ok (.contents (some c)) ∧ c.values = c₁.values := by
  intro ops m₁ m₂ s
  have hs₁ : s.slots.get? "m" = some (.readOnly m₁) := by decide +kernel
  have hs₂ : s.slots.get? "n" = some (.memory m₂) := by decide +kernel
  have hv₁ : s.viewOf (.readOnly m₁) = .ok ⟨some 0, ⟨.u8, 0, 3⟩⟩ := by decide +kernel
  have hv₂ : s.viewMutOf (.memory m₂) = .ok ⟨some 0, ⟨.u8, 1, 3⟩⟩ := by decide +kernel
  have hc₂ : s.values "n" = .ok (.contents (some ⟨.u8, 3, [2, 3, 4]⟩)) := by decide +kernel
  obtain ⟨-, hcopy, -⟩ := copy_all_or_nothing .bounded .u8 ops "m" "n" (.readOnly m₁) (.memory m₂)
    m₁ m₂ (by decide) hs₁ (.inr rfl) hs₂ rfl
  obtain ⟨-, hdone⟩ := hcopy _ _ hv₁ hv₂
  obtain ⟨c₁, s', hc₁, -, hs', -, hdest⟩ := hdone (by decide)
  obtain ⟨hlen, c, hc, hval⟩ := hdest _ hc₂
  refine ⟨hs₁, hs₂, c₁, c, s', hc₁, hs', hc, ?_⟩
  rw [hval, List.drop_eq_nil_of_le hlen.le, List.append_nil]

end Session

end LargeBuffers
