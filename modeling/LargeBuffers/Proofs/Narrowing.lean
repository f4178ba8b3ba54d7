import LargeBuffers.Proofs.Revision

/-! # Spans of both kinds

A read-only span answers whatever a writable one answers without writing, and it makes no
difference where a writable span is narrowed. Only the texts of spans name their kind.
-/

namespace LargeBuffers

/-! ## Texts -/

/-- A text without its first word, which is the name of the type if it describes a span. -/
def unnamed (text : String) : String := String.ofList (text.toList.dropWhile (· ≠ ' '))

theorem unnamed_append {name : String} (h : ∀ c ∈ name.toList, c ≠ ' ') (text : String) :
    unnamed (name ++ text) = unnamed text := by
  unfold unnamed
  rw [String.toList_append, List.dropWhile_append_of_pos]
  simpa using h

theorem unnamed_describe (w : Window) : unnamed w.asReadOnly.describe = unnamed w.describe := by
  have hr : ∀ c ∈ "ReadOnlyLargeSpan".toList, c ≠ ' ' := by simp
  have hw : ∀ c ∈ "LargeSpan".toList, c ≠ ' ' := by simp
  unfold ReadOnlySpan.describe Window.describe
  simp only [String.append_assoc]
  exact (unnamed_append hr _).trans (unnamed_append hw _).symm

namespace Reading

def unnamed : Reading → Reading
  | .text s => .text (LargeBuffers.unnamed s)
  | r => r

end Reading

namespace Transcript

def unnamed : Transcript → Transcript
  | .done => .done
  | .answered r t => .answered r.unnamed t.unnamed
  | .refused f t => .refused f t.unnamed
  | .derived inner t => .derived inner.unnamed t.unnamed

def append : Transcript → Transcript → Transcript
  | .done, t' => t'
  | .answered r t, t' => .answered r (t.append t')
  | .refused f t, t' => .refused f (t.append t')
  | .derived inner t, t' => .derived inner (t.append t')

theorem unnamed_append (t t' : Transcript) :
    (t.append t').unnamed = t.unnamed.append t'.unnamed := by
  induction t with
  | done => rfl
  | answered r t ih => exact congrArg (Transcript.answered r.unnamed) ih
  | refused f t ih => exact congrArg (Transcript.refused f) ih
  | derived inner t _ ih => exact congrArg (Transcript.derived inner.unnamed) ih

end Transcript

/-! ## Requests -/

theorem Query.unnamed_answer (q : Query) (w : Window) (bytes : List UInt8) (a a' : Access) :
    (q.answer a w bytes).map Reading.unnamed = (q.answer a' w bytes).map Reading.unnamed := by
  by_cases hq : q = .describe
  · subst hq
    have ht : ∀ a : Access, unnamed (a.ask (·.describe) (·.describe) w) = unnamed w.describe := by
      intro a
      cases a with
      | readOnly => exact unnamed_describe w
      | writable => rfl
    exact congrArg (fun s => Except.ok (Reading.text s)) ((ht a).trans (ht a').symm)
  · rw [answer_eq_writable a w bytes hq, answer_eq_writable a' w bytes hq]

namespace Derivation

def common (a : Access) : Derivation → Bool
  | .reborrow => false
  | .narrow => a = .writable
  | _ => true

def access (a : Access) : Derivation → Access
  | .narrow => .readOnly
  | _ => a

theorem apply_of_common {a : Access} {d : Derivation} (h : d.common a = true) (hn : d ≠ .narrow)
    (base : UInt64) (w : Window) :
    (∃ f, ∀ a', d.apply base a' w = .error f) ∨ ∃ w', ∀ a', d.apply base a' w = .ok (a', w') := by
  have hlift : ∀ x : Except Error Window,
      (∃ f, ∀ a' : Access, (Failure.lift x).map (Prod.mk a') = .error f) ∨
      ∃ w', ∀ a' : Access, (Failure.lift x).map (Prod.mk a') = .ok (a', w') := by
    rintro (err | w')
    · exact .inl ⟨.error err, fun _ => rfl⟩
    · exact .inr ⟨w', fun _ => rfl⟩
  cases d with
  | slice start length =>
    simp only [apply_slice]
    exact hlift _
  | sliceFrom start =>
    simp only [apply_sliceFrom]
    exact hlift _
  | cast e =>
    simp only [apply_cast]
    by_cases hu : w.element = .u8
    · simp only [if_pos hu]
      exact hlift _
    · exact .inl ⟨.badInput, fun a' => if_neg hu⟩
  | reborrow => cases h
  | narrow => exact absurd rfl hn

end Derivation

namespace Program

/-- The program asks nothing but what spans of both kinds answer, and narrows a writable span
only. -/
def common : Program → Access → Bool
  | .done, _ => true
  | .query _ rest, a => rest.common a
  | .update .., _ => false
  | .derive d body rest, a => d.common a && body.common (d.access a) && rest.common a
  | .unreadable rest, a => rest.common a

def append : Program → Program → Program
  | .done, q => q
  | .query r p, q => .query r (p.append q)
  | .update u p, q => .update u (p.append q)
  | .derive d body p, q => .derive d body (p.append q)
  | .unreadable p, q => .unreadable (p.append q)

/-- The program that never narrows: what it did with a narrowed span it does with the span
itself. -/
def widened : Program → Program
  | .done => .done
  | .query q rest => .query q rest.widened
  | .update u rest => .update u rest.widened
  | .derive .narrow body rest => body.widened.append rest.widened
  | .derive d body rest => .derive d body.widened rest.widened
  | .unreadable rest => .unreadable rest.widened

/-- The transcript of a program with the answers of narrowed spans put among those of the spans. -/
def merged : Program → Transcript → Transcript
  | .query _ rest, .answered r t => .answered r (rest.merged t)
  | .update _ rest, .answered r t => .answered r (rest.merged t)
  | .derive .narrow body rest, .derived inner t => (body.merged inner).append (rest.merged t)
  | .derive _ body rest, .derived inner t => .derived (body.merged inner) (rest.merged t)
  | .query _ rest, .refused f t => .refused f (rest.merged t)
  | .update _ rest, .refused f t => .refused f (rest.merged t)
  | .derive _ _ rest, .refused f t => .refused f (rest.merged t)
  | .unreadable rest, .refused f t => .refused f (rest.merged t)
  | _, t => t

variable {base : UInt64} {a : Access} {w w' : Window} {bytes : List UInt8} {body rest : Program}

/-! ## Runs -/

theorem run_append (prog prog' : Program) (bytes : List UInt8) :
    (prog.append prog').run base a w bytes =
      ((prog.run base a w bytes).1.append (prog'.run base a w (prog.run base a w bytes).2).1,
        (prog'.run base a w (prog.run base a w bytes).2).2) := by
  induction prog generalizing bytes with
  | done => rfl
  | query q rest ih =>
    simp only [append, run, ih]
    split <;> rfl
  | update u rest ih =>
    cases a with
    | readOnly => simp only [append, run, ih, Transcript.append]
    | writable =>
      simp only [append, run]
      split <;> simp only [ih, Transcript.append]
  | derive d body rest _ ih =>
    simp only [append, run]
    split <;> simp only [ih, Transcript.append]
  | unreadable rest ih => simp only [append, run, ih, Transcript.append]

theorem widened_derive {d : Derivation} (hn : d ≠ .narrow) :
    (derive d body rest).widened = .derive d body.widened rest.widened := by
  cases d with
  | narrow => exact absurd rfl hn
  | _ => rfl

theorem merged_derive {d : Derivation} (hn : d ≠ .narrow) (inner t : Transcript) :
    (derive d body rest).merged (.derived inner t) =
      .derived (body.merged inner) (rest.merged t) := by
  cases d with
  | narrow => exact absurd rfl hn
  | _ => rfl

theorem merged_refused (d : Derivation) (f : Failure) (t : Transcript) :
    (derive d body rest).merged (.refused f t) = .refused f (rest.merged t) := by
  cases d <;> rfl

theorem access_of_ne {d : Derivation} (hn : d ≠ .narrow) : d.access a = a := by
  cases d with
  | narrow => exact absurd rfl hn
  | _ => rfl

/-- A run of a program that does not write, against one that never narrows, on a span of either
kind. -/
structure Agrees (base : UInt64) (prog : Program) (a a' : Access) (w : Window)
    (bytes : List UInt8) : Prop where
  kept : (prog.run base a w bytes).2 = bytes
  kept_widened : (prog.widened.run base a' w bytes).2 = bytes
  same : (prog.merged (prog.run base a w bytes).1).unnamed =
    (prog.widened.run base a' w bytes).1.unnamed

theorem agrees {prog : Program} (h : prog.common a = true) (a' : Access) (base : UInt64)
    (w : Window) (bytes : List UInt8) : prog.Agrees base a a' w bytes := by
  induction prog generalizing a w with
  | done => exact ⟨rfl, rfl, rfl⟩
  | query q rest ih =>
    obtain ⟨hk, hk', hs⟩ := ih h w
    have hq := q.unnamed_answer w bytes a a'
    constructor
    · simp only [run]
      split <;> exact hk
    · simp only [widened, run]
      split <;> exact hk'
    · simp only [widened, run]
      rcases ha : q.answer a w bytes with f | r <;>
        rcases ha' : q.answer a' w bytes with f' | r' <;> rw [ha, ha'] at hq
      · obtain rfl := Except.error.inj hq
        exact congrArg (Transcript.refused f) hs
      · cases hq
      · cases hq
      · have hr : r.unnamed = r'.unnamed := Except.ok.inj hq
        exact congrArg₂ Transcript.answered hr hs
  | update u rest ih => cases h
  | derive d body rest ihb ihr =>
    simp only [common, Bool.and_eq_true] at h
    obtain ⟨⟨hd, hb⟩, hr⟩ := h
    obtain ⟨hrk, hrk', hrs⟩ := ihr hr w
    by_cases hn : d = .narrow
    · -- The answers of the narrowed span are put in front of those that follow.
      subst hn
      obtain rfl : a = .writable := of_decide_eq_true hd
      have hb : body.common .readOnly = true := hb
      obtain ⟨hbk, hbk', hbs⟩ := ihb hb w
      have hnarrow : Derivation.narrow.apply base .writable w = .ok (.readOnly, w) := rfl
      constructor
      · rw [run_derive_of_ok hnarrow, hbk, hrk]
      · rw [widened, run_append, hbk', hrk']
      · rw [run_derive_of_ok hnarrow, widened, run_append, hbk, hbk', merged,
          Transcript.unnamed_append, Transcript.unnamed_append, hbs, hrs]
    · rw [access_of_ne hn] at hb
      have hw : (derive d body rest).widened = .derive d body.widened rest.widened :=
        widened_derive hn
      obtain ⟨f, hf⟩ | ⟨w', hw'⟩ := Derivation.apply_of_common hd hn base w
      · constructor
        · rw [run_derive_of_error (hf a), hrk]
        · rw [hw, run_derive_of_error (hf a'), hrk']
        · rw [hw, run_derive_of_error (hf a), run_derive_of_error (hf a'), merged_refused]
          exact congrArg (Transcript.refused f) hrs
      · obtain ⟨hbk, hbk', hbs⟩ := ihb hb w'
        constructor
        · rw [run_derive_of_ok (hw' a), hbk, hrk]
        · rw [hw, run_derive_of_ok (hw' a'), hbk', hrk']
        · rw [hw, run_derive_of_ok (hw' a), run_derive_of_ok (hw' a'), hbk, hbk', merged_derive hn]
          exact congrArg₂ Transcript.derived hbs hrs
  | unreadable rest ih =>
    obtain ⟨hk, hk', hs⟩ := ih h w
    exact ⟨hk, hk', congrArg (Transcript.refused .badInput) hs⟩

/-! ## Programs that never narrow -/

theorem ne_narrow_of_common {d : Derivation} (h : d.common .readOnly = true) : d ≠ .narrow := by
  rintro rfl
  cases h

theorem widened_of_common {prog : Program} (h : prog.common .readOnly = true) :
    prog.widened = prog := by
  induction prog with
  | done => rfl
  | query q rest ih => exact congrArg (Program.query q) (ih h)
  | update u rest ih => cases h
  | derive d body rest ihb ihr =>
    simp only [common, Bool.and_eq_true] at h
    obtain ⟨⟨hd, hb⟩, hr⟩ := h
    have hn := ne_narrow_of_common hd
    rw [access_of_ne hn] at hb
    rw [widened_derive hn, ihb hb, ihr hr]
  | unreadable rest ih => exact congrArg Program.unreadable (ih h)

theorem common_append {prog prog' : Program} (h : prog.common a = true)
    (h' : prog'.common a = true) : (prog.append prog').common a = true := by
  induction prog with
  | done => exact h'
  | query q rest ih => exact ih h
  | update u rest ih => cases h
  | derive d body rest _ ih =>
    simp only [common, append, Bool.and_eq_true] at h ⊢
    exact ⟨h.1, ih h.2⟩
  | unreadable rest ih => exact ih h

theorem common_widened {prog : Program} (h : prog.common a = true) :
    prog.widened.common .readOnly = true := by
  induction prog generalizing a with
  | done => rfl
  | query q rest ih => exact ih h
  | update u rest ih => cases h
  | derive d body rest ihb ihr =>
    simp only [common, Bool.and_eq_true] at h
    obtain ⟨⟨hd, hb⟩, hr⟩ := h
    have hb' := ihb hb
    have hr' := ihr hr
    cases d with
    | slice | sliceFrom | cast =>
      simp only [widened, common, Bool.and_eq_true]
      exact ⟨⟨rfl, hb'⟩, hr'⟩
    | reborrow => cases hd
    | narrow => exact common_append hb' hr'
  | unreadable rest ih => exact ih h

end Program

/-! ## Spans over arrays -/

namespace Source

variable {e : Element} {src : Source} {array : Option Contents} {w : Window}

theorem run_of_error {f : Failure} (h : src.writableSpan e array = .error f) (a : Access)
    (prog : Program) : src.run e a array prog = (.error f, array) := by
  simp only [run, window_eq, h]

theorem run_of_kept {a : Access} {prog : Program} (h : src.writableSpan e array = .ok w)
    (hk : ∀ bytes, (prog.run placement a w bytes).2 = bytes) :
    src.run e a array prog =
      (.ok (prog.run placement a w (array.elim [] (·.bytes))).1, array) := by
  rcases array with _ | c
  · simp only [run, window_eq, h]
    rfl
  · simp only [run, window_eq, h, hk]
    rfl

/-- Whether a span can be made over an array does not depend on its kind. If it can, a program that
spans of both kinds understand has the same answers on either, apart from the name in the text of
the span, and leaves the array as it is. So has the program that narrows the writable span and goes
on with the narrowed one, any number of times and at any depth. Whatever a program asks of a
read-only span, or of one that was narrowed, nothing is written. -/
theorem spans_agree (e : Element) (src : Source) (array : Option Contents) :
    ((∃ f, ∀ a prog, src.run e a array prog = (.error f, array)) ∨
      (∀ prog : Program, prog.common .readOnly = true → ∃ t t',
        src.run e .readOnly array prog = (.ok t, array) ∧
        src.run e .writable array prog = (.ok t', array) ∧ t.unnamed = t'.unnamed) ∧
      ∀ prog : Program, prog.common .writable = true →
        prog.widened.common .readOnly = true ∧ ∃ t t',
          src.run e .readOnly array prog.widened = (.ok t, array) ∧
          src.run e .writable array prog = (.ok t', array) ∧
          t.unnamed = (prog.merged t').unnamed) ∧
    ∀ prog : Program, (src.run e .readOnly array prog).2 = array ∧
      (src.run e .writable array (.derive .narrow prog .done)).2 = array := by
  -- The window of the writable span stands for that of the read-only one, by `Source.window_eq`.
  rcases hw : src.writableSpan e array with f | w
  · have hf := run_of_error hw
    refine ⟨.inl ⟨f, hf⟩, fun prog => ?_⟩
    rw [hf, hf]
    exact ⟨rfl, rfl⟩
  · refine ⟨.inr ⟨fun prog h => ?_, fun prog h => ⟨Program.common_widened h, ?_⟩⟩, fun prog => ?_⟩
    · have hr := Program.agrees h .readOnly placement w
      have hwr := Program.agrees h .writable placement w
      have hp := Program.widened_of_common h
      have hk : ∀ bytes, (prog.run placement .writable w bytes).2 = bytes := by
        intro bytes
        have hk := (hwr bytes).kept_widened
        rwa [hp] at hk
      refine ⟨_, _, run_of_kept hw fun bytes => (hr bytes).kept, run_of_kept hw hk, ?_⟩
      have hs := (hr (array.elim [] (·.bytes))).same
      rw [(hwr _).same, hp] at hs
      exact hs.symm
    · have ha := Program.agrees h .readOnly placement w
      exact ⟨_, _, run_of_kept hw fun bytes => (ha bytes).kept_widened,
        run_of_kept hw fun bytes => (ha bytes).kept, (ha _).same.symm⟩
    · have hk := prog.run_readOnly_snd placement w
      have hn : ∀ bytes, ((Program.derive .narrow prog .done).run placement .writable w bytes).2 =
          bytes := by
        intro bytes
        have hnarrow : Derivation.narrow.apply placement .writable w = .ok (.readOnly, w) := rfl
        rw [Program.run_derive_of_ok hnarrow]
        exact hk bytes
      rw [run_of_kept hw hk, run_of_kept hw hn]
      exact ⟨rfl, rfl⟩

end Source

end LargeBuffers
