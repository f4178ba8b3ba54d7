import LargeBuffers.Proofs.Kinds
import LargeBuffers.Store

/-! # Programs without their refused requests

A request that is refused leaves the bytes as they were, so a program without the requests that
its transcript shows as refused comes to the same bytes and gets the same answers.
-/

namespace LargeBuffers

def Transcript.prune : Transcript → Transcript
  | .done => .done
  | .answered r rest => .answered r rest.prune
  | .refused _ rest => rest.prune
  | .derived body rest => .derived body.prune rest.prune

/-- A program without the requests that are refused in a transcript of it. -/
def Program.prune : Program → Transcript → Program
  | .query q rest, .answered _ t => .query q (rest.prune t)
  | .update u rest, .answered _ t => .update u (rest.prune t)
  | .derive d body rest, .derived inner t => .derive d (body.prune inner) (rest.prune t)
  | .query _ rest, .refused _ t => rest.prune t
  | .update _ rest, .refused _ t => rest.prune t
  | .derive _ _ rest, .refused _ t => rest.prune t
  | .unreadable rest, .refused _ t => rest.prune t
  | prog, _ => prog

namespace Program

variable {base : UInt64} {a : Access} {w : Window} {bytes : List UInt8}

theorem run_prune (base : UInt64) (prog : Program) (a : Access) (w : Window) (bytes : List UInt8) :
    (prog.prune (prog.run base a w bytes).1).run base a w bytes =
      ((prog.run base a w bytes).1.prune, (prog.run base a w bytes).2) := by
  induction prog generalizing a w bytes with
  | done => rfl
  | query q rest ih =>
    cases hq : q.answer a w bytes with
    | ok r => simp [run, prune, Transcript.prune, hq, ih]
    | error f => simp [run, prune, Transcript.prune, hq, ih]
  | update u rest ih =>
    cases a with
    | readOnly => simp [run, prune, Transcript.prune, ih]
    | writable =>
      cases hu : u.apply w bytes with
      | ok bytes₁ => simp [run, prune, Transcript.prune, hu, ih]
      | error f => simp [run, prune, Transcript.prune, hu, ih]
  | derive d body rest ihb ih =>
    cases hd : d.apply base a w with
    | ok r =>
      obtain ⟨a', w'⟩ := r
      simp [run, prune, Transcript.prune, hd, ihb, ih]
    | error f => simp [run, prune, Transcript.prune, hd, ih]
  | unreadable rest ih => simp [run, prune, Transcript.prune, ih]

theorem eq_done_of_run {prog : Program} (h : (prog.run base a w bytes).1 = .done) :
    prog = .done := by
  cases prog with
  | done => rfl
  | query q rest => cases hq : q.answer a w bytes <;> simp [run, hq] at h
  | update u rest =>
    cases a with
    | readOnly => simp [run] at h
    | writable => cases hu : u.apply w bytes <;> simp [run, hu] at h
  | derive d body rest => cases hd : d.apply base a w <;> simp [run, hd] at h
  | unreadable rest => simp [run] at h

/-- A program whose requests are all refused leaves the bytes as they were. -/
theorem run_eq_of_prune_eq_done {prog : Program}
    (h : (prog.run base a w bytes).1.prune = .done) : (prog.run base a w bytes).2 = bytes := by
  have hr := run_prune base prog a w bytes
  have hp : prog.prune (prog.run base a w bytes).1 = .done :=
    eq_done_of_run ((congrArg Prod.fst hr).trans h)
  rw [hp] at hr
  exact (congrArg Prod.snd hr).symm

end Program

/-! ## Spans over an array -/

namespace Source

variable {e : Element} {a : Access} {src : Source} {array array' : Option Contents}
  {prog : Program}

theorem run_eq_error {f : Failure} (h : src.run e a array prog = (.error f, array')) :
    array' = array := by
  unfold run at h
  split at h
  · cases h
    rfl
  · split at h <;> cases h

theorem run_prune {t : Transcript} (h : src.run e a array prog = (.ok t, array')) :
    src.run e a array (prog.prune t) = (.ok t.prune, array') := by
  unfold run at h ⊢
  split at h
  · cases h
  · split at h
    · cases h
      rw [Program.run_prune]
    · cases h
      rw [Program.run_prune]

theorem run_eq_of_prune_eq_done {t : Transcript} (h : src.run e a array prog = (.ok t, array'))
    (ht : t.prune = .done) : array' = array := by
  unfold run at h
  split at h
  · cases h
  · split at h
    · cases h
      rfl
    · cases h
      rw [Program.run_eq_of_prune_eq_done ht]

end Source

/-! ## Copies to a run outside -/

namespace Query

variable {a : Access} {w : Window} {bytes : List UInt8} {dest dest' : Contents}

theorem eq_of_copyTo_refused {e : Error}
    (h : (copyTo dest).answer a w bytes = .ok (.copied (some e) dest')) : dest' = dest := by
  rw [answer_copyTo] at h
  split at h
  · cases hc : w.copyTo bytes dest with
    | error e' =>
      rw [hc] at h
      cases h
      rfl
    | ok d =>
      rw [hc] at h
      cases h
  · cases h

theorem eq_of_tryCopyTo_refused
    (h : (tryCopyTo dest).answer a w bytes = .ok (.offered false dest')) : dest' = dest := by
  rw [answer_tryCopyTo, Window.tryCopyTo_eq] at h
  split at h
  · cases hc : w.copyTo bytes dest with
    | error e' =>
      rw [hc] at h
      cases h
      rfl
    | ok d =>
      rw [hc] at h
      cases h
  · cases h

end Query

end LargeBuffers
