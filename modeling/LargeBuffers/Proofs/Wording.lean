import Mathlib.Data.List.Basic
import LargeBuffers.Journal

/-! # The wording of log lines

Every line that is logged begins with the words of its kind and tells one size. No words begin a
line of another kind, so the lines of a kind are those of its events, and tell their sizes.
-/

namespace LargeBuffers

inductive LineKind where
  | allocated
  | releasing
  | dropped
  | freed
  | unfreed
  | handedOff
  | final
  deriving DecidableEq, Repr

def Event.told? : Event → Option (LineKind × UInt64)
  | allocated _ _ size => some (.allocated, size)
  | releasing len => some (.releasing, len)
  | dropped len => some (.dropped, len)
  | freed _ size => some (.freed, size)
  | unfreed _ size => some (.unfreed, size)
  | handedOff len => some (.handedOff, len)
  | finalRelease _ tracked => some (.final, tracked)
  | _ => none

def Event.size? (k : LineKind) (x : Event) : Option UInt64 :=
  match x.told? with
  | some (k', n) => if k' = k then some n else none
  | none => none

/-- The sizes in all lines of a kind. -/
def sizes (k : LineKind) (journal : List Event) : List UInt64 := journal.filterMap (Event.size? k)

variable {k k' : LineKind} {x : Event} {n : UInt64}

@[simp]
theorem sizes_nil (k : LineKind) : sizes k [] = [] := rfl

@[simp]
theorem sizes_append (k : LineKind) (journal journal' : List Event) :
    sizes k (journal ++ journal') = sizes k journal ++ sizes k journal' :=
  List.filterMap_append

theorem sizes_cons_of_none (h : x.size? k = none) (journal : List Event) :
    sizes k (x :: journal) = sizes k journal :=
  List.filterMap_cons_none h

theorem sizes_cons_of_some (h : x.size? k = some n) (journal : List Event) :
    sizes k (x :: journal) = n :: sizes k journal :=
  List.filterMap_cons_some h

theorem sizes_eq_nil {xs : List Event} (h : ∀ x ∈ xs, x.size? k = none) : sizes k xs = [] :=
  List.filterMap_eq_nil_iff.mpr h

/-! ## Lines -/

def begins (words line : String) : Bool := words.toList.isPrefixOf line.toList

theorem begins_append {words head : String} (h : words.toList.length ≤ head.toList.length)
    (tail : String) : begins words (head ++ tail) = begins words head := by
  unfold begins
  rw [String.toList_append, Bool.eq_iff_iff, List.isPrefixOf_iff_prefix,
    List.isPrefixOf_iff_prefix]
  constructor
  · intro hp
    exact List.prefix_of_prefix_length_le hp (List.prefix_append ..) h
  · intro hp
    exact hp.trans (List.prefix_append ..)

namespace LineKind

/-- The words by which lines of a kind are known. -/
def words : LineKind → String
  | allocated => "TRACE allocated"
  | releasing => "TRACE releasing"
  | dropped => "WARN raw allocation"
  | freed => "TRACE released"
  | unfreed => "ERROR cannot release"
  | handedOff => "DEBUG handing off"
  | final => "DEBUG final release"

def head : LineKind → String
  | allocated => "TRACE allocated native buffer PTR ("
  | releasing => "TRACE releasing native buffer PTR (offset N, "
  | dropped => "WARN raw allocation PTR ("
  | freed => "TRACE released native buffer PTR ("
  | unfreed => "ERROR cannot release native buffer PTR ("
  | handedOff => "DEBUG handing off native buffer PTR ("
  | final => "DEBUG final release of imported allocation ("

def tail : LineKind → String
  | allocated => " bytes, offset N)"
  | releasing | freed => " bytes)"
  | unfreed => " bytes): invalid parameters to Layout::from_size_align"
  | dropped => " bytes) dropped without a new owner, releasing"
  | handedOff => " bytes) to a new owner"
  | final => " tracked bytes)"

def line (k : LineKind) (n : UInt64) : String := k.head ++ toString n ++ k.tail

/-- The lines of a kind among all that are logged. -/
def lines (k : LineKind) (journal : List Event) : List String :=
  (journal.filterMap Event.line?).filter (begins k.words)

theorem begins_line (k k' : LineKind) (n : UInt64) :
    begins k.words (k'.line n) = decide (k' = k) := by
  have hwords : k.words.toList.length ≤ k'.head.toList.length ∧
      begins k.words k'.head = decide (k' = k) := by
    cases k <;> cases k' <;> decide
  obtain ⟨hl, hb⟩ := hwords
  rw [line, String.append_assoc, begins_append hl, hb]

end LineKind

theorem Event.line?_eq (x : Event) : x.line? = x.told?.map fun y => y.1.line y.2 := by
  cases x <;> rfl

/-- The lines of a kind tell the sizes of its events. -/
theorem LineKind.lines_eq (k : LineKind) (journal : List Event) :
    k.lines journal = (sizes k journal).map k.line := by
  induction journal with
  | nil => rfl
  | cons x journal ih =>
    unfold LineKind.lines at ih ⊢
    cases ht : x.told? with
    | none =>
      have hl : x.line? = none := by rw [Event.line?_eq, ht, Option.map_none]
      have hs : x.size? k = none := by rw [Event.size?, ht]
      rw [List.filterMap_cons_none hl, sizes_cons_of_none hs, ih]
    | some y =>
      obtain ⟨k', n⟩ := y
      have hl : x.line? = some (k'.line n) := by rw [Event.line?_eq, ht, Option.map_some]
      have hb := begins_line k k' n
      rw [List.filterMap_cons_some hl]
      by_cases hk : k' = k
      · subst hk
        have hs : x.size? k' = some n := by simp [Event.size?, ht]
        rw [List.filter_cons_of_pos (hb.trans (decide_eq_true rfl)), sizes_cons_of_some hs, ih,
          List.map_cons]
      · have hs : x.size? k = none := by simp [Event.size?, ht, hk]
        rw [List.filter_cons_of_neg (by simp [hb, hk]), sizes_cons_of_none hs, ih]

end LargeBuffers
