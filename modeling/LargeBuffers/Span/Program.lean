import LargeBuffers.Window

/-! # Span programs

A span program asks questions of a window, updates what it shows, and runs further programs
on windows derived from it. Its transcript has an answer for every request, in order.
-/

namespace LargeBuffers

inductive Access where
  | readOnly
  | writable
  deriving DecidableEq, Repr

inductive Query where
  | length
  | contents
  /-- The values from the last to the first. -/
  | backwards
  | get (index : UInt64)
  /-- Reads a value and panics where `get` has an error. -/
  | index (index : UInt64)
  | describe
  /-- A copy to the front of a fresh run, which has to be long enough. -/
  | copyTo (dest : Contents)
  /-- The same copy, with the answer `false` and no copy if the run is too short. -/
  | tryCopyTo (dest : Contents)
  deriving DecidableEq, Repr

inductive Update where
  | set (index : UInt64) (v : Value)
  /-- Writes a value and panics where `set` has an error. -/
  | setIndex (index : UInt64) (v : Value)
  | fill (v : Value)
  | clear
  | reverse
  /-- Assigns the values in order, as far as both runs go. -/
  | assign (values : Contents)
  deriving DecidableEq, Repr

inductive Derivation where
  | slice (start length : UInt64)
  | sliceFrom (start : UInt64)
  | cast (e : Element)
  | reborrow
  /-- The same window without write access. -/
  | narrow
  deriving DecidableEq, Repr

inductive Program where
  | done
  | query (q : Query) (rest : Program)
  | update (u : Update) (rest : Program)
  | derive (d : Derivation) (body rest : Program)
  /-- A request that could not be read. -/
  | unreadable (rest : Program)
  deriving DecidableEq, Repr, Inhabited

inductive Reading where
  | done
  | length (len : UInt64)
  | contents (c : Contents)
  | backwards (c : Contents)
  | value (v : Value)
  | text (s : String)
  /-- The outcome of a copy and the destination afterwards. -/
  | copied (refusal : Option Error) (dest : Contents)
  | offered (accepted : Bool) (dest : Contents)
  deriving DecidableEq, Repr

inductive Transcript where
  | done
  | answered (reading : Reading) (rest : Transcript)
  | refused (failure : Failure) (rest : Transcript)
  | derived (body rest : Transcript)
  deriving DecidableEq, Repr

end LargeBuffers
