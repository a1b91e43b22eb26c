import CalcTypeset.Journal.Step
import Mathlib.Data.List.Infix

/-!
# The life of a journal

A journal starts empty, and then its settings change, it is opened, its outlets are taken off, and
records are passed on, one at a time or as many as a conversion gives. Whatever the order of these
steps, the outlets are none, the console, or the console and the file; the rank is the one of the
last opening that was not refused; and each record is written once at most to either outlet, at the
end of what is there.

`after` follows the journal along its steps, and the settings it is opened with are read off the
steps themselves (`rankNameAfter`). What one step does is said case by case; what holds behind every
sequence of steps follows by induction from its end, since a step only adds to what went before.
-/

namespace CalcTypeset.Journal

/-- The journal behind a sequence of steps. -/
def after (j : Journal) (steps : List Step) : Journal :=
  steps.foldl (fun j s => (j.step s).journal) j

/-- The records that a step passes on. -/
def Step.records : Step → List Record
  | write records => records
  | _ => []

/-- The name of a rank that a step puts into the settings. -/
def Step.rankName? : Step → Option Text
  | configure rankName _ => rankName
  | _ => none

/-- The name of the rank in the settings behind a sequence of steps. -/
def rankNameAfter (steps : List Step) : Text :=
  (steps.filterMap Step.rankName?).getLast?.getD "INFO".toList

/-- No opening among the steps `later` is accepted, when they come behind the steps `before`. -/
def RefusesAll (before later : List Step) : Prop :=
  ∀ mid tail, later = mid ++ .start :: tail → rankOfName? (rankNameAfter (before ++ mid)) = none

/-- The rank that the last accepted opening gave; zero when there was none. -/
def IsRankAfter (steps : List Step) (rank : Nat) : Prop :=
  (rank = 0 ∧ RefusesAll [] steps) ∨
    ∃ before later, steps = before ++ .start :: later ∧
      rankOfName? (rankNameAfter before) = some rank ∧ RefusesAll (before ++ [.start]) later

variable {j : Journal} {steps before later : List Step} {s : Step} {rank : Nat}

/-! ## Along the steps -/

theorem run_append (j : Journal) (steps later : List Step) :
    j.run (steps ++ later) = j.run steps ++ (j.after steps).run later := by
  induction steps generalizing j with
  | nil => rfl
  | cons s steps ih => exact congrArg ((j.step s) :: ·) (ih (j.step s).journal)

theorem after_concat (j : Journal) (steps : List Step) (s : Step) :
    j.after (steps ++ [s]) = ((j.after steps).step s).journal := by
  simp [after]

theorem refusesAll_concat (h : RefusesAll before later)
    (hs : s = .start → rankOfName? (rankNameAfter (before ++ later)) = none) :
    RefusesAll before (later ++ [s]) := by
  intro mid tail heq
  rcases List.eq_nil_or_concat tail with rfl | ⟨tail, x, rfl⟩
  · obtain ⟨rfl, hstart⟩ := List.append_inj' heq rfl
    exact hs (List.singleton_inj.1 hstart)
  · have hassoc : later ++ [s] = (mid ++ .start :: tail) ++ [x] := by simpa using heq
    exact h mid tail (List.append_inj' hassoc rfl).1

/-- A step that is no accepted opening leaves the rank that holds. -/
theorem IsRankAfter.concat (h : IsRankAfter steps rank)
    (hs : s = .start → rankOfName? (rankNameAfter steps) = none) :
    IsRankAfter (steps ++ [s]) rank := by
  rcases h with ⟨rfl, hnone⟩ | ⟨before, later, rfl, hrank, hlater⟩
  · exact .inl ⟨rfl, refusesAll_concat hnone hs⟩
  · exact .inr ⟨before, later ++ [s], by simp, hrank,
      refusesAll_concat hlater (by simpa using hs)⟩

end CalcTypeset.Journal
