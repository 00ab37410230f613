import Mathlib.Logic.Relation
import Mathlib.Tactic

/-!
# Computations that ask for each other by name

A program asks for the values of names, one after the other, and chooses each question by
the answers before it. Names stand for programs. What a program evaluates to says nothing
about how often or in which order the names are evaluated. A program that evaluates to
nothing runs into a failure, or into a name that asks for itself through others.
-/
namespace Alertmanager

/-- A program with questions for names of type `N`, values of type `V` and errors of type
`E`. An error answer ends it, with a context. -/
inductive Program (N V E : Type*)
  | done (v : V)
  | fail (err : E)
  | ask (name : N) (context : E) (next : V → Program N V E)

namespace Program
variable {N V E : Type*} (programs : N → Option (Program N V E)) (unknown : V)

/-- The value of a program, where unknown names have a default value. -/
inductive Evaluates : Program N V E → V → Prop
  | done (v : V) : Evaluates (.done v) v
  | askUnknown {name : N} {context : E} {next : V → Program N V E} {v : V}
      (hname : programs name = none) (hnext : Evaluates (next unknown) v) :
      Evaluates (.ask name context next) v
  | ask {name : N} {context : E} {next : V → Program N V E} {p : Program N V E} {answer v : V}
      (hname : programs name = some p) (hanswer : Evaluates p answer)
      (hnext : Evaluates (next answer) v) : Evaluates (.ask name context next) v

/-- The value of a name. -/
def HasValue (name : N) (v : V) : Prop :=
  match programs name with
  | none => v = unknown
  | some p => Evaluates programs unknown p v

/-- The questions that a program gets to, when those before them have an answer. -/
inductive Asks : Program N V E → N → Prop
  | here {name : N} {context : E} {next : V → Program N V E} :
      Asks (.ask name context next) name
  | later {name name' : N} {context : E} {next : V → Program N V E} {answer : V}
      (hanswer : HasValue programs unknown name answer) (hnext : Asks (next answer) name') :
      Asks (.ask name context next) name'

/-- The failure that a program gets to, when all its questions have an answer. -/
inductive FailsWith : Program N V E → E → Prop
  | here (err : E) : FailsWith (.fail err) err
  | later {name : N} {context : E} {next : V → Program N V E} {answer : V} {err : E}
      (hanswer : HasValue programs unknown name answer) (hnext : FailsWith (next answer) err) :
      FailsWith (.ask name context next) err

/-- One name asks for another. -/
def AsksFor (name name' : N) : Prop := ∃ p, programs name = some p ∧ Asks programs unknown p name'

/-- The questions that begin with a name run into themselves. -/
def RunsIntoItself (name : N) : Prop :=
  ∃ name', Relation.ReflTransGen (AsksFor programs unknown) name name' ∧
    Relation.TransGen (AsksFor programs unknown) name' name'

/-- The questions that begin with a name run into a program that fails. -/
def RunsIntoFailure (name : N) (err : E) : Prop :=
  ∃ name', Relation.ReflTransGen (AsksFor programs unknown) name name' ∧
    ∃ p, programs name' = some p ∧ FailsWith programs unknown p err

variable {programs : N → Option (Program N V E)} {unknown : V}

theorem hasValue_of_none {name : N} {v : V} (h : programs name = none) :
    HasValue programs unknown name v ↔ v = unknown := by
  rw [HasValue, h]

theorem hasValue_of_some {name : N} {p : Program N V E} {v : V} (h : programs name = some p) :
    HasValue programs unknown name v ↔ Evaluates programs unknown p v := by
  rw [HasValue, h]

theorem evaluates_ask {name : N} {context : E} {next : V → Program N V E} {answer v : V}
    (hanswer : HasValue programs unknown name answer)
    (hnext : Evaluates programs unknown (next answer) v) :
    Evaluates programs unknown (.ask name context next) v := by
  cases hname : programs name with
  | none =>
    rw [hasValue_of_none hname] at hanswer
    subst hanswer
    exact .askUnknown hname hnext
  | some p => exact .ask hname ((hasValue_of_some hname).mp hanswer) hnext

/-- A program has one value. -/
theorem Evaluates.unique {p : Program N V E} {v v' : V} (h : Evaluates programs unknown p v)
    (h' : Evaluates programs unknown p v') : v = v' := by
  induction h generalizing v' with
  | done => cases h' with
      | done => rfl
  | askUnknown hname hnext ih =>
    cases h' with
    | askUnknown hname' hnext' => exact ih hnext'
    | ask hname' => rw [hname] at hname'; cases hname'
  | ask hname hanswer hnext ihanswer ihnext =>
    cases h' with
    | askUnknown hname' => rw [hname] at hname'; cases hname'
    | ask hname' hanswer' hnext' =>
      obtain rfl := Option.some.inj (hname.symm.trans hname')
      obtain rfl := ihanswer hanswer'
      exact ihnext hnext'

theorem HasValue.unique {name : N} {v v' : V} (h : HasValue programs unknown name v)
    (h' : HasValue programs unknown name v') : v = v' := by
  cases hname : programs name with
  | none => rw [(hasValue_of_none hname).mp h, (hasValue_of_none hname).mp h']
  | some p => exact ((hasValue_of_some hname).mp h).unique ((hasValue_of_some hname).mp h')

/-! ### Names with a value -/

/-- The questions that begin with a name come to an end without a failure. -/
structure Settles (programs : N → Option (Program N V E)) (unknown : V) (name : N) : Prop where
  not_itself : ¬RunsIntoItself programs unknown name
  not_failure : ∀ err, ¬RunsIntoFailure programs unknown name err

theorem settles_of_none {name : N} (h : programs name = none) : Settles programs unknown name := by
  have hasks : ∀ name', ¬AsksFor programs unknown name name' := by
    rintro name' ⟨p, hp, -⟩
    rw [h] at hp
    cases hp
  have hreach : ∀ {name'}, Relation.ReflTransGen (AsksFor programs unknown) name name' →
      name' = name := by
    intro name' hreach
    obtain heq | ⟨name'', hask, -⟩ := hreach.cases_head
    · exact heq.symm
    · exact absurd hask (hasks name'')
  constructor
  · rintro ⟨name', hname', hcycle⟩
    obtain rfl := hreach hname'
    obtain ⟨name'', hask, -⟩ := Relation.TransGen.head'_iff.mp hcycle
    exact hasks name'' hask
  · rintro err ⟨name', hname', p, hp, -⟩
    obtain rfl := hreach hname'
    rw [h] at hp
    cases hp

/-- A name settles if the names that it asks for do, and its program does not fail. -/
theorem settles_of_asks {name : N} {p : Program N V E} (hname : programs name = some p)
    (hasks : ∀ name', Asks programs unknown p name' → Settles programs unknown name')
    (hfails : ∀ err, ¬FailsWith programs unknown p err) : Settles programs unknown name := by
  have hfirst : ∀ {name'}, AsksFor programs unknown name name' →
      Settles programs unknown name' := by
    rintro name' ⟨q, hq, hask⟩
    obtain rfl := Option.some.inj (hname.symm.trans hq)
    exact hasks name' hask
  constructor
  · rintro ⟨name', hreach, hcycle⟩
    obtain rfl | ⟨name'', hask, hreach⟩ := hreach.cases_head
    · -- the first question on the way around the cycle runs into it as well
      obtain ⟨name'', hask, hreach⟩ := Relation.TransGen.head'_iff.mp hcycle
      exact (hfirst hask).not_itself ⟨name, hreach, hcycle⟩
    · exact (hfirst hask).not_itself ⟨name', hreach, hcycle⟩
  · rintro err ⟨name', hreach, q, hq, hfail⟩
    obtain rfl | ⟨name'', hask, hreach⟩ := hreach.cases_head
    · obtain rfl := Option.some.inj (hname.symm.trans hq)
      exact hfails err hfail
    · exact (hfirst hask).not_failure err ⟨name', hreach, q, hq, hfail⟩

/-- A program with a value asks only for names that settle, and does not fail. -/
theorem Evaluates.settles {p : Program N V E} {v : V} (h : Evaluates programs unknown p v) :
    (∀ name, Asks programs unknown p name → Settles programs unknown name) ∧
      ∀ err, ¬FailsWith programs unknown p err := by
  -- the name in front and the rest of the program
  have hask : ∀ {name : N} {context : E} {next : V → Program N V E} {answer : V},
      HasValue programs unknown name answer → Settles programs unknown name →
      ((∀ name', Asks programs unknown (next answer) name' → Settles programs unknown name') ∧
        ∀ err, ¬FailsWith programs unknown (next answer) err) →
      (∀ name', Asks programs unknown (.ask name context next) name' →
        Settles programs unknown name') ∧
        ∀ err, ¬FailsWith programs unknown (.ask name context next) err := by
    intro name context next answer hanswer hname hnext
    constructor
    · intro name' hask
      cases hask with
      | here => exact hname
      | later hanswer' hlater =>
        rw [hanswer'.unique hanswer] at hlater
        exact hnext.1 name' hlater
    · intro err hfail
      cases hfail with
      | later hanswer' hlater =>
        rw [hanswer'.unique hanswer] at hlater
        exact hnext.2 err hlater
  induction h with
  | done v =>
    refine ⟨fun name hname => ?_, fun err hfail => ?_⟩
    · cases hname
    · cases hfail
  | askUnknown hname hnext ih =>
    exact hask ((hasValue_of_none hname).mpr rfl) (settles_of_none hname) ih
  | ask hname hanswer hnext ihanswer ihnext =>
    exact hask ((hasValue_of_some hname).mpr hanswer)
      (settles_of_asks hname ihanswer.1 ihanswer.2) ihnext

/-- The questions that begin with a name with a value come to an end. -/
theorem HasValue.settles {name : N} {v : V} (h : HasValue programs unknown name v) :
    Settles programs unknown name := by
  cases hname : programs name with
  | none => exact settles_of_none hname
  | some p =>
    obtain ⟨hasks, hfails⟩ := ((hasValue_of_some hname).mp h).settles
    exact settles_of_asks hname hasks hfails

theorem runsIntoItself_of_asksFor {name name' : N} (h : AsksFor programs unknown name name')
    (h' : RunsIntoItself programs unknown name') : RunsIntoItself programs unknown name := by
  obtain ⟨name'', hreach, hcycle⟩ := h'
  exact ⟨name'', hreach.head h, hcycle⟩

theorem runsIntoFailure_of_asksFor {name name' : N} {err : E}
    (h : AsksFor programs unknown name name') (h' : RunsIntoFailure programs unknown name' err) :
    RunsIntoFailure programs unknown name err := by
  obtain ⟨name'', hreach, hfail⟩ := h'
  exact ⟨name'', hreach.head h, hfail⟩

end Program

end Alertmanager
