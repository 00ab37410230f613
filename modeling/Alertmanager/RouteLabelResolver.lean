import Alertmanager.AdaptiveProgram
import Alertmanager.TemplateData

/-!
# Rendering of route labels

`routeLabelResolver` of `template/template.go`. The value of a label is a template, which
asks for other labels. The resolver remembers the values it has rendered and marks the
labels it is rendering, so that a label that comes to ask for itself is an error and no
endless recursion. The marks are removed when a template fails. A template is any program
that asks for labels; the recursion is limited to a depth, and the number of labels turns
out to be deep enough.
-/
namespace Alertmanager

/-- The text templates, as the programs they are for some data. -/
class TextTemplate where
  program : TemplateData → GoString → Program GoString GoString GoString

inductive ResolveError
  | cycle (labels : List GoString)
  | failed (err : GoString)
  | calling (context : GoString) (err : ResolveError)
  deriving DecidableEq

namespace ResolveError

def text : ResolveError → GoString
  | cycle labels => str "route label cycle detected: " ++ (str " -> ").intercalate labels
  | failed err => err
  | calling context err => context ++ err.text

end ResolveError

/-- What a resolver does not change. -/
structure RouteLabelResolver where
  raw : KV
  rendered : Bool
  data : TemplateData

/-- What a resolver remembers. The labels whose templates have succeeded are listed in the
order in which they did. -/
structure ResolverState where
  memo : KV
  inProgress : Finset GoString
  stack : List GoString
  completed : List GoString

/-- `newRouteLabelResolver`. -/
def newRouteLabelResolver (data : TemplateData) : RouteLabelResolver :=
  ⟨data.routeLabels, data.routeLabelsRendered, data⟩

def ResolverState.init : ResolverState := ⟨∅, ∅, [], []⟩

/-- What a call returns and how it leaves the resolver, unless the depth is exceeded. -/
abbrev Resolved := Option (Except ResolveError GoString × ResolverState)

/-- The execution of a template, with the given function for `routeLabels`. -/
def execText (resolve : GoString → ResolverState → Resolved) :
    Program GoString GoString GoString → ResolverState → Resolved
  | .done v, s => some (.ok v, s)
  | .fail err, s => some (.error (.failed err), s)
  | .ask name context next, s =>
    match resolve name s with
    | none => none
    | some (.error err, s) => some (.error (.calling context err), s)
    | some (.ok answer, s) => execText resolve (next answer) s

namespace RouteLabelResolver
variable [TextTemplate]

/-- `routeLabelResolver.resolve`, with at most the given number of nested executions. -/
def resolve (r : RouteLabelResolver) : ℕ → GoString → ResolverState → Resolved
  | depth, name, s =>
    match r.raw.lookup name with
    | none => some (.ok [], s)
    | some raw =>
      if r.rendered then some (.ok raw, s)
      else match s.memo.lookup name with
        | some v => some (.ok v, s)
        | none =>
          if name ∈ s.inProgress then some (.error (.cycle (s.stack ++ [name])), s)
          else match depth with
            | 0 => none
            | depth + 1 =>
              let s :=
                { s with inProgress := insert name s.inProgress, stack := s.stack ++ [name] }
              match execText (r.resolve depth) (TextTemplate.program r.data raw) s with
              | none => none
              | some (v, s) =>
                let s :=
                  { s with inProgress := s.inProgress.erase name, stack := s.stack.dropLast }
                match v with
                | .error err => some (.error err, s)
                | .ok v =>
                  some (.ok v, { s with
                    memo := s.memo.insert name v
                    completed := s.completed ++ [name] })

/-- The results of some calls on one resolver. -/
def resolveAll (r : RouteLabelResolver) (depth : ℕ) :
    List GoString → ResolverState → Option (List (Except ResolveError GoString) × ResolverState)
  | [], s => some ([], s)
  | name :: names, s => do
      let (v, s) ← r.resolve depth name s
      let (vs, s) ← r.resolveAll depth names s
      return (v :: vs, s)

/-- The program that a label stands for. -/
def programs (r : RouteLabelResolver) (name : GoString) :
    Option (Program GoString GoString GoString) :=
  (r.raw.lookup name).map fun raw =>
    if r.rendered then .done raw else TextTemplate.program r.data raw

/-! ### The invariant -/

/-- The value of a label, whatever was resolved before. -/
def Renders (r : RouteLabelResolver) (name v : GoString) : Prop :=
  Program.HasValue r.programs [] name v

/-- One label asks for another. -/
def Asks (r : RouteLabelResolver) (name name' : GoString) : Prop :=
  Program.AsksFor r.programs [] name name'

/-- The chain of labels asked for runs into itself, or into the failing template that the
error is from. -/
def Blames (r : RouteLabelResolver) (name : GoString) : ResolveError → Prop
  | .cycle _ => Program.RunsIntoItself r.programs [] name
  | .failed err => Program.RunsIntoFailure r.programs [] name err
  | .calling _ err => r.Blames name err

/-- The memo has values of labels. The labels in progress are known, ask for each other,
and are not in the memo. -/
structure Sound (r : RouteLabelResolver) (s : ResolverState) : Prop where
  memo : ∀ name v, s.memo.lookup name = some v → r.Renders name v
  completed_nodup : s.completed.Nodup
  completed : ∀ name ∈ s.completed, name ∈ s.memo
  inProgress : s.inProgress = s.stack.toFinset
  nodup : s.stack.Nodup
  known : ∀ name ∈ s.stack, name ∈ r.raw
  pending : ∀ name ∈ s.stack, name ∉ s.memo
  chain : s.stack.IsChain r.Asks

/-- A call for a label returns its value, or an error for which it is to blame, and leaves
the stack as it was. -/
def Meets (r : RouteLabelResolver) (name : GoString) (s : ResolverState) (result : Resolved) :
    Prop :=
  ∃ v s', result = some (v, s') ∧ r.Sound s' ∧ s'.stack = s.stack ∧
    (∀ answer, v = .ok answer → r.Renders name answer) ∧
    ∀ err, v = .error err → r.Blames name err

variable {r : RouteLabelResolver} {s : ResolverState}

theorem blames_of_asks {name name' : GoString} (h : r.Asks name name') {err : ResolveError}
    (h' : r.Blames name' err) : r.Blames name err := by
  induction err with
  | cycle => exact Program.runsIntoItself_of_asksFor h h'
  | failed => exact Program.runsIntoFailure_of_asksFor h h'
  | calling context err ih => exact ih h'

/-- A label that has a value is not to blame for any error. -/
theorem not_blames_of_renders {name v : GoString} (h : r.Renders name v) (err : ResolveError) :
    ¬r.Blames name err := by
  induction err with
  | cycle => exact h.settles.not_itself
  | failed err => exact h.settles.not_failure err
  | calling context err ih => exact ih

/-- The rest of the template of the label on top of the stack. -/
theorem execText_spec {resolve : GoString → ResolverState → Resolved} {current : GoString}
    {p : Program GoString GoString GoString}
    (hresolve : ∀ name s', r.Sound s' → s'.stack = s.stack → r.Asks current name →
      r.Meets name s' (resolve name s'))
    (hasks : ∀ name, Program.Asks r.programs [] p name → r.Asks current name)
    (hfails : ∀ err, Program.FailsWith r.programs [] p err → r.Blames current (.failed err))
    (hs : r.Sound s) :
    ∃ v s', execText resolve p s = some (v, s') ∧ r.Sound s' ∧ s'.stack = s.stack ∧
      (∀ answer, v = .ok answer → Program.Evaluates r.programs [] p answer) ∧
      ∀ err, v = .error err → r.Blames current err := by
  induction p generalizing s with
  | done v =>
    refine ⟨.ok v, s, rfl, hs, rfl, ?_, fun err herr => ?_⟩
    · rintro answer ⟨⟩
      exact .done v
    · cases herr
  | fail err =>
    refine ⟨.error (.failed err), s, rfl, hs, rfl, fun answer hanswer => ?_, ?_⟩
    · cases hanswer
    · rintro _ ⟨⟩
      exact hfails err (.here err)
  | ask name context next ih =>
    obtain ⟨v, s', hcall, hs', hstack, hok, herror⟩ := hresolve name s hs rfl (hasks name .here)
    cases v with
    | error err =>
      refine ⟨.error (.calling context err), s', by rw [execText, hcall], hs', hstack,
        fun answer hanswer => ?_, ?_⟩
      · cases hanswer
      · rintro _ ⟨⟩
        exact blames_of_asks (hasks name .here) (herror err rfl)
    | ok answer =>
      have hanswer := hok answer rfl
      -- what the rest asks for is asked for by the whole
      obtain ⟨v, s'', hexec, hs'', hstack', hok', herror'⟩ := ih answer
        (fun name' s'' hs'' hstack' => hresolve name' s'' hs'' (hstack'.trans hstack))
        (fun name' hask => hasks name' (.later hanswer hask))
        (fun err hfail => hfails err (.later hanswer hfail)) hs'
      refine ⟨v, s'', by rw [execText, hcall]; exact hexec, hs'', hstack'.trans hstack,
        fun answer' heq => ?_, herror'⟩
      exact Program.evaluates_ask hanswer (hok' answer' heq)

theorem Sound.runsIntoItself (hs : r.Sound s) {name : GoString} (hmem : name ∈ s.stack)
    (hlink : ∀ current ∈ s.stack.getLast?, r.Asks current name) :
    Program.RunsIntoItself r.programs [] name := by
  obtain ⟨before, after, hstack⟩ := List.append_of_mem hmem
  have hchain : (name :: after).IsChain r.Asks := by
    have := hs.chain
    rw [hstack] at this
    exact this.right_of_append
  have hlast : (name :: after).getLast (by simp) ∈ s.stack.getLast? := by
    rw [hstack, List.getLast?_append_of_ne_nil _ (by simp)]
    exact List.getLast?_eq_some_getLast (by simp)
  have hreach := List.relationReflTransGen_of_exists_isChain_cons after hchain rfl
  exact ⟨name, .refl, Relation.TransGen.tail' hreach (hlink _ hlast)⟩

/-- A label begins to be rendered. -/
theorem Sound.push (hs : r.Sound s) {name : GoString} (hknown : name ∈ r.raw)
    (hnew : name ∉ s.stack) (hmemo : name ∉ s.memo)
    (hlink : ∀ current ∈ s.stack.getLast?, r.Asks current name) :
    r.Sound { s with inProgress := insert name s.inProgress, stack := s.stack ++ [name] } where
  memo := hs.memo
  completed_nodup := hs.completed_nodup
  completed := hs.completed
  inProgress := by
    ext name'
    simp [hs.inProgress]
  nodup := by
    rw [List.nodup_append]
    refine ⟨hs.nodup, List.nodup_singleton name, ?_⟩
    rintro a ha b hb rfl
    exact hnew (List.mem_singleton.mp hb ▸ ha)
  known := by
    simpa [or_imp, forall_and] using ⟨hs.known, hknown⟩
  pending := by
    simpa [or_imp, forall_and] using ⟨hs.pending, hmemo⟩
  chain := by
    rw [List.isChain_append]
    refine ⟨hs.chain, List.isChain_singleton name, fun current hcurrent name' hname' => ?_⟩
    obtain rfl : name = name' := by simpa using hname'
    exact hlink current hcurrent

/-- A label is not rendered any more. -/
theorem Sound.pop (hs : r.Sound s) {name : GoString} {stack : List GoString}
    (hstack : s.stack = stack ++ [name]) :
    r.Sound { s with inProgress := s.inProgress.erase name, stack := s.stack.dropLast } := by
  have hnodup := hs.nodup
  rw [hstack, List.nodup_append] at hnodup
  have hnew : name ∉ stack := fun hmem => hnodup.2.2 name hmem name (by simp) rfl
  have hdrop : s.stack.dropLast = stack := by rw [hstack, List.dropLast_concat]
  have hsub : ∀ name' ∈ stack, name' ∈ s.stack := by
    intro name' hname'
    rw [hstack]
    exact List.mem_append_left _ hname'
  rw [hdrop]
  refine ⟨hs.memo, hs.completed_nodup, hs.completed, ?_, hnodup.1,
    fun name' h => hs.known name' (hsub name' h),
    fun name' h => hs.pending name' (hsub name' h), ?_⟩
  · rw [hs.inProgress, hstack]
    ext name'
    simp only [List.toFinset_append, Finset.mem_erase, Finset.mem_union, List.mem_toFinset,
      List.mem_singleton]
    constructor
    · rintro ⟨hne, hmem | heq⟩
      · exact hmem
      · exact absurd heq hne
    · intro hmem
      exact ⟨fun heq => hnew (heq ▸ hmem), Or.inl hmem⟩
  · have := hs.chain
    rw [hstack] at this
    exact this.left_of_append

/-- A rendered value is remembered. -/
theorem Sound.store (hs : r.Sound s) {name v : GoString} (hnew : name ∉ s.stack)
    (hmemo : name ∉ s.memo) (hv : r.Renders name v) :
    r.Sound { s with memo := s.memo.insert name v, completed := s.completed ++ [name] } where
  memo := by
    intro name' v' hlookup
    rw [GoMap.lookup_insert_eq] at hlookup
    split_ifs at hlookup with heq
    · obtain rfl := Option.some.inj hlookup
      rwa [heq]
    · exact hs.memo name' v' hlookup
  completed_nodup := by
    rw [List.nodup_append]
    refine ⟨hs.completed_nodup, List.nodup_singleton name, ?_⟩
    rintro a ha b hb rfl
    exact hmemo (List.mem_singleton.mp hb ▸ hs.completed a ha)
  completed := by
    intro name' hname'
    rw [Finmap.mem_insert]
    obtain hname' | hname' := List.mem_append.mp hname'
    · exact Or.inr (hs.completed name' hname')
    · exact Or.inl (List.mem_singleton.mp hname')
  inProgress := hs.inProgress
  nodup := hs.nodup
  known := hs.known
  pending := by
    intro name' hname' hmem
    obtain rfl | hmem := Finmap.mem_insert.mp hmem
    · exact hnew hname'
    · exact hs.pending name' hname' hmem
  chain := hs.chain

/-- There is depth left for a label that is not in progress. -/
theorem Sound.length_lt (hs : r.Sound s) {name : GoString} (hknown : name ∈ r.raw)
    (hnew : name ∉ s.stack) : s.stack.length < GoMap.len r.raw := by
  have hsubset : insert name s.stack.toFinset ⊆ r.raw.keys := by
    intro name' hname'
    rw [Finmap.mem_keys]
    obtain rfl | hname' := Finset.mem_insert.mp hname'
    · exact hknown
    · exact hs.known name' (List.mem_toFinset.mp hname')
  have hcard := Finset.card_le_card hsubset
  rw [Finset.card_insert_of_notMem (by simpa using hnew), List.toFinset_card_of_nodup hs.nodup]
    at hcard
  exact hcard

theorem programs_of_rendered {name raw : GoString} (hraw : r.raw.lookup name = some raw)
    (hrendered : r.rendered = true) : r.programs name = some (.done raw) := by
  rw [programs, hraw, Option.map_some, if_pos hrendered]

theorem programs_of_not_rendered {name raw : GoString} (hraw : r.raw.lookup name = some raw)
    (hrendered : ¬r.rendered = true) :
    r.programs name = some (TextTemplate.program r.data raw) := by
  rw [programs, hraw, Option.map_some, if_neg hrendered]

/-- The template of a label that is neither remembered nor in progress. -/
theorem Sound.render (hs : r.Sound s) {depth : ℕ} {name raw : GoString}
    (hraw : r.raw.lookup name = some raw) (hrendered : ¬r.rendered = true)
    (hmemo : name ∉ s.memo) (hnew : name ∉ s.stack)
    (hlink : ∀ current ∈ s.stack.getLast?, r.Asks current name)
    (hresolve : ∀ name' s', r.Sound s' → (∀ current ∈ s'.stack.getLast?, r.Asks current name') →
      s'.stack.length = s.stack.length + 1 → r.Meets name' s' (r.resolve depth name' s')) :
    r.Meets name s (r.resolve (depth + 1) name s) := by
  have hprogram := programs_of_not_rendered hraw hrendered
  have hlookup : s.memo.lookup name = none := Finmap.lookup_eq_none.mpr hmemo
  have hbusy : name ∉ s.inProgress := by
    rw [hs.inProgress, List.mem_toFinset]
    exact hnew
  obtain ⟨v, s', hexec, hs', hstack, hok, herror⟩ := execText_spec
    (p := TextTemplate.program r.data raw)
    (fun name' s' hs' hstack hask => hresolve name' s' hs' (by simpa [hstack] using hask)
      (by simp [hstack]))
    (fun name' hask => ⟨_, hprogram, hask⟩)
    (fun err hfail => ⟨name, .refl, _, hprogram, hfail⟩)
    (hs.push (GoMap.mem_of_lookup hraw) hnew hmemo hlink)
  have hpop := hs'.pop hstack
  have hdrop : s'.stack.dropLast = s.stack := by rw [hstack, List.dropLast_concat]
  rw [resolve.eq_def]
  simp only [hraw, if_neg hrendered, hlookup, if_neg hbusy, hexec]
  cases v with
  | error err =>
    refine ⟨.error err, _, rfl, hpop, hdrop, fun answer h => ?_, ?_⟩
    · cases h
    · rintro _ ⟨⟩
      exact herror err rfl
  | ok v =>
    have hv : r.Renders name v := (Program.hasValue_of_some hprogram).mpr (hok v rfl)
    have hmemo' : name ∉ s'.memo := hs'.pending name (by rw [hstack]; simp)
    refine ⟨.ok v, _, rfl, hpop.store ?_ hmemo' hv, hdrop, ?_, fun err h => ?_⟩
    · rw [hdrop]
      exact hnew
    · rintro _ ⟨⟩
      exact hv
    · cases h

theorem Sound.meets_value (hs : r.Sound s) {name v : GoString} (hv : r.Renders name v) :
    r.Meets name s (some (.ok v, s)) := by
  refine ⟨.ok v, s, rfl, hs, rfl, ?_, fun err h => ?_⟩
  · rintro _ ⟨⟩
    exact hv
  · cases h

/-- A call for a label that is in progress. -/
theorem Sound.meets_cycle (hs : r.Sound s) {name : GoString} (hmem : name ∈ s.stack)
    (hlink : ∀ current ∈ s.stack.getLast?, r.Asks current name) :
    r.Meets name s (some (.error (.cycle (s.stack ++ [name])), s)) := by
  refine ⟨_, s, rfl, hs, rfl, fun answer h => ?_, ?_⟩
  · cases h
  · rintro _ ⟨⟩
    exact hs.runsIntoItself hmem hlink

/-- A call meets its purpose if it does for a label that has to be rendered. -/
theorem Sound.resolve_cases (hs : r.Sound s) {depth : ℕ} {name : GoString}
    (hlink : ∀ current ∈ s.stack.getLast?, r.Asks current name)
    (hrender : ∀ raw, r.raw.lookup name = some raw → ¬r.rendered = true → name ∉ s.memo →
      name ∉ s.stack → r.Meets name s (r.resolve depth name s)) :
    r.Meets name s (r.resolve depth name s) := by
  cases hraw : r.raw.lookup name with
  | none =>
    rw [resolve.eq_def]
    simp only [hraw]
    refine hs.meets_value ((Program.hasValue_of_none ?_).mpr rfl)
    rw [programs, hraw, Option.map_none]
  | some raw =>
    by_cases hrendered : r.rendered = true
    · rw [resolve.eq_def]
      simp only [hraw, if_pos hrendered]
      exact hs.meets_value ((Program.hasValue_of_some
        (programs_of_rendered hraw hrendered)).mpr (.done raw))
    · cases hmemo : s.memo.lookup name with
      | some v =>
        rw [resolve.eq_def]
        simp only [hraw, if_neg hrendered, hmemo]
        exact hs.meets_value (hs.memo name v hmemo)
      | none =>
        by_cases hbusy : name ∈ s.stack
        · have hmem : name ∈ s.inProgress := by
            rw [hs.inProgress, List.mem_toFinset]
            exact hbusy
          rw [resolve.eq_def]
          simp only [hraw, if_neg hrendered, hmemo, if_pos hmem]
          exact hs.meets_cycle hbusy hlink
        · exact hrender raw hraw hrendered (Finmap.lookup_eq_none.mp hmemo) hbusy

/-- A call meets its purpose if the depth is enough for the labels that are not in
progress. -/
theorem resolve_spec (depth : ℕ) (name : GoString) (hs : r.Sound s)
    (hlink : ∀ current ∈ s.stack.getLast?, r.Asks current name)
    (hdepth : GoMap.len r.raw ≤ depth + s.stack.length) :
    r.Meets name s (r.resolve depth name s) := by
  induction depth generalizing name s with
  | zero =>
    refine hs.resolve_cases hlink fun raw hraw _ _ hnew => ?_
    -- all labels are in progress
    have hless := hs.length_lt (GoMap.mem_of_lookup hraw) hnew
    omega
  | succ depth ih =>
    refine hs.resolve_cases hlink fun raw hraw hrendered hmemo hnew => ?_
    exact hs.render hraw hrendered hmemo hnew hlink
      fun name' s' hs' hlink' hlength => ih name' hs' hlink' (by omega)

/-! ### The calls on one resolver -/

/-- What a call is to return. -/
structure Answers (r : RouteLabelResolver) (name : GoString)
    (result : Except ResolveError GoString) : Prop where
  value : ∀ v, result = .ok v ↔ r.Renders name v
  error : (∃ err, result = .error err) ↔
    Program.RunsIntoItself r.programs [] name ∨
      ∃ err, Program.RunsIntoFailure r.programs [] name err
  blames : ∀ err, result = .error err → r.Blames name err

/-- An error is from a cycle or from a template that fails. -/
theorem Blames.cases {name : GoString} {err : ResolveError} (h : r.Blames name err) :
    Program.RunsIntoItself r.programs [] name ∨
      ∃ err, Program.RunsIntoFailure r.programs [] name err := by
  induction err with
  | cycle labels => exact .inl h
  | failed err => exact .inr ⟨err, h⟩
  | calling context err ih => exact ih h

/-- A call that meets its purpose answers the question for the label. -/
theorem answers_of_meets {name : GoString} {result : Except ResolveError GoString}
    (hok : ∀ answer, result = .ok answer → r.Renders name answer)
    (herror : ∀ err, result = .error err → r.Blames name err) : r.Answers name result where
  value v := by
    refine ⟨hok v, fun hv => ?_⟩
    cases result with
    | ok answer => rw [(hok answer rfl).unique hv]
    | error err => exact absurd (herror err rfl) (not_blames_of_renders hv err)
  error := by
    constructor
    · rintro ⟨err, heq⟩
      exact (herror err heq).cases
    · intro hblamed
      cases result with
      | error err => exact ⟨err, rfl⟩
      | ok answer =>
        have hsettles := (hok answer rfl).settles
        obtain hcycle | ⟨err, hfailure⟩ := hblamed
        · exact absurd hcycle hsettles.not_itself
        · exact absurd hfailure (hsettles.not_failure err)
  blames := herror

theorem sound_init : r.Sound .init where
  memo name v h := by simp [ResolverState.init] at h
  completed_nodup := .nil
  completed := by simp [ResolverState.init]
  inProgress := rfl
  nodup := .nil
  known := by simp [ResolverState.init]
  pending := by simp [ResolverState.init]
  chain := .nil

/-- A call that is not from a template. -/
theorem Sound.resolve_top (hs : r.Sound s) (hstack : s.stack = []) (name : GoString) :
    ∃ result s', r.resolve (GoMap.len r.raw) name s = some (result, s') ∧ r.Sound s' ∧
      s'.stack = [] ∧ r.Answers name result := by
  obtain ⟨result, s', hcall, hs', hstack', hok, herror⟩ :=
    resolve_spec (GoMap.len r.raw) name hs (by simp [hstack]) (by omega)
  exact ⟨result, s', hcall, hs', hstack'.trans hstack, answers_of_meets hok herror⟩

theorem Sound.resolveAll (hs : r.Sound s) (hstack : s.stack = []) (names : List GoString) :
    ∃ results s', r.resolveAll (GoMap.len r.raw) names s = some (results, s') ∧ r.Sound s' ∧
      s'.stack = [] ∧ List.Forall₂ r.Answers names results := by
  induction names generalizing s with
  | nil => exact ⟨[], s, rfl, hs, hstack, .nil⟩
  | cons name names ih =>
    obtain ⟨result, s₁, hcall, hs₁, hstack₁, hanswer⟩ := hs.resolve_top hstack name
    obtain ⟨results, s₂, hcalls, hs₂, hstack₂, hanswers⟩ := ih hs₁ hstack₁
    refine ⟨result :: results, s₂, ?_, hs₂, hstack₂, .cons hanswer hanswers⟩
    simp only [RouteLabelResolver.resolveAll, hcall, hcalls, Option.bind_eq_bind,
      Option.bind_some, Option.pure_def]

/-- For every sequence of calls on one resolver, a nesting of as many executions as there
are labels is enough. Each call returns the value of its label, which does not depend on the
calls before it, and an error if and only if the labels asked for run into themselves or
into a template that fails. No template succeeds twice. -/
theorem resolve_calls_correct (r : RouteLabelResolver) (names : List GoString) :
    ∃ results s, r.resolveAll (GoMap.len r.raw) names .init = some (results, s) ∧
      List.Forall₂ r.Answers names results ∧ s.completed.Nodup := by
  obtain ⟨results, s, hcalls, hs, -, hanswers⟩ := sound_init.resolveAll rfl names
  exact ⟨results, s, hcalls, hanswers, hs.completed_nodup⟩

end RouteLabelResolver

end Alertmanager
