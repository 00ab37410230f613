import Mathlib.Tactic

/-!
# Taking turns by waiting

A job comes up for several participants at about the same time, and each of them can do
it. Each waits for a time that grows with its rank, and in its turn does the job unless it
has heard that somebody has done it. There is no agreement: a participant that leaves
without success is simply followed by the next one. If a turn, the spread of the starts and
the delay of an announcement fit together between two ranks, at most one participant
succeeds.
-/
namespace Alertmanager.Turns

/-- `due` is the time of the own turn. -/
inductive Phase
  | idle
  | waiting (due : ℤ)
  | working (due : ℤ)
  | succeeded (due : ℤ)
  | over

/-- The time of the own turn, while it has to be finished. -/
def Phase.due : Phase → Option ℤ
  | .waiting due | .working due | .succeeded due => some due
  | .idle | .over => none

/-- `announced` has the participants that have announced their success and when,
`heard` whose announcements somebody has heard. -/
structure State (ι : Type*) where
  time : ℤ
  phase : ι → Phase
  successes : List ι
  announced : List (ι × ℤ)
  heard : ι → List ι

/-- The job comes up within `spread` after `start`; a turn with the announcement at its end
takes no longer than `turn`, and an announcement reaches everybody within `delay`. -/
structure Timing (ι : Type*) where
  rank : ι → ℕ
  start : ℤ
  timeout : ℤ
  spread : ℤ
  turn : ℤ
  delay : ℤ
  rank_injective : Function.Injective rank
  spread_nonneg : 0 ≤ spread
  turn_nonneg : 0 ≤ turn
  delay_nonneg : 0 ≤ delay
  fits : spread + turn + delay < timeout

variable {ι : Type*} {τ : Timing ι} {m n : ι}

namespace Timing

/-- The earliest time of a turn. -/
def first (τ : Timing ι) (n : ι) : ℤ := τ.start + τ.rank n * τ.timeout

theorem timeout_nonneg (τ : Timing ι) : 0 ≤ τ.timeout := by
  have hfits := τ.fits
  have hspread := τ.spread_nonneg
  have hturn := τ.turn_nonneg
  have hdelay := τ.delay_nonneg
  omega

theorem start_le_first (τ : Timing ι) (n : ι) : τ.start ≤ τ.first n := by
  have htimeout := τ.timeout_nonneg
  have hrank : 0 ≤ τ.rank n * τ.timeout := by positivity
  unfold first
  omega

/-- What is announced in the turn of a lower rank is known in the turn of a higher one. -/
theorem separate (h : τ.rank m < τ.rank n) :
    τ.first m + τ.spread + τ.turn + τ.delay < τ.first n := by
  have hrank : ((τ.rank m : ℤ) + 1) ≤ τ.rank n := by exact_mod_cast h
  have hmul := mul_le_mul_of_nonneg_right hrank τ.timeout_nonneg
  have hfits := τ.fits
  unfold first
  linarith

end Timing

/-- Nobody has done anything. -/
structure Initial (s : State ι) : Prop where
  idle : ∀ n, s.phase n = .idle
  successes : s.successes = []
  announced : s.announced = []

/-- A success is announced in its turn, and nobody works after it. -/
structure Inv (τ : Timing ι) (s : State ι) : Prop where
  window : ∀ n, ∀ due ∈ (s.phase n).due,
    τ.first n ≤ due ∧ due ≤ τ.first n + τ.spread ∧ s.time ≤ due + τ.turn
  begun : ∀ n due, s.phase n = .working due ∨ s.phase n = .succeeded due → due ≤ s.time
  reached : ∀ m ∈ s.successes, τ.first m ≤ s.time
  succeeded : ∀ m ∈ s.successes, (∃ due, s.phase m = .succeeded due) ∨
    s.phase m = .over ∧ ∃ a ∈ s.announced, a.1 = m ∧ a.2 ≤ τ.first m + τ.spread + τ.turn
  unheard : ∀ a ∈ s.announced, ∀ n, a.1 ∉ s.heard n → s.time ≤ a.2 + τ.delay
  none_before : ∀ n due, s.phase n = .working due → s.successes = []
  once : s.successes.length ≤ 1

theorem inv_initial {s : State ι} (hs : Initial s) : Inv τ s where
  window n due hdue := by simp [hs.idle n, Phase.due] at hdue
  begun n due h := by simp [hs.idle n] at h
  reached m hm := by simp [hs.successes] at hm
  succeeded m hm := by simp [hs.successes] at hm
  unheard a ha := by simp [hs.announced] at ha
  none_before n due h := hs.successes
  once := by simp [hs.successes]

namespace Inv
variable {s : State ι}

theorem notMem_successes (hs : Inv τ s)
    (hn : (∀ due, s.phase n ≠ .succeeded due) ∧ s.phase n ≠ .over) : n ∉ s.successes := by
  intro hmem
  obtain ⟨due, hdue⟩ | ⟨hover, -⟩ := hs.succeeded n hmem
  · exact hn.1 due hdue
  · exact hn.2 hover

theorem eq_of_turns (hs : Inv τ s) {due due' : ℤ} (hm : due ∈ (s.phase m).due)
    (hn : due' ∈ (s.phase n).due) (hdue : due ≤ s.time) (hdue' : due' ≤ s.time) : m = n := by
  obtain ⟨hfm, hdm, htm⟩ := hs.window m due hm
  obtain ⟨hfn, hdn, htn⟩ := hs.window n due' hn
  have hdelay := τ.delay_nonneg
  by_contra hne
  obtain hlt | hlt := Nat.lt_or_gt_of_ne fun h => hne (τ.rank_injective h)
  · have hsep := Timing.separate hlt
    omega
  · have hsep := Timing.separate hlt
    omega

/-- Who has heard of nobody in its turn is the first. -/
theorem no_success (hs : Inv τ s) {due : ℤ} (hn : s.phase n = .waiting due) (hdue : due ≤ s.time)
    (hheard : s.heard n = []) : s.successes = [] := by
  have hmem : due ∈ (s.phase n).due := by simp [hn, Phase.due]
  obtain ⟨hfn, hdn, htn⟩ := hs.window n due hmem
  refine List.eq_nil_iff_forall_not_mem.mpr fun m hm => ?_
  obtain ⟨due', hm'⟩ | ⟨hover, a, ha, rfl, hsent⟩ := hs.succeeded m hm
  · obtain rfl := hs.eq_of_turns (by rw [hm']; rfl) hmem (hs.begun m due' (.inr hm')) hdue
    rw [hn] at hm'
    cases hm'
  · have hne : a.1 ≠ n := by
      rintro rfl
      rw [hn] at hover
      cases hover
    have hreached := hs.reached _ hm
    have hunheard := hs.unheard a ha n (by simp [hheard])
    have hdelay := τ.delay_nonneg
    obtain hlt | hlt := Nat.lt_or_gt_of_ne fun h => hne (τ.rank_injective h)
    · have hsep := Timing.separate hlt
      omega
    · have hsep := Timing.separate hlt
      omega

end Inv

section
variable [DecidableEq ι]

/-- The steps. Time passes only as far as the turns and the announcements allow. -/
inductive Step (τ : Timing ι) : State ι → State ι → Prop
  | tick {s : State ι} (d : ℤ) (hd : 0 ≤ d)
      (hturn : ∀ n, ∀ due ∈ (s.phase n).due, s.time + d ≤ due + τ.turn)
      (hdelay : ∀ a ∈ s.announced, ∀ n, a.1 ∉ s.heard n → s.time + d ≤ a.2 + τ.delay) :
      Step τ s { s with time := s.time + d }
  | wait {s : State ι} (n : ι) (hidle : s.phase n = .idle) (hstart : τ.start ≤ s.time)
      (hspread : s.time ≤ τ.start + τ.spread) :
      Step τ s { s with
        phase := Function.update s.phase n (.waiting (s.time + τ.rank n * τ.timeout)) }
  | work {s : State ι} (n : ι) (due : ℤ) (hwaiting : s.phase n = .waiting due)
      (hdue : due ≤ s.time) (hheard : s.heard n = []) :
      Step τ s { s with phase := Function.update s.phase n (.working due) }
  | leave {s : State ι} (n : ι) (due : ℤ)
      (hphase : s.phase n = .waiting due ∨ s.phase n = .working due) :
      Step τ s { s with phase := Function.update s.phase n .over }
  | succeed {s : State ι} (n : ι) (due : ℤ) (hworking : s.phase n = .working due) :
      Step τ s { s with
        phase := Function.update s.phase n (.succeeded due), successes := s.successes ++ [n] }
  | announce {s : State ι} (n : ι) (due : ℤ) (hsucceeded : s.phase n = .succeeded due) :
      Step τ s { s with
        phase := Function.update s.phase n .over
        announced := s.announced ++ [(n, s.time)]
        heard := Function.update s.heard n (n :: s.heard n) }
  | hear {s : State ι} (n : ι) (a : ι × ℤ) (ha : a ∈ s.announced) :
      Step τ s { s with heard := Function.update s.heard n (a.1 :: s.heard n) }

/-- A participant that has not succeeded enters a phase. -/
theorem Inv.enter {s : State ι} (hs : Inv τ s) {p : Phase}
    (hwindow : ∀ due ∈ p.due,
      τ.first n ≤ due ∧ due ≤ τ.first n + τ.spread ∧ s.time ≤ due + τ.turn)
    (hbegun : ∀ due, p = .working due ∨ p = .succeeded due → due ≤ s.time)
    (hnone : ∀ due, p = .working due → s.successes = []) (hn : n ∉ s.successes) :
    Inv τ { s with phase := Function.update s.phase n p } := by
  have hne : ∀ m ∈ s.successes, m ≠ n := by
    rintro m hm rfl
    exact hn hm
  refine ⟨fun m => ?_, fun m => ?_, hs.reached, fun m hm => ?_, hs.unheard, fun m => ?_, hs.once⟩
  · simp only [Function.update_apply]
    split_ifs with h
    · exact h ▸ hwindow
    · exact hs.window m
  · simp only [Function.update_apply]
    split_ifs
    · exact hbegun
    · exact hs.begun m
  · simp only [Function.update_of_ne (hne m hm)]
    exact hs.succeeded m hm
  · simp only [Function.update_apply]
    split_ifs
    · exact hnone
    · exact hs.none_before m

theorem inv_step {s t : State ι} (hs : Inv τ s) (h : Step τ s t) : Inv τ t := by
  cases h with
  | tick d hd hturn hdelay =>
    refine ⟨fun n due hdue => ?_, fun n due hn => ?_, fun m hm => ?_, hs.succeeded, hdelay,
      hs.none_before, hs.once⟩
    · obtain ⟨hle, hge, -⟩ := hs.window n due hdue
      exact ⟨hle, hge, hturn n due hdue⟩
    · exact (hs.begun n due hn).trans (by simp only; omega)
    · exact (hs.reached m hm).trans (by simp only; omega)
  | wait n hidle hstart hspread =>
    refine hs.enter (fun due hdue => ?_) (by simp) (by simp)
      (hs.notMem_successes (by simp [hidle]))
    obtain rfl := Option.some.inj hdue
    have hfirst := τ.start_le_first n
    have hturn := τ.turn_nonneg
    unfold Timing.first at hfirst ⊢
    omega
  | work n due hwaiting hdue hheard =>
    refine hs.enter (fun due' hdue' => ?_) ?_ (fun _ _ => hs.no_success hwaiting hdue hheard)
      (hs.notMem_successes (by simp [hwaiting]))
    · obtain rfl := Option.some.inj hdue'
      exact hs.window n due (by rw [hwaiting]; rfl)
    · simpa using hdue
  | leave n due hphase =>
    refine hs.enter (by simp [Phase.due]) (by simp) (by simp) (hs.notMem_successes ?_)
    obtain h | h := hphase <;> simp [h]
  | succeed n due hworking =>
    have hnil := hs.none_before n due hworking
    have hmem : due ∈ (s.phase n).due := by rw [hworking]; rfl
    have hdue := hs.begun n due (.inl hworking)
    have hent := hs.enter (n := n) (p := .succeeded due)
      (by rintro due' ⟨⟩; exact hs.window n due hmem)
      (by simpa using hdue) (by simp) (by simp [hnil])
    refine ⟨hent.window, hent.begun, fun m hm => ?_, fun m hm => ?_, hent.unheard,
      fun m due' hm => ?_, by simp [hnil]⟩
    · obtain rfl : m = n := by simpa [hnil] using hm
      exact (hs.window m due hmem).1.trans hdue
    · obtain rfl : m = n := by simpa [hnil] using hm
      exact .inl ⟨due, by simp⟩
    · -- Nobody else works in the turn of the one who succeeds.
      exfalso
      simp only [Function.update_apply] at hm
      split_ifs at hm with h
      exact h (hs.eq_of_turns (by rw [hm]; rfl) hmem (hs.begun m due' (.inl hm)) hdue)
  | announce n due hsucceeded =>
    have hmem : due ∈ (s.phase n).due := by rw [hsucceeded]; rfl
    obtain ⟨-, hspread, hturn⟩ := hs.window n due hmem
    refine ⟨fun m => ?_, fun m => ?_, hs.reached, fun m hm => ?_, fun a ha m hm => ?_,
      fun m => ?_, hs.once⟩
    · simp only [Function.update_apply]
      split_ifs
      · simp [Phase.due]
      · exact hs.window m
    · simp only [Function.update_apply]
      split_ifs
      · simp
      · exact hs.begun m
    · simp only [Function.update_apply]
      split_ifs with h
      · subst h
        exact .inr ⟨rfl, _, List.mem_append_right _ (List.mem_singleton_self _), rfl, by
          simp only; omega⟩
      · refine (hs.succeeded m hm).imp_right ?_
        rintro ⟨hover, a, ha, hrest⟩
        exact ⟨hover, a, List.mem_append_left _ ha, hrest⟩
    · obtain ha | ha := List.mem_append.mp ha
      · refine hs.unheard a ha m fun h => hm ?_
        simp only [Function.update_apply]
        split_ifs with hmn
        · exact List.mem_cons_of_mem _ (hmn ▸ h)
        · exact h
      · obtain rfl := List.mem_singleton.mp ha
        have hdelay := τ.delay_nonneg
        simp only
        omega
    · simp only [Function.update_apply]
      split_ifs
      · simp
      · exact hs.none_before m
  | hear n a ha =>
    refine ⟨hs.window, hs.begun, hs.reached, hs.succeeded, fun b hb m hm => ?_, hs.none_before,
      hs.once⟩
    refine hs.unheard b hb m fun h => hm ?_
    simp only [Function.update_apply]
    split_ifs with hmn
    · exact List.mem_cons_of_mem _ (hmn ▸ h)
    · exact h

end

end Alertmanager.Turns
