import Alertmanager.Delegate

/-!
# Merging a full state

The parts of a full state belong to independent states. `MergeRemoteState` stops at the
first part whose merge fails, though, so what it does to a state depends on the parts
before that one only. Since a merge takes over nothing but younger values, and so never
leads back, the parts that are left out make no difference exactly when they offer nothing
younger than what the state has and what the parts before have offered it.
-/
namespace Alertmanager

/-! ### A merge only moves up -/

namespace Silences

variable [Regexp]

/-- The order in which the stored silences become younger. -/
abbrev Younger : Silences → Silences → Prop :=
  Order.Preimage Silences.st (LastWriter.Younger MeshSilence.stamp)

/-- The payloads that one round of the loop of `Merge` broadcasts. -/
def gossips (p : Payload) (now : ℤ) (s : Silences) (e : MeshSilence) : List Payload :=
  if (s.mergeSilence e now).2.1 && !oversizedMessage p then [p] else []

theorem mergeLoop_eq_visitEmit (p : Payload) (st : GoMap GoString MeshSilence) (now : ℤ)
    (order : List GoString) (s : Silences) : mergeLoop p st now order s =
      Inflationary.visitEmit (fun s e => (s.mergeSilence e now).1) (gossips p now) st order s := by
  induction order generalizing s with
  | nil => rfl
  | cons id order ih =>
    cases he : st.lookup id with
    | none => simp only [mergeLoop, Inflationary.visitEmit, he, ih]
    | some e => simp only [mergeLoop, Inflationary.visitEmit, he, ih, gossips]

theorem accepts_iff (s : Silences) (e : MeshSilence) (now : ℤ) : Accepts s e now ↔
    now ≤ asTime e.expiresAt ∧
      ¬LastWriter.Covers MeshSilence.stamp s.st e.silence.id e.stamp := by
  simp [Accepts, LastWriter.Covers, MeshSilence.stamp]

theorem offering_mergeSilence (now : ℤ) :
    LastWriter.Offering Silences.st (fun e => decide (now ≤ asTime e.expiresAt)) (·.silence.id)
      MeshSilence.stamp (fun s e => (s.mergeSilence e now).1) := by
  refine ⟨fun s e hlive hnew => ?_, fun s e hold => ?_⟩
  · have hacc := (accepts_iff s e now).mpr ⟨of_decide_eq_true hlive, hnew⟩
    exact ⟨⟨e.silence.upgradeComments, e.expiresAt⟩, by simp [MeshSilence.stamp],
      (mergeSilence_of_accepts hacc).1⟩
  · rw [mergeSilence_of_not_accepts]
    rw [accepts_iff]
    exact fun hacc => hacc.2 (hold (decide_eq_true hacc.1))

theorem merge_eq_visitAll (s : Silences) (p : Payload) (now : ℤ) (order : List GoString) :
    (s.merge p now order).2.1 = LastWriter.Offering.visitAll
      (fun s e => (s.mergeSilence e now).1) (decodeState p).toOption order s := by
  unfold merge
  cases decodeState p with
  | error err => rfl
  | ok st =>
    simp only [mergeLoop_eq_visitEmit, Inflationary.visitEmit_fst]
    rfl

end Silences

/-! The notification log is merged in the same way, entry by entry. -/

namespace Nflog.Log

/-- The order in which the entries become younger. -/
abbrev Younger : Log → Log → Prop :=
  Order.Preimage Log.st (LastWriter.Younger MeshEntry.stamp)

/-- One round of the loop of `Merge`. -/
def mergeEntry (now : ℤ) (l : Log) (e : MeshEntry) : Log :=
  { l with st := (stateMerge l.st e now).1 }

/-- The payloads that it broadcasts. -/
def gossips (p : Payload) (now : ℤ) (l : Log) (e : MeshEntry) : List Payload :=
  if (stateMerge l.st e now).2 && !oversized p.length then [p] else []

theorem mergeLoop_eq_visitEmit (p : Payload) (st : GoMap GoString MeshEntry) (now : ℤ)
    (order : List GoString) (l : Log) : mergeLoop p st now order l =
      Inflationary.visitEmit (mergeEntry now) (gossips p now) st order l := by
  induction order generalizing l with
  | nil => rfl
  | cons k order ih =>
    cases he : st.lookup k with
    | none => simp only [mergeLoop, Inflationary.visitEmit, he, ih]
    | some e => simp only [mergeLoop, Inflationary.visitEmit, he, ih, gossips, mergeEntry]

theorem offering_mergeEntry (now : ℤ) :
    LastWriter.Offering Log.st (fun e => decide (now ≤ asTime e.expiresAt)) MeshEntry.key
      MeshEntry.stamp (mergeEntry now) := by
  refine ⟨fun l e hlive hnew => ⟨e, rfl, ?_⟩, fun l e hold => ?_⟩
  · rw [mergeEntry, stateMerge, if_neg (not_lt.mpr (of_decide_eq_true hlive)), LastWriter.write,
      if_pos (LastWriter.not_covers_iff.mp hnew)]
  · rw [mergeEntry, stateMerge]
    split_ifs with hexp
    · rfl
    · rw [LastWriter.write, if_neg]
      rw [← LastWriter.not_covers_iff, not_not]
      exact hold (decide_eq_true (not_lt.mp hexp))

theorem merge_eq_visitAll (l : Log) (p : Payload) (now : ℤ) (order : List GoString) :
    (l.merge p now order).2.1 =
      LastWriter.Offering.visitAll (mergeEntry now) (decodeState p).toOption order l := by
  unfold merge
  cases decodeState p with
  | error err => rfl
  | ok st =>
    simp only [mergeLoop_eq_visitEmit, Inflationary.visitEmit_fst]
    rfl

end Nflog.Log

namespace Cluster

section
variable [Regexp] {states : GoMap GoString State} {s : State} {d d' : Delivery}
  {ds : List Delivery} {k : GoString}

namespace State

/-- The order in which the values of a state become younger. -/
def Younger : State → State → Prop
  | .silences s, .silences s' => Silences.Younger s s'
  | .log l, .log l' => Nflog.Log.Younger l l'
  | _, _ => False

instance younger_refl : Std.Refl Younger where
  refl
    | .silences s => refl_of Silences.Younger s
    | .log l => refl_of Nflog.Log.Younger l

instance younger_trans : IsTrans State Younger where
  trans
    | .silences _, .silences _, .silences _, h₁₂, h₂₃ => trans_of Silences.Younger h₁₂ h₂₃
    | .log _, .log _, .log _, h₁₂, h₂₃ => trans_of Nflog.Log.Younger h₁₂ h₂₃

/-- Whether the data of a part decode. -/
def decodes : State → Delivery → Bool
  | .silences _, d => (decodeState d.data.silences).toOption.isSome
  | .log _, d => (Nflog.decodeState d.data.entries).toOption.isSome

/-- The IDs and the time stamps of the unexpired messages of a part. -/
def offers : State → Delivery → List (GoString × ℤ)
  | .silences _, d => LastWriter.offers (fun e => decide (d.now ≤ asTime e.expiresAt))
      (·.silence.id) MeshSilence.stamp (decodeState d.data.silences).toOption d.order
  | .log _, d => LastWriter.offers (fun e => decide (d.now ≤ asTime e.expiresAt))
      Nflog.MeshEntry.key Nflog.MeshEntry.stamp (Nflog.decodeState d.data.entries).toOption d.order

/-- The state has a value under the ID that is not older. -/
def Covers : State → GoString → ℤ → Prop
  | .silences s, id, t => LastWriter.Covers MeshSilence.stamp s.st id t
  | .log l, k, t => LastWriter.Covers Nflog.MeshEntry.stamp l.st k t

instance Covers.decidable : ∀ (s : State) id t, Decidable (s.Covers id t)
  | .silences s, id, t => LastWriter.Covers.decidable MeshSilence.stamp s.st id t
  | .log l, k, t => LastWriter.Covers.decidable Nflog.MeshEntry.stamp l.st k t

theorem offers_eq_nil (h : s.decodes d = false) : s.offers d = [] := by
  cases s with
  | silences s => simp_all [decodes, offers, LastWriter.offers]
  | log l => simp_all [decodes, offers, LastWriter.offers]

theorem receive_error (s : State) (d : Delivery) : (s.receive d).1.isSome = !s.decodes d := by
  cases s with
  | silences s =>
    simp only [receive, merge, Silences.merge, decodes]
    cases decodeState d.data.silences <;> rfl
  | log l =>
    simp only [receive, merge, Nflog.Log.merge, decodes]
    cases Nflog.decodeState d.data.entries <;> rfl

theorem receive_eq_self_iff (s : State) (d : Delivery) :
    (s.receive d).2.1 = s ↔ ∀ o ∈ s.offers d, s.Covers o.1 o.2 := by
  cases s with
  | silences s =>
    simp only [receive, merge, State.silences.injEq, Silences.merge_eq_visitAll]
    exact (Silences.offering_mergeSilence d.now).visitAll_eq_self_iff _ d.order s
  | log l =>
    simp only [receive, merge, State.log.injEq, Nflog.Log.merge_eq_visitAll]
    exact (Nflog.Log.offering_mergeEntry d.now).visitAll_eq_self_iff _ d.order l

theorem covers_receive (s : State) (d : Delivery) (id : GoString) (t : ℤ) :
    (s.receive d).2.1.Covers id t ↔ s.Covers id t ∨ ∃ o ∈ s.offers d, o.1 = id ∧ t ≤ o.2 := by
  cases s with
  | silences s =>
    simp only [receive, merge, Silences.merge_eq_visitAll]
    exact (Silences.offering_mergeSilence d.now).covers_visitAll _ d.order s id t
  | log l =>
    simp only [receive, merge, Nflog.Log.merge_eq_visitAll]
    exact (Nflog.Log.offering_mergeEntry d.now).covers_visitAll _ d.order l id t

/-- What a part offers and whether it decodes depend on its data only. -/
theorem offers_receive (s : State) (d d' : Delivery) :
    (s.receive d').2.1.offers d = s.offers d ∧ (s.receive d').2.1.decodes d = s.decodes d := by
  cases s with
  | silences s => exact ⟨rfl, rfl⟩
  | log l => exact ⟨rfl, rfl⟩

theorem inflationary_receive (d : Delivery) :
    Inflationary Younger (fun s => (s.receive d).2.1) := by
  have hsilences := (Silences.offering_mergeSilence d.now).inflationary_visitAll
    (decodeState d.data.silences).toOption d.order
  have hlog := (Nflog.Log.offering_mergeEntry d.now).inflationary_visitAll
    (Nflog.decodeState d.data.entries).toOption d.order
  rw [← funext fun s => Silences.merge_eq_visitAll s d.data.silences d.now d.order] at hsilences
  rw [← funext fun l => Nflog.Log.merge_eq_visitAll l d.data.entries d.now d.order] at hlog
  constructor
  · intro s
    cases s with
    | silences s => exact hsilences.le s
    | log l => exact hlog.le l
  · intro s hback
    cases s with
    | silences s => exact congrArg State.silences (hsilences.fixed s hback)
    | log l => exact congrArg State.log (hlog.fixed l hback)

/-- Giving the parts of a list to `Merge`, one after the other. -/
def mergeEach (s : State) (ds : List Delivery) : State :=
  ds.foldl (fun s d => (s.receive d).2.1) s

theorem mergeEach_append (s : State) (ds ds' : List Delivery) :
    s.mergeEach (ds ++ ds') = (s.mergeEach ds).mergeEach ds' :=
  List.foldl_append

/-- No message of the part is younger than all that the state has and other parts offer. -/
def Stale (s : State) (ds : List Delivery) (d : Delivery) : Prop :=
  ∀ o ∈ s.offers d, s.Covers o.1 o.2 ∨ ∃ d' ∈ ds, ∃ o' ∈ s.offers d', o'.1 = o.1 ∧ o.2 ≤ o'.2

theorem Stale.mono {ds' : List Delivery} (h : s.Stale ds d) (hds : ∀ d' ∈ ds, d' ∈ ds') :
    s.Stale ds' d := by
  intro o ho
  refine (h o ho).imp_right ?_
  rintro ⟨d', hd', hcovers⟩
  exact ⟨d', hds d' hd', hcovers⟩

theorem stale_receive (s : State) (d' : Delivery) (ds : List Delivery) (d : Delivery) :
    (s.receive d').2.1.Stale ds d ↔ s.Stale (d' :: ds) d := by
  simp only [Stale, (offers_receive s _ d').1, covers_receive, List.mem_cons, or_assoc]
  simp

theorem stale_mergeEach (s : State) (ds : List Delivery) (d : Delivery) :
    (s.mergeEach ds).Stale [] d ↔ s.Stale ds d := by
  induction ds generalizing s with
  | nil => exact Iff.rfl
  | cons d' ds ih =>
    rw [mergeEach, List.foldl_cons, ← mergeEach, ih]
    exact stale_receive s d' ds d

theorem mergeEach_eq_self_iff (s : State) (ds : List Delivery) :
    s.mergeEach ds = s ↔ ∀ d ∈ ds, s.Stale [] d := by
  rw [mergeEach, Inflationary.foldl_eq_self_iff inflationary_receive ds s]
  refine forall₂_congr fun d _ => ?_
  simp [receive_eq_self_iff, Stale]

end State

/-! ### Where the loop stops -/

/-- The delegate has a state for the part, and its data do not decode. -/
def fails (states : GoMap GoString State) (d : Delivery) : Bool :=
  (states.lookup d.key).any fun s => !s.decodes d

/-- The parts with a key, in their order. -/
def partsOf (k : GoString) (ds : List Delivery) : List Delivery :=
  ds.filter fun d => d.key = k

/-- The parts before the first that fails. -/
def merged (states : GoMap GoString State) (ds : List Delivery) : List Delivery :=
  ds.takeWhile fun d => !fails states d

/-- The first part that fails and the parts after it. -/
def blocked (states : GoMap GoString State) (ds : List Delivery) : List Delivery :=
  ds.dropWhile fun d => !fails states d

theorem fails_insert (hs : states.lookup d'.key = some s) (d : Delivery) :
    fails (states.insert d'.key (s.receive d').2.1) d = fails states d := by
  unfold fails
  rw [GoMap.lookup_insert_eq]
  split_ifs with hk
  · rw [hk, hs]
    simp only [Option.any_some, State.offers_receive]
  · rfl

theorem lookup_insert_receive (hs : states.lookup d.key = some s) (k : GoString) :
    (states.insert d.key (s.receive d).2.1).lookup k =
      (states.lookup k).map fun s => if d.key = k then (s.receive d).2.1 else s := by
  rw [GoMap.lookup_insert_eq]
  by_cases hk : k = d.key
  · rw [if_pos hk, hk, hs]
    simp
  · rw [if_neg hk]
    simp [Ne.symm hk]

theorem merged_insert (hs : states.lookup d.key = some s) (ds : List Delivery) :
    merged (states.insert d.key (s.receive d).2.1) ds = merged states ds := by
  simp only [merged, fails_insert hs]

theorem merged_cons (h : fails states d = false) (ds : List Delivery) :
    merged states (d :: ds) = d :: merged states ds := by
  simp [merged, h]

theorem mergeEach_partsOf_cons (s : State) (k : GoString) (d : Delivery) (ds : List Delivery) :
    s.mergeEach (partsOf k (d :: ds)) =
      (if d.key = k then (s.receive d).2.1 else s).mergeEach (partsOf k ds) := by
  by_cases hk : d.key = k
  · simp [partsOf, State.mergeEach, hk]
  · simp [partsOf, hk]

/-- Every state merges its parts up to the first part that fails. -/
theorem lookup_mergeRemoteState (states : GoMap GoString State) (ds : List Delivery)
    (k : GoString) : (mergeRemoteState states ds).lookup k =
      (states.lookup k).map fun s => s.mergeEach (partsOf k (merged states ds)) := by
  induction ds generalizing states with
  | nil => simp [mergeRemoteState, merged, partsOf, State.mergeEach]
  | cons d ds ih =>
    rw [mergeRemoteState]
    cases hs : states.lookup d.key with
    | none =>
      simp only [merged_cons (show fails states d = false by simp [fails, hs]),
        mergeEach_partsOf_cons, ih]
      by_cases hk : d.key = k
      · rw [← hk, hs]
        rfl
      · simp only [if_neg hk]
    | some s =>
      cases herr : s.decodes d with
      | false =>
        have hmerged : merged states (d :: ds) = [] := by simp [merged, fails, hs, herr]
        have hsame : (s.receive d).2.1 = s := by
          simp [State.receive_eq_self_iff, State.offers_eq_nil herr]
        simp only [State.receive_error, herr, Bool.not_false, if_true, hmerged, hsame]
        rw [GoMap.lookup_insert_eq]
        split_ifs with hk
        · rw [hk, hs]
          rfl
        · simp [partsOf, State.mergeEach]
      | true =>
        simp only [State.receive_error, herr, Bool.not_true, Bool.false_eq_true, if_false,
          ih, merged_insert hs,
          merged_cons (show fails states d = false by simp [fails, hs, herr]),
          lookup_insert_receive hs, mergeEach_partsOf_cons, Option.map_map]
        rfl

/-! ### When the parts are merged independently -/

/-- Each state ends as if its parts, and no others, had been given to its `Merge`. -/
def Independent (states : GoMap GoString State) (ds : List Delivery) : Prop :=
  ∀ k s, states.lookup k = some s →
    (mergeRemoteState states ds).lookup k = some (s.mergeEach (partsOf k ds))

/-- What comes after a part that fails offers nothing younger than the state has and the
parts before that one offer. -/
def Unblocked (states : GoMap GoString State) (ds : List Delivery) : Prop :=
  ∀ pre d post, ds = pre ++ d :: post → fails states d = true →
    ∀ d' ∈ post, ∀ s, states.lookup d'.key = some s → s.Stale (partsOf d'.key pre) d'

/-- The parts of a key are those the loop reaches and those it does not. -/
theorem partsOf_eq_append (states : GoMap GoString State) (k : GoString) (ds : List Delivery) :
    partsOf k ds = partsOf k (merged states ds) ++ partsOf k (blocked states ds) := by
  rw [partsOf, partsOf, partsOf, ← List.filter_append, merged, blocked,
    List.takeWhile_append_dropWhile]

theorem independent_iff_blocked (states : GoMap GoString State) (ds : List Delivery) :
    Independent states ds ↔ ∀ d ∈ blocked states ds, ∀ s, states.lookup d.key = some s →
      s.Stale (partsOf d.key (merged states ds)) d := by
  have hstate : ∀ k s, states.lookup k = some s →
      ((mergeRemoteState states ds).lookup k = some (s.mergeEach (partsOf k ds)) ↔
        ∀ d ∈ blocked states ds, d.key = k → s.Stale (partsOf k (merged states ds)) d) := by
    intro k s hs
    rw [lookup_mergeRemoteState, hs, Option.map_some, Option.some.injEq,
      partsOf_eq_append states k ds, State.mergeEach_append, eq_comm,
      State.mergeEach_eq_self_iff]
    simp only [State.stale_mergeEach]
    simp [partsOf]
  constructor
  · intro h d hd s hs
    exact (hstate d.key s hs).mp (h d.key s hs) d hd rfl
  · intro h k s hs
    refine (hstate k s hs).mpr fun d hd hk => ?_
    subst hk
    exact h d hd s hs

theorem stale_of_fails (h : fails states d = true) (hs : states.lookup d.key = some s)
    (ds : List Delivery) : s.Stale ds d := by
  have hdec : s.decodes d = false := by simpa [fails, hs] using h
  simp [State.Stale, State.offers_eq_nil hdec]

omit [Regexp] in
theorem mem_partsOf : d ∈ partsOf k ds ↔ d ∈ ds ∧ d.key = k := by simp [partsOf]

/-- A part that fails is not reached, nor is any after it. -/
theorem merged_blocked_append (h : fails states d = true) (pre post : List Delivery) :
    (∀ x ∈ merged states (pre ++ d :: post), x ∈ pre) ∧
      ∀ x ∈ post, x ∈ blocked states (pre ++ d :: post) := by
  unfold merged blocked
  rw [List.takeWhile_append, List.dropWhile_append]
  refine ⟨fun x hx => ?_, fun x hx => ?_⟩
  · split_ifs at hx with hall
    · simpa [h] using hx
    · exact (List.takeWhile_prefix _).subset hx
  · split_ifs with hall
    · simp [h, hx]
    · simp [hx]

theorem fails_of_blocked {post : List Delivery} (h : blocked states ds = d :: post) :
    fails states d = true := by
  have hhead := List.head?_dropWhile_not (fun d => !fails states d) ds
  rw [← blocked, h] at hhead
  simpa using hhead

theorem independent_iff (states : GoMap GoString State) (ds : List Delivery) :
    Independent states ds ↔ Unblocked states ds := by
  rw [independent_iff_blocked]
  constructor
  · rintro h pre d post rfl hfails d' hd' s hs
    obtain ⟨hreached, hleft⟩ := merged_blocked_append hfails pre post
    refine (h d' (hleft d' hd') s hs).mono fun x hx => ?_
    rw [mem_partsOf] at hx ⊢
    exact ⟨hreached x hx.1, hx.2⟩
  · intro h d hd s hs
    have hsplit : merged states ds ++ blocked states ds = ds := List.takeWhile_append_dropWhile
    obtain ⟨f, rest, hblocked⟩ := List.exists_cons_of_ne_nil (List.ne_nil_of_mem hd)
    rw [hblocked] at hsplit hd
    rcases List.mem_cons.mp hd with rfl | hd
    · exact stale_of_fails (fails_of_blocked hblocked) hs _
    · exact h _ f rest hsplit.symm (fails_of_blocked hblocked) d hd s hs

/-- The parts of each key are the same and come in the same order. -/
def SameParts (ds ds' : List Delivery) : Prop := ∀ k, partsOf k ds = partsOf k ds'

/-- If a part fails, the parts of the other states offer nothing younger than those have,
and the later ones of its own nothing younger than the state has and the parts before
offer. -/
structure Harmless (states : GoMap GoString State) (ds : List Delivery) : Prop where
  others : ∀ d ∈ ds, fails states d = true → ∀ d' ∈ ds, d'.key ≠ d.key →
    ∀ s, states.lookup d'.key = some s → s.Stale [] d'
  own : ∀ k pre d post, partsOf k ds = pre ++ d :: post → fails states d = true →
    ∀ d' ∈ post, ∀ s, states.lookup k = some s → s.Stale pre d'

theorem Harmless.unblocked (h : Harmless states ds) : Unblocked states ds := by
  rintro pre d post rfl hfails d' hd' s hs
  by_cases hkey : d'.key = d.key
  · refine h.own d'.key (partsOf d'.key pre) d (partsOf d'.key post) ?_ hfails d' ?_ s hs
    · simp [partsOf, hkey]
    · exact mem_partsOf.mpr ⟨hd', rfl⟩
  · refine (h.others d (by simp) hfails d' (by simp [hd']) hkey s hs).mono ?_
    simp

/-- A message that brings nothing younger than the states have is harmless. -/
theorem harmless_of_stale (h : ∀ d ∈ ds, ∀ s, states.lookup d.key = some s → s.Stale [] d) :
    Harmless states ds := by
  refine ⟨fun _ _ _ d' hd' _ s hs => h d' hd' s hs, fun k pre d post hparts _ d' hd' s hs => ?_⟩
  obtain ⟨hmem, rfl⟩ := mem_partsOf.mp (by simp [hparts, hd'] : d' ∈ partsOf k ds)
  exact (h d' hmem s hs).mono (by simp)

theorem SameParts.harmless {ds' : List Delivery} (hparts : SameParts ds' ds)
    (h : Harmless states ds) : Harmless states ds' := by
  have hmem : ∀ d ∈ ds', d ∈ ds := fun d hd => by
    have hd' : d ∈ partsOf d.key ds' := mem_partsOf.mpr ⟨hd, rfl⟩
    rw [hparts] at hd'
    exact (mem_partsOf.mp hd').1
  refine ⟨fun d hd hfails d' hd' => ?_, fun k => ?_⟩
  · exact h.others d (hmem d hd) hfails d' (hmem d' hd')
  · rw [hparts k]
    exact h.own k

/-- A message in which the parts of one key come first. -/
def keyFirst (k : GoString) (ds : List Delivery) : List Delivery :=
  partsOf k ds ++ ds.filter fun d => d.key ≠ k

omit [Regexp] in
theorem sameParts_keyFirst (k : GoString) (ds : List Delivery) : SameParts (keyFirst k ds) ds := by
  intro k'
  simp only [keyFirst, partsOf, List.filter_append, List.filter_filter]
  by_cases hk : k' = k
  · subst hk
    simp
  · have hnone : ds.filter (fun d => decide (d.key = k') && decide (d.key = k)) = [] := by
      refine List.filter_eq_nil_iff.mpr fun d _ hd => hk ?_
      simp only [Bool.and_eq_true, decide_eq_true_eq] at hd
      exact hd.1.symm.trans hd.2
    have hall : ds.filter (fun d => decide (d.key = k') && decide (d.key ≠ k)) =
        ds.filter fun d => decide (d.key = k') := by
      refine List.filter_congr fun d _ => ?_
      by_cases hd : d.key = k'
      · simp [hd, hk]
      · simp [hd]
    rw [hnone, hall, List.nil_append]

theorem harmless_iff (states : GoMap GoString State) (ds : List Delivery) :
    (∀ ds', SameParts ds' ds → Unblocked states ds') ↔ Harmless states ds := by
  refine ⟨fun h => ⟨fun d hd hfails d' hd' hkey s hs => ?_,
    fun k pre d post hparts hfails d' hd' s hs => ?_⟩, fun h ds' hparts =>
      (hparts.harmless h).unblocked⟩
  · obtain ⟨pre, post, hparts⟩ := List.append_of_mem (mem_partsOf.mpr ⟨hd, rfl⟩)
    have hfirst := h _ (sameParts_keyFirst d.key ds) pre d _
      (by rw [keyFirst, hparts, List.append_assoc, List.cons_append]) hfails d'
      (List.mem_append_right post (by simpa using ⟨hd', hkey⟩)) s hs
    refine hfirst.mono fun x hx => ?_
    have hx' : x ∈ partsOf d.key ds := by simp [hparts, (mem_partsOf.mp hx).1]
    exact absurd ((mem_partsOf.mp hx).2.symm.trans (mem_partsOf.mp hx').2) hkey
  · obtain rfl : d'.key = k := (mem_partsOf.mp (by simp [hparts, hd'] : d' ∈ partsOf k ds)).2
    have hfirst := h _ (sameParts_keyFirst d'.key ds) pre d _
      (by rw [keyFirst, hparts, List.append_assoc, List.cons_append]) hfails d'
      (List.mem_append_left _ hd') s hs
    exact hfirst.mono fun x hx => (mem_partsOf.mp hx).1

/-- `MergeRemoteState` treats the states independently if and only if what it leaves out is
stale, and does so in every order of parts of different keys if and only if every part is
harmless; then that order does not matter. -/
theorem mergeRemoteState_independent_iff (states : GoMap GoString State) (ds : List Delivery) :
    (Independent states ds ↔ Unblocked states ds) ∧
      ((∀ ds', SameParts ds' ds → Independent states ds') ↔ Harmless states ds) ∧
      (Harmless states ds → ∀ ds', SameParts ds' ds →
        mergeRemoteState states ds' = mergeRemoteState states ds) := by
  refine ⟨independent_iff states ds, ?_, fun h ds' hparts => ?_⟩
  · simp only [independent_iff, harmless_iff]
  · have hds := (independent_iff states ds).mpr h.unblocked
    have hds' := (independent_iff states ds').mpr (hparts.harmless h).unblocked
    refine Finmap.ext_lookup fun k => ?_
    cases hs : states.lookup k with
    | none => simp [lookup_mergeRemoteState, hs]
    | some s => rw [hds k s hs, hds' k s hs, hparts k]

/-- The IDs of the stored silences among the given ones. -/
def storedIDs (ids : List GoString) : State → List GoString
  | .silences s => ids.filter fun id => (s.st.lookup id).isSome
  | .log _ => []

end

section
attribute [local instance] noRegexp

/-- A silence that a peer offers. -/
def peerSilence : Silence where
  id := str "x"
  matchers := []
  startsAt := some 10
  endsAt := some 90
  updatedAt := some 5
  comments := []
  createdBy := []
  comment := []
  annotations := ∅
  matcherSets := [[⟨.equal, str "a", str "1"⟩]]
  receiverMatcherSets := []

/-- A part with that silence, merged at time 50. -/
def silencePart : Delivery where
  key := str "sil"
  data := ⟨⟨[⟨some peerSilence, some 100⟩], true, 80⟩, ⟨[], false, 80⟩, rfl⟩
  now := 50
  order := [str "x"]

/-- A part for the notification log that is cut off. -/
def brokenPart : Delivery where
  key := str "nfl"
  data := ⟨⟨[], false, 3⟩, ⟨[], false, 3⟩, rfl⟩
  now := 50
  order := []

/-- A peer with no silence and no entry. -/
def emptyStates : GoMap GoString State :=
  ((∅ : GoMap GoString State).insert (str "nfl") (.log ⟨∅, 100⟩)).insert (str "sil")
    (.silences (Silences.new 100))

/-- The peer once it has that silence. -/
def storedStates : GoMap GoString State := mergeRemoteState emptyStates [silencePart]

theorem mergeRemoteState_broken_harmless :
    fails storedStates brokenPart = true ∧ Harmless storedStates [brokenPart, silencePart] ∧
      mergeRemoteState storedStates [silencePart, brokenPart] =
        mergeRemoteState storedStates [brokenPart, silencePart] := by
  have hfails : fails storedStates brokenPart = true := by decide +kernel
  have hstored : ∀ s ∈ storedStates.lookup silencePart.key,
      ∀ o ∈ s.offers silencePart, s.Covers o.1 o.2 := by decide +kernel
  have hharmless : Harmless storedStates [brokenPart, silencePart] := by
    refine harmless_of_stale fun d hd s hs => ?_
    rcases List.mem_pair.mp hd with rfl | rfl
    · exact stale_of_fails hfails hs []
    · exact fun o ho => Or.inl (hstored s hs o ho)
  have hparts : SameParts [silencePart, brokenPart] [brokenPart, silencePart] := by
    intro k
    by_cases hk : k = str "sil"
    · subst hk
      rfl
    · have hsil : silencePart.key ≠ k := Ne.symm hk
      simp [partsOf, List.filter_cons, hsil]
  exact ⟨hfails, hharmless,
    (mergeRemoteState_independent_iff storedStates _).2.2 hharmless _ hparts⟩

/-- If the peer does not have the silence, the part before loses it. -/
theorem broken_part_blocks :
    ¬Independent emptyStates [brokenPart, silencePart] := by
  intro h
  have hlookup := h (str "sil") (.silences (Silences.new 100)) rfl
  have hids := congrArg (Option.map (storedIDs [str "x"])) hlookup
  revert hids
  decide +kernel

end

end Cluster

end Alertmanager
