import Alertmanager.FullStateSync

/-!
# Oversized messages

A large message is sent to every peer at once, and for that reason the peers do not
gossip it again. The channel measures the part it sends and the peer the data it finds
in the part, which is smaller: between the two bounds a message takes both ways.
-/
namespace Alertmanager

/-! ### What a merge broadcasts -/

namespace Silences

variable [Regexp] {s : Silences} {p : Payload} {now : ℤ} {order : List GoString}

theorem gossips_of_oversized (hp : oversized p.length = true) (s : Silences) (e : MeshSilence) :
    gossips p now s e = [] := by
  simp [gossips, oversizedMessage, hp]

/-- A round that broadcasts nothing, although it might, has merged nothing. -/
theorem mergeSilence_of_gossips (hp : oversized p.length = false) (now : ℤ) (s : Silences)
    (e : MeshSilence) (h : gossips p now s e = []) : (s.mergeSilence e now).1 = s := by
  by_cases hacc : Accepts s e now
  · simp [gossips, (mergeSilence_of_accepts hacc).2, oversizedMessage, hp] at h
  · rw [mergeSilence_of_not_accepts hacc]

/-- A merge that changes the store gossips the payload again unless it is oversized. -/
theorem merge_broadcasts_eq_nil_iff (h : (s.merge p now order).2.1 ≠ s) :
    (s.merge p now order).2.2 = [] ↔ oversized p.length = true := by
  unfold merge at h ⊢
  cases hdec : decodeState p with
  | error err => simp [hdec] at h
  | ok st =>
    simp only [hdec, mergeLoop_eq_visitEmit] at h ⊢
    refine ⟨fun hnil => ?_, fun hp => ?_⟩
    · by_contra hp
      have hsilent := mergeSilence_of_gossips (Bool.eq_false_iff.mpr hp) now
      exact h (Inflationary.visitEmit_silent hsilent order s hnil)
    · exact Inflationary.visitEmit_eq_nil (gossips_of_oversized hp) order s

end Silences

namespace Nflog.Log

variable {l : Log} {p : Payload} {now : ℤ} {order : List GoString}

theorem gossips_of_oversized (hp : oversized p.length = true) (l : Log) (e : MeshEntry) :
    gossips p now l e = [] := by
  simp [gossips, hp]

theorem mergeEntry_of_gossips (hp : oversized p.length = false) (now : ℤ) (l : Log) (e : MeshEntry)
    (h : gossips p now l e = []) : mergeEntry now l e = l := by
  refine (offering_mergeEntry now).refused l e fun hlive => by_contra fun hnew => ?_
  have hflag : (stateMerge l.st e now).2 = true := by
    rw [stateMerge, if_neg (not_lt.mpr (of_decide_eq_true hlive))]
    exact LastWriter.not_covers_iff.mp hnew
  simp [gossips, hflag, hp] at h

theorem merge_broadcasts_eq_nil_iff (h : (l.merge p now order).2.1 ≠ l) :
    (l.merge p now order).2.2 = [] ↔ oversized p.length = true := by
  unfold merge at h ⊢
  cases hdec : decodeState p with
  | error err => simp [hdec] at h
  | ok st =>
    simp only [hdec, mergeLoop_eq_visitEmit] at h ⊢
    refine ⟨fun hnil => ?_, fun hp => ?_⟩
    · by_contra hp
      have hsilent := mergeEntry_of_gossips (Bool.eq_false_iff.mpr hp) now
      exact h (Inflationary.visitEmit_silent hsilent order l hnil)
    · exact Inflationary.visitEmit_eq_nil (gossips_of_oversized hp) order l

end Nflog.Log

namespace Cluster

theorem varintLength_eq_two {n : ℕ} (h₁ : 128 ≤ n) (h₂ : n < 16384) : varintLength n = 2 := by
  have hlog : Nat.log 128 n = 1 := (Nat.log_eq_iff (by simp)).mpr ⟨by simpa using h₁, h₂⟩
  rw [varintLength, hlog]

/-- For the keys of three bytes, as those of the silences and of the notification log are,
a part is oversized from 693 bytes of data on. -/
theorem partLength_le_iff {key : GoString} (hkey : key.length = 3) (n : ℕ) :
    partLength key n ≤ 700 ↔ n ≤ 692 := by
  have hkeyLength : varintLength key.length = 1 := by simp [varintLength, hkey]
  rw [partLength, hkeyLength, hkey]
  constructor
  · intro h
    by_contra hn
    rw [varintLength_eq_two (by omega) (by omega)] at h
    omega
  · intro h
    by_cases hn : n < 128
    · have hsmall : varintLength n = 1 := by simp [varintLength, hn]
      omega
    · rw [varintLength_eq_two (by omega) (by omega)]
      omega

/-- The part is put on the queue that every peer is served from. -/
def Channel.Queued (c : Channel) (b : Data) : Prop :=
  (c.broadcast b).msgc = c.msgc ++ [⟨c.key, b⟩]

theorem Channel.queued_iff (c : Channel) (b : Data) :
    c.Queued b ↔ Utf8.validString c.key = true ∧ c.msgc.length < queueCapacity ∧
      700 < partLength c.key b.length := by
  unfold Channel.Queued Channel.broadcast
  split_ifs with hkey hsize hroom
  · simp [hkey]
  · simp_all [oversized]
  · simp_all
  · simp_all [oversized]

section
variable [Regexp]

theorem State.receive_broadcasts_eq_nil_iff {s : State} {d : Delivery}
    (h : (s.receive d).2.1 ≠ s) : (s.receive d).2.2 = [] ↔ 700 < d.data.length := by
  cases s with
  | silences s =>
    simp only [State.receive, State.merge, ne_eq, State.silences.injEq] at h
    simp [State.receive, State.merge, Silences.merge_broadcasts_eq_nil_iff h, oversized,
      Data.length]
  | log l =>
    simp only [State.receive, State.merge, ne_eq, State.log.injEq] at h
    simp [State.receive, State.merge, Nflog.Log.merge_broadcasts_eq_nil_iff h, oversized,
      Data.length, d.data.same_length]

/-- A message that changes a state is gossiped again unless its data is oversized. -/
theorem notifyMsg_broadcasts_eq_nil_iff {states : GoMap GoString State} {d : Delivery}
    (h : (notifyMsg states d).1 ≠ states) :
    (notifyMsg states d).2 = [] ↔ 700 < d.data.length := by
  unfold notifyMsg at h ⊢
  cases hs : states.lookup d.key with
  | none => simp [hs] at h
  | some s =>
    simp only [hs] at h ⊢
    refine State.receive_broadcasts_eq_nil_iff fun hsame => h ?_
    refine Finmap.ext_lookup fun k => ?_
    rw [hsame, GoMap.lookup_insert_eq]
    split_ifs with hk
    · rw [hk, hs]
    · rfl

/-- A payload that changes the receiver takes exactly one of the two ways, to every peer or
by gossip, if and only if the channel and the receiver agree about its size; or, when the
channel cannot queue it, if it is left to gossip. -/
theorem queued_iff_not_regossiped_iff (c : Channel) (b : Data) (states : GoMap GoString State)
    (now : ℤ) (order : List GoString)
    (hchanged : (notifyMsg states ⟨⟨c.key, b⟩, now, order⟩).1 ≠ states) :
    (c.Queued b ↔ (notifyMsg states ⟨⟨c.key, b⟩, now, order⟩).2 = []) ↔
      if Utf8.validString c.key = true ∧ c.msgc.length < queueCapacity then
        700 < b.length ∨ partLength c.key b.length ≤ 700
      else b.length ≤ 700 := by
  have hlarger : b.length < partLength c.key b.length := by
    unfold partLength
    omega
  rw [Channel.queued_iff, notifyMsg_broadcasts_eq_nil_iff hchanged]
  split_ifs with hcan
  · simp only [hcan, true_and]
    omega
  · have hnot : ¬(Utf8.validString c.key = true ∧ c.msgc.length < queueCapacity ∧
        700 < partLength c.key b.length) := fun h => hcan ⟨h.1, h.2.1⟩
    rw [iff_false_left hnot, not_lt]

end

section
attribute [local instance] noRegexp

/-- A payload of the given size with one silence. -/
def silenceData (length : ℕ) : Data :=
  ⟨⟨[⟨some peerSilence, some 100⟩], true, length⟩, ⟨[], false, length⟩, rfl⟩

/-- A peer without silences. -/
def noSilences : GoMap GoString State :=
  (∅ : GoMap GoString State).insert (str "sil") (.silences (Silences.new 100))

/-- The channel of the silences, with an empty queue. -/
def silenceChannel : Channel := ⟨str "sil", [], []⟩

/-- A silence of 650 bytes is gossiped, by the peers too. -/
theorem queued_iff_not_regossiped_small :
    (notifyMsg noSilences ⟨⟨str "sil", silenceData 650⟩, 50, [str "x"]⟩).1 ≠ noSilences ∧
      (silenceChannel.Queued (silenceData 650) ↔
        (notifyMsg noSilences ⟨⟨str "sil", silenceData 650⟩, 50, [str "x"]⟩).2 = []) := by
  have hchanged :
      (notifyMsg noSilences ⟨⟨str "sil", silenceData 650⟩, 50, [str "x"]⟩).1 ≠ noSilences := by
    intro h
    have hids := congrArg (fun states => (states.lookup (str "sil")).map (storedIDs [str "x"])) h
    revert hids
    decide +kernel
  refine ⟨hchanged, ?_⟩
  have hiff := queued_iff_not_regossiped_iff silenceChannel (silenceData 650) noSilences 50
    [str "x"] hchanged
  refine hiff.mpr ?_
  rw [if_pos (by decide +kernel)]
  exact Or.inr ((partLength_le_iff rfl 650).mpr (by decide))

/-- A silence of 695 bytes makes a part of 703 bytes: it is sent to every peer, and the
peers gossip it again. -/
theorem queued_and_regossiped :
    silenceChannel.Queued (silenceData 695) ∧
      (notifyMsg noSilences ⟨⟨str "sil", silenceData 695⟩, 50, [str "x"]⟩).1 ≠ noSilences ∧
      (notifyMsg noSilences ⟨⟨str "sil", silenceData 695⟩, 50, [str "x"]⟩).2 ≠ [] := by
  refine ⟨(silenceChannel.queued_iff _).mpr ⟨by decide +kernel, by decide, ?_⟩, ?_, ?_⟩
  · exact not_le.mp fun h => absurd ((partLength_le_iff rfl 695).mp h) (by decide)
  · intro h
    have hids := congrArg (fun states => (states.lookup (str "sil")).map (storedIDs [str "x"])) h
    revert hids
    decide +kernel
  · intro h
    have hlength := congrArg List.length h
    revert hlength
    decide +kernel

end

end Cluster

end Alertmanager
