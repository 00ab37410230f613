import Alertmanager.GoMap
import Alertmanager.GoTime
import Alertmanager.Runs

/-!
# Failed peers

The bookkeeping of `cluster/cluster.go`: a map of the known peers by address, and the list
of those that have failed, from which the reconnection attempts are made. The list holds
copies of the records in the map. `removeFailedPeers` drops the entries that have timed
out from the list and deletes their records from the map, but by the name of the node,
while the map is keyed by address.
-/
namespace Alertmanager.FailedPeers

inductive PeerStatus
  | none
  | alive
  | failed
  deriving DecidableEq, Repr

/-- `memberlist.Node`, as far as it is used: its name and what `Address` returns. -/
structure Node where
  name : GoString
  address : GoString
  deriving DecidableEq, Repr

structure PeerRecord where
  status : PeerStatus
  leaveTime : ℤ
  node : Node
  deriving DecidableEq, Repr

/-- `Address`, promoted from the node. -/
def PeerRecord.address (pr : PeerRecord) : GoString := pr.node.address

/-- The fields of `Peer` under `peerLock`. -/
structure Tables where
  peers : GoMap GoString PeerRecord
  failedPeers : List PeerRecord

/-- The address of the node that `setInitialFailed` builds from a configured address with
`net.SplitHostPort`, `net.ParseIP` and `strconv.ParseUint`; none where one of them fails. -/
class NodeAddress where
  numeric : GoString → Option GoString

namespace Tables

def empty : Tables := ⟨∅, []⟩

section
variable [NodeAddress]

/-- One turn of the loop of `setInitialFailed`. -/
def addInitial (now : ℤ) (myAddr : GoString) (t : Tables) (peerAddr : GoString) : Tables :=
  if peerAddr = myAddr then t
  else match NodeAddress.numeric peerAddr with
    | .none => t
    | some addr =>
      let pr : PeerRecord := ⟨.failed, now, ⟨[], addr⟩⟩
      ⟨t.peers.insert peerAddr pr, t.failedPeers ++ [pr]⟩

/-- `setInitialFailed`. -/
def setInitialFailed (t : Tables) (now : ℤ) (peers : List GoString) (myAddr : GoString) : Tables :=
  peers.foldl (addInitial now myAddr) t

end

/-- `removeOldPeer`. -/
def removeOldPeer (old : List PeerRecord) (addr : GoString) : List PeerRecord :=
  old.filter fun pr => decide (pr.address ≠ addr)

/-- `peerJoin`. -/
def peerJoin (t : Tables) (n : Node) : Tables :=
  let oldStatus := match t.peers.lookup n.address with
    | .none => PeerStatus.none
    | some pr => pr.status
  ⟨t.peers.insert n.address ⟨.alive, 0, n⟩,
    if oldStatus = .failed then removeOldPeer t.failedPeers n.address else t.failedPeers⟩

/-- `peerLeave`. -/
def peerLeave (t : Tables) (now : ℤ) (n : Node) : Tables :=
  match t.peers.lookup n.address with
  | .none => t
  | some pr =>
    let pr := { pr with status := .failed, leaveTime := now }
    ⟨t.peers.insert n.address pr, t.failedPeers ++ [pr]⟩

/-- `peerUpdate`. -/
def peerUpdate (t : Tables) (n : Node) : Tables :=
  match t.peers.lookup n.address with
  | .none => t
  | some pr => { t with peers := t.peers.insert n.address { pr with node := n } }

/-- The test of `removeFailedPeers`. -/
def timedOut (now timeout : ℤ) (pr : PeerRecord) : Bool := !decide (now < pr.leaveTime + timeout)

/-- The entries that `removeFailedPeers` drops. -/
def expired (t : Tables) (now timeout : ℤ) : List PeerRecord :=
  t.failedPeers.filter (timedOut now timeout)

/-- `removeFailedPeers`: the records are deleted by the names of the nodes. -/
def removeFailedPeers (t : Tables) (now timeout : ℤ) : Tables :=
  ⟨(t.expired now timeout).foldl (fun peers pr => peers.erase pr.node.name) t.peers,
    t.failedPeers.filter fun pr => !timedOut now timeout pr⟩

/-- The failed list has one entry for each address whose record in the map has failed, and
no other entry. -/
structure Consistent (t : Tables) : Prop where
  nodup : (t.failedPeers.map PeerRecord.address).Nodup
  mem : ∀ a, a ∈ t.failedPeers.map PeerRecord.address ↔
    ∃ pr, t.peers.lookup a = some pr ∧ pr.status = .failed

/-- Every record is filed under the address of its node. -/
def Keyed (t : Tables) : Prop := ∀ a pr, t.peers.lookup a = some pr → pr.address = a

/-- The addresses whose failed entries have timed out are in neither table afterwards. -/
def Forgotten (t : Tables) (now timeout : ℤ) : Prop :=
  ∀ pr ∈ t.expired now timeout, pr.address ∉ (t.removeFailedPeers now timeout).peers ∧
    pr.address ∉ (t.removeFailedPeers now timeout).failedPeers.map PeerRecord.address

/-- Among the failed records, those named by a node that has timed out are those at the
address of one. -/
def NamedByAddress (t : Tables) (now timeout : ℤ) : Prop :=
  ∀ a ∈ t.peers.keys, ∀ pr ∈ t.peers.lookup a, pr.status = .failed →
    (a ∈ (t.expired now timeout).map (fun pr => pr.node.name) ↔
      a ∈ (t.expired now timeout).map PeerRecord.address)

instance (t : Tables) (now timeout : ℤ) : Decidable (NamedByAddress t now timeout) :=
  inferInstanceAs (Decidable (∀ a ∈ t.peers.keys, ∀ pr ∈ t.peers.lookup a,
    pr.status = .failed → (a ∈ (t.expired now timeout).map (fun pr => pr.node.name) ↔
      a ∈ (t.expired now timeout).map PeerRecord.address)))

variable {t : Tables}

theorem consistent_empty : Consistent empty :=
  ⟨List.nodup_nil, fun a => by simp [empty]⟩

/-! ### Joining, leaving and updates -/

/-- Storing a record that has not failed, with the failed entries of its address gone. -/
theorem consistent_alive (ht : Consistent t) {a : GoString} {pr : PeerRecord}
    (hpr : pr.status ≠ .failed) {l : List PeerRecord}
    (hl : l = removeOldPeer t.failedPeers a) : Consistent ⟨t.peers.insert a pr, l⟩ := by
  subst hl
  refine ⟨?_, fun b => ?_⟩
  · exact ht.nodup.sublist (List.filter_sublist.map _)
  · have hmem : b ∈ (removeOldPeer t.failedPeers a).map PeerRecord.address ↔
        b ≠ a ∧ b ∈ t.failedPeers.map PeerRecord.address := by
      simp only [removeOldPeer, List.mem_map, List.mem_filter, decide_eq_true_eq]
      constructor
      · rintro ⟨x, ⟨hx, hne⟩, rfl⟩
        exact ⟨hne, x, hx, rfl⟩
      · rintro ⟨hne, x, hx, rfl⟩
        exact ⟨x, ⟨hx, hne⟩, rfl⟩
    rw [hmem, ht.mem, GoMap.lookup_insert_eq]
    split_ifs with hb
    · simp [hb, hpr]
    · simp [hb]

theorem removeOldPeer_eq_self (ht : Consistent t) {a : GoString}
    (ha : ∀ pr, t.peers.lookup a = some pr → pr.status ≠ .failed) :
    removeOldPeer t.failedPeers a = t.failedPeers := by
  refine List.filter_eq_self.mpr fun pr hpr => decide_eq_true fun heq => ?_
  obtain ⟨pr', hlook, hfailed⟩ := (ht.mem a).mp (heq ▸ List.mem_map_of_mem hpr)
  exact ha pr' hlook hfailed

theorem consistent_peerJoin (ht : Consistent t) (n : Node) : Consistent (t.peerJoin n) := by
  refine consistent_alive ht (by simp) ?_
  cases hlook : t.peers.lookup n.address with
  | none =>
    rw [removeOldPeer_eq_self ht (by simp [hlook])]
    simp
  | some pr =>
    by_cases hfailed : pr.status = .failed
    · simp [hfailed]
    · rw [removeOldPeer_eq_self ht (by simpa [hlook] using hfailed)]
      simp [hfailed]

/-- Storing a failed record and appending a copy of it. -/
theorem consistent_failed (ht : Consistent t) (pr : PeerRecord) (hpr : pr.status = .failed)
    (hold : ∀ pr', t.peers.lookup pr.address = some pr' → pr'.status ≠ .failed) :
    Consistent ⟨t.peers.insert pr.address pr, t.failedPeers ++ [pr]⟩ := by
  have hnew : pr.address ∉ t.failedPeers.map PeerRecord.address := by
    rw [ht.mem]
    rintro ⟨pr', hlook, hfailed⟩
    exact hold pr' hlook hfailed
  refine ⟨?_, fun a => ?_⟩
  · rw [List.map_append, List.nodup_append_comm]
    exact List.nodup_cons.mpr ⟨hnew, ht.nodup⟩
  · rw [List.map_append, List.mem_append, ht.mem, GoMap.lookup_insert_eq]
    split_ifs with ha
    · simp [ha, hpr]
    · simp [ha]

theorem consistent_peerLeave (ht : Consistent t) (hkeyed : Keyed t) (now : ℤ) {n : Node}
    (hn : ∀ pr, t.peers.lookup n.address = some pr → pr.status ≠ .failed) :
    Consistent (t.peerLeave now n) := by
  unfold peerLeave
  cases hlook : t.peers.lookup n.address with
  | none => exact ht
  | some pr =>
    have haddr : pr.address = n.address := hkeyed _ pr hlook
    have hfailed := consistent_failed ht { pr with status := .failed, leaveTime := now } rfl
    change (∀ pr', t.peers.lookup pr.address = some pr' → _) →
      Consistent ⟨t.peers.insert pr.address _, _⟩ at hfailed
    rw [haddr] at hfailed
    exact hfailed hn

theorem consistent_peerUpdate (ht : Consistent t) (n : Node) : Consistent (t.peerUpdate n) := by
  unfold peerUpdate
  cases hlook : t.peers.lookup n.address with
  | none => exact ht
  | some pr =>
    refine ⟨ht.nodup, fun a => ?_⟩
    dsimp only
    rw [ht.mem, GoMap.lookup_insert_eq]
    split_ifs with ha
    · subst ha
      simp [hlook]
    · rfl

/-! ### Time-outs -/

theorem lookup_removeFailedPeers (t : Tables) (now timeout : ℤ) (a : GoString) :
    (t.removeFailedPeers now timeout).peers.lookup a =
      if a ∈ (t.expired now timeout).map (fun pr => pr.node.name) then none
      else t.peers.lookup a := by
  rw [removeFailedPeers, GoMap.lookup_foldl_erase]
  split_ifs <;> rfl

/-- The entries that stay are those at the other addresses. -/
theorem mem_failedPeers_removeFailedPeers (ht : Consistent t) {now timeout : ℤ} {a : GoString} :
    a ∈ (t.removeFailedPeers now timeout).failedPeers.map PeerRecord.address ↔
      a ∈ t.failedPeers.map PeerRecord.address ∧
        a ∉ (t.expired now timeout).map PeerRecord.address := by
  simp only [removeFailedPeers, expired, List.mem_map, List.mem_filter, Bool.not_eq_true']
  constructor
  · rintro ⟨x, ⟨hx, hstays⟩, rfl⟩
    refine ⟨⟨x, hx, rfl⟩, ?_⟩
    rintro ⟨y, ⟨hy, hgoes⟩, hsame⟩
    obtain rfl := List.inj_on_of_nodup_map ht.nodup hy hx hsame
    rw [hstays] at hgoes
    cases hgoes
  · rintro ⟨⟨x, hx, rfl⟩, hnot⟩
    refine ⟨x, ⟨hx, ?_⟩, rfl⟩
    cases hgoes : timedOut now timeout x with
    | false => rfl
    | true => exact absurd ⟨x, ⟨hx, hgoes⟩, rfl⟩ hnot

/-- An entry that times out has a failed record at its address. -/
theorem exists_failed_of_expired (ht : Consistent t) {now timeout : ℤ} {a : GoString}
    (ha : a ∈ (t.expired now timeout).map PeerRecord.address) :
    ∃ pr, t.peers.lookup a = some pr ∧ pr.status = .failed := by
  obtain ⟨x, hx, rfl⟩ := List.mem_map.mp ha
  exact (ht.mem _).mp (List.mem_map_of_mem (List.mem_of_mem_filter hx))

/-- If the names are the addresses, the records and the entries go together. -/
theorem consistent_removeFailedPeers (ht : Consistent t) {now timeout : ℤ}
    (hnames : ∀ a pr, t.peers.lookup a = some pr → pr.status = .failed →
      (a ∈ (t.expired now timeout).map (fun pr => pr.node.name) ↔
        a ∈ (t.expired now timeout).map PeerRecord.address)) :
    Consistent (t.removeFailedPeers now timeout) := by
  refine ⟨ht.nodup.sublist (List.filter_sublist.map _), fun a => ?_⟩
  rw [mem_failedPeers_removeFailedPeers ht, ht.mem, lookup_removeFailedPeers]
  constructor
  · rintro ⟨⟨pr, hlook, hfailed⟩, hnot⟩
    rw [if_neg ((hnames a pr hlook hfailed).not.mpr hnot)]
    exact ⟨pr, hlook, hfailed⟩
  · rintro ⟨pr, hlook, hfailed⟩
    split_ifs at hlook with hname
    exact ⟨⟨pr, hlook, hfailed⟩, (hnames a pr hlook hfailed).not.mp hname⟩

/-- A record goes just if its address is the name of an entry that times out. -/
theorem not_mem_removeFailedPeers {now timeout : ℤ} {a : GoString} {pr : PeerRecord}
    (hlook : t.peers.lookup a = some pr) : a ∉ (t.removeFailedPeers now timeout).peers ↔
      a ∈ (t.expired now timeout).map (fun pr => pr.node.name) := by
  rw [← Finmap.lookup_eq_none, lookup_removeFailedPeers]
  split_ifs with h
  · simpa using h
  · simpa [hlook] using h

/-- A time-out keeps the tables consistent and forgets the addresses exactly if the names
it deletes by are these addresses, as far as failed records are concerned. -/
theorem removeFailedPeers_iff (ht : Consistent t) (now timeout : ℤ) :
    (Consistent (t.removeFailedPeers now timeout) ∧ Forgotten t now timeout) ↔
      NamedByAddress t now timeout := by
  constructor
  · rintro ⟨hafter, hgone⟩ a - pr hlook hfailed
    rw [← not_mem_removeFailedPeers hlook]
    constructor
    · intro hnot
      have hentry : a ∈ t.failedPeers.map PeerRecord.address := (ht.mem a).mpr ⟨pr, hlook, hfailed⟩
      by_contra hstays
      obtain ⟨pr', hlook', -⟩ :=
        (hafter.mem a).mp ((mem_failedPeers_removeFailedPeers ht).mpr ⟨hentry, hstays⟩)
      exact hnot (GoMap.mem_of_lookup hlook')
    · intro hexp
      obtain ⟨x, hx, rfl⟩ := List.mem_map.mp hexp
      exact (hgone x hx).1
  · intro hnamed
    have hnames : ∀ a pr, t.peers.lookup a = some pr → pr.status = .failed →
        (a ∈ (t.expired now timeout).map (fun pr => pr.node.name) ↔
          a ∈ (t.expired now timeout).map PeerRecord.address) := fun a pr hlook =>
      hnamed a (Finmap.mem_keys.mpr (GoMap.mem_of_lookup hlook)) pr hlook
    refine ⟨consistent_removeFailedPeers ht hnames, fun x hx => ?_⟩
    have haddr : x.address ∈ (t.expired now timeout).map PeerRecord.address :=
      List.mem_map_of_mem hx
    obtain ⟨pr, hlook, hfailed⟩ := exists_failed_of_expired ht haddr
    refine ⟨(not_mem_removeFailedPeers hlook).mpr ((hnames _ pr hlook hfailed).mpr haddr), ?_⟩
    intro hstays
    exact ((mem_failedPeers_removeFailedPeers ht).mp hstays).2 haddr

/-! ### The initial peers -/

section
variable [NodeAddress]

theorem consistent_setInitialFailed (ht : Consistent t) (now : ℤ) {peers : List GoString}
    (myAddr : GoString) (hnodup : peers.Nodup)
    (hnumeric : ∀ a ∈ peers, NodeAddress.numeric a = some a)
    (hnew : ∀ a ∈ peers, a ∉ t.peers) : Consistent (t.setInitialFailed now peers myAddr) := by
  induction peers generalizing t with
  | nil => exact ht
  | cons a peers ih =>
    obtain ⟨hfresh, hnodup⟩ := List.nodup_cons.mp hnodup
    have hlater : ∀ b ∈ peers, b ∉ t.peers := fun b hb => hnew b (List.mem_cons_of_mem a hb)
    have hrest := fun b hb => hnumeric b (List.mem_cons_of_mem a hb)
    rw [setInitialFailed, List.foldl_cons, ← setInitialFailed, addInitial]
    split_ifs with hme
    · exact ih ht hnodup hrest hlater
    · rw [hnumeric a List.mem_cons_self]
      refine ih (consistent_failed ht ⟨.failed, now, ⟨[], a⟩⟩ rfl ?_) hnodup hrest ?_
      · intro pr hlook
        exact absurd (GoMap.mem_of_lookup hlook) (hnew a List.mem_cons_self)
      · intro b hb
        rw [Finmap.mem_insert, not_or]
        exact ⟨fun heq => hfresh (heq ▸ hb), hlater b hb⟩

end

end Tables

/-! ### Runs -/

inductive Op
  | setInitialFailed (now : ℤ) (peers : List GoString) (myAddr : GoString)
  | peerJoin (n : Node)
  | peerUpdate (n : Node)
  | peerLeave (now : ℤ) (n : Node)
  | removeFailedPeers (now timeout : ℤ)

/-- The tables, the reading of the clock, the addresses that have joined, and whether
`setInitialFailed` may still come. -/
structure State where
  tables : Tables
  clock : ℤ
  joined : Finset GoString
  starting : Bool

def init (now : ℤ) : State := ⟨.empty, now, ∅, true⟩

section
variable [NodeAddress]

/-- The initial peers come first if at all, with distinct addresses that are printed as
they are configured; joining and leaving alternate for each address; the clock does not
go back. -/
def Enabled (s : State) : Op → Prop
  | .setInitialFailed now peers _ => s.clock ≤ now ∧ s.starting = true ∧ peers.Nodup ∧
      ∀ a ∈ peers, NodeAddress.numeric a = some a
  | .peerJoin n => n.address ∉ s.joined
  | .peerUpdate _ => True
  | .peerLeave now n => s.clock ≤ now ∧ n.address ∈ s.joined
  | .removeFailedPeers now _ => s.clock ≤ now

instance (s : State) : (op : Op) → Decidable (Enabled s op)
  | .setInitialFailed now peers _ => inferInstanceAs (Decidable (s.clock ≤ now ∧
      s.starting = true ∧ peers.Nodup ∧ ∀ a ∈ peers, NodeAddress.numeric a = some a))
  | .peerJoin n => inferInstanceAs (Decidable (n.address ∉ s.joined))
  | .peerUpdate _ => isTrue trivial
  | .peerLeave now n => inferInstanceAs (Decidable (s.clock ≤ now ∧ n.address ∈ s.joined))
  | .removeFailedPeers now _ => inferInstanceAs (Decidable (s.clock ≤ now))

def next (s : State) : Op → State
  | .setInitialFailed now peers myAddr =>
    ⟨s.tables.setInitialFailed now peers myAddr, now, s.joined, false⟩
  | .peerJoin n => ⟨s.tables.peerJoin n, s.clock, insert n.address s.joined, false⟩
  | .peerUpdate n => ⟨s.tables.peerUpdate n, s.clock, s.joined, false⟩
  | .peerLeave now n => ⟨s.tables.peerLeave now n, now, s.joined.erase n.address, false⟩
  | .removeFailedPeers now timeout => ⟨s.tables.removeFailedPeers now timeout, now, s.joined, false⟩

/-- The condition on a time-out. -/
def DeletesByAddress (s : State) : Op → Prop
  | .removeFailedPeers now timeout => s.tables.NamedByAddress now timeout
  | _ => True

instance (s : State) : (op : Op) → Decidable (DeletesByAddress s op)
  | .removeFailedPeers now timeout =>
    inferInstanceAs (Decidable (s.tables.NamedByAddress now timeout))
  | .setInitialFailed _ _ _ | .peerJoin _ | .peerUpdate _ | .peerLeave _ _ => isTrue trivial

/-- What a run keeps: consistent tables with records filed by address, a peer that has
joined has no failed record, and nothing is known at the start. -/
structure Inv (s : State) : Prop where
  consistent : s.tables.Consistent
  keyed : s.tables.Keyed
  joined : ∀ a ∈ s.joined, ∀ pr, s.tables.peers.lookup a = some pr → pr.status ≠ .failed
  start : s.starting = true → s.tables = .empty ∧ s.joined = ∅

omit [NodeAddress] in
theorem inv_init (now : ℤ) : Inv (init now) where
  consistent := Tables.consistent_empty
  keyed a pr h := by simp [init, Tables.empty] at h
  joined a h := by simp [init] at h
  start _ := ⟨rfl, rfl⟩

/-- Where the record at an address comes from after a step: it was there, or it is one of
the initial peers, or the node at that address has just joined, changed or left. -/
inductive Origin (s : State) (a : GoString) (pr : PeerRecord) : Op → Prop
  | kept (op : Op) (h : s.tables.peers.lookup a = some pr) : Origin s a pr op
  | initial (now : ℤ) (peers : List GoString) (myAddr : GoString) (h : pr.address = a) :
      Origin s a pr (.setInitialFailed now peers myAddr)
  | joined (n : Node) (ha : n.address = a) (h : pr = ⟨.alive, 0, n⟩) : Origin s a pr (.peerJoin n)
  | updated (n : Node) (ha : n.address = a) (old : PeerRecord)
      (hold : s.tables.peers.lookup a = some old) (h : pr = { old with node := n }) :
      Origin s a pr (.peerUpdate n)
  | left (now : ℤ) (n : Node) (ha : n.address = a) (old : PeerRecord)
      (hold : s.tables.peers.lookup a = some old)
      (h : pr = { old with status := .failed, leaveTime := now }) :
      Origin s a pr (.peerLeave now n)

theorem lookup_setInitialFailed {t : Tables} (now : ℤ) {peers : List GoString} (myAddr : GoString)
    (hnumeric : ∀ a ∈ peers, NodeAddress.numeric a = some a) {a : GoString} {pr : PeerRecord}
    (h : (t.setInitialFailed now peers myAddr).peers.lookup a = some pr) :
    t.peers.lookup a = some pr ∨ pr.address = a := by
  induction peers generalizing t with
  | nil => exact Or.inl h
  | cons b peers ih =>
    rw [Tables.setInitialFailed, List.foldl_cons, ← Tables.setInitialFailed] at h
    refine (ih (fun c hc => hnumeric c (List.mem_cons_of_mem b hc)) h).elim (fun h => ?_) Or.inr
    rw [Tables.addInitial, hnumeric b List.mem_cons_self] at h
    split_ifs at h with hme
    · exact Or.inl h
    · dsimp only at h
      rw [GoMap.lookup_insert_eq] at h
      split_ifs at h with hab
      · obtain rfl := Option.some.inj h
        exact Or.inr hab.symm
      · exact Or.inl h

theorem lookup_next {s : State} {op : Op} (hop : Enabled s op) {a : GoString} {pr : PeerRecord}
    (h : (next s op).tables.peers.lookup a = some pr) : Origin s a pr op := by
  cases op with
  | setInitialFailed now peers myAddr =>
    obtain hold | haddr := lookup_setInitialFailed now myAddr hop.2.2.2 h
    · exact .kept _ hold
    · exact .initial now peers myAddr haddr
  | peerJoin n =>
    simp only [next, Tables.peerJoin, GoMap.lookup_insert_eq] at h
    split_ifs at h with ha
    · exact .joined n ha.symm (Option.some.inj h).symm
    · exact .kept _ h
  | peerUpdate n =>
    simp only [next, Tables.peerUpdate] at h
    split at h
    · exact .kept _ h
    · next old hold =>
      rw [GoMap.lookup_insert_eq] at h
      split_ifs at h with ha
      · exact .updated n ha.symm old (ha ▸ hold) (Option.some.inj h).symm
      · exact .kept _ h
  | peerLeave now n =>
    simp only [next, Tables.peerLeave] at h
    split at h
    · exact .kept _ h
    · next old hold =>
      rw [GoMap.lookup_insert_eq] at h
      split_ifs at h with ha
      · exact .left now n ha.symm old (ha ▸ hold) (Option.some.inj h).symm
      · exact .kept _ h
  | removeFailedPeers now timeout =>
    simp only [next, Tables.lookup_removeFailedPeers] at h
    split_ifs at h
    exact .kept _ h

theorem consistent_next {s : State} {op : Op} (hs : Inv s) (hop : Enabled s op)
    (hdel : DeletesByAddress s op) : (next s op).tables.Consistent := by
  cases op with
  | setInitialFailed now peers myAddr =>
    obtain ⟨hempty, -⟩ := hs.start hop.2.1
    refine Tables.consistent_setInitialFailed hs.consistent now myAddr hop.2.2.1 hop.2.2.2 ?_
    intro a _
    rw [hempty]
    exact Finmap.notMem_empty
  | peerJoin n => exact Tables.consistent_peerJoin hs.consistent n
  | peerUpdate n => exact Tables.consistent_peerUpdate hs.consistent n
  | peerLeave now n =>
    exact Tables.consistent_peerLeave hs.consistent hs.keyed now (hs.joined _ hop.2)
  | removeFailedPeers now timeout =>
    exact ((Tables.removeFailedPeers_iff hs.consistent now timeout).mpr hdel).1

theorem inv_next {s : State} {op : Op} (hs : Inv s) (hop : Enabled s op)
    (hdel : DeletesByAddress s op) : Inv (next s op) := by
  refine ⟨consistent_next hs hop hdel, fun a pr h => ?_, fun a ha pr h => ?_,
    fun h => by cases op <;> cases h⟩
  · cases lookup_next hop h with
    | kept op hold => exact hs.keyed a pr hold
    | initial now peers myAddr haddr => exact haddr
    | joined n ha hpr => exact hpr ▸ ha
    | updated n ha old hold hpr => exact hpr ▸ ha
    | left now n ha old hold hpr => exact hpr ▸ hs.keyed a old hold
  · cases lookup_next hop h with
    | kept op hold =>
      -- a peer that joins in this step has its record replaced
      cases op with
      | peerJoin n =>
        obtain rfl | ha := Finset.mem_insert.mp ha
        · simp only [next, Tables.peerJoin, GoMap.lookup_insert_eq, if_true] at h
          obtain rfl := Option.some.inj h
          simp
        · exact hs.joined a ha pr hold
      | peerLeave now n => exact hs.joined a (Finset.mem_of_mem_erase ha) pr hold
      | setInitialFailed now peers myAddr => exact hs.joined a ha pr hold
      | peerUpdate n => exact hs.joined a ha pr hold
      | removeFailedPeers now timeout => exact hs.joined a ha pr hold
    | initial now peers myAddr haddr =>
      obtain ⟨-, hnobody⟩ := hs.start hop.2.1
      simp [next, hnobody] at ha
    | joined n haddr hpr => simp [hpr]
    | updated n haddr old hold hpr =>
      rw [hpr]
      exact hs.joined a ha old hold
    | left now n haddr old hold hpr => exact absurd haddr.symm (Finset.ne_of_mem_erase ha)

/-- The bookkeeping of failed peers is consistent as long as every time-out deletes failed
records by their address: the failed list has one entry for each address whose record has
failed and no other. From each such state a time-out keeps the tables consistent, and
leaves an address that has timed out in neither, exactly under that condition. -/
theorem failed_peers_consistent {t : ℤ} {ops : List Op} {s : State}
    (hrun : Run (Guarded DeletesByAddress (Fires Enabled next)) (init t) ops s) :
    s.tables.Consistent ∧ ∀ now timeout,
      ((s.tables.removeFailedPeers now timeout).Consistent ∧ s.tables.Forgotten now timeout ↔
        s.tables.NamedByAddress now timeout) := by
  have hs : Inv s := by
    refine hrun.invariant (I := Inv) ?_ (inv_init t)
    rintro s op s' hs ⟨hdel, hop, rfl⟩
    exact inv_next hs hop hdel
  exact ⟨hs.consistent, Tables.removeFailedPeers_iff hs.consistent⟩

end

section
local instance dottedDecimal : NodeAddress := ⟨fun a => if a = [] then none else some a⟩

def memberA : Node := ⟨str "a", str "10.0.0.1:9094"⟩

/-- Two initial peers, of which one joins, is updated and leaves again. -/
def flappingRun : List Op :=
  [.setInitialFailed 10 [str "10.0.0.1:9094", str "10.0.0.2:9094"] (str "10.0.0.3:9094"),
    .peerJoin memberA, .peerUpdate memberA, .peerLeave 20 memberA, .removeFailedPeers 30 60]

theorem failed_peers_consistent_flapping :
    let s := flappingRun.foldl next (init 0)
    s.tables.failedPeers.map PeerRecord.address = [str "10.0.0.2:9094", str "10.0.0.1:9094"] ∧
      s.tables.Consistent := by
  intro s
  have hrun : Run (Guarded DeletesByAddress (Fires Enabled next)) (init 0) flappingRun s :=
    Run.of_feasible_guarded (by decide +kernel)
  exact ⟨by decide +kernel, (failed_peers_consistent hrun).1⟩

/-- An initial peer that never joins times out: it leaves the list, but its record stays in
the map as failed, because it is deleted under the empty name of its node. -/
theorem timed_out_peer_stays :
    let ops : List Op :=
      [.setInitialFailed 10 [str "10.0.0.1:9094"] (str "10.0.0.3:9094"), .removeFailedPeers 80 60]
    let s := ops.foldl next (init 0)
    Feasible Enabled next (init 0) ops ∧ s.tables.failedPeers = [] ∧
      (s.tables.peers.lookup (str "10.0.0.1:9094")).map PeerRecord.status = some .failed := by
  decide +kernel

end

end Alertmanager.FailedPeers
