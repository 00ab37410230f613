import Mathlib.Tactic

/-!
# Buffered reading from a connection that keeps write boundaries

A connection hands out the bytes of its writes in order. How many bytes one read returns
is left open, but it returns at least one and never bytes of two writes. A buffered reader
fills its buffer with one read, or bypasses the buffer for a large request, and `ReadFull`
repeats this until it has the requested number of bytes. As long as a request stays within
one write, nothing of the next write gets into the buffer.
-/
namespace Alertmanager.Bufio
variable {α : Type*}

/-- A connection: what is unread of each write, and the sizes of the reads to come. The
`n`-th read returns at most `cuts n + 1` bytes. -/
structure Conn (α : Type*) where
  chunks : List (List α)
  cuts : ℕ → ℕ
  reads : ℕ

/-- Up to `k` bytes of the first write of which something is unread. -/
def readChunk (k : ℕ) : List (List α) → Option (List α × List (List α))
  | [] => none
  | [] :: cs => readChunk k cs
  | (b :: bs) :: cs => some ((b :: bs).take k, (b :: bs).drop k :: cs)

/-- `Read` into a slice of the given length; none at the end of the data. -/
def Conn.read (c : Conn α) (length : ℕ) : Option (List α × Conn α) :=
  (readChunk (min length (c.cuts c.reads + 1)) c.chunks).map fun r =>
    (r.1, { c with chunks := r.2, reads := c.reads + 1 })

/-- What is unread of all writes. -/
def Conn.unread (c : Conn α) : List α := c.chunks.flatten

/-- `bufio.Reader`: the unread part of the buffer, and the connection. -/
structure Reader (α : Type*) where
  buf : List α
  conn : Conn α

/-- `bufio.NewReader`. -/
def newReader (c : Conn α) : Reader α := ⟨[], c⟩

/-- The size of the buffer that `bufio.NewReader` makes. -/
def defaultBufSize : ℕ := 4096

/-- `bufio.Reader.Read` into a slice of the given length. -/
def Reader.read (r : Reader α) (length : ℕ) : Option (List α × Reader α) :=
  match r.buf with
  | b :: bs => some ((b :: bs).take length, ⟨(b :: bs).drop length, r.conn⟩)
  | [] =>
    if defaultBufSize ≤ length then
      (r.conn.read length).map fun x => (x.1, ⟨[], x.2⟩)
    else
      (r.conn.read defaultBufSize).map fun x => (x.1.take length, ⟨x.1.drop length, x.2⟩)

/-- The loop of `io.ReadFull`, for at most `fuel` reads. -/
def Reader.readLoop : ℕ → Reader α → ℕ → Option (List α × Reader α)
  | _, r, 0 => some ([], r)
  | 0, _, _ + 1 => none
  | fuel + 1, r, need + 1 =>
    match r.read (need + 1) with
    | none => none
    | some x => (x.2.readLoop fuel (need + 1 - x.1.length)).map fun y => (x.1 ++ y.1, y.2)

/-- `io.ReadFull`: every read returns a byte, so no more reads than bytes are needed. -/
def Reader.readFull (r : Reader α) (length : ℕ) : Option (List α × Reader α) :=
  r.readLoop length length

/-- The buffer and what is unread of one write make up `data`; the writes after it have
not been touched. -/
def Aligned (r : Reader α) (data : List α) (later : List (List α)) : Prop :=
  ∃ used c, (∀ x ∈ used, x = []) ∧ r.conn.chunks = used ++ c :: later ∧ r.buf ++ c = data

theorem readChunk_skip {used : List (List α)} (hused : ∀ x ∈ used, x = []) (k : ℕ)
    (cs : List (List α)) : readChunk k (used ++ cs) = readChunk k cs := by
  induction used with
  | nil => rfl
  | cons x used ih =>
    obtain rfl := hused x List.mem_cons_self
    exact ih fun y hy => hused y (List.mem_cons_of_mem _ hy)

theorem readChunk_cons {c : List α} (hc : c ≠ []) (k : ℕ) (cs : List (List α)) :
    readChunk k (c :: cs) = some (c.take k, c.drop k :: cs) := by
  cases c with
  | nil => exact absurd rfl hc
  | cons b bs => rfl

/-- A read of the connection returns a piece of the current write. -/
theorem read_aligned {c : Conn α} {data : List α} {later : List (List α)} (hdata : data ≠ [])
    (h : Aligned ⟨[], c⟩ data later) (length : ℕ) (hlength : 0 < length) :
    ∃ bs rest c', c.read length = some (bs, c') ∧ bs ≠ [] ∧ bs.length ≤ length ∧
      data = bs ++ rest ∧ Aligned ⟨[], c'⟩ rest later := by
  obtain ⟨used, d, hused, hchunks, rfl⟩ := h
  rw [List.nil_append] at hdata ⊢
  have hread : c.read length = some (d.take (min length (c.cuts c.reads + 1)),
      { c with
        chunks := d.drop (min length (c.cuts c.reads + 1)) :: later
        reads := c.reads + 1 }) := by
    rw [Conn.read, hchunks, readChunk_skip hused, readChunk_cons hdata]
    rfl
  have hpos : 0 < min length (c.cuts c.reads + 1) := by omega
  refine ⟨_, _, _, hread, ?_, ?_, (List.take_append_drop _ d).symm, [], _, by simp, rfl, rfl⟩
  · simp [hdata, hpos.ne']
  · rw [List.length_take]
    omega

/-- One read of the buffered reader takes a piece of the data, and none of later writes. -/
theorem Reader.read_aligned {r : Reader α} {data : List α} {later : List (List α)}
    (hdata : data ≠ []) (h : Aligned r data later) (length : ℕ) (hlength : 0 < length) :
    ∃ bs rest r', r.read length = some (bs, r') ∧ bs ≠ [] ∧ bs.length ≤ length ∧
      data = bs ++ rest ∧ Aligned r' rest later := by
  obtain ⟨buf, c⟩ := r
  cases buf with
  | cons b buf =>
    obtain ⟨used, d, hused, hchunks, rfl⟩ := h
    refine ⟨(b :: buf).take length, (b :: buf).drop length ++ d, _, rfl, ?_, ?_, ?_,
      used, d, hused, hchunks, rfl⟩
    · simp [hlength.ne']
    · rw [List.length_take]
      omega
    · rw [← List.append_assoc, List.take_append_drop]
  | nil =>
    simp only [Reader.read]
    split_ifs with hlarge
    · obtain ⟨bs, rest, c', hread, hne, hle, hsplit, hrest⟩ :=
        Bufio.read_aligned hdata h length hlength
      exact ⟨bs, rest, _, by rw [hread]; rfl, hne, hle, hsplit, hrest⟩
    · obtain ⟨bs, rest, c', hread, hne, hle, hsplit, used, d, hused, hchunks, hd⟩ :=
        Bufio.read_aligned hdata h defaultBufSize (by decide)
      rw [List.nil_append] at hd
      subst hd
      refine ⟨bs.take length, bs.drop length ++ d, ⟨bs.drop length, c'⟩,
        by rw [hread]; rfl, ?_, ?_, ?_,
        used, d, hused, hchunks, rfl⟩
      · simp [hne, hlength.ne']
      · rw [List.length_take]
        omega
      · rw [← List.append_assoc, List.take_append_drop]
        exact hsplit

theorem Reader.readLoop_aligned {fuel need : ℕ} (hfuel : need ≤ fuel) {r : Reader α}
    {front rest : List α} {later : List (List α)} (hfront : front.length = need)
    (h : Aligned r (front ++ rest) later) :
    ∃ r', r.readLoop fuel need = some (front, r') ∧ Aligned r' rest later := by
  induction fuel generalizing need r front with
  | zero =>
    obtain rfl : need = 0 := by omega
    obtain rfl := List.length_eq_zero_iff.mp hfront
    exact ⟨r, rfl, h⟩
  | succ fuel ih =>
    cases need with
    | zero =>
      obtain rfl := List.length_eq_zero_iff.mp hfront
      exact ⟨r, rfl, h⟩
    | succ need =>
      have hdata : front ++ rest ≠ [] := by
        rintro hnil
        rw [(List.append_eq_nil_iff.mp hnil).1] at hfront
        cases hfront
      obtain ⟨bs, tail, r₁, hread, hne, hle, hsplit, hrest⟩ :=
        r.read_aligned hdata h (need + 1) (by omega)
      have hpos : 0 < bs.length := List.length_pos_iff.mpr hne
      -- the piece that was read is the beginning of what is asked for
      obtain ⟨front', rfl⟩ : ∃ front', front = bs ++ front' := by
        have hprefix : bs <+: front :=
          List.prefix_of_prefix_length_le ⟨tail, hsplit.symm⟩ (List.prefix_append front rest)
            (by omega)
        obtain ⟨front', heq⟩ := hprefix
        exact ⟨front', heq.symm⟩
      rw [List.append_assoc] at hsplit
      rw [← List.append_cancel_left hsplit] at hrest
      rw [List.length_append] at hfront
      obtain ⟨r', hloop, hend⟩ : ∃ r', r₁.readLoop fuel (need + 1 - bs.length) =
          some (front', r') ∧ Aligned r' rest later := ih (by omega) (by omega) hrest
      refine ⟨r', ?_, hend⟩
      simp only [readLoop, hread, hloop, Option.map_some]

/-- `ReadFull` of a part of one write returns that part. -/
theorem Reader.readFull_aligned {r : Reader α} {front rest : List α} {later : List (List α)}
    (h : Aligned r (front ++ rest) later) :
    ∃ r', r.readFull front.length = some (front, r') ∧ Aligned r' rest later :=
  readLoop_aligned le_rfl rfl h

theorem aligned_newReader {c : Conn α} {used : List (List α)} (hused : ∀ x ∈ used, x = [])
    {data : List α} {later : List (List α)} (h : c.chunks = used ++ data :: later) :
    Aligned (newReader c) data later :=
  ⟨used, data, hused, h, rfl⟩

/-- When a write is read to its end the buffer is empty. -/
theorem Aligned.at_end {r : Reader α} {later : List (List α)} (h : Aligned r [] later) :
    ∃ used, (∀ x ∈ used, x = []) ∧ r.conn.chunks = used ++ later := by
  obtain ⟨used, c, hused, hchunks, hnil⟩ := h
  refine ⟨used ++ [c], fun x hx => ?_, by simpa using hchunks⟩
  obtain hx | hx := List.mem_append.mp hx
  · exact hused x hx
  · rw [List.mem_singleton.mp hx]
    exact (List.append_eq_nil_iff.mp hnil).2

end Alertmanager.Bufio
