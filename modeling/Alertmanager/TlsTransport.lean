import Alertmanager.Bufio
import Alertmanager.GoTime

/-!
# The TLS gossip transport

`cluster/tls_connection.go` and the loop of `cluster/tls_transport.go` that reads from an
accepted connection. A message is a length prefix and a protobuf envelope, and both go out
in one write. The reader makes a new buffered reader for every message. A byte of a later
message in its buffer would be lost; since a read returns bytes of one write only, there
is none.
-/
namespace Alertmanager.TlsTransport
open Bufio

/-- `MemberlistMessage_Kind`, with the values an open enumeration lets through. -/
inductive Kind
  | stream
  | packet
  | unknown (code : ℤ)
  deriving DecidableEq, Repr

structure MemberlistMessage where
  version : GoString
  kind : Kind
  fromAddr : GoString
  msg : List UInt8
  deriving DecidableEq, Repr

/-- `proto.Marshal` and `proto.Unmarshal` of the envelope, and `net.ResolveTCPAddr`. -/
class Envelope where
  marshal : MemberlistMessage → List UInt8
  unmarshal : List UInt8 → Option MemberlistMessage
  resolve : GoString → Option GoString

def version : GoString := str "v0.1.0"

/-- `binary.LittleEndian.PutUint32` of a length, which is first converted to 32 bits. -/
def putUint32 (n : ℕ) : List UInt8 :=
  [UInt8.ofNat n, UInt8.ofNat (n / 256), UInt8.ofNat (n / 65536), UInt8.ofNat (n / 16777216)]

/-- `binary.LittleEndian.Uint32`. -/
def uint32 (bs : List UInt8) : ℕ := bs.foldr (fun b n => b.toNat + 256 * n) 0

theorem uint32_putUint32 {n : ℕ} (h : n < 2 ^ 32) : uint32 (putUint32 n) = n := by
  simp only [uint32, putUint32, List.foldr_cons, List.foldr_nil, UInt8.toNat_ofNat']
  omega

/-- What is written for an envelope: its length and the envelope itself. -/
def prefixed (msg : List UInt8) : List UInt8 := putUint32 msg.length ++ msg

structure Packet where
  buf : List UInt8
  sender : GoString
  deriving DecidableEq, Repr

/-- The errors of `read`, in the order of its steps. -/
inductive ReadError
  | length
  | message
  | parse
  | version
  | kind
  | sender
  deriving DecidableEq, Repr

/-- How the loop of `handle` ends. -/
inductive Outcome
  | failed (err : ReadError)
  | stream (conn : Conn UInt8)

section
variable [Envelope]

def packetMessage (fromAddr : GoString) (b : List UInt8) : MemberlistMessage :=
  ⟨version, .packet, fromAddr, b⟩

def streamMessage : MemberlistMessage := ⟨version, .stream, [], []⟩

/-- The bytes of the one write of `writePacket`. -/
def writePacket (fromAddr : GoString) (b : List UInt8) : List UInt8 :=
  prefixed (Envelope.marshal (packetMessage fromAddr b))

/-- The bytes of the one write of `writeStream`. -/
def writeStream : List UInt8 := prefixed (Envelope.marshal streamMessage)

/-- `toPacket`. -/
def toPacket (pb : MemberlistMessage) : Except ReadError Packet :=
  match Envelope.resolve pb.fromAddr with
  | none => .error .sender
  | some addr => .ok ⟨pb.msg, addr⟩

/-- What `read` makes of the bytes of an envelope: no packet for a stream. -/
def parse (msgBuf : List UInt8) : Except ReadError (Option Packet) :=
  match Envelope.unmarshal msgBuf with
  | none => .error .parse
  | some pb =>
    if pb.version ≠ version then .error .version
    else match pb.kind with
      | .stream => .ok none
      | .packet =>
        match toPacket pb with
        | .error err => .error err
        | .ok packet => .ok (some packet)
      | .unknown _ => .error .kind

/-- `read`: the packet, if it is one, and the connection as it is left. -/
def read (conn : Conn UInt8) : Except ReadError (Option Packet × Conn UInt8) :=
  match (newReader conn).readFull 4 with
  | none => .error .length
  | some (lenBuf, reader) =>
    match reader.readFull (uint32 lenBuf) with
    | none => .error .message
    | some (msgBuf, reader) =>
      match parse msgBuf with
      | .error err => .error err
      | .ok packet => .ok (packet, reader.conn)

/-- The loop of `handle`, for at most `fuel` messages: the packets it delivers, and how it
ends. -/
def handle : ℕ → Conn UInt8 → List Packet × Option Outcome
  | 0, _ => ([], none)
  | fuel + 1, conn =>
    match read conn with
    | .error err => ([], some (.failed err))
    | .ok (none, conn) => ([], some (.stream conn))
    | .ok (some packet, conn) =>
      let r := handle fuel conn
      (packet :: r.1, r.2)

/-! ### One message -/

/-- A message that was written in one piece is read as one piece, and the connection is
left behind it. -/
theorem read_prefixed {conn : Conn UInt8} {used later : List (List UInt8)}
    (hused : ∀ x ∈ used, x = []) {msg : List UInt8} (hmsg : msg.length < 2 ^ 32)
    (hconn : conn.chunks = used ++ prefixed msg :: later) {packet : Option Packet}
    (hparse : parse msg = .ok packet) :
    ∃ conn' used', read conn = .ok (packet, conn') ∧ (∀ x ∈ used', x = []) ∧
      conn'.chunks = used' ++ later := by
  have hstart := aligned_newReader hused hconn
  obtain ⟨r₁, hlen, hbody⟩ := Reader.readFull_aligned hstart
  rw [← List.append_nil msg] at hbody
  obtain ⟨r₂, hread, hend⟩ := Reader.readFull_aligned hbody
  obtain ⟨used', hused', hchunks⟩ := hend.at_end
  refine ⟨r₂.conn, used', ?_, hused', hchunks⟩
  change (newReader conn).readFull 4 = _ at hlen
  simp only [read, hlen, uint32_putUint32 hmsg, hread, hparse]

/-- A connection without unread bytes ends the loop. -/
theorem read_at_end {conn : Conn UInt8} (h : ∀ x ∈ conn.chunks, x = []) :
    read conn = .error .length := by
  have hchunk : ∀ k, readChunk k conn.chunks = none := by
    intro k
    rw [← List.append_nil conn.chunks, readChunk_skip h]
    rfl
  have hread : (newReader conn).readFull 4 = none := by
    simp [newReader, Reader.readFull, Reader.readLoop, Reader.read, Conn.read, hchunk,
      defaultBufSize]
  simp only [read, hread]

/-! ### A whole connection -/

/-- A packet to be written: the address of the sender and the payload. -/
abbrev Sent := GoString × List UInt8

/-- The writes for a sequence of packets. -/
def writes (packets : List Sent) : List (List UInt8) :=
  packets.map fun p => writePacket p.1 p.2

/-- The envelope of a packet fits the length prefix, survives the encoding, and the address
of its sender resolves. -/
structure Sendable (p : Sent) : Prop where
  fits : (Envelope.marshal (packetMessage p.1 p.2)).length < 2 ^ 32
  lossless : Envelope.unmarshal (Envelope.marshal (packetMessage p.1 p.2)) =
    some (packetMessage p.1 p.2)
  resolves : (Envelope.resolve p.1).isSome = true

theorem Sendable.parse {p : Sent} (h : Sendable p) :
    ∃ addr, Envelope.resolve p.1 = some addr ∧
      parse (Envelope.marshal (packetMessage p.1 p.2)) = .ok (some ⟨p.2, addr⟩) := by
  obtain ⟨addr, haddr⟩ := Option.isSome_iff_exists.mp h.resolves
  refine ⟨addr, haddr, ?_⟩
  simp only [TlsTransport.parse, h.lossless]
  simp [packetMessage, toPacket, haddr]

/-- The loop delivers the packets that come first, and goes on behind them. -/
theorem handle_packets {packets : List Sent} (hsend : ∀ p ∈ packets, Sendable p)
    (fuel : ℕ) (conn : Conn UInt8) (used later : List (List UInt8))
    (hused : ∀ x ∈ used, x = [])
    (hconn : conn.chunks = used ++ writes packets ++ later) :
    ∃ conn' used' delivered, delivered.map Packet.buf = packets.map Prod.snd ∧
      (∀ x ∈ used', x = []) ∧ conn'.chunks = used' ++ later ∧
      handle (packets.length + fuel) conn =
        (delivered ++ (handle fuel conn').1, (handle fuel conn').2) := by
  induction packets generalizing conn used with
  | nil => exact ⟨conn, used, [], rfl, hused, by simpa [writes] using hconn, by simp⟩
  | cons p packets ih =>
    have hp := hsend p List.mem_cons_self
    obtain ⟨addr, -, hparse⟩ := hp.parse
    rw [writes, List.map_cons, List.append_assoc, List.cons_append] at hconn
    obtain ⟨conn₁, used₁, hread, hused₁, hconn₁⟩ := read_prefixed hused hp.fits hconn hparse
    rw [← List.append_assoc] at hconn₁
    obtain ⟨conn', used', delivered, hbufs, hused', hconn', hhandle⟩ :=
      ih (fun q hq => hsend q (List.mem_cons_of_mem p hq)) conn₁ used₁ hused₁ hconn₁
    refine ⟨conn', used', ⟨p.2, addr⟩ :: delivered, by simp [hbufs], hused', hconn', ?_⟩
    have hfuel : (p :: packets).length + fuel = packets.length + fuel + 1 := by
      rw [List.length_cons]
      omega
    rw [hfuel]
    simp only [handle, hread, hhandle, List.cons_append]

/-- The transport preserves messages. However the connection cuts the writes into reads,
the loop delivers exactly the written payloads in order, and stops at the end of the data;
if the packets are followed by a stream, it hands over the connection with exactly the
bytes of the stream unread. Sizes are those of the envelopes, which the prefix counts. -/
theorem handle_preserves_messages {packets : List Sent} (hsend : ∀ p ∈ packets, Sendable p)
    (cuts : ℕ → ℕ) (reads fuel : ℕ) (hfuel : packets.length < fuel) :
    (handle fuel ⟨writes packets, cuts, reads⟩).1.map Packet.buf = packets.map Prod.snd ∧
    (handle fuel ⟨writes packets, cuts, reads⟩).2 = some (.failed .length) ∧
    ((Envelope.marshal streamMessage).length < 2 ^ 32 →
      Envelope.unmarshal (Envelope.marshal streamMessage) = some streamMessage →
      ∀ stream : List (List UInt8),
        (handle fuel ⟨writes packets ++ writeStream :: stream, cuts, reads⟩).1.map Packet.buf =
          packets.map Prod.snd ∧
        ∃ conn, (handle fuel ⟨writes packets ++ writeStream :: stream, cuts, reads⟩).2 =
          some (.stream conn) ∧ conn.unread = stream.flatten) := by
  obtain ⟨rest, rfl⟩ : ∃ rest, fuel = packets.length + (rest + 1) :=
    ⟨fuel - packets.length - 1, by omega⟩
  rw [← and_assoc]
  constructor
  · obtain ⟨conn, used, delivered, hbufs, hused, hconn, hhandle⟩ :=
      handle_packets hsend (rest + 1) ⟨writes packets, cuts, reads⟩ [] [] (by simp) (by simp)
    have hend : handle (rest + 1) conn = ([], some (.failed .length)) := by
      rw [List.append_nil] at hconn
      simp only [handle, read_at_end (hconn ▸ hused)]
    simp only [hhandle, hend, List.append_nil]
    exact ⟨hbufs, trivial⟩
  · intro hfits hlossless stream
    obtain ⟨conn, used, delivered, hbufs, hused, hconn, hhandle⟩ :=
      handle_packets hsend (rest + 1) ⟨writes packets ++ writeStream :: stream, cuts, reads⟩ []
        (writeStream :: stream) (by simp) (by simp)
    have hparse : parse (Envelope.marshal streamMessage) = .ok none := by
      simp only [parse, hlossless]
      simp [streamMessage]
    obtain ⟨conn', used', hread, hused', hconn'⟩ := read_prefixed hused hfits hconn hparse
    have hend : handle (rest + 1) conn = ([], some (.stream conn')) := by
      simp only [handle, hread]
    have hunread : conn'.unread = stream.flatten := by
      rw [Conn.unread, hconn', List.flatten_append, List.flatten_eq_nil_iff.mpr hused',
        List.nil_append]
    simp only [hhandle, hend, List.append_nil]
    exact ⟨hbufs, conn', rfl, hunread⟩

end

section

/-- An envelope with the kind and the length of the address in one byte each. -/
local instance shortEnvelope : Envelope where
  marshal m := (if m.kind = .packet then 1 else 0) :: UInt8.ofNat m.fromAddr.length ::
    (m.fromAddr ++ m.msg)
  unmarshal
    | k :: n :: rest =>
      some ⟨version, if k = 1 then .packet else .stream, rest.take n.toNat, rest.drop n.toNat⟩
    | _ => none
  resolve a := if a = [] then none else some a

/-- Two packets and a stream, cut into reads of one byte. -/
theorem handle_preserves_two_packets :
    let packets : List Sent := [(str "a", [7, 8, 9]), (str "b", [])]
    ∃ conn, handle 3 ⟨writes packets ++ writeStream :: [[5], [6, 7]], fun _ => 0, 0⟩ =
        ([⟨[7, 8, 9], str "a"⟩, ⟨[], str "b"⟩], some (.stream conn)) ∧ conn.unread = [5, 6, 7] := by
  intro packets
  have hsend : ∀ p ∈ packets, Sendable p := by
    intro p hp
    obtain rfl | rfl : p = (str "a", [7, 8, 9]) ∨ p = (str "b", []) := by simpa [packets] using hp
    · exact ⟨by decide, rfl, rfl⟩
    · exact ⟨by decide, rfl, rfl⟩
  obtain ⟨-, -, hstream⟩ := handle_preserves_messages hsend (fun _ => 0) 0 3 (by decide)
  obtain ⟨-, conn, hconn, hunread⟩ := hstream (by decide) rfl [[5], [6, 7]]
  have hpackets : (handle 3 ⟨writes packets ++ writeStream :: [[5], [6, 7]], fun _ => 0, 0⟩).1 =
      [⟨[7, 8, 9], str "a"⟩, ⟨[], str "b"⟩] := by
    decide +kernel
  exact ⟨conn, Prod.ext hpackets hconn, hunread⟩

end

end Alertmanager.TlsTransport
