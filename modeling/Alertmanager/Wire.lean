import Alertmanager.GoTime

/-!
# Messages on the wire

What the silences and the notification log take from protobuf and the gossip layer:
a marshaller rejects strings that are not valid UTF-8, a delimited message is
preceded by its length, a reader of delimited messages rejects large ones, and a
message above half a packet is not gossiped again.
-/
namespace Alertmanager

namespace Utf8

/-- A continuation byte. -/
def isCont (b : UInt8) : Bool := 0x80 ≤ b && b ≤ 0xBF

/-- The range of the second byte of a three-byte sequence. -/
def second3 (b0 b1 : UInt8) : Bool :=
  (if b0 = 0xE0 then 0xA0 ≤ b1 else 0x80 ≤ b1) && (if b0 = 0xED then b1 ≤ 0x9F else b1 ≤ 0xBF)

/-- The range of the second byte of a four-byte sequence. -/
def second4 (b0 b1 : UInt8) : Bool :=
  (if b0 = 0xF0 then 0x90 ≤ b1 else 0x80 ≤ b1) && (if b0 = 0xF4 then b1 ≤ 0x8F else b1 ≤ 0xBF)

/-- `utf8.ValidString`. -/
def validString : GoString → Bool
  | [] => true
  | b0 :: s1 =>
    if b0 < 0x80 then validString s1
    else match s1 with
      | [] => false
      | b1 :: s2 =>
        if 0xC2 ≤ b0 ∧ b0 ≤ 0xDF then isCont b1 && validString s2
        else match s2 with
          | [] => false
          | b2 :: s3 =>
            if 0xE0 ≤ b0 ∧ b0 ≤ 0xEF then second3 b0 b1 && isCont b2 && validString s3
            else match s3 with
              | [] => false
              | b3 :: s4 =>
                if 0xF0 ≤ b0 ∧ b0 ≤ 0xF4 then
                  second4 b0 b1 && isCont b2 && isCont b3 && validString s4
                else false

end Utf8

/-- The size up to which a message is read back, 4 MiB. -/
def maxMessageSize : ℕ := 4194304

/-- The number of bytes of a varint. -/
def varintLength (n : ℕ) : ℕ := Nat.log 128 n + 1

/-- The test of `cluster.OversizedMessage` on the length of a message. -/
def oversized (length : ℕ) : Bool := 1400 / 2 < length

end Alertmanager
