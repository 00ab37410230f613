import Mathlib.Tactic

/-!
# Instants, strings and protobuf timestamps

An instant is an integer: it counts nanoseconds from the zero value of
`time.Time`, so that `IsZero` is a comparison with 0, and `Before` and `After`
are the order of the integers. A duration is an integer as well. A Go string is
its byte sequence: it need not be valid UTF-8.
-/
namespace Alertmanager

instance linearOrderUInt8 : LinearOrder UInt8 where
  le_refl := UInt8.le_refl
  le_trans _ _ _ := UInt8.le_trans
  le_antisymm _ _ := UInt8.le_antisymm
  le_total := UInt8.le_total
  lt_iff_le_not_ge a b := by
    rw [UInt8.not_le]
    exact ⟨fun h => ⟨UInt8.le_of_lt h, h⟩, fun h => h.2⟩
  toDecidableLE := inferInstance

/-- Strings compare bytewise, as lists in lexicographic order. -/
abbrev GoString := List UInt8

instance lawfulBEqGoString : LawfulBEq GoString := inferInstance

/-- The bytes of a string constant of the source. -/
def str (s : String) : GoString := s.toList.flatMap String.utf8EncodeChar

/-- `time.Unix(0, 0)`, counted from the zero time. -/
def unixEpoch : ℤ := 62135596800 * 1000000000

/-- `(*timestamppb.Timestamp).AsTime`: a nil timestamp reads as the Unix epoch. -/
def asTime (ts : Option ℤ) : ℤ := ts.getD unixEpoch

@[simp] theorem asTime_some (t : ℤ) : asTime (some t) = t := rfl

end Alertmanager
