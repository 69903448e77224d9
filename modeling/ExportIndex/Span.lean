/-!
Stretches of a source file, from `start` up to but not including `stop`. A span
whose end lies before its start is empty.
-/
namespace ExportIndex

structure Span where
  start : UInt32
  stop : UInt32
  deriving DecidableEq

namespace Span

instance : Inhabited Span := ⟨⟨0, 0⟩⟩

def length (s : Span) : UInt32 := if s.start ≤ s.stop then s.stop - s.start else 0

def isEmpty (s : Span) : Bool := s.length = 0

def contains (s : Span) (offset : UInt32) : Bool := s.start ≤ offset && offset < s.stop

def cover (s t : Span) : Span := ⟨min s.start t.start, max s.stop t.stop⟩

def order (s t : Span) : Ordering := (compare s.start t.start).then (compare s.stop t.stop)

theorem contains_iff (s : Span) (offset : UInt32) :
    s.contains offset = true ↔ s.start ≤ offset ∧ offset < s.stop := by
  simp [contains]

theorem toNat_length (s : Span) : s.length.toNat = s.stop.toNat - s.start.toNat := by
  unfold length
  split
  · rename_i le
    exact UInt32.toNat_sub_of_le _ _ le
  · rename_i gt
    have below : s.stop.toNat < s.start.toNat := by
      simpa [UInt32.le_iff_toNat_le] using gt
    simp only [UInt32.toNat_zero]
    omega

end Span

end ExportIndex
