/-!
# Words, buffers and streams of bytes

Sizes, indices and offsets are numbers below `wordLimit`, and a buffer has fewer bytes than
`bufferLimit`. Operations refuse arguments outright when a position leaves the visible bytes or the
word, and when a buffer would be too long; a refused operation changes nothing. Only a first part of
a buffer's bytes is visible, which can shrink and grow again without touching them. A stream of
bytes is made by the SplitMix64 mixer: its word number `i` is the mixed value of `seed + i`, modulo
2^64, written least significant byte first.
-/

namespace BlockTree

def wordLimit : Nat := 0x10000000000000000

/-- A buffer has fewer bytes than this. -/
def bufferLimit : Nat := 0x8000000000000000

inductive Fault
  | outOfView
  | overflow
  | zeroDivisor
  | noPosition
  | tooLong
  deriving DecidableEq, Repr

def wordBytes (w : UInt64) : List UInt8 :=
  (List.range 8).map fun i => (w >>> UInt64.ofNat (8 * i)).toUInt8

theorem length_wordBytes (w : UInt64) : (wordBytes w).length = 8 := rfl

theorem size_wordBytes (w : UInt64) : (wordBytes w).toByteArray.size = 8 := by
  rw [List.size_toByteArray, length_wordBytes]

-- ---------------------------------------------------------------------------
-- Buffers of which a part is seen
-- ---------------------------------------------------------------------------

structure Buffer where
  bytes : ByteArray
  visible : Nat
  visible_le : visible ≤ bytes.size

namespace Buffer

def ofBytes (bytes : ByteArray) : Buffer :=
  ⟨bytes, bytes.size, Nat.le_refl _⟩

def resize (b : Buffer) (length : Nat) : Buffer :=
  ⟨b.bytes, min length b.bytes.size, Nat.min_le_right _ _⟩

def view (b : Buffer) : ByteArray :=
  b.bytes.extract 0 b.visible

@[simp] theorem size_view (b : Buffer) : b.view.size = b.visible := by
  have := b.visible_le
  simp [view]
  omega

@[simp] theorem view_ofBytes (bytes : ByteArray) : (ofBytes bytes).view = bytes := by
  simp [view, ofBytes]

theorem extract_view (b : Buffer) (start stop : Nat) (hstop : stop ≤ b.visible) :
    b.view.extract start stop = b.bytes.extract start stop := by
  simp only [view, ByteArray.extract_extract, Nat.zero_add, Nat.min_eq_left hstop]

def slice (b : Buffer) (start stop : Nat) : Except Fault ByteArray :=
  if stop ≤ b.visible then .ok (b.bytes.extract start stop) else .error .outOfView

theorem slice_eq_ok (b : Buffer) (start stop : Nat) (hstop : stop ≤ b.visible) :
    b.slice start stop = .ok (b.view.extract start stop) := by
  rw [slice, if_pos hstop, extract_view b start stop hstop]

def splice (b : Buffer) (start : Nat) (data : ByteArray) (h : start + data.size ≤ b.bytes.size) :
    Buffer where
  bytes := data.copySlice 0 b.bytes start data.size
  visible := b.visible
  visible_le := by
    have := b.visible_le
    simp [ByteArray.copySlice_eq_append]
    omega

@[simp] theorem size_splice (b : Buffer) (start : Nat) (data : ByteArray)
    (h : start + data.size ≤ b.bytes.size) :
    (b.splice start data h).bytes.size = b.bytes.size := by
  simp [splice, ByteArray.copySlice_eq_append]
  omega

end Buffer

-- ---------------------------------------------------------------------------
-- A reproducible byte stream
-- ---------------------------------------------------------------------------

namespace SplitMix

def mix (x : UInt64) : UInt64 :=
  let z := x + 0x9e3779b97f4a7c15
  let z := (z ^^^ (z >>> 30)) * 0xbf58476d1ce4e5b9
  let z := (z ^^^ (z >>> 27)) * 0x94d049bb133111eb
  z ^^^ (z >>> 31)

def word (seed : UInt64) (index : Nat) : UInt64 :=
  mix (seed + UInt64.ofNat index)

def byteAt (seed : UInt64) (position : Nat) : UInt8 :=
  (word seed (position / 8) >>> UInt64.ofNat (8 * (position % 8))).toUInt8

def fillFrom (seed : UInt64) (buffer : ByteArray) (index : Nat) : ByteArray :=
  if 8 * index < buffer.size then
    let bytes := (wordBytes (word seed index)).toByteArray
    let length := min 8 (buffer.size - 8 * index)
    fillFrom seed (bytes.copySlice 0 buffer (8 * index) length) (index + 1)
  else buffer
termination_by buffer.size - 8 * index
decreasing_by
  have := size_wordBytes (word seed index)
  simp only [ByteArray.copySlice_eq_append, ByteArray.size_append, ByteArray.size_extract,
    ByteArray.size_data]
  omega

def fill (buffer : ByteArray) (seed : UInt64) : ByteArray :=
  fillFrom seed buffer 0

end SplitMix

end BlockTree
