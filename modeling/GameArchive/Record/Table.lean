import GameArchive.Record.Basic
/-! Tables: records of one layout that stand one after another behind their count. -/
namespace GameArchive

/-- The counts that stand in front of the records. -/
inductive Counting where
  /-- The number of records. -/
  | single
  /-- A capacity and the number of records, which have to agree. -/
  | double

/-- The number of bytes that the counts take. -/
def Counting.length : Counting → Nat
  | single => 4
  | double => 8

/-- A table of records inside `data`. -/
structure Table (l : Layout) where
  data : Bytes
  /-- Where the counts stand. -/
  offset : Nat
  /-- The number of bytes that the counts take. -/
  headerLength : Nat
  /-- The number of records. -/
  count : Nat
  fits : offset + headerLength + count * l.size ≤ data.size

namespace Table

variable {l : Layout}

/-- The table of `count` records behind `headerLength` bytes at `offset`. -/
def build (l : Layout) (data : Bytes) (offset headerLength count : Nat) :
    Except Error (Table l) :=
  if wordLimit ≤ count * l.size then
    .error (.outOfBounds (offset + headerLength) (wordLimit - 1) data.size)
  else if h : offset + headerLength + count * l.size ≤ data.size then
    .ok ⟨data, offset, headerLength, count, h⟩
  else .error (.outOfBounds (offset + headerLength) (count * l.size) data.size)

/-- The table of `count` records from `offset` on. -/
def ofCount (l : Layout) (data : Bytes) (offset count : Nat) : Except Error (Table l) :=
  build l data offset 0 count

/-- The number of records that the counts at `offset` state. -/
def readCount (l : Layout) (data : Bytes) (offset : Nat) : Counting → Except Error Nat
  | .single => data.word offset 4
  | .double => do
    let capacity ← data.word offset 4
    let count ← data.word (offset + 4) 4
    if capacity = count then .ok count
    else .error (.sizeMismatch (l.name ++ " table capacity") capacity count)

/-- The table whose counts stand at `offset`. -/
def parse (l : Layout) (data : Bytes) (offset : Nat) (counting : Counting) :
    Except Error (Table l) := do
  let count ← readCount l data offset counting
  build l data offset counting.length count

/-- Where the first record starts. -/
def entriesOffset (t : Table l) : Nat :=
  t.offset + t.headerLength

/-- Where the last record ends. -/
def endOffset (t : Table l) : Nat :=
  t.entriesOffset + t.count * l.size

/-- Where record `i` starts. -/
def recordOffset (t : Table l) (i : Nat) : Nat :=
  t.entriesOffset + i * l.size

theorem recordOffset_add_size_le (t : Table l) (i : Fin t.count) :
    t.recordOffset i + l.size ≤ t.data.size := by
  have hi : (i + 1) * l.size ≤ t.count * l.size := Nat.mul_le_mul_right _ i.isLt
  have hfits := t.fits
  rw [Nat.add_mul, Nat.one_mul] at hi
  unfold recordOffset entriesOffset
  omega

/-- Record `i`. -/
def record (t : Table l) (i : Fin t.count) : Record l where
  raw := t.data.extract (t.recordOffset i) (t.recordOffset i + l.size)
  size_raw := by
    have h := t.recordOffset_add_size_le i
    rw [Array.size_extract]
    omega

/-- Record `i`, if there is one. -/
def get (t : Table l) (i : Nat) : Except Error (Record l) :=
  if h : i < t.count then .ok (t.record ⟨i, h⟩) else .error (.outOfBounds i 1 t.count)

/-- All records in order. -/
def records (t : Table l) : List (Record l) :=
  List.ofFn t.record

end Table
end GameArchive
