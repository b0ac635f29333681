import Mathlib.Data.List.FinRange
import GameArchive.Record.Table
import GameArchive.Proofs.Words.Arithmetic
/-!
# Tables on words

A table starts anywhere, at the last position of a word as well, and states as many records as a
word can. What is read before a sum is taken bounds its terms: counts that stand in the buffer end
inside it, and so do the records of a table.
-/
namespace GameArchive

namespace Table

variable {l : Layout} {data : Bytes} {offset count : Nat} {counting : Counting}

/-- `readCount` on words. -/
def readCountOnWords (l : Layout) (data : Bytes) (offset : Nat) : Counting → OnWords Nat
  | .single => data.word offset 4
  | .double => do
    let capacity ← data.word offset 4
    let ⟨next, _⟩ ← Word.add offset 4
    let count ← data.word next 4
    if capacity = count then pure count
    else throw (.sizeMismatch (l.name ++ " table capacity") capacity count)

/-- `build` on words. -/
def buildOnWords (l : Layout) (data : Bytes) (offset headerLength count : Nat) :
    OnWords (Table l) := do
  let ⟨start, hstart⟩ ← Word.add offset headerLength
  if wordLimit ≤ count * l.size then throw (.outOfBounds start (wordLimit - 1) data.size)
  else if h : start + count * l.size ≤ data.size then
    pure ⟨data, offset, headerLength, count, hstart ▸ h⟩
  else throw (.outOfBounds start (count * l.size) data.size)

/-- `ofCount` on words. -/
def ofCountOnWords (l : Layout) (data : Bytes) (offset count : Nat) : OnWords (Table l) :=
  buildOnWords l data offset 0 count

/-- `parse` on words. -/
def parseOnWords (l : Layout) (data : Bytes) (offset : Nat) (counting : Counting) :
    OnWords (Table l) := do
  let count ← readCountOnWords l data offset counting
  buildOnWords l data offset counting.length count

/-- `endOffset` on words. -/
def endOffsetOnWords (t : Table l) : OnWords Nat := do
  let ⟨start, _⟩ ← Word.add t.offset t.headerLength
  let ⟨length, _⟩ ← Word.mul t.count l.size
  let ⟨stop, _⟩ ← Word.add start length
  pure stop

/-- `get` on words. -/
def getOnWords (t : Table l) (i : Nat) : OnWords (Record l) := do
  if t.count ≤ i then throw (.outOfBounds i 1 t.count)
  else
    let ⟨start, _⟩ ← Word.add t.offset t.headerLength
    let ⟨distance, _⟩ ← Word.mul i l.size
    let ⟨position, _⟩ ← Word.add start distance
    let raw ← t.data.slice position l.size
    Record.ofBytes l raw

/-- `records` on words. -/
def recordsOnWords (t : Table l) : OnWords (List (Record l)) :=
  (List.finRange t.count).mapM fun i : Fin t.count => t.getOnWords i

theorem readCount_fits (h : readCount l data offset counting = .ok count) :
    offset + counting.length ≤ data.size ∧ count < 0x100000000 := by
  cases counting with
  | single => exact ⟨Bytes.fits_of_word h, Bytes.lt_of_word h⟩
  | double =>
    obtain ⟨capacity, hcapacity, h⟩ := bind_eq_ok.mp h
    obtain ⟨found, hfound, h⟩ := bind_eq_ok.mp h
    split at h
    case isTrue =>
      cases h
      exact ⟨Nat.add_assoc offset 4 4 ▸ Bytes.fits_of_word hfound, Bytes.lt_of_word hfound⟩
    case isFalse => cases h

theorem data_and_count_of_parse {t : Table l} (h : parse l data offset counting = .ok t) :
    t.data = data ∧ t.count < 0x100000000 := by
  obtain ⟨count, hcount, h⟩ := bind_eq_ok.mp h
  unfold build at h
  split at h
  case isTrue => cases h
  case isFalse =>
    split at h
    case isTrue =>
      cases h
      exact ⟨rfl, (readCount_fits hcount).2⟩
    case isFalse => cases h

theorem run_readCountOnWords (hdata : data.size < 0x4000000000000000) :
    (readCountOnWords l data offset counting).run = some (readCount l data offset counting) := by
  cases counting with
  | single => rfl
  | double =>
    refine OnWords.run_bind rfl fun capacity hcapacity => ?_
    have hfits := Bytes.fits_of_word hcapacity
    refine Word.run_add (by omega) (OnWords.run_bind rfl fun count _ => ?_)
    exact OnWords.run_ite (fun _ => rfl) fun _ => rfl

theorem run_buildOnWords {headerLength : Nat} (h : offset + headerLength < 0x10000000000000000) :
    (buildOnWords l data offset headerLength count).run =
      some (build l data offset headerLength count) := by
  refine Word.run_add h (OnWords.run_ite (fun _ => rfl) fun _ => ?_)
  split <;> rfl

theorem run_ofCountOnWords (h : offset < 0x10000000000000000) :
    (ofCountOnWords l data offset count).run = some (ofCount l data offset count) :=
  run_buildOnWords h

theorem run_parseOnWords (hdata : data.size < 0x4000000000000000) :
    (parseOnWords l data offset counting).run = some (parse l data offset counting) := by
  refine OnWords.run_bind (run_readCountOnWords hdata) fun count hcount => ?_
  have hfits := (readCount_fits hcount).1
  exact run_buildOnWords (by omega)

theorem run_endOffsetOnWords (t : Table l) (hdata : t.data.size < 0x4000000000000000) :
    t.endOffsetOnWords.run = some (.ok t.endOffset) := by
  have hfits := t.fits
  exact Word.run_add (by omega) (Word.run_mul (by omega) (Word.run_add (by omega) rfl))

theorem run_getOnWords (t : Table l) (hdata : t.data.size < 0x4000000000000000) (i : Nat) :
    (t.getOnWords i).run = some (t.get i) := by
  unfold getOnWords get
  split
  case isTrue h => rw [dif_neg (Nat.not_lt.mpr h), OnWords.run_throw]
  case isFalse h =>
    have hi : i < t.count := Nat.lt_of_not_le h
    have hfits : t.offset + t.headerLength + i * l.size + l.size ≤ t.data.size :=
      t.recordOffset_add_size_le ⟨i, hi⟩
    rw [dif_pos hi]
    refine Word.run_add (by omega) (Word.run_mul (by omega) (Word.run_add (by omega) ?_))
    refine OnWords.run_bind_ok (congrArg some (Bytes.slice_of_le hfits)) ?_
    exact congrArg some (dif_pos (t.record ⟨i, hi⟩).size_raw)

theorem run_recordsOnWords (t : Table l) (hdata : t.data.size < 0x4000000000000000) :
    t.recordsOnWords.run = some (.ok t.records) := by
  rw [records, List.ofFn_eq_map]
  refine OnWords.run_mapM _ fun i _ => ?_
  rw [run_getOnWords t hdata, get, dif_pos i.isLt]

end Table
end GameArchive
