import GameArchive.Codec.BackCopy
/-!
# Copies as lists

A copy is carried out byte by byte on the list of the bytes so far, each byte being read when its
turn comes, so a copy that is longer than what lies behind its source repeats that. Copies on
buffers do the same where they start inside the output and end at the limit or before, and are
refused as out of bounds everywhere else.
-/
namespace GameArchive

/-- Whether an operation is refused because a range does not lie below its limit. -/
def IsOutOfBounds {α : Type} (x : Except Error α) : Prop :=
  ∃ offset length limit, x = .error (.outOfBounds offset length limit)

theorem isOutOfBounds_map {α β : Type} {x : Except Error α} {g : α → β} (h : IsOutOfBounds x) :
    IsOutOfBounds (x.map g) := by
  obtain ⟨offset, length, limit, rfl⟩ := h
  exact ⟨offset, length, limit, rfl⟩

theorem isOutOfBounds_bind {α β : Type} {x : Except Error α} {g : α → Except Error β}
    (h : IsOutOfBounds x) : IsOutOfBounds (x.bind g) := by
  obtain ⟨offset, length, limit, rfl⟩ := h
  exact ⟨offset, length, limit, rfl⟩

namespace Codec

/-- `out` followed by `length` bytes. Each is read at its turn, the first at position `source` and
every other behind the one before it, so bytes just appended may be read again. -/
def copyEach (out : List UInt8) (source : Nat) : (length : Nat) → List UInt8
  | 0 => out
  | length + 1 => copyEach (out ++ [out.getD source 0]) (source + 1) length

@[simp]
theorem length_copyEach (out : List UInt8) (source length : Nat) :
    (copyEach out source length).length = out.length + length := by
  induction length generalizing out source with
  | zero => rfl
  | succ length ih =>
    rw [copyEach, ih, List.length_append, List.length_singleton]
    omega

theorem getElem?_copyEach_of_lt {out : List UInt8} {source length p : Nat} (h : p < out.length) :
    (copyEach out source length)[p]? = out[p]? := by
  induction length generalizing out source with
  | zero => rfl
  | succ length ih =>
    rw [copyEach, ih (by rw [List.length_append]; omega), List.getElem?_append_left h]

/-- Every byte copied is in the end the one that stands at its source. -/
theorem getElem?_copyEach_eq_source {out : List UInt8} {source length k : Nat}
    (hsource : source < out.length) (hk : k < length) :
    (copyEach out source length)[out.length + k]? = (copyEach out source length)[source + k]? := by
  induction length generalizing out source k with
  | zero => omega
  | succ length ih =>
    rw [copyEach]
    cases k with
    | zero =>
      rw [getElem?_copyEach_of_lt (by simp), getElem?_copyEach_of_lt (by simp; omega)]
      simp [List.getElem?_append_left, hsource]
    | succ k =>
      have hlonger : (out ++ [out.getD source 0]).length = out.length + 1 := List.length_append
      have hnext := ih (k := k) (hlonger.symm ▸ Nat.add_lt_add_right hsource 1) (by omega)
      rwa [hlonger, Nat.add_right_comm, Nat.add_right_comm source] at hnext

/-- The bytes from the source on are repeated, each time from the first one to the last. -/
theorem getElem?_copyEach {out : List UInt8} {source length k : Nat}
    (hsource : source < out.length) (hk : k < length) :
    (copyEach out source length)[out.length + k]? = out[source + k % (out.length - source)]? := by
  induction k using Nat.strongRecOn with
  | ind k ih =>
    rw [getElem?_copyEach_eq_source hsource hk]
    rcases Nat.lt_or_ge k (out.length - source) with hfirst | hlater
    · rw [Nat.mod_eq_of_lt hfirst, getElem?_copyEach_of_lt (by omega)]
    · -- The source is a byte that was itself copied, as many steps ago as there are bytes to repeat.
      have hback : source + k = out.length + (k - (out.length - source)) := by omega
      rw [Nat.mod_eq_sub_mod hlater, hback]
      exact ih _ (by omega) (by omega)

theorem copyOnto_eq_copyEach (out : Bytes) (source length : Nat) :
    copyOnto out source length = (copyEach out.toList source length).toArray := by
  induction length generalizing out source with
  | zero => rw [copyOnto, copyEach, Array.toArray_toList]
  | succ length ih =>
    have hbyte : out.toList.getD source 0 = out.getD source 0 := by
      rw [List.getD_eq_getElem?_getD, Array.getElem?_toList, Array.getD_eq_getD_getElem?]
    rw [copyOnto, copyEach, ih, Array.toList_push, hbyte]

variable {limit source distance length : Nat} {out : Bytes}

/-- A copy of at least one byte has to start inside the output and to end at the limit. -/
theorem copyFrom_eq_copyEach (h : 0 < length → source < out.size ∧ out.size + length ≤ limit) :
    copyFrom limit out source length = .ok (copyEach out.toList source length).toArray := by
  unfold copyFrom
  split
  case isTrue hzero => rw [hzero, copyEach, Array.toArray_toList]
  case isFalse hpos =>
    obtain ⟨hsource, hlimit⟩ := h (Nat.pos_of_ne_zero hpos)
    rw [if_neg (by omega), if_neg (by omega), copyOnto_eq_copyEach]

theorem isOutOfBounds_copyFrom (h : ¬ (0 < length → source < out.size ∧ out.size + length ≤ limit)) :
    IsOutOfBounds (copyFrom limit out source length) := by
  unfold copyFrom
  split
  case isTrue hzero => exact absurd (fun hpos => absurd hzero (Nat.ne_of_gt hpos)) h
  case isFalse hpos =>
    split
    case isTrue => exact ⟨_, _, _, rfl⟩
    case isFalse hsource =>
      split
      case isTrue => exact ⟨_, _, _, rfl⟩
      case isFalse hlimit => exact absurd (fun _ => ⟨by omega, by omega⟩) h

/-- Whether `length` bytes can be copied from `distance` bytes before the end of an output of
`size` bytes: that is not before its start, and if there is a byte to copy, it is before the end
and the copy ends at `limit` or before. -/
def ReachesBack (limit size distance length : Nat) : Prop :=
  distance ≤ size ∧ (0 < length → 0 < distance ∧ size + length ≤ limit)

instance (limit size distance length : Nat) : Decidable (ReachesBack limit size distance length) :=
  inferInstanceAs (Decidable (_ ∧ (_ → _)))

theorem copyBack_eq_copyEach (h : ReachesBack limit out.size distance length) :
    copyBack limit out distance length =
      .ok (copyEach out.toList (out.size - distance) length).toArray := by
  obtain ⟨hdistance, hcopy⟩ := h
  rw [copyBack, if_neg (by omega), copyFrom_eq_copyEach]
  intro hpos
  obtain ⟨hback, hlimit⟩ := hcopy hpos
  exact ⟨by omega, hlimit⟩

theorem isOutOfBounds_copyBack (h : ¬ ReachesBack limit out.size distance length) :
    IsOutOfBounds (copyBack limit out distance length) := by
  unfold copyBack
  split
  case isTrue => exact ⟨_, _, _, rfl⟩
  case isFalse hdistance =>
    apply isOutOfBounds_copyFrom
    intro hcopy
    refine h ⟨by omega, fun hpos => ?_⟩
    obtain ⟨hsource, hlimit⟩ := hcopy hpos
    exact ⟨by omega, hlimit⟩

end Codec
end GameArchive
