import GameArchive.Record.Table
import GameArchive.Archive.Flat.Directory
import GameArchive.Proofs.Bytes
/-!
# Numbers put into records

Fields that lie apart do not see each other's writes. A record into which numbers are put one
after another, in fields apart from each other, holds each of them, and is the same everywhere
else.
-/
namespace GameArchive

/-- Whether two fields have no byte in common. -/
def Field.Apart (f g : Field) : Prop :=
  f.endOffset ≤ g.offset ∨ g.endOffset ≤ f.offset

instance (f g : Field) : Decidable (f.Apart g) :=
  inferInstanceAs (Decidable (_ ∨ _))

/-- Whether byte `k` of a record belongs to a field. -/
def Field.Has (f : Field) (k : Nat) : Prop :=
  f.offset ≤ k ∧ k < f.endOffset

instance (f : Field) (k : Nat) : Decidable (f.Has k) :=
  inferInstanceAs (Decidable (_ ∧ _))

namespace Record

variable {l : Layout}

theorem ext {r r' : Record l} (h : r.raw = r'.raw) : r = r' := by
  cases r
  cases r'
  cases h
  rfl

theorem getElem?_put_of_not_has {r : Record l} {f : Field} {bytes : List UInt8} {k : Nat}
    (hlen : bytes.length = f.kind.width) (hk : ¬ f.Has k) :
    (r.put f bytes).raw[k]? = r.raw[k]? := by
  apply Bytes.getElem?_overwrite_of_not_covers (f.offset, bytes.toArray)
  unfold Bytes.Covers
  unfold Field.Has Field.endOffset at hk
  simpa [hlen] using hk

theorem contents_congr {r r' : Record l} {f : Field}
    (h : ∀ k, f.Has k → r'.raw[k]? = r.raw[k]?) : r'.contents f = r.contents f := by
  unfold contents
  apply congrArg
  apply Array.ext_getElem?
  intro i
  rw [Array.getElem?_extract, Array.getElem?_extract, r.size_raw, r'.size_raw]
  split
  case isTrue hi => exact h _ ⟨by omega, by omega⟩
  case isFalse hi => rfl

theorem contents_put {r : Record l} {f : Field} {bytes : List UInt8}
    (hfit : f.endOffset ≤ l.size) (hlen : bytes.length = f.kind.width) :
    (r.put f bytes).contents f = bytes := by
  have hend : f.endOffset = f.offset + bytes.toArray.size := by
    simp [Field.endOffset, hlen]
  have hraw : (r.put f bytes).raw.size = l.size := (r.put f bytes).size_raw
  unfold contents
  rw [hend, Bytes.extract_eq_of_getElem? (by omega)]
  intro p hp hlt
  exact Bytes.getElem?_overwrite_of_covers (f.offset, bytes.toArray) ⟨hp, hlt⟩
    (by rw [r.size_raw]; omega)

theorem putNumber_eq_ok {r r' : Record l} {f : Field} {value : Nat} :
    r.putNumber f value = .ok r' ↔
      value < numberBound f.kind.width ∧ r' = r.put f (toLittleEndian f.kind.width value) := by
  unfold putNumber
  split
  case isTrue h => simp [h, eq_comm]
  case isFalse h => simp [h]

theorem number_of_putNumber {r r' : Record l} {f : Field} {value : Nat}
    (hfit : f.endOffset ≤ l.size) (h : r.putNumber f value = .ok r') : r'.number f = value := by
  obtain ⟨hlt, rfl⟩ := putNumber_eq_ok.mp h
  rw [number, contents_put hfit (length_toLittleEndian _ _), ofLittleEndian_toLittleEndian,
    Nat.mod_eq_of_lt hlt]

theorem length_contents {r : Record l} {f : Field} (hfit : f.endOffset ≤ l.size) :
    (r.contents f).length = f.kind.width := by
  unfold contents
  rw [Array.length_toList, Array.size_extract, r.size_raw, Nat.min_eq_left hfit, Field.endOffset,
    Nat.add_sub_cancel_left]

theorem number_lt {r : Record l} {f : Field} (hfit : f.endOffset ≤ l.size) :
    r.number f < numberBound f.kind.width := by
  have h := ofLittleEndian_lt (r.contents f)
  rwa [length_contents hfit] at h

/-- The number in a field tells its bytes. -/
theorem getElem?_eq_of_number {r r' : Record l} {g : Field} {k : Nat}
    (hfit : g.endOffset ≤ l.size) (h : r.number g = r'.number g) (hk : g.Has k) :
    r.raw[k]? = r'.raw[k]? := by
  have hbytes := toLittleEndian_ofLittleEndian (r.contents g)
  have hbytes' := toLittleEndian_ofLittleEndian (r'.contents g)
  rw [length_contents hfit] at hbytes hbytes'
  have hcontents : r.contents g = r'.contents g := by
    rw [← hbytes, ← hbytes']
    exact congrArg _ h
  obtain ⟨hle, hlt⟩ := hk
  have hbyte := congrArg (·[k - g.offset]?) (Array.toList_inj.mp hcontents)
  simp only [Array.getElem?_extract, r.size_raw, r'.size_raw, Nat.add_sub_cancel' hle] at hbyte
  rwa [if_pos (by omega), if_pos (by omega)] at hbyte

theorem put_contents (r : Record l) (f : Field) : r.put f (r.contents f) = r :=
  ext (Bytes.overwrite_extract r.raw f.offset f.endOffset)

/-- A field given its own number keeps its bytes. -/
theorem putNumber_number {r : Record l} {f : Field} (hfit : f.endOffset ≤ l.size) :
    r.putNumber f (r.number f) = .ok r := by
  rw [putNumber_eq_ok]
  refine ⟨number_lt hfit, ?_⟩
  rw [number, ← length_contents hfit, toLittleEndian_ofLittleEndian, put_contents]

theorem getElem?_of_putNumber {r r' : Record l} {f : Field} {value k : Nat}
    (h : r.putNumber f value = .ok r') (hk : ¬ f.Has k) : r'.raw[k]? = r.raw[k]? := by
  obtain ⟨_, rfl⟩ := putNumber_eq_ok.mp h
  exact getElem?_put_of_not_has (length_toLittleEndian _ _) hk

/-- The record with numbers put into fields one after another. -/
def putNumbers (r : Record l) : List (Field × Nat) → Except Error (Record l)
  | [] => .ok r
  | (f, value) :: rest => do
    let r ← r.putNumber f value
    r.putNumbers rest

theorem getElem?_of_putNumbers {settings : List (Field × Nat)} {r r' : Record l} {k : Nat}
    (h : r.putNumbers settings = .ok r') (hk : ∀ s ∈ settings, ¬ s.1.Has k) :
    r'.raw[k]? = r.raw[k]? := by
  induction settings generalizing r with
  | nil => cases h; rfl
  | cons s rest ih =>
    obtain ⟨mid, hmid, hrest⟩ := bind_eq_ok.mp h
    rw [ih hrest fun q hq => hk q (List.mem_cons_of_mem _ hq),
      getElem?_of_putNumber hmid (hk s List.mem_cons_self)]

theorem contents_of_putNumbers {settings : List (Field × Nat)} {r r' : Record l} {g : Field}
    (h : r.putNumbers settings = .ok r') (hg : ∀ s ∈ settings, s.1.Apart g) :
    r'.contents g = r.contents g := by
  apply contents_congr
  intro k hk
  apply getElem?_of_putNumbers h
  intro s hs hc
  have ha := hg s hs
  unfold Field.Apart at ha
  unfold Field.Has at hk hc
  omega

theorem number_of_putNumbers {settings : List (Field × Nat)} {r r' : Record l}
    (hfit : ∀ s ∈ settings, s.1.endOffset ≤ l.size)
    (hapart : settings.Pairwise fun s t => s.1.Apart t.1)
    (h : r.putNumbers settings = .ok r') : ∀ s ∈ settings, r'.number s.1 = s.2 := by
  induction settings generalizing r with
  | nil => intro s hs; cases hs
  | cons s rest ih =>
    obtain ⟨mid, hmid, hrest⟩ := bind_eq_ok.mp h
    obtain ⟨hhead, htail⟩ := List.pairwise_cons.mp hapart
    intro t ht
    rcases List.mem_cons.mp ht with rfl | ht
    · have hkept : r'.contents t.1 = mid.contents t.1 :=
        contents_of_putNumbers hrest fun q hq => (hhead q hq).symm
      rw [number, hkept]
      exact number_of_putNumber (hfit t List.mem_cons_self) hmid
    · exact ih (fun q hq => hfit q (List.mem_cons_of_mem _ hq)) htail hrest t ht

theorem putNumbers_number {settings : List (Field × Nat)} {r : Record l}
    (h : ∀ s ∈ settings, s.1.endOffset ≤ l.size ∧ s.2 = r.number s.1) :
    r.putNumbers settings = .ok r := by
  induction settings with
  | nil => rfl
  | cons s rest ih =>
    obtain ⟨f, value⟩ := s
    obtain ⟨hfit, hvalue⟩ := h _ List.mem_cons_self
    dsimp only at hfit hvalue
    rw [putNumbers, hvalue, putNumber_number hfit]
    exact ih fun s hs => h s (List.mem_cons_of_mem _ hs)

theorem lt_of_putNumbers {settings : List (Field × Nat)} {r r' : Record l}
    (h : r.putNumbers settings = .ok r') : ∀ s ∈ settings, s.2 < numberBound s.1.kind.width := by
  induction settings generalizing r with
  | nil => intro s hs; cases hs
  | cons s rest ih =>
    obtain ⟨mid, hmid, hrest⟩ := bind_eq_ok.mp h
    intro t ht
    rcases List.mem_cons.mp ht with rfl | ht
    · exact (putNumber_eq_ok.mp hmid).1
    · exact ih hrest t ht

/-- Numbers are refused only for being too wide, and the error names the field and the number. -/
theorem exists_of_putNumbers_eq_error {settings : List (Field × Nat)} {r : Record l} {err : Error}
    (h : r.putNumbers settings = .error err) :
    ∃ s ∈ settings, numberBound s.1.kind.width ≤ s.2 ∧
      err = .malformed (.numberTooWide s.2 l.name s.1.name) := by
  induction settings generalizing r with
  | nil => cases h
  | cons s rest ih =>
    obtain ⟨f, value⟩ := s
    rcases bind_eq_error.mp h with hput | ⟨mid, -, hrest⟩
    · refine ⟨(f, value), List.mem_cons_self, ?_⟩
      unfold putNumber at hput
      split at hput
      case isTrue => cases hput
      case isFalse hwide =>
        cases hput
        exact ⟨Nat.le_of_not_lt hwide, rfl⟩
    · obtain ⟨s, hs, hwide⟩ := ih hrest
      exact ⟨s, List.mem_cons_of_mem _ hs, hwide⟩

end Record

theorem Table.getElem?_record {l : Layout} (t : Table l) (i : Fin t.count) {k : Nat}
    (hk : k < l.size) : (t.record i).raw[k]? = t.data[t.recordOffset i + k]? := by
  have hfit := t.recordOffset_add_size_le i
  show (t.data.extract _ _)[k]? = _
  rw [Array.getElem?_extract, if_pos]
  omega

end GameArchive
