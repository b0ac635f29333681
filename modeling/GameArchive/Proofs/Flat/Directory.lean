import GameArchive.Archive.Flat
import GameArchive.Proofs.Record
/-!
# Headers and records of flat formats

The count stands in the header, so whatever keeps the header keeps the count. A record that is
rewritten for a new placement keeps its name and all bytes outside the fields that say where the
payload lies.
-/
namespace GameArchive

namespace Bytes

/-- A slice inside a range on which two buffers agree. -/
theorem slice_congr {a b : Bytes} {limit offset length : Nat} (ha : limit ≤ a.size)
    (hb : limit ≤ b.size) (h : ∀ p < limit, a[p]? = b[p]?) (hfit : offset + length ≤ limit) :
    a.slice offset length = b.slice offset length := by
  rw [slice_of_le (by omega), slice_of_le (by omega),
    extract_congr (by omega) (by omega) fun p _ hp => h p (by omega)]

theorem word_congr {a b : Bytes} {limit offset width : Nat} (ha : limit ≤ a.size)
    (hb : limit ≤ b.size) (h : ∀ p < limit, a[p]? = b[p]?) (hfit : offset + width ≤ limit) :
    a.word offset width = b.word offset width := by
  rw [word, word, slice_congr ha hb h hfit]

theorem expectMagic_congr {a b : Bytes} {limit offset : Nat} {expected : List UInt8}
    (ha : limit ≤ a.size) (hb : limit ≤ b.size) (h : ∀ p < limit, a[p]? = b[p]?)
    (hfit : offset + expected.length ≤ limit) :
    a.expectMagic offset expected = b.expectMagic offset expected := by
  rw [expectMagic, expectMagic, slice_congr ha hb h hfit]

end Bytes

namespace FlatFormat

/-- The count is read from the header alone. -/
theorem readCount_congr (f : FlatFormat) {a b : Bytes} (ha : f.headerSize ≤ a.size)
    (hb : f.headerSize ≤ b.size) (h : ∀ p < f.headerSize, a[p]? = b[p]?) :
    f.readCount a = f.readCount b := by
  have hslice : ∀ offset length, offset + length ≤ f.headerSize →
      a.slice offset length = b.slice offset length := fun _ _ => Bytes.slice_congr ha hb h
  have hword : ∀ offset width, offset + width ≤ f.headerSize →
      a.word offset width = b.word offset width := fun _ _ => Bytes.word_congr ha hb h
  have hmagic : ∀ expected : List UInt8, 0 + expected.length ≤ f.headerSize →
      a.expectMagic 0 expected = b.expectMagic 0 expected := fun _ =>
    Bytes.expectMagic_congr ha hb h
  rcases f with (_ | _ | _) | (_ | _ | _) | _ <;>
    simp (disch := decide) only [readCount, hslice, hword, hmagic]

theorem endOffset_le_of_mem_placing (f : FlatFormat) :
    ∀ g ∈ f.placing.fields, g.endOffset ≤ f.layout.size := by
  rcases f with (_ | _ | _) | (_ | _ | _) | _ <;> decide

theorem width_of_mem_placing (f : FlatFormat) : ∀ g ∈ f.placing.fields, g.kind.width = 4 := by
  rcases f with (_ | _ | _) | (_ | _ | _) | _ <;> decide

theorem apart_nameField (f : FlatFormat) : ∀ g ∈ f.placing.fields, g.Apart f.nameField := by
  rcases f with (_ | _ | _) | (_ | _ | _) | _ <;> decide

theorem pairwise_apart_placing (f : FlatFormat) : f.placing.fields.Pairwise Field.Apart := by
  rcases f with (_ | _ | _) | (_ | _ | _) | _ <;> decide

theorem eq_of_placing_ends {f : FlatFormat} {field : Field} (hf : f.placing = .ends field) :
    f = .startDat .endOffset := by
  rcases f with (_ | _ | _) | (_ | _ | _) | _ <;> simp [placing] at hf ⊢

theorem eq_of_placing_starts {f : FlatFormat} {field : Field} (hf : f.placing = .starts field) :
    f = .startDat .offsetOnly := by
  rcases f with (_ | _ | _) | (_ | _ | _) | _ <;> simp [placing] at hf ⊢

theorem eq_of_placing_decompressed {f : FlatFormat} {offset size decompressed : Field}
    (hf : f.placing = .explicit offset size (some decompressed)) : f = .pspfs .makaiKingdom := by
  rcases f with (_ | _ | _) | (_ | _ | _) | _ <;> simp [placing] at hf ⊢

/-- The numbers that the record of an entry placed anew is given. -/
def settings (f : FlatFormat) (directoryEnd : Nat) (p : Placement) (stated : Option Nat) :
    List (Field × Nat) :=
  match f.placing with
  | .explicit offset size decompressed =>
    (offset, p.offset) :: (size, p.size) ::
      match decompressed, stated with
      | some field, some n => [(field, n)]
      | _, _ => []
  | .ends field => [(field, p.endOffset - directoryEnd)]
  | .starts field => [(field, p.offset)]

section Update

variable {f : FlatFormat} {directoryEnd k : Nat} {p : Placement} {stated : Option Nat}
  {r r' : Record f.layout}

theorem updateRecord_eq_putNumbers :
    f.updateRecord directoryEnd p stated r = r.putNumbers (f.settings directoryEnd p stated) := by
  have hpure : ∀ x : Except Error (Record f.layout), (x >>= fun r => .ok r) = x := by
    intro x; cases x <;> rfl
  unfold updateRecord settings
  cases f.placing with
  | explicit offset size decompressed =>
    cases decompressed <;> cases stated <;> simp only [Record.putNumbers, hpure]
  | ends field => exact (hpure _).symm
  | starts field => exact (hpure _).symm

theorem settings_sublist : ((f.settings directoryEnd p stated).map (·.1)).Sublist f.placing.fields := by
  unfold settings Placing.fields
  cases f.placing with
  | explicit offset size decompressed => cases decompressed <;> cases stated <;> simp
  | ends field => simp
  | starts field => simp

theorem mem_placing_of_mem_settings {s : Field × Nat} (hs : s ∈ f.settings directoryEnd p stated) :
    s.1 ∈ f.placing.fields :=
  settings_sublist.subset (List.mem_map_of_mem hs)

theorem string_of_updateRecord (h : f.updateRecord directoryEnd p stated r = .ok r') :
    r'.string f.nameField = r.string f.nameField := by
  rw [updateRecord_eq_putNumbers] at h
  rw [Record.string, Record.contents_of_putNumbers h fun s hs =>
    f.apart_nameField s.1 (mem_placing_of_mem_settings hs), Record.string]

theorem getElem?_of_updateRecord (h : f.updateRecord directoryEnd p stated r = .ok r')
    (hk : ∀ g ∈ f.placing.fields, ¬ g.Has k) : r'.raw[k]? = r.raw[k]? := by
  rw [updateRecord_eq_putNumbers] at h
  exact Record.getElem?_of_putNumbers h fun s hs => hk s.1 (mem_placing_of_mem_settings hs)

theorem number_of_updateRecord (h : f.updateRecord directoryEnd p stated r = .ok r')
    {s : Field × Nat} (hs : s ∈ f.settings directoryEnd p stated) : r'.number s.1 = s.2 := by
  rw [updateRecord_eq_putNumbers] at h
  refine Record.number_of_putNumbers ?_ ?_ h s hs
  · exact fun s hs => f.endOffset_le_of_mem_placing s.1 (mem_placing_of_mem_settings hs)
  · exact List.pairwise_map.mp (f.pairwise_apart_placing.sublist settings_sublist)

theorem lt_of_updateRecord (h : f.updateRecord directoryEnd p stated r = .ok r') :
    ∀ s ∈ f.settings directoryEnd p stated, s.2 < numberBound 4 := by
  intro s hs
  rw [updateRecord_eq_putNumbers] at h
  rw [← f.width_of_mem_placing s.1 (mem_placing_of_mem_settings hs)]
  exact Record.lt_of_putNumbers h s hs

theorem exists_of_updateRecord_eq_error {err : Error}
    (h : f.updateRecord directoryEnd p stated r = .error err) :
    ∃ s ∈ f.settings directoryEnd p stated, numberBound 4 ≤ s.2 ∧
      err = .malformed (.numberTooWide s.2 f.layout.name s.1.name) := by
  rw [updateRecord_eq_putNumbers] at h
  obtain ⟨s, hs, hwide, herr⟩ := Record.exists_of_putNumbers_eq_error h
  rw [f.width_of_mem_placing s.1 (mem_placing_of_mem_settings hs)] at hwide
  exact ⟨s, hs, hwide, herr⟩

/-- The size after decompression that a rewritten record states is the one it is given, or else the
one it stated before. -/
theorem decompressed_of_updateRecord {offset size decompressed : Field}
    (hf : f.placing = .explicit offset size (some decompressed))
    (h : f.updateRecord directoryEnd p stated r = .ok r') :
    r'.number decompressed = stated.getD (r.number decompressed) := by
  cases stated with
  | some n =>
    exact number_of_updateRecord h (s := (decompressed, n)) (by simp [settings, hf])
  | none =>
    have hapart := f.pairwise_apart_placing
    simp only [hf, Placing.fields, Option.toList_some, List.pairwise_cons] at hapart
    rw [updateRecord_eq_putNumbers] at h
    rw [Record.number, Record.contents_of_putNumbers h, Record.number, Option.getD_none]
    intro s hs
    simp only [settings, hf, List.mem_cons, List.not_mem_nil, or_false] at hs
    rcases hs with rfl | rfl
    · exact hapart.1 decompressed (by simp)
    · exact hapart.2.1 decompressed (by simp)

/-- Records rewritten for the same place are the same if they agreed on all that is not rewritten. -/
theorem updateRecord_congr {stated' : Option Nat} {q q' : Record f.layout}
    (hr : f.updateRecord directoryEnd p stated r = .ok r')
    (hq : f.updateRecord directoryEnd p stated' q = .ok q')
    (hkept : ∀ k < f.layout.size, (∀ g ∈ f.placing.fields, ¬ g.Has k) → r.raw[k]? = q.raw[k]?)
    (hstated : ∀ offset size decompressed, f.placing = .explicit offset size (some decompressed) →
      stated.getD (r.number decompressed) = stated'.getD (q.number decompressed)) : r' = q' := by
  have hnumber : ∀ g ∈ f.placing.fields, r'.number g = q'.number g := by
    have hset := fun s hs => number_of_updateRecord (s := s) hr hs
    have hset' := fun s hs => number_of_updateRecord (s := s) hq hs
    intro g hg
    cases hf : f.placing with
    | explicit offset size decompressed =>
      simp only [settings, hf] at hset hset'
      simp only [hf, Placing.fields, List.mem_cons, Option.mem_toList] at hg
      rcases hg with rfl | rfl | hg
      · rw [hset (g, _) List.mem_cons_self, hset' (g, _) List.mem_cons_self]
      · rw [hset (g, _) (List.mem_cons_of_mem _ List.mem_cons_self),
          hset' (g, _) (List.mem_cons_of_mem _ List.mem_cons_self)]
      · subst hg
        rw [decompressed_of_updateRecord hf hr, decompressed_of_updateRecord hf hq]
        exact hstated _ _ _ hf
    | ends field =>
      simp only [settings, hf] at hset hset'
      rw [hf] at hg
      obtain rfl := List.mem_singleton.mp hg
      rw [hset (g, _) List.mem_cons_self, hset' (g, _) List.mem_cons_self]
    | starts field =>
      simp only [settings, hf] at hset hset'
      rw [hf] at hg
      obtain rfl := List.mem_singleton.mp hg
      rw [hset (g, _) List.mem_cons_self, hset' (g, _) List.mem_cons_self]
  apply Record.ext
  apply Array.ext_getElem?
  intro k
  by_cases hplacing : ∃ g ∈ f.placing.fields, g.Has k
  · obtain ⟨g, hg, hk⟩ := hplacing
    exact Record.getElem?_eq_of_number (f.endOffset_le_of_mem_placing g hg) (hnumber g hg) hk
  · have hnone : ∀ g ∈ f.placing.fields, ¬ g.Has k := fun g hg hk => hplacing ⟨g, hg, hk⟩
    rw [getElem?_of_updateRecord hr hnone, getElem?_of_updateRecord hq hnone]
    rcases Nat.lt_or_ge k f.layout.size with hlt | hge
    · exact hkept k hlt hnone
    · rw [Array.getElem?_eq_none (by rw [r.size_raw]; exact hge),
        Array.getElem?_eq_none (by rw [q.size_raw]; exact hge)]

end Update

/-- Whether a record of a directory that ends at `directoryEnd` describes an entry. -/
structure Describes (f : FlatFormat) (directoryEnd : Nat) (r : Record f.layout) (e : Entry) :
    Prop where
  name_eq : e.name = r.string f.nameField
  placed : match f.placing with
    | .explicit offset size _ => e.offset = r.number offset ∧ e.size = r.number size
    | .ends field => e.endOffset = directoryEnd + r.number field
    | .starts field => e.offset = r.number field
  decompressed : e.decompressedSize =
    match f.placing with
    | .explicit _ _ (some field) => r.number field
    | _ => e.size

/-- The entry of a rewritten record lies where it was placed. -/
theorem Describes.placed_of_updateRecord {f : FlatFormat} {directoryEnd : Nat} {p : Placement}
    {stated : Option Nat} {r r' : Record f.layout} {e : Entry} (hd : f.Describes directoryEnd r' e)
    (h : f.updateRecord directoryEnd p stated r = .ok r') :
    match f.placing with
    | .explicit _ _ _ => e.offset = p.offset ∧ e.size = p.size
    | .ends _ => e.endOffset = directoryEnd + (p.endOffset - directoryEnd)
    | .starts _ => e.offset = p.offset := by
  have hplaced := hd.placed
  have hnumber := fun s hs => number_of_updateRecord (s := s) h hs
  unfold settings at hnumber
  cases hf : f.placing with
  | explicit offset size decompressed =>
    rw [hf] at hplaced hnumber
    exact ⟨hplaced.1.trans (hnumber (offset, _) (by simp)),
      hplaced.2.trans (hnumber (size, _) (by simp))⟩
  | ends field =>
    rw [hf] at hplaced hnumber
    exact hplaced.trans (congrArg _ (hnumber (field, _) (List.mem_singleton_self _)))
  | starts field =>
    rw [hf] at hplaced hnumber
    exact hplaced.trans (hnumber (field, _) (List.mem_singleton_self _))

/-- A record that is given the place it states anyway keeps its bytes. -/
theorem Describes.updateRecord_eq {f : FlatFormat} {directoryEnd : Nat} {r : Record f.layout}
    {e : Entry} (hd : f.Describes directoryEnd r e) {stated : Option Nat}
    (hstated : ∀ n ∈ stated, n = e.decompressedSize) :
    f.updateRecord directoryEnd ⟨e.offset, e.size⟩ stated r = .ok r := by
  rw [updateRecord_eq_putNumbers]
  apply Record.putNumbers_number
  intro s hs
  refine ⟨f.endOffset_le_of_mem_placing s.1 (mem_placing_of_mem_settings hs), ?_⟩
  have hplaced := hd.placed
  have hdecompressed := hd.decompressed
  unfold settings at hs
  cases hf : f.placing with
  | explicit offset size decompressed =>
    rw [hf] at hs hplaced hdecompressed
    dsimp only at hs hplaced
    cases decompressed <;> cases stated <;>
      simp only [List.mem_cons, List.not_mem_nil, or_false] at hs
    case some.some field n =>
      rcases hs with rfl | rfl | rfl
      · exact hplaced.1
      · exact hplaced.2
      · exact (hstated n rfl).trans hdecompressed
    all_goals
      rcases hs with rfl | rfl
      · exact hplaced.1
      · exact hplaced.2
  | ends field =>
    rw [hf] at hs hplaced
    obtain rfl := List.mem_singleton.mp hs
    unfold Entry.endOffset at hplaced
    unfold Placement.endOffset
    dsimp only at hplaced ⊢
    omega
  | starts field =>
    rw [hf] at hs hplaced
    obtain rfl := List.mem_singleton.mp hs
    exact hplaced

end FlatFormat
end GameArchive
