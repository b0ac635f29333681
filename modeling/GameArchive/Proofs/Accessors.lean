import GameArchive.Proofs.InPlace
import GameArchive.Proofs.Layout
import GameArchive.Proofs.Regions
import GameArchive.Proofs.Text.FixedText
/-!
# Reading and storing the fields of a record

A field is found by its name, and where it stands depends on the layout alone. So a record that was
changed is read in the same places, and all that can be said of an accessor comes down to the bytes
of one field: a setter puts as many bytes as the field takes, and a reader sees those and no others.
-/
namespace GameArchive

variable {l : Layout}

namespace Record

variable {r r' : Record l} {f g : Field} {name other : String} {accepts : FieldKind → Bool}
  {setting : Setting}

section Finding

theorem slot_eq_ok : r.slot name = .ok f ↔ l.field name = .ok f ∧ f.endOffset ≤ l.size := by
  unfold slot
  rw [bind_eq_ok, r.size_raw]
  constructor
  · intro h
    obtain ⟨found, hfield, hfound⟩ := h
    split at hfound
    case isTrue hfit => cases hfound; exact ⟨hfield, hfit⟩
    case isFalse => cases hfound
  · intro h
    exact ⟨f, h.1, if_pos h.2⟩

theorem slotOf_eq_ok : r.slotOf accepts name = .ok f ↔
    l.field name = .ok f ∧ f.endOffset ≤ l.size ∧ accepts f.kind = true := by
  unfold slotOf
  rw [bind_eq_ok]
  constructor
  · intro h
    obtain ⟨found, hslot, hfound⟩ := h
    obtain ⟨hfield, hfit⟩ := slot_eq_ok.mp hslot
    split at hfound
    case isTrue hkind => cases hfound; exact ⟨hfield, hfit, hkind⟩
    case isFalse => cases hfound
  · intro h
    obtain ⟨hfield, hfit, hkind⟩ := h
    exact ⟨f, slot_eq_ok.mpr ⟨hfield, hfit⟩, if_pos hkind⟩

/-- Where a field stands does not depend on the bytes. -/
theorem slot_congr (r r' : Record l) (name : String) : r'.slot name = r.slot name := by
  unfold slot
  rw [r.size_raw, r'.size_raw]

theorem slotOf_congr (r r' : Record l) (accepts : FieldKind → Bool) (name : String) :
    r'.slotOf accepts name = r.slotOf accepts name := by
  unfold slotOf
  rw [slot_congr]

end Finding

section Storing

theorem put_put {a b : List UInt8} (h : a.length = b.length) : (r.put f a).put f b = r.put f b := by
  apply ext
  apply Array.ext_getElem?
  intro i
  simp only [put, Bytes.getElem?_overwrite, Option.map_map]
  congr 1
  funext byte
  simp only [Function.comp, Array.getD_eq_getD_getElem?, List.getElem?_toArray]
  split
  case isTrue =>
    rcases Nat.lt_or_ge (i - f.offset) b.length with hlt | hge
    · rw [List.getElem?_eq_getElem hlt]; rfl
    · rw [List.getElem?_eq_none hge, List.getElem?_eq_none (h ▸ hge)]; rfl
  case isFalse => rfl

theorem putInteger_eq_ok {v : Int} : r.putInteger f v = .ok r' ↔ IsSigned f.kind.width v ∧
    r' = r.put f (toLittleEndian f.kind.width (ofSigned f.kind.width v)) := by
  unfold putInteger IsSigned
  dsimp only
  split
  case isTrue h => simp [h, eq_comm]
  case isFalse h => simp [h]

theorem integer_of_putInteger {v : Int} (hfit : f.endOffset ≤ l.size)
    (h : r.putInteger f v = .ok r') : r'.integer f = v := by
  obtain ⟨hv, rfl⟩ := putInteger_eq_ok.mp h
  rw [integer, number, contents_put hfit (length_toLittleEndian _ _),
    ofLittleEndian_toLittleEndian, Nat.mod_eq_of_lt (ofSigned_lt v), toSigned_ofSigned hv]

theorem putInteger_integer (hfit : f.endOffset ≤ l.size) :
    r.putInteger f (r.integer f) = .ok r := by
  rw [putInteger_eq_ok, integer, ofSigned_toSigned (number_lt hfit)]
  refine ⟨isSigned_toSigned (number_lt hfit), ?_⟩
  exact (putNumber_eq_ok.mp (putNumber_number hfit)).2

end Storing

section Lens

variable {α : Type}

/-- The laws of reading and storing a value of a field whose bytes lie inside the record. `Fits`
tells which values so many bytes can hold. -/
structure IsFieldLens (l : Layout) (get : Record l → Field → α)
    (put : Record l → Field → α → Except Error (Record l)) (Fits : Nat → α → Prop) : Prop where
  get_put : ∀ {r r' f v}, f.endOffset ≤ l.size → put r f v = .ok r' → get r' f = v
  put_get : ∀ {r f}, f.endOffset ≤ l.size → put r f (get r f) = .ok r
  put_put : ∀ {r r' f v w}, put r f v = .ok r' → put r' f w = put r f w
  put_iff : ∀ {r f v}, (∃ r', put r f v = .ok r') ↔ Fits f.kind.width v

/-- The laws of reading and storing a value under the name of a field. What was stored is read, to
store what was read changes nothing, and of two values stored the second one stays. A value is
stored exactly when the layout has the field, its kind is accepted, it lies inside the record, and
the value fits. -/
structure IsLens (l : Layout) (read : Record l → String → Except Error α)
    (store : Record l → String → α → Except Error (Record l)) (accepts : FieldKind → Bool)
    (Fits : Nat → α → Prop) : Prop where
  read_store : ∀ r r' name v, store r name v = .ok r' → read r' name = .ok v
  store_read : ∀ r name v, read r name = .ok v → store r name v = .ok r
  store_store : ∀ r r' name v w, store r name v = .ok r' → store r' name w = store r name w
  store_iff : ∀ r name v, (∃ r', store r name v = .ok r') ↔
    ∃ f, l.field name = .ok f ∧ accepts f.kind = true ∧ f.endOffset ≤ l.size ∧ Fits f.kind.width v

theorem IsFieldLens.isLens {get : Record l → Field → α}
    {put : Record l → Field → α → Except Error (Record l)} {Fits : Nat → α → Prop}
    (h : IsFieldLens l get put Fits) (accepts : FieldKind → Bool) :
    IsLens l (fun r name => (r.slotOf accepts name).map (get r))
      (fun r name v => r.slotOf accepts name >>= fun f => put r f v) accepts Fits where
  read_store r r' name v hstore := by
    obtain ⟨f, hslot, hput⟩ := bind_eq_ok.mp hstore
    obtain ⟨-, hfit, -⟩ := slotOf_eq_ok.mp hslot
    exact map_eq_ok.mpr ⟨f, (slotOf_congr r r' accepts name).trans hslot, h.get_put hfit hput⟩
  store_read r name v hread := by
    obtain ⟨f, hslot, rfl⟩ := map_eq_ok.mp hread
    obtain ⟨-, hfit, -⟩ := slotOf_eq_ok.mp hslot
    exact bind_eq_ok.mpr ⟨f, hslot, h.put_get hfit⟩
  store_store r r' name v w hstore := by
    obtain ⟨f, hslot, hput⟩ := bind_eq_ok.mp hstore
    rw [slotOf_congr r r', hslot]
    exact h.put_put hput
  store_iff r name v := by
    constructor
    · intro h'
      obtain ⟨r', hstore⟩ := h'
      obtain ⟨f, hslot, hput⟩ := bind_eq_ok.mp hstore
      obtain ⟨hfield, hfit, hkind⟩ := slotOf_eq_ok.mp hslot
      exact ⟨f, hfield, hkind, hfit, h.put_iff.mp ⟨r', hput⟩⟩
    · intro h'
      obtain ⟨f, hfield, hkind, hfit, hv⟩ := h'
      obtain ⟨r', hput⟩ := h.put_iff.mpr hv
      exact ⟨r', bind_eq_ok.mpr ⟨f, slotOf_eq_ok.mpr ⟨hfield, hfit, hkind⟩, hput⟩⟩

theorem number_lens (l : Layout) :
    IsFieldLens l number putNumber fun width n => n < numberBound width where
  get_put := number_of_putNumber
  put_get := putNumber_number
  put_put h := by
    obtain ⟨-, rfl⟩ := putNumber_eq_ok.mp h
    unfold putNumber
    rw [put_put (by rw [length_toLittleEndian, length_toLittleEndian])]
  put_iff := by simp only [putNumber_eq_ok, exists_and_left, exists_eq, and_true, implies_true]

theorem integer_lens (l : Layout) : IsFieldLens l integer putInteger IsSigned where
  get_put := integer_of_putInteger
  put_get := putInteger_integer
  put_put h := by
    obtain ⟨-, rfl⟩ := putInteger_eq_ok.mp h
    unfold putInteger
    rw [put_put (by rw [length_toLittleEndian, length_toLittleEndian])]
  put_iff := by simp only [putInteger_eq_ok, exists_and_left, exists_eq, and_true, implies_true]

theorem uint_lens (l : Layout) :
    IsLens l uint setUint FieldKind.isUnsigned fun width n => n < numberBound width :=
  (number_lens l).isLens FieldKind.isUnsigned

theorem int_lens (l : Layout) : IsLens l int setInt FieldKind.isSigned IsSigned :=
  (integer_lens l).isLens FieldKind.isSigned

end Lens

section Frame

/-- A setter that succeeds puts bytes into the field it names, as many as the field takes. -/
theorem exists_put_of_set (h : r.set name setting = .ok r') :
    ∃ f bytes, l.field name = .ok f ∧ bytes.length = f.kind.width ∧ r' = r.put f bytes := by
  cases setting with
  | number n =>
    obtain ⟨f, hslot, hput⟩ := bind_eq_ok.mp h
    obtain ⟨-, rfl⟩ := putNumber_eq_ok.mp hput
    exact ⟨f, _, (slotOf_eq_ok.mp hslot).1, length_toLittleEndian _ _, rfl⟩
  | integer v =>
    obtain ⟨f, hslot, hput⟩ := bind_eq_ok.mp h
    obtain ⟨-, rfl⟩ := putInteger_eq_ok.mp hput
    exact ⟨f, _, (slotOf_eq_ok.mp hslot).1, length_toLittleEndian _ _, rfl⟩
  | text s =>
    obtain ⟨f, hslot, hput⟩ := bind_eq_ok.mp h
    obtain ⟨bytes, hencode, hput⟩ := bind_eq_ok.mp hput
    cases hput
    exact ⟨f, bytes, (slotOf_eq_ok.mp hslot).1, Text.FixedText.length_of_encode hencode, rfl⟩

/-- A setter in place fails before it writes, or else changes only bytes of the field it names. -/
theorem set_cases (r : Record l) (name : String) (setting : Setting) :
    (∃ err, r.set name setting = .error err ∧
      (InPlace.set name setting).on r = (.error err, r)) ∨
    ∃ f r', l.field name = .ok f ∧ r.set name setting = .ok r' ∧
      (InPlace.set name setting).on r = (.ok (), r') ∧ ∀ k, ¬ f.Has k → r'.raw[k]? = r.raw[k]? := by
  rw [InPlace.on_set]
  cases h : r.set name setting with
  | error err => exact Or.inl ⟨err, rfl, rfl⟩
  | ok r' =>
    obtain ⟨f, bytes, hfield, hlength, rfl⟩ := exists_put_of_set h
    exact Or.inr ⟨f, _, hfield, rfl, rfl, fun k => getElem?_put_of_not_has hlength⟩

/-- In a consistent layout, what is read of the other fields does not change. -/
theorem contents_of_set (hl : l.isConsistent = true) (h : r.set name setting = .ok r')
    (hother : other ≠ name) (hg : l.field other = .ok g) : r'.contents g = r.contents g := by
  obtain ⟨f, bytes, hfield, hlength, rfl⟩ := exists_put_of_set h
  have hapart := Layout.apart_of_field hl hother hfield hg
  exact contents_congr fun k hk => getElem?_put_of_not_has hlength (hapart.not_has hk)

/-- Whether a name is read the same in two records, whatever is read there. -/
structure ReadsSame (r r' : Record l) (name : String) : Prop where
  uint : r'.uint name = r.uint name
  int : r'.int name = r.int name
  str : r'.str name = r.str name
  bytes : r'.bytes name = r.bytes name

theorem readsSame_of_contents (h : ∀ f, l.field name = .ok f → r'.contents f = r.contents f) :
    ReadsSame r r' name := by
  -- Each reader finds the same field or fails with the same error.
  have hread {α : Type} (accepts : FieldKind → Bool) (get : FieldKind → List UInt8 → α) :
      (r'.slotOf accepts name).map (fun f => get f.kind (r'.contents f)) =
        (r.slotOf accepts name).map (fun f => get f.kind (r.contents f)) := by
    rw [slotOf_congr r r']
    cases hslot : r.slotOf accepts name with
    | error err => rfl
    | ok f =>
      have hsame := h f (slotOf_eq_ok.mp hslot).1
      exact congrArg (fun bytes => Except.ok (get f.kind bytes)) hsame
  have hbytes : r'.bytes name = r.bytes name := by
    unfold bytes
    rw [slot_congr r r']
    cases hslot : r.slot name with
    | error err => rfl
    | ok f =>
      have hsame := h f (slot_eq_ok.mp hslot).1
      exact congrArg (fun bytes => Except.ok bytes.toArray) hsame
  exact {
    uint := hread _ fun _ => ofLittleEndian
    int := hread _ fun kind bytes => toSigned kind.width (ofLittleEndian bytes)
    str := hread _ fun _ => Text.FixedText.decode
    bytes := hbytes
  }

end Frame

end Record

/-- What the accessors of the records of a layout promise. -/
structure Layout.AccessorLaws (l : Layout) : Prop where
  uint : Record.IsLens l Record.uint Record.setUint FieldKind.isUnsigned
    fun width n => n < numberBound width
  int : Record.IsLens l Record.int Record.setInt FieldKind.isSigned IsSigned
  /-- A setter that fails has written nothing, and one that succeeds has written only into the field
  that it names. -/
  set_cases : ∀ (r : Record l) (name : String) (setting : Setting),
    (∃ err, r.set name setting = .error err ∧
      (InPlace.set name setting).on r = (.error err, r)) ∨
    ∃ f r', l.field name = .ok f ∧ r.set name setting = .ok r' ∧
      (InPlace.set name setting).on r = (.ok (), r') ∧ ∀ k, ¬ f.Has k → r'.raw[k]? = r.raw[k]?
  readsSame : l.isConsistent = true → ∀ (r r' : Record l) (name other : String) (setting : Setting),
    r.set name setting = .ok r' → other ≠ name → r.ReadsSame r' other
  isConsistent_iff : (∀ f ∈ l.fields, 0 < f.kind.width) →
    (l.isConsistent = true ↔ (∀ f ∈ l.fields, f.endOffset ≤ l.size) ∧
      l.fields.Pairwise fun f g => ∀ k, ¬ (f.Has k ∧ g.Has k))

theorem Layout.accessors_lawful (l : Layout) : l.AccessorLaws where
  uint := Record.uint_lens l
  int := Record.int_lens l
  set_cases := Record.set_cases
  readsSame hl _ _ _ _ _ h hother :=
    Record.readsSame_of_contents fun _ hg => Record.contents_of_set hl h hother hg
  isConsistent_iff := Layout.isConsistent_iff_of_pos

/-- Four fields that fill a record, not in the order in which they stand there. -/
def Layout.packed : Layout :=
  ⟨"packed", 12, [⟨"size", 8, .u32⟩, ⟨"name", 0, .text 4⟩, ⟨"flags", 6, .u16⟩, ⟨"id", 4, .i16⟩]⟩

theorem Layout.accessors_lawful_packed :
    Layout.packed.isConsistent = true ∧
      ∃ r', (Record.zeroed Layout.packed).set "id" (.integer (-2)) = .ok r' ∧
        r'.int "id" = .ok (-2) ∧ (Record.zeroed Layout.packed).ReadsSame r' "size" := by
  have laws := Layout.accessors_lawful Layout.packed
  have hl : Layout.packed.isConsistent = true :=
    (Layout.isConsistent_iff_apart (by decide)).mpr ⟨by decide, by decide⟩
  have hfits : ∃ f, Layout.packed.field "id" = .ok f ∧ f.kind.isSigned = true ∧
      f.endOffset ≤ Layout.packed.size ∧ IsSigned f.kind.width (-2) :=
    ⟨⟨"id", 4, .i16⟩, rfl, rfl, by decide, by decide⟩
  obtain ⟨r', hset⟩ := (laws.int.store_iff (Record.zeroed Layout.packed) "id" (-2)).mpr hfits
  have hsame := laws.readsSame hl _ r' "id" "size" (.integer (-2)) hset (by decide)
  exact ⟨hl, r', hset, laws.int.read_store _ _ _ _ hset, hsame⟩

/-- Where fields share bytes, what is stored in one of them is read in the other. -/
example : (do
    let r ← (Record.zeroed
      ⟨"overlap", 2, [⟨"whole", 0, .u16⟩, ⟨"high", 1, .u8⟩]⟩).setUint "whole" 256
    r.uint "high") = .ok 1 := by
  rfl

namespace Record

open Text

section Texts

variable {r r' : Record l} {f : Field} {name v : String} {n : Nat}

theorem setStr_eq_ok (hfield : l.field name = .ok f) (hkind : f.kind = .text n)
    (hfit : f.endOffset ≤ l.size) : r.setStr name v = .ok r' ↔
      ∃ bytes, FixedText.encode v n = .ok bytes ∧ r' = r.put f bytes := by
  have hslot : r.slotOf FieldKind.isText name = .ok f :=
    slotOf_eq_ok.mpr ⟨hfield, hfit, by rw [hkind]; rfl⟩
  have hwidth : f.kind.width = n := by rw [hkind]; rfl
  unfold setStr
  rw [hslot]
  show (FixedText.encode v f.kind.width >>= fun bytes => Except.ok (r.put f bytes)) = _ ↔ _
  rw [bind_eq_ok, hwidth]
  simp only [Except.ok.injEq, eq_comm]

/-- What is stored is the code of the text, with zero bytes behind it up to the end of the field. -/
theorem setStr_eq_ok_iff_spells (hfield : l.field name = .ok f) (hkind : f.kind = .text n)
    (hfit : f.endOffset ≤ l.size) (hv : ∀ c ∈ v.toList, ShiftJis.ReadsBack c) :
    r.setStr name v = .ok r' ↔ ∃ code, ShiftJis.Spells v.toList code ∧ code.length ≤ n ∧
      r' = r.put f (code ++ List.replicate (n - code.length) 0) := by
  rw [setStr_eq_ok hfield hkind hfit]
  simp only [FixedText.encode_eq_ok, ShiftJis.encode?, ShiftJis.encodeChars_eq_some_iff hv]
  constructor
  · intro h
    obtain ⟨-, ⟨code, hspells, hlength, rfl⟩, rfl⟩ := h
    exact ⟨code, hspells, hlength, rfl⟩
  · intro h
    obtain ⟨code, hspells, hlength, rfl⟩ := h
    exact ⟨_, ⟨code, hspells, hlength, rfl⟩, rfl⟩

/-- A text goes into a field exactly when its characters have codes that fit. Then the field holds
the codes with zero bytes behind them, and the text is read back, also where its codes leave no room
for a zero byte. -/
theorem setStr_stores_codes (r : Record l) (hfield : l.field name = .ok f)
    (hkind : f.kind = .text n) (hfit : f.endOffset ≤ l.size)
    (hv : ∀ c ∈ v.toList, ShiftJis.ReadsBack c) :
    ((∃ r', r.setStr name v = .ok r') ↔ (∀ c ∈ v.toList, ShiftJis.Representable c) ∧
      ∀ code, ShiftJis.Spells v.toList code → code.length ≤ n) ∧
    ∀ r', r.setStr name v = .ok r' → ∃ code, ShiftJis.Spells v.toList code ∧
      r'.contents f = code ++ List.replicate (n - code.length) 0 ∧ r'.str name = .ok v := by
  constructor
  · rw [← ShiftJis.exists_spells_iff]
    constructor
    · intro h
      obtain ⟨r', h⟩ := h
      obtain ⟨code, hspells, hlength, -⟩ := (setStr_eq_ok_iff_spells hfield hkind hfit hv).mp h
      exact ⟨⟨code, hspells⟩, fun other hother => hother.unique hv hspells ▸ hlength⟩
    · intro h
      obtain ⟨⟨code, hspells⟩, hlength⟩ := h
      exact ⟨_, (setStr_eq_ok_iff_spells hfield hkind hfit hv).mpr
        ⟨code, hspells, hlength code hspells, rfl⟩⟩
  · intro r' h
    obtain ⟨code, hspells, hlength, rfl⟩ := (setStr_eq_ok_iff_spells hfield hkind hfit hv).mp h
    have hwidth : (code ++ List.replicate (n - code.length) 0).length = f.kind.width := by
      rw [List.length_append, List.length_replicate, Nat.add_sub_cancel' hlength, hkind]
      rfl
    have hcontents := contents_put (r := r) hfit hwidth
    refine ⟨code, hspells, hcontents, map_eq_ok.mpr ⟨f, ?_, ?_⟩⟩
    · exact slotOf_eq_ok.mpr ⟨hfield, hfit, by rw [hkind]; rfl⟩
    · rw [string, hcontents]
      exact FixedText.decode_of_spells hv hspells _

set_option maxRecDepth 2000 in
/-- Four bytes of code fill a field of four bytes. The second byte of the comma is an ASCII one. -/
theorem setStr_stores_codes_filling : ∃ r',
    (zeroed Layout.packed).setStr "name" "a、b" = .ok r' ∧
      r'.contents ⟨"name", 0, .text 4⟩ = [0x61, 0x81, 0x41, 0x62] ∧ r'.str "name" = .ok "a、b" := by
  have htext : "a、b".toList = ['a', '、', 'b'] := rfl
  have hback : ∀ c ∈ "a、b".toList, ShiftJis.ReadsBack c := by
    rw [htext]
    simp only [List.forall_mem_cons, List.not_mem_nil, false_imp_iff, implies_true, and_true]
    refine ⟨⟨?_, ?_, ?_, ?_⟩, ⟨?_, ?_, ?_, ?_⟩, ⟨?_, ?_, ?_, ?_⟩⟩
    all_goals decide
  have hpointer : ShiftJis.pointerOf '、' = some 1 :=
    ShiftJis.pointerOf_of_first_row ['　'] rfl (by decide) (by decide)
  have hcomma : ShiftJis.HasCode '、' [0x81, 0x41] := by
    rw [← ShiftJis.encodeChar_eq_some_iff (hback _ (by rw [htext]; decide)), ShiftJis.encodeChar,
      hpointer]
    rfl
  have hspells : ShiftJis.Spells "a、b".toList [0x61, 0x81, 0x41, 0x62] :=
    .cons (.ascii (by decide)) (.cons hcomma (.cons (.ascii (by decide)) .nil))
  have hfield : Layout.packed.field "name" = .ok ⟨"name", 0, .text 4⟩ := rfl
  have h := setStr_stores_codes (zeroed Layout.packed) hfield rfl (by decide) hback
  have hfits : ∀ code, ShiftJis.Spells "a、b".toList code → code.length ≤ 4 := by
    intro code hcode
    rw [hcode.unique hback hspells]
    decide
  obtain ⟨r', hset⟩ := h.1.mpr ⟨ShiftJis.exists_spells_iff.mp ⟨_, hspells⟩, hfits⟩
  obtain ⟨code, hcode, hcontents, hstr⟩ := h.2 r' hset
  rw [hcode.unique hback hspells] at hcontents
  exact ⟨r', hset, hcontents, hstr⟩

end Texts

end Record
end GameArchive
