import GameArchive.Text.Utf16
/-!
# Texts and the units that spell them

A character outside the first 0x10000 is spelled by two surrogates, every other one by itself. Units
decode to a text exactly when they are those that spell it, so that no text is spelled in two ways.
-/
namespace GameArchive.Text.Utf16

/-- The units that spell a character. -/
def encodeChar (c : Char) : List Nat :=
  if c.toNat < 0x10000 then [c.toNat]
  else [0xD800 + (c.toNat - 0x10000) / 0x400, 0xDC00 + (c.toNat - 0x10000) % 0x400]

/-- The units that spell a text. -/
def encodeChars (cs : List Char) : List Nat :=
  cs.flatMap encodeChar

theorem toNat_cases (c : Char) : c.toNat < 0xD800 ∨ (0xE000 ≤ c.toNat ∧ c.toNat < 0x110000) := by
  have h := c.valid
  simp only [UInt32.isValidChar, Nat.isValidChar] at h
  show c.val.toNat < _ ∨ _ ≤ c.val.toNat ∧ c.val.toNat < _
  omega

theorem toNat_ofNat {n : Nat} (h : n < 0xD800 ∨ (0xE000 ≤ n ∧ n < 0x110000)) :
    (Char.ofNat n).toNat = n := by
  have hvalid : n.isValidChar := by unfold Nat.isValidChar; omega
  rw [Char.ofNat, dif_pos hvalid]
  rfl

theorem decodeChars_cons_of_single {u : Nat} {units : List Nat} (h : u < 0xD800 ∨ 0xE000 ≤ u) :
    decodeChars (u :: units) = (decodeChars units).map (Char.ofNat u :: ·) := by
  rw [decodeChars.eq_def]
  dsimp only
  rw [if_pos h]

theorem decodeChars_cons_of_pair {u v : Nat} {units : List Nat} (hu : 0xD800 ≤ u)
    (hhigh : u < 0xDC00) (hv : 0xDC00 ≤ v ∧ v < 0xE000) :
    decodeChars (u :: v :: units) = (decodeChars units).map
      (Char.ofNat (0x10000 + 0x400 * (u - 0xD800) + (v - 0xDC00)) :: ·) := by
  rw [decodeChars.eq_def]
  dsimp only
  rw [if_neg (by omega), if_neg (by omega), if_pos hv]

theorem decodeChars_encodeChar (c : Char) (units : List Nat) :
    decodeChars (encodeChar c ++ units) = (decodeChars units).map (c :: ·) := by
  have hc := toNat_cases c
  unfold encodeChar
  split
  case isTrue hlow =>
    rw [List.singleton_append, decodeChars_cons_of_single (by omega), Char.ofNat_toNat]
  case isFalse hhigh =>
    rw [List.cons_append, List.singleton_append,
      decodeChars_cons_of_pair (by omega) (by omega) (by omega)]
    have hsum : 0x10000 + 0x400 * (0xD800 + (c.toNat - 0x10000) / 0x400 - 0xD800) +
        (0xDC00 + (c.toNat - 0x10000) % 0x400 - 0xDC00) = c.toNat := by omega
    rw [hsum, Char.ofNat_toNat]

theorem decodeChars_encodeChars (cs : List Char) : decodeChars (encodeChars cs) = some cs := by
  induction cs with
  | nil => rfl
  | cons c rest ih =>
    have hcons : encodeChars (c :: rest) = encodeChar c ++ encodeChars rest := List.flatMap_cons
    rw [hcons, decodeChars_encodeChar, ih]
    rfl

theorem encodeChars_of_decodeChars {units : List Nat} {cs : List Char}
    (hunits : ∀ u ∈ units, u < 0x10000) (h : decodeChars units = some cs) :
    encodeChars cs = units := by
  induction units using decodeChars.induct generalizing cs with
  | case1 => cases h; rfl
  | case2 u rest hsingle ih =>
    rw [decodeChars_cons_of_single hsingle] at h
    obtain ⟨tail, htail, rfl⟩ := Option.map_eq_some_iff.mp h
    obtain ⟨hu, hrest⟩ := List.forall_mem_cons.mp hunits
    have hchar : (Char.ofNat u).toNat = u := toNat_ofNat (by omega)
    show encodeChar (Char.ofNat u) ++ encodeChars tail = _
    rw [ih hrest htail, encodeChar, hchar, if_pos hu, List.singleton_append]
  | case5 u hsingle hhigh v rest hv ih =>
    rw [decodeChars_cons_of_pair (by omega) (by omega) hv] at h
    obtain ⟨tail, htail, rfl⟩ := Option.map_eq_some_iff.mp h
    obtain ⟨-, hrest⟩ := List.forall_mem_cons.mp hunits
    obtain ⟨-, hrest⟩ := List.forall_mem_cons.mp hrest
    have hchar : (Char.ofNat (0x10000 + 0x400 * (u - 0xD800) + (v - 0xDC00))).toNat =
        0x10000 + 0x400 * (u - 0xD800) + (v - 0xDC00) := toNat_ofNat (by omega)
    have hfirst : 0xD800 + (0x10000 + 0x400 * (u - 0xD800) + (v - 0xDC00) - 0x10000) / 0x400 = u := by
      omega
    have hsecond : 0xDC00 + (0x10000 + 0x400 * (u - 0xD800) + (v - 0xDC00) - 0x10000) % 0x400 = v := by
      omega
    show encodeChar (Char.ofNat _) ++ encodeChars tail = _
    rw [ih hrest htail, encodeChar, hchar, if_neg (by omega), hfirst, hsecond]
    rfl
  -- A surrogate that stands alone is refused.
  | case3 u rest hsingle hlow =>
    rw [decodeChars.eq_def] at h
    dsimp only at h
    rw [if_neg hsingle, if_pos hlow] at h
    cases h
  | case4 u hsingle hhigh =>
    rw [decodeChars.eq_def] at h
    dsimp only at h
    rw [if_neg hsingle, if_neg hhigh] at h
    cases h
  | case6 u hsingle hhigh v rest hv =>
    rw [decodeChars.eq_def] at h
    dsimp only at h
    rw [if_neg hsingle, if_neg hhigh, if_neg hv] at h
    cases h

/-- Units decode to the text that they spell, and to no other. -/
theorem decode?_eq_some_iff {units : List Nat} {text : String}
    (hunits : ∀ u ∈ units, u < 0x10000) :
    decode? units = some text ↔ units = encodeChars text.toList := by
  constructor
  · intro h
    obtain ⟨cs, hcs, rfl⟩ := Option.map_eq_some_iff.mp h
    rw [String.toList_ofList, encodeChars_of_decodeChars hunits hcs]
  · rintro rfl
    rw [decode?, decodeChars_encodeChars, Option.map_some, String.ofList_toList]

theorem lt_of_mem_encodeChars {cs : List Char} {u : Nat} (h : u ∈ encodeChars cs) :
    u < 0x10000 := by
  obtain ⟨c, -, hu⟩ := List.mem_flatMap.mp h
  have hc := toNat_cases c
  unfold encodeChar at hu
  split at hu
  · obtain rfl := List.mem_singleton.mp hu
    assumption
  · simp only [List.mem_cons, List.not_mem_nil, or_false] at hu
    omega

/-- Only the zero character is spelled with a zero unit. -/
theorem zero_mem_encodeChars {cs : List Char} : 0 ∈ encodeChars cs ↔ Char.ofNat 0 ∈ cs := by
  have hchar : ∀ c : Char, 0 ∈ encodeChar c ↔ c = Char.ofNat 0 := by
    intro c
    unfold encodeChar
    split
    · rw [List.mem_singleton, eq_comm, ← Char.toNat_inj]
      rfl
    · simp only [List.mem_cons, List.not_mem_nil, or_false]
      constructor
      · intro h
        omega
      · rintro rfl
        contradiction
  simp only [encodeChars, List.mem_flatMap, hchar, exists_eq_right]

end GameArchive.Text.Utf16
