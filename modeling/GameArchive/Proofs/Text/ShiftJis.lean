import GameArchive.Text.ShiftJis
/-!
# Texts and their codes

A byte that starts a two-byte code stands for no character on its own, so the codes of a text can be
told apart from the front, even where the second byte of one is also the code of an ASCII character.
-/
namespace GameArchive.Text.ShiftJis

/-- Whether `c` stands in the given cell, in a row that codes are taken from. -/
def StandsAt (c : Char) (row cell : Nat) : Prop :=
  (row < firstRepeatedRow ∨ endPrivateRows ≤ row) ∧
    ∃ cells, rows[row]? = some cells ∧ cells[cell]? = some c

/-- Whether that cell is the first in which `c` stands. -/
structure StandsFirstAt (c : Char) (row cell : Nat) : Prop where
  standsAt : StandsAt c row cell
  first : ∀ {row' cell'}, StandsAt c row' cell' → row < row' ∨ (row = row' ∧ cell ≤ cell')

/-- The code of a cell. Two rows share each first byte: the second bytes of the one start at 0x40
and leave out 0x7F, and those of the other start at 0x9F. -/
def cellCode (row cell : Nat) : List UInt8 :=
  [UInt8.ofNat (row / 2 + if row < 62 then 0x81 else 0xC1),
   UInt8.ofNat (cell + if row % 2 = 1 then 0x9F else if cell < 0x3F then 0x40 else 0x41)]

/-- Whether the code of `c` is a single byte. -/
def IsSingle (c : Char) : Prop :=
  c.toNat ≤ 0x80 ∨ (0xFF61 ≤ c.toNat ∧ c.toNat ≤ 0xFF9F)

/-- The code of a character, leaving out characters that share the code of another one. -/
inductive HasCode (c : Char) : List UInt8 → Prop where
  | ascii (h : c.toNat ≤ 0x80) : HasCode c [UInt8.ofNat c.toNat]
  | katakana (hfirst : 0xFF61 ≤ c.toNat) (hlast : c.toNat ≤ 0xFF9F) :
    HasCode c [UInt8.ofNat (c.toNat - 0xFF61 + 0xA1)]
  | cell {row cell : Nat} (hdouble : ¬ IsSingle c) (h : StandsFirstAt c row cell) :
    HasCode c (cellCode row cell)

/-- Whether `c` has a code. -/
def Representable (c : Char) : Prop :=
  ∃ code, HasCode c code

/-- The codes of characters, one after another. -/
inductive Spells : List Char → List UInt8 → Prop where
  | nil : Spells [] []
  | cons {c cs code rest} (h : HasCode c code) (hrest : Spells cs rest) :
    Spells (c :: cs) (code ++ rest)

/-- Whether `c` is read back from a field: a text ends at the zero character, and the yen sign, the
overline and the minus sign share the code of another character. -/
structure ReadsBack (c : Char) : Prop where
  zero : c.toNat ≠ 0
  yen : c.toNat ≠ 0xA5
  overline : c.toNat ≠ 0x203E
  minus : c.toNat ≠ 0x2212

section Cells

variable {c : Char} {pointer : Nat}

theorem length_rows : rows.length = 120 := by
  unfold rows
  rw [List.length_map]
  rfl

theorem length_le_of_getElem? {row : Nat} {cells : List Char} (h : rows[row]? = some cells) :
    cells.length ≤ rowLength := by
  obtain ⟨text, -, rfl⟩ := List.mem_map.mp (List.mem_of_getElem? h)
  exact List.length_take_le _ _

theorem StandsAt.lt {row cell : Nat} (h : StandsAt c row cell) : row < 120 ∧ cell < rowLength := by
  obtain ⟨-, cells, hrow, hcell⟩ := h
  have hlt := (List.getElem?_eq_some_iff.mp hrow).1
  have hlt' := (List.getElem?_eq_some_iff.mp hcell).1
  rw [length_rows] at hlt
  exact ⟨hlt, Nat.lt_of_lt_of_le hlt' (length_le_of_getElem? hrow)⟩

theorem StandsFirstAt.unique {row cell row' cell' : Nat} (h : StandsFirstAt c row cell)
    (h' : StandsFirstAt c row' cell') : row = row' ∧ cell = cell' := by
  have hle := h.first h'.standsAt
  have hle' := h'.first h.standsAt
  omega

theorem isSome_pointerOf {row cell : Nat} (h : StandsAt c row cell) : (pointerOf c).isSome := by
  obtain ⟨hsource, cells, hrow, hcell⟩ := h
  refine List.findSome?_isSome_iff.mpr ⟨_, List.mk_mem_zipIdx_iff_getElem?.mpr hrow, ?_⟩
  dsimp only
  rw [if_neg (by omega), Option.isSome_map]
  exact List.isSome_idxOf?.mpr (List.mem_of_getElem? hcell)

/-- The rows are searched in order, and so are the cells of each. -/
theorem standsFirstAt_of_pointerOf (h : pointerOf c = some pointer) :
    ∃ row cell, StandsFirstAt c row cell ∧ pointer = rowLength * row + cell := by
  obtain ⟨before, ⟨cells, row⟩, after, hsplit, hfound, hbefore⟩ := List.findSome?_eq_some_iff.mp h
  have hnumbered : rows.zipIdx[before.length]? = some (cells, row) := by
    rw [hsplit, List.getElem?_append_right (Nat.le_refl _), Nat.sub_self, List.getElem?_cons_zero]
  rw [List.getElem?_zipIdx, Nat.zero_add] at hnumbered
  obtain ⟨_, hrow, heq⟩ := Option.map_eq_some_iff.mp hnumbered
  cases heq
  dsimp only at hfound
  split at hfound
  case isTrue => cases hfound
  case isFalse hsource =>
    obtain ⟨cell, hidx, rfl⟩ := Option.map_eq_some_iff.mp hfound
    obtain ⟨hlt, hcell, hfirst⟩ := List.idxOf?_eq_some_iff.mp hidx
    refine ⟨before.length, cell, ⟨⟨by omega, cells, hrow, ?_⟩, ?_⟩, rfl⟩
    · rw [List.getElem?_eq_getElem hlt, hcell]
    · intro row' cell' hat
      obtain ⟨hsource', cells', hrow', hcell'⟩ := hat
      rcases Nat.lt_trichotomy before.length row' with hlt' | rfl | hlt'
      · exact Or.inl hlt'
      · cases hrow.symm.trans hrow'
        obtain ⟨hlt', hcell'⟩ := List.getElem?_eq_some_iff.mp hcell'
        exact Or.inr ⟨rfl, Nat.le_of_not_lt fun hlt => hfirst cell' hlt hcell'⟩
      · -- An earlier row would have been found.
        have hmem : (cells', row') ∈ before := by
          apply List.mem_of_getElem? (i := row')
          rw [← List.getElem?_append_left hlt', ← hsplit, List.getElem?_zipIdx, hrow', Nat.zero_add]
          rfl
        have hnone := hbefore _ hmem
        dsimp only at hnone
        rw [if_neg (by omega), Option.map_eq_none_iff, List.idxOf?_eq_none_iff] at hnone
        exact absurd (List.mem_of_getElem? hcell') hnone

theorem pointerOf_eq_some_iff : pointerOf c = some pointer ↔
    ∃ row cell, StandsFirstAt c row cell ∧ pointer = rowLength * row + cell := by
  constructor
  · exact standsFirstAt_of_pointerOf
  · intro h
    obtain ⟨row, cell, hfirst, rfl⟩ := h
    obtain ⟨found, hfound⟩ := Option.isSome_iff_exists.mp (isSome_pointerOf hfirst.standsAt)
    obtain ⟨row', cell', hfirst', rfl⟩ := standsFirstAt_of_pointerOf hfound
    obtain ⟨rfl, rfl⟩ := hfirst.unique hfirst'
    exact hfound

/-- A character of the first row has the number of its cell. -/
theorem pointerOf_of_first_row (pre : List Char) {post : List Char} {texts : List String}
    (htexts : rowTexts = String.ofList (pre ++ c :: post) :: texts) (hpre : c ∉ pre)
    (hlt : pre.length < rowLength) : pointerOf c = some pre.length := by
  have hidx : ((pre ++ c :: post).take rowLength).idxOf? c = some pre.length := by
    rw [List.idxOf?_eq_some_iff]
    refine ⟨?_, ?_, ?_⟩
    · rw [List.length_take, List.length_append, List.length_cons]
      omega
    · rw [List.getElem_take, List.getElem_append_right (Nat.le_refl _)]
      simp
    · intro j hj hjc
      rw [List.getElem_take, List.getElem_append_left hj] at hjc
      exact hpre (hjc ▸ List.getElem_mem hj)
  unfold pointerOf rows
  rw [htexts, List.map_cons, List.zipIdx_cons, List.findSome?_cons, String.toList_ofList]
  dsimp only
  rw [if_neg (by decide), hidx, Option.map_some, Nat.mul_zero, Nat.zero_add]

theorem characterAt_of_standsAt {row cell : Nat} (h : StandsAt c row cell) (hc : c ≠ '.') :
    characterAt (rowLength * row + cell) = some c := by
  have hcell := h.lt.2
  obtain ⟨hsource, cells, hrow, hat⟩ := h
  have hdiv : (rowLength * row + cell) / rowLength = row := by
    rw [Nat.mul_add_div (by decide), Nat.div_eq_of_lt hcell, Nat.add_zero]
  have hmod : (rowLength * row + cell) % rowLength = cell := by
    rw [Nat.mul_add_mod, Nat.mod_eq_of_lt hcell]
  unfold characterAt
  dsimp only
  rw [hdiv, hmod, if_neg (by unfold firstPrivateRow firstRepeatedRow at *; omega), hrow]
  dsimp only
  rw [hat]
  simp [hc]

theorem pointerBytes_eq {row cell : Nat} (hcell : cell < rowLength) :
    pointerBytes (rowLength * row + cell) = cellCode row cell := by
  unfold rowLength at *
  have hdiv : (94 * row + cell) / 188 = row / 2 := by omega
  have hlead : row / 2 < 0x1F ↔ row < 62 := by omega
  have htrail : ((94 * row + cell) % 188 + if (94 * row + cell) % 188 < 0x3F then 0x40 else 0x41) =
      cell + if row % 2 = 1 then 0x9F else if cell < 0x3F then 0x40 else 0x41 := by
    have hmod : (94 * row + cell) % 188 = 94 * (row % 2) + cell := by omega
    rw [hmod]
    rcases Nat.mod_two_eq_zero_or_one row with heven | hodd
    · rw [heven, Nat.mul_zero, Nat.zero_add, if_neg Nat.zero_ne_one]
    · rw [hodd, if_neg (by omega), if_pos rfl]
      omega
  unfold pointerBytes cellCode
  dsimp only
  rw [hdiv, htrail]
  simp only [hlead]

end Cells

section Codes

variable {c : Char} {code : List UInt8}

theorem decodeChars_cons_of_single {b : UInt8} (h : single? b = some c) (rest : List UInt8) :
    decodeChars (b :: rest) = c :: decodeChars rest := by
  rw [decodeChars.eq_def]
  dsimp only
  rw [h]

theorem decodeChars_cons_of_pair {lead trail : UInt8} {pointer : Nat} (hsingle : single? lead = none)
    (hlead : isLead lead = true) (hpointer : pointer? lead trail = some pointer)
    (hc : characterAt pointer = some c) (rest : List UInt8) :
    decodeChars (lead :: trail :: rest) = c :: decodeChars rest := by
  rw [decodeChars.eq_def]
  dsimp only
  rw [hsingle]
  dsimp only
  rw [if_pos hlead, hpointer, Option.bind_some, hc]

theorem isLead_iff {b : UInt8} : isLead b = true ↔
    (0x81 ≤ b.toNat ∧ b.toNat ≤ 0x9F) ∨ (0xE0 ≤ b.toNat ∧ b.toNat ≤ 0xFC) := by
  simp [isLead, UInt8.le_iff_toNat_le]

theorem single?_eq_none {b : UInt8} (h : isLead b = true) : single? b = none := by
  rw [isLead_iff] at h
  unfold single?
  dsimp only
  rw [if_neg (by omega), if_neg (by omega)]

theorem pointer?_eq_some {lead trail : UInt8} {l t : Nat} (ht : t < 188)
    (hlead : lead.toNat = l + if l < 0x1F then 0x81 else 0xC1)
    (htrail : trail.toNat = t + if t < 0x3F then 0x40 else 0x41) :
    pointer? lead trail = some (188 * l + t) := by
  have hl : lead.toNat - (if lead < 0xA0 then 0x81 else 0xC1) = l := by
    have hiff : lead < 0xA0 ↔ l < 0x1F := by
      rw [UInt8.lt_iff_toNat_lt, hlead]
      show _ < 160 ↔ _
      split <;> omega
    rw [hlead]
    simp only [hiff]
    omega
  unfold pointer?
  rw [hl, htrail]
  dsimp only
  by_cases hlow : t < 0x3F
  · rw [if_pos hlow, if_pos (by omega), Nat.add_sub_cancel]
  · rw [if_neg hlow, if_neg (by omega), if_pos (by omega), Nat.add_sub_cancel]

theorem toNat_lead {l : Nat} (hl : l < 60) :
    (UInt8.ofNat (l + if l < 0x1F then 0x81 else 0xC1)).toNat =
      l + if l < 0x1F then 0x81 else 0xC1 := by
  apply UInt8.toNat_ofNat_of_lt
  show _ < 256
  split <;> omega

theorem toNat_trail {t : Nat} (ht : t < 188) :
    (UInt8.ofNat (t + if t < 0x3F then 0x40 else 0x41)).toNat =
      t + if t < 0x3F then 0x40 else 0x41 := by
  apply UInt8.toNat_ofNat_of_lt
  show _ < 256
  split <;> omega

/-- The two bytes of a cell name it, and the first of them is no character. -/
theorem exists_pair_of_pointer {pointer : Nat} (h : pointer < 120 * rowLength) :
    ∃ lead trail : UInt8, pointerBytes pointer = [lead, trail] ∧ isLead lead = true ∧
      pointer? lead trail = some pointer ∧ 0x40 ≤ trail.toNat := by
  have hl : pointer / 188 < 60 := by unfold rowLength at h; omega
  have ht : pointer % 188 < 188 := Nat.mod_lt _ (by decide)
  refine ⟨_, _, rfl, ?_, ?_, ?_⟩
  · rw [isLead_iff, toNat_lead hl]
    split <;> omega
  · rw [pointer?_eq_some ht (toNat_lead hl) (toNat_trail ht), Nat.div_add_mod]
  · rw [toNat_trail ht]
    split <;> omega

/-- What it takes that a code can be followed by any others and be told from them. -/
structure Separates (c : Char) (code : List UInt8) : Prop where
  decodeChars : ∀ rest, decodeChars (code ++ rest) = c :: decodeChars rest
  ne_zero : ∀ b ∈ code, b ≠ 0

theorem separates_of_single {b : UInt8} (h : single? b = some c) (hb : b.toNat ≠ 0) :
    Separates c [b] where
  decodeChars rest := decodeChars_cons_of_single h rest
  ne_zero := by
    intro b' hb' hzero
    rw [← List.mem_singleton.mp hb', hzero] at hb
    exact hb rfl

theorem separates_of_ascii (hascii : c.toNat ≤ 0x80) (hzero : c.toNat ≠ 0) :
    Separates c [UInt8.ofNat c.toNat] := by
  have hb : (UInt8.ofNat c.toNat).toNat = c.toNat :=
    UInt8.toNat_ofNat_of_lt (show c.toNat < 256 by omega)
  apply separates_of_single
  · unfold single?
    rw [hb]
    dsimp only
    rw [if_pos hascii, Char.ofNat_toNat]
  · rwa [hb]

theorem separates_of_katakana (h : 0xFF61 ≤ c.toNat ∧ c.toNat ≤ 0xFF9F) :
    Separates c [UInt8.ofNat (c.toNat - 0xFF61 + 0xA1)] := by
  have hb : (UInt8.ofNat (c.toNat - 0xFF61 + 0xA1)).toNat = c.toNat - 0xFF61 + 0xA1 :=
    UInt8.toNat_ofNat_of_lt (show c.toNat - 0xFF61 + 0xA1 < 256 by omega)
  apply separates_of_single
  · unfold single?
    rw [hb]
    dsimp only
    rw [if_neg (by omega), if_pos (by omega), Nat.add_sub_cancel, Nat.add_sub_cancel' h.1,
      Char.ofNat_toNat]
  · omega

theorem separates_of_standsAt {row cell : Nat} (h : StandsAt c row cell) (hc : c ≠ '.') :
    Separates c (cellCode row cell) := by
  obtain ⟨hrow, hcell⟩ := h.lt
  have hpointer : rowLength * row + cell < 120 * rowLength := by
    unfold rowLength at *
    omega
  rw [← pointerBytes_eq hcell]
  obtain ⟨lead, trail, hbytes, hlead, hnamed, htrail⟩ := exists_pair_of_pointer hpointer
  rw [hbytes]
  constructor
  · exact decodeChars_cons_of_pair (single?_eq_none hlead) hlead hnamed (characterAt_of_standsAt h hc)
  · intro b hb hzero
    subst hzero
    rcases List.mem_cons.mp hb with rfl | hb
    · exact absurd hlead (by decide)
    · rw [← List.mem_singleton.mp hb] at htrail
      exact absurd htrail (by decide)

theorem HasCode.separates (h : HasCode c code) (hc : c.toNat ≠ 0) : Separates c code := by
  cases h with
  | ascii h => exact separates_of_ascii h hc
  | katakana hfirst hlast => exact separates_of_katakana ⟨hfirst, hlast⟩
  | cell hdouble h =>
    apply separates_of_standsAt h.standsAt
    intro hdot
    subst hdot
    exact hdouble (Or.inl (by decide))

theorem encodeChar_eq (hc : ReadsBack c) : encodeChar c =
    if c.toNat ≤ 0x80 then some [UInt8.ofNat c.toNat]
    else if 0xFF61 ≤ c.toNat ∧ c.toNat ≤ 0xFF9F then some [UInt8.ofNat (c.toNat - 0xFF61 + 0xA1)]
    else (pointerOf c).map pointerBytes := by
  unfold encodeChar
  dsimp only
  rw [if_neg hc.yen, if_neg hc.overline, if_neg hc.minus]

theorem encodeChar_eq_some_iff (hc : ReadsBack c) : encodeChar c = some code ↔ HasCode c code := by
  rw [encodeChar_eq hc]
  constructor
  · intro h
    split at h
    case isTrue hascii =>
      cases h
      exact .ascii hascii
    case isFalse hascii =>
      split at h
      case isTrue hkatakana =>
        cases h
        exact .katakana hkatakana.1 hkatakana.2
      case isFalse hkatakana =>
        obtain ⟨pointer, hpointer, rfl⟩ := Option.map_eq_some_iff.mp h
        obtain ⟨row, cell, hfirst, rfl⟩ := pointerOf_eq_some_iff.mp hpointer
        rw [pointerBytes_eq hfirst.standsAt.lt.2]
        exact .cell (not_or.mpr ⟨hascii, hkatakana⟩) hfirst
  · intro h
    cases h with
    | ascii h => rw [if_pos h]
    | katakana hfirst hlast => rw [if_neg (by omega), if_pos ⟨hfirst, hlast⟩]
    | cell hdouble h =>
      obtain ⟨hascii, hkatakana⟩ := not_or.mp hdouble
      rw [if_neg hascii, if_neg hkatakana, pointerOf_eq_some_iff.mpr ⟨_, _, h, rfl⟩,
        Option.map_some, pointerBytes_eq h.standsAt.lt.2]

end Codes

section Texts

variable {cs : List Char} {bytes : List UInt8}

theorem encodeChars_eq_some_iff (hcs : ∀ c ∈ cs, ReadsBack c) :
    encodeChars cs = some bytes ↔ Spells cs bytes := by
  induction cs generalizing bytes with
  | nil =>
    constructor
    · intro h
      cases h
      exact .nil
    · intro h
      cases h
      rfl
  | cons c rest ih =>
    obtain ⟨hc, hrest⟩ := List.forall_mem_cons.mp hcs
    constructor
    · intro h
      unfold encodeChars at h
      split at h
      case h_1 code tail hcode htail =>
        cases h
        exact .cons ((encodeChar_eq_some_iff hc).mp hcode) ((ih hrest).mp htail)
      case h_2 => cases h
    · intro h
      cases h with
      | cons hcode htail =>
        unfold encodeChars
        rw [(encodeChar_eq_some_iff hc).mpr hcode, (ih hrest).mpr htail]

theorem Spells.unique {bytes' : List UInt8} (hcs : ∀ c ∈ cs, ReadsBack c) (h : Spells cs bytes)
    (h' : Spells cs bytes') : bytes = bytes' := by
  rw [← encodeChars_eq_some_iff hcs] at h h'
  exact Option.some.inj (h.symm.trans h')

theorem exists_spells_iff : (∃ bytes, Spells cs bytes) ↔ ∀ c ∈ cs, Representable c := by
  induction cs with
  | nil => exact ⟨fun _ c hc => absurd hc List.not_mem_nil, fun _ => ⟨[], .nil⟩⟩
  | cons c rest ih =>
    rw [List.forall_mem_cons, ← ih]
    constructor
    · intro h
      obtain ⟨bytes, h⟩ := h
      cases h with
      | cons hcode hrest => exact ⟨⟨_, hcode⟩, _, hrest⟩
    · intro h
      obtain ⟨⟨code, hcode⟩, tail, hrest⟩ := h
      exact ⟨_, .cons hcode hrest⟩

/-- Codes are read one after another, and none of them has a zero byte. -/
theorem Spells.separates (h : Spells cs bytes) (hcs : ∀ c ∈ cs, ReadsBack c) :
    decodeChars bytes = cs ∧ ∀ b ∈ bytes, b ≠ 0 := by
  induction h with
  | nil => exact ⟨rfl, fun b hb => absurd hb List.not_mem_nil⟩
  | cons hcode hrest ih =>
    obtain ⟨hc, hcs⟩ := List.forall_mem_cons.mp hcs
    obtain ⟨hfront, hne⟩ := hcode.separates hc.zero
    obtain ⟨hdecode, hne'⟩ := ih hcs
    constructor
    · rw [hfront, hdecode]
    · intro b hb
      rcases List.mem_append.mp hb with hb | hb
      · exact hne b hb
      · exact hne' b hb

end Texts

end GameArchive.Text.ShiftJis
