import GameArchive.Proofs.Flat.Opening
import GameArchive.Proofs.Regions
/-!
# Headers and the directories behind them

The headers of each format as texts of bytes, apart from how a reader takes the count out of them.
A directory is read exactly where such a header stands and the buffer has room for as many records
as it states.
-/
namespace GameArchive

namespace FlatFormat

variable {f : FlatFormat} {data : Bytes} {count : Nat}

/-- The headers that state a count. Bytes that are reserved may hold anything. -/
inductive Header : FlatFormat → (count : Nat) → List UInt8 → Prop
  | pspfs {variant : PspfsVariant} {count : Nat} (hvariant : variant ≠ .makaiKingdom)
      (hcount : count < numberBound 8) :
      Header (.pspfs variant) count (pspfsMagic ++ toLittleEndian 8 count)
  | makaiKingdom {count : Nat} {reserved : List UInt8} (hreserved : reserved.length = 4)
      (hcount : count < numberBound 4) :
      Header (.pspfs .makaiKingdom) count (pspfsMagic ++ (toLittleEndian 4 count ++ reserved))
  | dsarc {count : Nat} (hcount : count < numberBound 8) :
      Header (.startDat .dsarc) count (dsarcMagic ++ toLittleEndian 8 count)
  | endOffsetMagic {count : Nat} (hcount : count < numberBound 8) :
      Header (.startDat .endOffset) count (dsarcMagic ++ toLittleEndian 8 count)
  | endOffsetPlain {count : Nat} {reserved : List UInt8} (hreserved : reserved.length = 12)
      (hcount : count < numberBound 4)
      (hplain : ¬ dsarcMagic <+: toLittleEndian 4 count ++ reserved) :
      Header (.startDat .endOffset) count (toLittleEndian 4 count ++ reserved)
  | offsetOnly {count : Nat} (hcount : count < numberBound 4) :
      Header (.startDat .offsetOnly) count (toLittleEndian 4 count)
  | nispack {count : Nat} (hcount : count < numberBound 4) :
      Header .nispack count (nispackMagic ++ (toLittleEndian 4 0 ++ toLittleEndian 4 count))

theorem Header.length_eq {header : List UInt8} (h : f.Header count header) :
    header.length = f.headerSize := by
  cases h with
  | @pspfs variant _ hvariant =>
    cases variant with
    | makaiKingdom => exact absurd rfl hvariant
    | _ => rfl
  | makaiKingdom hreserved => simp [hreserved, pspfsMagic, headerSize]
  | endOffsetPlain hreserved => simp [hreserved, headerSize]
  | _ => rfl

theorem exists_header_of_readCount (h : f.readCount data = .ok count)
    (hsize : f.headerSize ≤ data.size) :
    ∃ header, f.Header count header ∧ data.HoldsAt 0 header := by
  -- Behind the count there is room for what is reserved.
  have hroom : ∀ {a : List UInt8} (length : Nat), data.HoldsAt 0 a →
      a.length + length ≤ data.size →
      ∃ reserved, reserved.length = length ∧ data.HoldsAt 0 (a ++ reserved) := by
    intro a length ha hfit
    obtain ⟨reserved, hlength, hreserved⟩ := Bytes.exists_holdsAt_iff.mpr hfit
    exact ⟨reserved, hlength, Bytes.holdsAt_append.mpr ⟨ha, by rwa [Nat.zero_add]⟩⟩
  rcases f with variant | variant | _
  case pspfs =>
    cases variant with
    | makaiKingdom =>
      obtain ⟨⟨⟩, hmagic, hword⟩ := bind_eq_ok.mp h
      obtain ⟨hlt, hcount⟩ := Bytes.word_eq_ok_iff.mp hword
      have hstated := Bytes.holdsAt_append.mpr ⟨Bytes.expectMagic_eq_ok_iff.mp hmagic, hcount⟩
      obtain ⟨reserved, hlength, hheader⟩ := hroom 4 hstated hsize
      exact ⟨_, .makaiKingdom hlength hlt, by rwa [← List.append_assoc]⟩
    | _ =>
      obtain ⟨⟨⟩, hmagic, hword⟩ := bind_eq_ok.mp h
      obtain ⟨hlt, hcount⟩ := Bytes.word_eq_ok_iff.mp hword
      exact ⟨_, .pspfs nofun hlt,
        Bytes.holdsAt_append.mpr ⟨Bytes.expectMagic_eq_ok_iff.mp hmagic, hcount⟩⟩
  case startDat =>
    cases variant with
    | endOffset =>
      obtain ⟨header, hslice, hword⟩ := bind_eq_ok.mp h
      obtain ⟨hlength, hheader⟩ := Bytes.holdsAt_of_slice hslice
      split at hword
      case isTrue hmagic =>
        obtain ⟨rest, hrest⟩ := List.isPrefixOf_iff_prefix.mp hmagic
        rw [← hrest] at hheader
        obtain ⟨hlt, hcount⟩ := Bytes.word_eq_ok_iff.mp hword
        exact ⟨_, .endOffsetMagic hlt,
          Bytes.holdsAt_append.mpr ⟨(Bytes.holdsAt_append.mp hheader).1, hcount⟩⟩
      case isFalse hplain =>
        obtain ⟨hlt, hcount⟩ := Bytes.word_eq_ok_iff.mp hword
        obtain ⟨reserved, hreserved, hstated⟩ := hroom 12 hcount hsize
        have hsame : header.toList = toLittleEndian 4 count ++ reserved :=
          hheader.unique hstated (by simp [hlength, hreserved])
        rw [List.isPrefixOf_iff_prefix, hsame] at hplain
        exact ⟨_, .endOffsetPlain hreserved hlt hplain, hstated⟩
    | dsarc =>
      obtain ⟨⟨⟩, hmagic, hword⟩ := bind_eq_ok.mp h
      obtain ⟨hlt, hcount⟩ := Bytes.word_eq_ok_iff.mp hword
      exact ⟨_, .dsarc hlt,
        Bytes.holdsAt_append.mpr ⟨Bytes.expectMagic_eq_ok_iff.mp hmagic, hcount⟩⟩
    | offsetOnly =>
      obtain ⟨hlt, hcount⟩ := Bytes.word_eq_ok_iff.mp h
      exact ⟨_, .offsetOnly hlt, hcount⟩
  case nispack =>
    obtain ⟨⟨⟩, hmagic, h⟩ := bind_eq_ok.mp h
    obtain ⟨flag, hflag, h⟩ := bind_eq_ok.mp h
    split at h
    case isTrue hzero =>
      subst hzero
      obtain ⟨-, hflag⟩ := Bytes.word_eq_ok_iff.mp hflag
      obtain ⟨hlt, hcount⟩ := Bytes.word_eq_ok_iff.mp h
      exact ⟨_, .nispack hlt, Bytes.holdsAt_append.mpr ⟨Bytes.expectMagic_eq_ok_iff.mp hmagic,
        Bytes.holdsAt_append.mpr ⟨hflag, hcount⟩⟩⟩
    case isFalse => cases h

theorem Header.readCount_eq {header : List UInt8} (h : f.Header count header)
    (hdata : data.HoldsAt 0 header) : f.readCount data = .ok count := by
  have hmagic : ∀ {expected}, data.HoldsAt 0 expected → data.expectMagic 0 expected = .ok () :=
    Bytes.expectMagic_eq_ok_iff.mpr
  have hword : ∀ {offset width n}, n < numberBound width →
      data.HoldsAt offset (toLittleEndian width n) → data.word offset width = .ok n :=
    fun hlt hn => Bytes.word_eq_ok_iff.mpr ⟨hlt, hn⟩
  cases h with
  | @pspfs variant _ hvariant hcount =>
    obtain ⟨hstart, hstated⟩ := Bytes.holdsAt_append.mp hdata
    cases variant with
    | makaiKingdom => exact absurd rfl hvariant
    | _ => exact bind_eq_ok.mpr ⟨(), hmagic hstart, hword hcount hstated⟩
  | makaiKingdom hreserved hcount =>
    obtain ⟨hstart, hstated⟩ := Bytes.holdsAt_append.mp hdata
    exact bind_eq_ok.mpr ⟨(), hmagic hstart, hword hcount (Bytes.holdsAt_append.mp hstated).1⟩
  | dsarc hcount =>
    obtain ⟨hstart, hstated⟩ := Bytes.holdsAt_append.mp hdata
    exact bind_eq_ok.mpr ⟨(), hmagic hstart, hword hcount hstated⟩
  | endOffsetMagic hcount =>
    refine bind_eq_ok.mpr ⟨_, hdata.slice_eq rfl, ?_⟩
    rw [if_pos (List.isPrefixOf_iff_prefix.mpr (List.prefix_append _ _))]
    exact hword hcount (Bytes.holdsAt_append.mp hdata).2
  | endOffsetPlain hreserved hcount hplain =>
    refine bind_eq_ok.mpr ⟨_, hdata.slice_eq (by simp [hreserved]), ?_⟩
    rw [if_neg (by rwa [List.isPrefixOf_iff_prefix])]
    exact hword hcount (Bytes.holdsAt_append.mp hdata).1
  | offsetOnly hcount => exact hword hcount hdata
  | nispack hcount =>
    obtain ⟨hstart, hstated⟩ := Bytes.holdsAt_append.mp hdata
    obtain ⟨hflag, hstated⟩ := Bytes.holdsAt_append.mp hstated
    refine bind_eq_ok.mpr ⟨(), hmagic hstart, bind_eq_ok.mpr ⟨0, hword (by decide) hflag, ?_⟩⟩
    exact hword hcount hstated

/-- START.DAT archives that state ends start with any 16 bytes. -/
theorem exists_header_endOffset :
    (∃ count header, Header (.startDat .endOffset) count header ∧ data.HoldsAt 0 header) ↔
      0x10 ≤ data.size := by
  constructor
  · rintro ⟨count, header, hheader, hdata⟩
    have hfits := hdata.fits
    rwa [hheader.length_eq, Nat.zero_add] at hfits
  · intro hsize
    obtain ⟨count, hcount⟩ : ∃ count, readCount (.startDat .endOffset) data = .ok count := by
      rw [readCount, Bytes.slice_of_le hsize]
      dsimp only [bind, Except.bind]
      split
      · exact Bytes.exists_word hsize
      · exact Bytes.exists_word (Nat.le_trans (by decide) hsize)
    exact ⟨count, exists_header_of_readCount hcount hsize⟩

/-- START.DAT archives that state starts begin with any count. -/
theorem exists_header_offsetOnly :
    (∃ count header, Header (.startDat .offsetOnly) count header ∧ data.HoldsAt 0 header) ↔
      4 ≤ data.size := by
  constructor
  · rintro ⟨count, header, hheader, hdata⟩
    have hfits := hdata.fits
    rwa [hheader.length_eq, Nat.zero_add] at hfits
  · intro hsize
    obtain ⟨count, hcount⟩ : ∃ count, data.word 0 4 = .ok count := Bytes.exists_word hsize
    exact ⟨count, exists_header_of_readCount hcount hsize⟩

/-- Whether records stand in a buffer behind a header that states how many they are. -/
structure HasDirectory (f : FlatFormat) (data : Bytes) (count : Nat) : Prop where
  header : ∃ header, f.Header count header ∧ data.HoldsAt 0 header
  fits : f.headerSize + count * f.layout.size ≤ data.size

/-- The directory that stands in a buffer. -/
def HasDirectory.table (h : f.HasDirectory data count) : Table f.layout :=
  ⟨data, f.headerSize, 0, count, h.fits⟩

theorem HasDirectory.readCount_eq (h : f.HasDirectory data count) :
    f.readCount data = .ok count := by
  obtain ⟨header, hheader, hdata⟩ := h.header
  exact hheader.readCount_eq hdata

theorem HasDirectory.count_unique {n : Nat} (h : f.HasDirectory data count)
    (hn : f.HasDirectory data n) : n = count :=
  Except.ok.inj (hn.readCount_eq.symm.trans h.readCount_eq)

/-- A directory is read exactly where one stands. No buffer in memory is so large that the size of
its records would pass the bound of lengths. -/
theorem readDirectory_eq_ok {t : Table f.layout} (hsize : data.size < wordLimit) :
    f.readDirectory data = .ok t ↔ ∃ count, ∃ h : f.HasDirectory data count, t = h.table := by
  rw [readDirectory, bind_eq_ok]
  constructor
  · rintro ⟨count, hcount, ht⟩
    obtain ⟨_, _, _, _, hfits⟩ := t
    obtain ⟨hdata, hoffset, hlength, hstated, -⟩ := Table.ofCount_eq_ok.mp ht
    dsimp only at hdata hoffset hlength hstated
    subst hdata hoffset hlength hstated
    exact ⟨_, ⟨exists_header_of_readCount hcount (by omega), hfits⟩, rfl⟩
  · rintro ⟨count, h, rfl⟩
    have hfits := h.fits
    exact ⟨count, h.readCount_eq,
      Table.ofCount_eq_ok.mpr ⟨rfl, rfl, rfl, rfl, by omega⟩⟩

end FlatFormat

/-- Opening reads a directory and what it lists, and then looks at the extents only. -/
theorem FlatArchive.ofBytes_eq_ok_iff_lists {f : FlatFormat} {data : Bytes} {a : FlatArchive f}
    (hsize : data.size < wordLimit) : ofBytes f data = .ok a ↔
    ∃ count, ∃ h : f.HasDirectory data count, a.directory = h.table ∧
      f.readEntries h.table = .ok a.entries ∧
      checkExtents data.size f.isDisjoint a.entries = .ok () := by
  constructor
  · intro h
    obtain ⟨t, ht, h⟩ := bind_eq_ok.mp h
    obtain ⟨entries, hentries, h⟩ := bind_eq_ok.mp h
    obtain ⟨⟨⟩, hextents, h⟩ := bind_eq_ok.mp h
    cases h
    obtain ⟨count, hdirectory, rfl⟩ := (FlatFormat.readDirectory_eq_ok hsize).mp ht
    exact ⟨count, hdirectory, rfl, hentries, hextents⟩
  · obtain ⟨t, entries⟩ := a
    rintro ⟨count, h, rfl, hentries, hextents⟩
    have ht := (FlatFormat.readDirectory_eq_ok hsize).mpr ⟨count, h, rfl⟩
    exact bind_eq_ok.mpr ⟨_, ht, bind_eq_ok.mpr ⟨_, hentries, bind_eq_ok.mpr ⟨(), hextents, rfl⟩⟩⟩

end GameArchive
