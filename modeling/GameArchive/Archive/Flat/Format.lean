import GameArchive.Record.Layout
/-! Flat formats: one directory of records in front of the payloads. They differ in the header, in
the shape of the records, and in what these say of the payloads. -/
namespace GameArchive

/-- The shapes of PSPFS records. -/
inductive PspfsVariant where
  /-- Names of 40 bytes. -/
  | pcSwitch
  /-- Names of 24 bytes. -/
  | psp
  /-- Names of 20 bytes, and the decompressed size. -/
  | makaiKingdom
  deriving DecidableEq

/-- The shapes of START.DAT records. -/
inductive StartDatVariant where
  /-- Each record says where its payload ends. -/
  | endOffset
  /-- Each record says where its payload starts and how long it is. -/
  | dsarc
  /-- Each record says where its payload starts. -/
  | offsetOnly
  deriving DecidableEq

/-- The flat formats. -/
inductive FlatFormat where
  | pspfs (variant : PspfsVariant)
  | startDat (variant : StartDatVariant)
  | nispack
  deriving DecidableEq

/-- How records say where their payloads lie. -/
inductive Placing where
  /-- By offset and size, some with the decompressed size. -/
  | explicit (offset size : Field) (decompressed : Option Field)
  /-- By the end, counted from the end of the directory. Payloads follow each other in the order
  of their ends. -/
  | ends (field : Field)
  /-- By the offset. Each payload ends where the next one starts, the last at the end of the
  archive. -/
  | starts (field : Field)

/-- The fields that a placing uses. -/
def Placing.fields : Placing → List Field
  | explicit offset size decompressed => offset :: size :: decompressed.toList
  | ends field => [field]
  | starts field => [field]

namespace FlatFormat

/-- A field that holds a name. -/
def nameAt (position width : Nat) : Field := ⟨"filename", position, .text width⟩

/-- A field that holds the offset of a payload. -/
def offsetAt (position : Nat) : Field := ⟨"offset", position, .u32⟩

/-- A field that holds the size of a payload. -/
def sizeAt (position : Nat) : Field := ⟨"size", position, .u32⟩

/-- A field that holds the size of a payload after decompression. -/
def decompressedSizeAt (position : Nat) : Field := ⟨"decompressed_size", position, .u32⟩

/-- A field that holds the end of a payload. -/
def endAt (position : Nat) : Field := ⟨"raw_end_offset", position, .u32⟩

/-- The field that holds the name. -/
def nameField : FlatFormat → Field
  | .pspfs .pcSwitch => nameAt 0x00 0x28
  | .pspfs .psp => nameAt 0x00 0x18
  | .pspfs .makaiKingdom => nameAt 0x00 0x14
  | .startDat .endOffset => nameAt 0x04 28
  | .startDat .dsarc => nameAt 0x00 40
  | .startDat .offsetOnly => nameAt 0x04 27
  | .nispack => nameAt 0x00 32

/-- The fields that say where a payload lies. -/
def placing : FlatFormat → Placing
  | .pspfs .pcSwitch => .explicit (offsetAt 0x30) (sizeAt 0x2C) none
  | .pspfs .psp => .explicit (offsetAt 0x1C) (sizeAt 0x18) none
  | .pspfs .makaiKingdom =>
    .explicit (offsetAt 0x1C) (sizeAt 0x18) (some (decompressedSizeAt 0x14))
  | .startDat .endOffset => .ends (endAt 0x00)
  | .startDat .dsarc => .explicit (offsetAt 0x2C) (sizeAt 0x28) none
  | .startDat .offsetOnly => .starts (offsetAt 0x00)
  | .nispack => .explicit (offsetAt 0x20) (sizeAt 0x24) none

/-- The layout of a record. -/
def layout : FlatFormat → Layout
  | .pspfs .pcSwitch => ⟨"pspfs entry (PC/Switch)", 0x34,
      [nameAt 0x00 0x28, ⟨"reserved", 0x28, .bytes 4⟩, sizeAt 0x2C, offsetAt 0x30]⟩
  | .pspfs .psp => ⟨"pspfs entry (PSP)", 0x20, [nameAt 0x00 0x18, sizeAt 0x18, offsetAt 0x1C]⟩
  | .pspfs .makaiKingdom => ⟨"pspfs entry (Makai Kingdom)", 0x20,
      [nameAt 0x00 0x14, decompressedSizeAt 0x14, sizeAt 0x18, offsetAt 0x1C]⟩
  | .startDat .endOffset => ⟨"start.dat entry (end offset)", 0x20, [endAt 0x00, nameAt 0x04 28]⟩
  | .startDat .dsarc => ⟨"start.dat entry (DSARC)", 0x30,
      [nameAt 0x00 40, sizeAt 0x28, offsetAt 0x2C]⟩
  | .startDat .offsetOnly => ⟨"start.dat entry (offset only)", 0x20,
      [offsetAt 0x00, nameAt 0x04 27, ⟨"reserved", 0x1F, .u8⟩]⟩
  | .nispack => ⟨"nispack entry", 0x2C,
      [nameAt 0x00 32, offsetAt 0x20, sizeAt 0x24, ⟨"reserved", 0x28, .u32⟩]⟩

theorem nameField_mem_fields (f : FlatFormat) : f.nameField ∈ f.layout.fields := by
  rcases f with (_ | _ | _) | (_ | _ | _) | _ <;> simp [nameField, layout]

theorem placing_fields_subset (f : FlatFormat) : f.placing.fields ⊆ f.layout.fields := by
  rcases f with (_ | _ | _) | (_ | _ | _) | _ <;> simp [placing, Placing.fields, layout]

/-- Whether payloads have to be apart from each other. -/
def isDisjoint : FlatFormat → Bool
  | .pspfs _ => true
  | _ => false

end FlatFormat

/-- The name under which the START.DAT archive of a game stands in the archive around it. -/
def StartDatVariant.standardName : StartDatVariant → String
  | endOffset => "START.DAT"
  | dsarc => "START.KS4"
  | offsetOnly => "start.lzs"

end GameArchive
