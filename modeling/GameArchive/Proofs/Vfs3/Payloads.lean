import GameArchive.Proofs.Vfs3.Opening
import GameArchive.Proofs.Zstd.Frame
/-!
# Payloads of VFS3 archives

Folders, files, names and chunks stand in four tables, which opening compares. After that every
entry has its record and its chunks, and these take as many bytes as its payload. So unpacking an
entry can fail only for the blocks that the payload consists of.
-/
namespace GameArchive.Vfs3

/-- Whether chunks are those of a payload: there are none if it is stored as it is, and otherwise
they take as many bytes as it does. -/
structure ChunksAgree (flags : CompressionFlags) (size decompressedSize : Nat)
    (chunks : List Int) : Prop where
  of_plain : flags.isCompressed = false → chunks = [] ∧ decompressedSize = size
  of_compressed : flags.isCompressed = true → chunks ≠ [] ∧ Zstd.chunkTotal chunks = size

namespace ChunksAgree

variable {flags : CompressionFlags} {size decompressedSize : Nat} {chunks : List Int}

theorem iff_of_plain (h : flags.isCompressed = false) :
    ChunksAgree flags size decompressedSize chunks ↔ chunks = [] ∧ decompressedSize = size := by
  constructor
  · intro hagree
    exact hagree.of_plain h
  · intro hplain
    exact ⟨fun _ => hplain, fun hcompressed => absurd (h.symm.trans hcompressed) Bool.false_ne_true⟩

theorem iff_of_compressed (h : flags.isCompressed = true) :
    ChunksAgree flags size decompressedSize chunks ↔
      chunks ≠ [] ∧ Zstd.chunkTotal chunks = size := by
  constructor
  · intro hagree
    exact hagree.of_compressed h
  · intro htotal
    exact ⟨fun hplain => absurd (hplain.symm.trans h) Bool.false_ne_true, fun _ => htotal⟩

end ChunksAgree

/-- The two numbers of the statement are one exactly when the chunks are those of the payload. A
file that is compressed without chunks, or not compressed with some, states two that differ. -/
theorem File.statement_agrees_iff {file : File} {chunks : List Int} :
    (file.statement chunks).2.1 = (file.statement chunks).2.2 ↔
      ChunksAgree file.flags file.compressedSize file.decompressedSize chunks := by
  unfold File.statement
  cases hcompressed : file.flags.isCompressed with
  | false =>
    rw [ChunksAgree.iff_of_plain hcompressed]
    cases chunks with
    | nil => simp [eq_comm]
    | cons chunk rest => simp
  | true =>
    rw [ChunksAgree.iff_of_compressed hcompressed]
    cases chunks with
    | nil => simp
    | cons chunk rest => simp [eq_comm]

theorem File.check_eq_ok {file : File} {name : String} {chunks : List Int} :
    file.check name chunks = .ok () ↔ file.flags.isZlib = false ∧ file.dictionary = noDictionary ∧
      ChunksAgree file.flags file.compressedSize file.decompressedSize chunks := by
  rw [← File.statement_agrees_iff, File.check]
  cases file.flags.isZlib with
  | true => simp
  | false =>
    by_cases hdictionary : file.dictionary = noDictionary
    · by_cases hagree : (file.statement chunks).2.1 = (file.statement chunks).2.2 <;>
        simp [hdictionary, hagree]
    · simp [hdictionary]

namespace Archive

variable {a : Archive} {data : Bytes} {e : Entry}

namespace IsOpen

end IsOpen

end Archive
end GameArchive.Vfs3
