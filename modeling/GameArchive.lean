import GameArchive.Workspace
import GameArchive.Proofs.Flat.ByNumber
import GameArchive.Proofs.Flat.Nested
import GameArchive.Proofs.Flat.Overlap
import GameArchive.Proofs.Codec.Instructions
import GameArchive.Proofs.Codec.Tokens
import GameArchive.Proofs.Flat.OwnPayload
import GameArchive.Proofs.Flat.Outcome
import GameArchive.Proofs.Codec.Packing
import GameArchive.Proofs.Vfs3.Folders
import GameArchive.Proofs.Vfs3.Opening
import GameArchive.Proofs.Zstd.Frame
import GameArchive.Proofs.Vfs3.Payloads
import GameArchive.Proofs.Vfs3.Paths
import GameArchive.Proofs.Regions
import GameArchive.Proofs.Flat.Headers
import GameArchive.Proofs.Flat.Acceptance
import GameArchive.Proofs.Flat.Tiling
import GameArchive.Proofs.Flat.Contents
import GameArchive.Proofs.Text.Utf16
import GameArchive.Proofs.Vfs3.Names
import GameArchive.Proofs.Vfs3.Chunks
import GameArchive.Proofs.Vfs3.Lineage
import GameArchive.Proofs.Vfs3.Contents
import GameArchive.Proofs.Vfs3.Acceptance
import GameArchive.Proofs.StorageOrder
import GameArchive.Proofs.Flat.Reordering
import GameArchive.Proofs.Zstd.Stripping
import GameArchive.Proofs.Vfs3.Lookup
import GameArchive.Proofs.Extraction.Names
import GameArchive.Proofs.Extraction.Outcome
import GameArchive.Proofs.Vfs3.Forest
import GameArchive.Proofs.Zstd.RawBlocks
import GameArchive.Proofs.Codec.Embedding
import GameArchive.Proofs.Codec.CopyWithin
import GameArchive.Proofs.Words.Opening
import GameArchive.Proofs.Displacement
import GameArchive.Proofs.Table
import GameArchive.Proofs.Layout
import GameArchive.Proofs.InPlace
import GameArchive.Proofs.Accessors
