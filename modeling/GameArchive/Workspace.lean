import GameArchive.Container
/-! Work on nested archives: a container in use and those around it. -/
namespace GameArchive

/-- How the payload of an entry is taken out. -/
inductive Unpacking where
  | stored
  | decompressed
  deriving DecidableEq

/-- How the bytes of a container become a payload. -/
inductive Packing where
  | raw
  | ykcmp
  | lzs (extension : String)
  deriving DecidableEq

/-- The payload that stands for `data`. -/
def Packing.pack : Packing → (data : Bytes) → Except Error Bytes
  | raw, data => .ok data
  | ykcmp, data => Codec.Ykcmp.compress data
  | lzs extension, data => Codec.Lzs.compress data extension

/-- The container in use, and the containers around it from the inside out, each with the name of
the entry that the one inside was taken from. -/
structure Workspace where
  current : Container
  outer : List (Container × String)

namespace Workspace

/-- A container with none around it. -/
def ofContainer (c : Container) : Workspace :=
  ⟨c, []⟩

/-- Put `bytes` in place of a payload of the container in use. -/
def replace (w : Workspace) (name : String) (bytes : Bytes) (decompressedSize : Nat) :
    Except Error Workspace :=
  (w.current.replace name bytes decompressedSize).map fun c => { w with current := c }

/-- Open the payload of an entry as a container and use that. -/
def descend (w : Workspace) (name : String) (how : Unpacking) (format : ContainerFormat) :
    Except Error Workspace := do
  let e ← w.current.find name
  let bytes ← match how with
    | .stored => w.current.read e
    | .decompressed => w.current.decompress e
  let inner ← Container.ofBytes format bytes
  .ok ⟨inner, (w.current, name) :: w.outer⟩

/-- Pack the container in use and put it in place of the payload it was taken from. The container
around it is used from then on, also when that fails. Nothing happens without such a container. -/
def ascend (w : Workspace) (packing : Packing) (decompressedSize : Nat) :
    Option (Workspace × Except Error Unit) :=
  match w.outer with
  | [] => none
  | (parent, name) :: outer =>
    let result := do
      let bytes ← packing.pack w.current.data
      parent.replace name bytes decompressedSize
    match result with
    | .ok c => some (⟨c, outer⟩, .ok ())
    | .error e => some (⟨parent, outer⟩, .error e)

end Workspace
end GameArchive
