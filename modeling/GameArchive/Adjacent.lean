/-! Neighbours in a list. -/
namespace GameArchive

/-- The first two neighbours in a list that `related` holds of. -/
def findAdjacent? {α : Type} (related : α → α → Bool) : List α → Option (α × α)
  | a :: b :: rest =>
    if related a b then some (a, b) else findAdjacent? related (b :: rest)
  | _ => none

end GameArchive
