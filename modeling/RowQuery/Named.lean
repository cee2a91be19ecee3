/-!
Things by their names, in the order of the names and each name once.
-/

namespace RowQuery.Named

/-- Puts a thing in its place; a later one replaces an earlier one of the same name. -/
def put {α : Type} (name : String) (a : α) : List (String × α) → List (String × α)
  | [] => [(name, a)]
  | (n, b) :: rest =>
    if name = n then (name, a) :: rest
    else if name < n then (name, a) :: (n, b) :: rest
    else (n, b) :: put name a rest

/-- The things of a list in their places. -/
def ofList {α : Type} (things : List (String × α)) : List (String × α) :=
  things.foldl (fun placed (name, a) => put name a placed) []

end RowQuery.Named
