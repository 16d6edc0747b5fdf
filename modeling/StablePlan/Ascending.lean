/-!
Sets and tables as strictly ascending lists. An insertion goes to its place; a key that is
already there keeps its place, and in a table takes the new value.
-/

namespace StablePlan.Ascending

variable {α β : Type} [Ord α]

def insert (x : α) : List α → List α
  | [] => [x]
  | y :: ys =>
    match compare x y with
    | .lt => x :: y :: ys
    | .eq => x :: ys
    | .gt => y :: insert x ys

def ofList (xs : List α) : List α := xs.foldl (fun s x => insert x s) []

def put (key : α) (value : β) : List (α × β) → List (α × β)
  | [] => [(key, value)]
  | (k, v) :: rest =>
    match compare key k with
    | .lt => (key, value) :: (k, v) :: rest
    | .eq => (key, value) :: rest
    | .gt => (k, v) :: put key value rest

def remove (key : α) (table : List (α × β)) : List (α × β) :=
  table.filter fun entry => compare key entry.1 != .eq

def get? (key : α) (table : List (α × β)) : Option β :=
  (table.find? fun entry => compare key entry.1 == .eq).map Prod.snd

end StablePlan.Ascending
