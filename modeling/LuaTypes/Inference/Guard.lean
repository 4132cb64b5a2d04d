/-!
The guard of a recursion: it knows which keys are in progress and how deep they nest, and refuses
to enter a key twice or to go deeper than its limit.
-/

namespace LuaTypes

/-- The state of a guarded recursion over keys. -/
structure Guard (κ : Type) where
  maxDepth : Nat
  /-- How many levels deep the recursion is. -/
  depth : Nat := 0
  /-- The keys in progress and the depth at which each was entered, the latest first. -/
  inProgress : List (κ × Nat) := []
  /-- How often entry has been refused. -/
  denied : Nat := 0

/-- The answer to a key that asks for entry. -/
inductive Entry where
  | entered
  | cycle
  | depthExceeded
  deriving DecidableEq

namespace Entry

def isEntered (e : Entry) : Bool :=
  e = .entered

def isCycle (e : Entry) : Bool :=
  e = .cycle

def isDenied (e : Entry) : Bool :=
  e ≠ .entered

end Entry

namespace Guard

variable {κ : Type} [DecidableEq κ]

def isActive (g : Guard κ) : Bool :=
  0 < g.depth

/-- The depth at which a key in progress was entered; 1 for the outermost. -/
def enteredAt? (g : Guard κ) (key : κ) : Option Nat :=
  (g.inProgress.find? (·.1 = key)).map Prod.snd

def isVisiting (g : Guard κ) (key : κ) : Bool :=
  (g.enteredAt? key).isSome

/-- Tries to enter a key. That the key is in progress weighs more than the limit. -/
def enter (g : Guard κ) (key : κ) : Entry × Guard κ :=
  if g.isVisiting key then (.cycle, { g with denied := g.denied + 1 })
  else if g.maxDepth ≤ g.depth then (.depthExceeded, { g with denied := g.denied + 1 })
  else (.entered, { g with
    depth := g.depth + 1, inProgress := (key, g.depth + 1) :: g.inProgress })

/-- Ends what has been begun by entering a key. -/
def leave (g : Guard κ) (key : κ) : Guard κ :=
  { g with depth := g.depth - 1, inProgress := g.inProgress.filter (·.1 ≠ key) }

/-- Yields a result from inside a key, or tells why the key cannot be entered. -/
def scope {α : Type} (g : Guard κ) (key : κ) (result : Unit → α) :
    Except Entry α × Guard κ :=
  match g.enter key with
  | (.entered, g) => (.ok (result ()), g.leave key)
  | (refusal, g) => (.error refusal, g)

end Guard

end LuaTypes
