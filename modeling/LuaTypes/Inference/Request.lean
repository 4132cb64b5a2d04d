import LuaTypes.Inference.Guard
import LuaTypes.Inference.Rules

/-!
Inference as one request does it. A request remembers the types it has found and guards its
recursion. Where the guard refuses entry the type is unknown, and what is computed on top of such a
cut is only partly known: it is given as an answer but not remembered, except at the level that the
cut refers to, where the answer is the full one.
-/

namespace LuaTypes

/-- An expression, and which of its values are wanted. -/
structure Query where
  node : NodeId
  position : Nat
  allValues : Bool
  deriving DecidableEq

/-- What a context asks of an expression. Its scope is no part of that. -/
def SearchContext.query (ctx : SearchContext) (node : NodeId) : Query :=
  { node, position := ctx.position, allValues := ctx.allValues }

/-- The state of one request. -/
structure Request where
  guard : Guard Query
  cache : List (Query × Ty) := []
  /-- The least depth that a cut refers to, until that depth is finished. -/
  cut : Option Nat := none
  /-- The class values whose links have been asked for. -/
  consulted : List ClassTy := []
  /-- Where class values get a place when they are made. They need none, and there is no table, if
  no declaration changes while they are of use. -/
  table : Option LinkTable := none

namespace Request

/-- A request that has not been asked anything. -/
def start (maxDepth : Nat) : Request :=
  { guard := { maxDepth } }

/-- How many types are remembered. -/
def cached (r : Request) : Nat :=
  r.cache.length

/-- How often entry has been refused. -/
def denied (r : Request) : Nat :=
  r.guard.denied

/-- The type remembered for a query. -/
def remembered? (r : Request) (q : Query) : Option Ty :=
  r.cache.lookup q

/-- Notes a cut that concerns all levels deeper than the given one. -/
def markCut (r : Request) (depth : Nat) : Request :=
  { r with cut := some (r.cut.elim depth (min depth)) }

/-- Leaves a query with its type, which is remembered unless a cut concerns its level. -/
def finish (r : Request) (q : Query) (depth : Nat) (t : Ty) : Request :=
  let r := { r with guard := r.guard.leave q }
  if r.cut.any (· < depth) then r
  else { r with cut := none, cache := r.cache ++ [(q, t)] }

/-- Notes that the links of a class value have been asked for. -/
def noteConsulted (r : Request) (c : ClassTy) : Request :=
  { r with consulted := r.consulted ++ [c] }

/-- Gives the class values of a type that has just been built their places. Copies of the type, in
the answer and in what is remembered, have the same places. -/
def made (r : Request) (t : Ty) : Ty × Request :=
  let placed := t.placeIn r.table
  (placed.1, { r with table := placed.2 })

end Request

/-- What may happen while a request infers. -/
inductive Event where
  /-- The type of the query was remembered. -/
  | recalled (q : Query)
  /-- The query was entered, at that depth. -/
  | entered (q : Query) (depth : Nat)
  /-- Entry was refused: the query had been entered at that depth. -/
  | cycle (q : Query) (depth : Nat)
  /-- Entry was refused: the limit was reached. -/
  | tooDeep (q : Query)
  | left (q : Query)
  deriving DecidableEq

/-- What a request runs on: who is told of each event and the state after it, and what becomes of a
recursion that has no level left. -/
structure Host (m : Type → Type) where
  note : Event → Request → m Unit
  overflow : m Ty

/-- A host that listens to nothing. -/
def Host.silent : Host Id where
  note _ _ := pure ()
  overflow := pure .unknown

namespace Sources

section Hosted

variable {m : Type → Type} [Monad m]

/-- The recursion of a request whose expressions are inferred in the given way. -/
def recursion (infer : NodeId → SearchContext → StateT Request m Ty) :
    Recursion (StateT Request m) where
  infer
  make t := modifyGet (·.made t)
  consult c := modify (·.noteConsulted c)

/-- Inference on a host with so many levels. Entering takes one of them. -/
def inferOn (src : Sources) (host : Host m) : Nat → NodeId → SearchContext → StateT Request m Ty
  | 0, _, _ => host.overflow
  | levels + 1, node, ctx => do
      let q := ctx.query node
      let r ← get
      match r.remembered? q with
      | some t =>
          host.note (.recalled q) r
          return t
      | none =>
          match r.guard.enter q with
          | (.entered, guard) =>
              let entered := { r with guard }
              set entered
              host.note (.entered q guard.depth) entered
              let t ← src.inferExpr (recursion (src.inferOn host levels)) node ctx
              let left := (← get).finish q guard.depth t
              set left
              host.note (.left q) left
              return t
          | (.cycle, guard) =>
              let depth := (guard.enteredAt? q).getD 0
              let refused := { r with guard }.markCut depth
              set refused
              host.note (.cycle q depth) refused
              return .unknown
          | (.depthExceeded, guard) =>
              let refused := { r with guard }.markCut 1
              set refused
              host.note (.tooDeep q) refused
              return .unknown

/-- A recursion of so many levels. -/
def levels (src : Sources) (host : Host m) (count : Nat) : Recursion (StateT Request m) :=
  recursion (src.inferOn host count)

/-- How a request on a host is asked from outside. There are more levels than its guard allows, so
they are never used up. -/
def hosted (src : Sources) (host : Host m) : Recursion (StateT Request m) :=
  recursion fun node ctx => do
    src.inferOn host ((← get).guard.maxDepth + 1) node ctx

end Hosted

/-- How a request is asked from outside. -/
def requesting (src : Sources) : Recursion (StateM Request) :=
  src.hosted .silent

/-- The type of an expression, as far as a context asks for it. -/
def infer (src : Sources) (node : NodeId) (ctx : SearchContext) : StateM Request Ty :=
  src.requesting.infer node ctx

/-- The types of a list of expressions, as `inferList` puts them together. -/
def inferMany (src : Sources) (exprs : List NodeId) (ctx : SearchContext) : StateM Request Ty :=
  inferList src.requesting exprs ctx

/-- The type of an expression, in a request of its own. -/
def inferAlone (src : Sources) (maxDepth : Nat) (node : NodeId) (ctx : SearchContext) :
    Ty × Request :=
  (src.infer node ctx).run (.start maxDepth)

end Sources

end LuaTypes
