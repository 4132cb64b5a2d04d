import LuaTypes.Index.Memory

namespace LuaTypes

/-- What is wanted of an expression, and which declarations count for it. -/
structure SearchContext where
  /-- The position wanted of an expression with several values. -/
  position : Nat := 0
  /-- All values are wanted, not one of them. -/
  allValues : Bool := false
  /-- Whether the index was dumb when the request began. -/
  dumb : Bool := false
  scope : SearchScope := .all

namespace SearchContext

/-- The context of a new request. -/
def ofIndex (ix : SymbolIndex) : SearchContext :=
  { dumb := ix.dumb }

def atPosition (ctx : SearchContext) (position : Nat) : SearchContext :=
  { ctx with position, allValues := false }

def forAllValues (ctx : SearchContext) : SearchContext :=
  { ctx with position := 0, allValues := true }

end SearchContext

/-- Neither the request nor the index has the index at hand. -/
def SymbolIndex.unavailable (ix : SymbolIndex) (ctx : SearchContext) : Bool :=
  ctx.dumb || ix.dumb

end LuaTypes
