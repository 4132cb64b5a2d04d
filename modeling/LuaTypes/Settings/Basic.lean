namespace LuaTypes

/-- The settings in force. -/
structure Settings where
  /-- Nil is a subtype of nothing but nil and the unknown type. -/
  nilStrict : Bool := false
  /-- How deep inference may nest. -/
  maxDepth : Nat := 64
  deriving DecidableEq

/-- Where a setting comes from, the weakest first. -/
inductive Layer where
  | default
  | file
  | environment
  | commandLine
  deriving DecidableEq

namespace Layer

def rank : Layer → Nat
  | .default => 0
  | .file => 1
  | .environment => 2
  | .commandLine => 3

/-- How a layer is called. -/
def word : Layer → String
  | .default => "default"
  | .file => "file"
  | .environment => "env_var"
  | .commandLine => "cli_flag"

end Layer

/-- A setting together with the layer that it comes from. -/
structure Layered (α : Type) where
  value : α
  layer : Layer := .default

/-- Of two settings, the one from the stronger layer; of equally strong ones, the later. -/
def Layered.merge {α : Type} (a b : Layered α) : Layered α :=
  if a.layer.rank ≤ b.layer.rank then b else a

/-- The settings that one layer supplies. -/
structure PartialSettings where
  nilStrict : Option Bool := none
  maxDepth : Option Nat := none
  deriving DecidableEq

/-- The settings, each with the layer it comes from. -/
structure LayeredSettings where
  nilStrict : Layered Bool := { value := false }
  maxDepth : Layered Nat := { value := 64 }

namespace LayeredSettings

def settings (s : LayeredSettings) : Settings :=
  { nilStrict := s.nilStrict.value, maxDepth := s.maxDepth.value }

/-- Puts what a layer supplies on top. -/
def overlay (s : LayeredSettings) (layer : Layer) (p : PartialSettings) : LayeredSettings :=
  { nilStrict := p.nilStrict.elim s.nilStrict fun value => s.nilStrict.merge { value, layer }
    maxDepth := p.maxDepth.elim s.maxDepth fun value => s.maxDepth.merge { value, layer } }

end LayeredSettings

end LuaTypes
