import LuaTypes.CommandLine.Invocation

namespace LuaTypes

/-- The text of a file, or `none` if it cannot be read. -/
def readFile? (path : String) : IO (Option String) :=
  try
    return some (← IO.FS.readFile path)
  catch _ => return none

/-- Runs the program on its arguments and answers with its exit status. -/
def runCommandLine (args : List String) : IO UInt32 := do
  let paths := ((Invocation.ofArguments? args).map Invocation.paths).getD []
  let files ← paths.mapM fun path => return (path, ← readFile? path)
  let environment ← [PartialSettings.nilStrictVariable, PartialSettings.maxDepthVariable].mapM
    fun name => return (name, ← IO.getEnv name)
  let outcome := Outcome.ofArguments args (fun path => (files.lookup path).join)
    fun name => (environment.lookup name).join
  match outcome with
  | .misuse => IO.eprintln "usage: [options] resolve|members|infer|subtype|union [options]"
  | _ => IO.print outcome.output
  return outcome.status.toUInt32

end LuaTypes

def main (args : List String) : IO UInt32 :=
  LuaTypes.runCommandLine args
