import NodeQuery.Command.Run

/-!
# The program

Reads what the command line needs from the world, runs it, and prints the outcome.
-/
namespace NodeQuery.Command

/-- The text of a file, nothing if no entry has that path. -/
def readEntry (path : String) : IO (Option Entry) := do
  try
    let bytes ← IO.FS.readBinFile path
    return (String.fromUTF8? bytes).elim (some .unreadable) fun text => some (.file text)
  catch
    | .noFileOrDirectory .. => return none
    | _ => return some .unreadable

/-- The input up to its end, if it is text. -/
def readAll (stream : IO.FS.Stream) : IO (Option String) := do
  let mut bytes := ByteArray.empty
  let mut chunk ← stream.read 65536
  while !chunk.isEmpty do
    bytes := bytes ++ chunk
    chunk ← stream.read 65536
  return String.fromUTF8? bytes

/-- The file that an action reads, and whether it reads the input. -/
def Action.source : Action → Option String × Bool
  | .select _ file _ | .compress file => (file, file.isNone)
  | _ => (none, false)

/-- The folder for settings of all programs, from its own variable or below the home folder. -/
def settingsHome : IO String := do
  match (← IO.getEnv "XDG_CONFIG_HOME").filter (·.startsWith "/") with
  | some home => return home
  | none => return (← IO.getEnv "HOME").getD "" ++ "/.config"

/-- The surroundings as far as the invocation can see them. -/
def look (invocation : Invocation) : IO Surroundings := do
  let settingsFile ← IO.getEnv "NODESEL_CONFIG"
  let home ← settingsHome
  let (file, readsInput) := invocation.action.source
  let settings := (Settings.requested? invocation.settingsFile settingsFile).getD
    (Settings.userFile home)
  let entries ← (settings :: file.toList).mapM fun path => return (path, ← readEntry path)
  let input ← if readsInput then readAll (← IO.getStdin) else pure none
  return { lookup := fun path => (entries.lookup path).join, input, settingsFile, home }

/-- Prints the outcome and returns its code. -/
def finish (outcome : Outcome) : IO UInt32 := do
  (← IO.getStdout).putStr outcome.output
  (← IO.getStderr).putStr outcome.errors
  return outcome.code.toUInt32

end NodeQuery.Command

open NodeQuery.Command

def main (arguments : List String) : IO UInt32 := do
  match readInvocation arguments with
  | .error refusal => finish refusal.outcome
  | .ok invocation => finish (perform (← look invocation) invocation)
