import NodeQuery.Folder
import NodeQuery.Settings.Text

/-!
# Loading settings

Settings come from a file that is named on the command line, else from one that the environment
names, else from the user's own file if there is one, else they are the standard settings. A file
that was asked for has to exist.
-/
namespace NodeQuery.Settings

/-- The file within the folder for the settings of all programs. -/
def userFile (home : String) : String := home ++ "/nodesel/config.toml"

def loadFrom (lookup : String → Option Entry) (path : String) : Except SettingsError Settings :=
  match lookup path with
  | none | some .unreadable => .error (.unreadable path)
  | some (.file text) =>
    match read? text with
    | none => .error (.malformed path)
    | some settings => .ok settings

/-- The file that was asked for. An empty name in the environment asks for none. -/
def requested? (named environment : Option String) : Option String :=
  named.orElse fun _ => environment.filter (· != "")

def load (lookup : String → Option Entry) (named environment : Option String) (home : String) :
    Except SettingsError Settings :=
  match requested? named environment with
  | some path => if (lookup path).isNone then .error (.missing path) else loadFrom lookup path
  | none =>
    if (lookup (userFile home)).isNone then .ok standard else loadFrom lookup (userFile home)

/-- Writes settings to a file; an error if its folder is not there. -/
def save (s : Settings) (d : Folder) (path : String) : Except SettingsError Folder :=
  match d.write? path s.render with
  | none => .error (.unwritable path)
  | some d => .ok d

end NodeQuery.Settings
