import HardwareLinker.Command.Graph
import HardwareLinker.Command.Place
import HardwareLinker.Command.Treecut
import HardwareLinker.Command.Tour

/-!
Carrying out a command line on a machine. The exit code is zero if all went well, one if the input
was at fault, and two if the command line itself was.
-/

namespace HardwareLinker.Command

variable {m : Type → Type} [Monad m] [Host m]

def versionText : String := "lim " ++ Snapshot.toolVersion ++ "\n"

def usageText : String :=
  "Usage: lim [OPTIONS] <COMMAND>\n\n" ++
  "Commands:\n" ++
  "  graph <LOGS>... [--allow-unmatched] [--dot <FILE>]\n" ++
  "  place -C <FILE> [-r <FILE>] [--log <LOGS>...] [--snapshot-dir <DIR>]\n" ++
  "        [--solver <builtin|cbc|glpk>] [--no-reuse]\n" ++
  "  treecut <LOGS>... [--allow-unmatched] [--snapshot-dir <DIR>] [--no-placement]\n" ++
  "        [--threshold <N>] [-o <FILE>]\n" ++
  "  tour [--snapshot-dir <DIR>] [--seed <N>]\n\n" ++
  "Options:\n" ++
  "  -q, --quiet  -v, --verbose  --color <auto|always|never>  --config <FILE>\n" ++
  "  -h, --help   -V, --version\n"

def carryOut (s : Surroundings) (globals : Globals) : Request → Action m Nat
  | .graph a => graph s globals a
  | .place a => place s globals a
  | .treecut a => treecut s globals a
  | .tour a => tour globals a

/-- The exit code of an action; the line of one that failed is reported. -/
def conclude (action : Action m Nat) : m Nat := do
  match ← action.run with
  | .ok code => return code
  | .error line =>
    Host.report ("error: " ++ line ++ "\n")
    return 1

/-- Carries out the words behind the name of the program. -/
def run (s : Surroundings) (words : List String) : m Nat := do
  match read words with
  | .ok (globals, request) => conclude (carryOut s globals request)
  | .error .help => Host.print usageText; return 0
  | .error .version => Host.print versionText; return 0
  | .error .usage => Host.report usageText; return 2

end HardwareLinker.Command
