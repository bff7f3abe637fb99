import Entailment.Console
import Entailment.FileTree
import Entailment.Options
import Entailment.Text.Backspace

/-! A run of the program from its input to its output and the file that it keeps. -/
namespace Entailment.Program

def version : String := "kbase 0.1.0\n"

def help : String :=
  "A first-order knowledge base answering questions by resolution\n\n" ++
  "Usage: kbase [OPTIONS]\n\n" ++
  "Options:\n" ++
  "  -p, --path <FILE>        File where the content of the knowledge base is kept between runs\n" ++
  "  -v, --verbose...         Be verbose, repeat for more detail\n" ++
  "      --max-iterations <N> Given clauses a single proof attempt may select\n" ++
  "      --timeout-ms <MS>    Time budget of a single proof attempt in milliseconds\n" ++
  "  -h, --help               Print help\n" ++
  "  -V, --version            Print version\n"

/-- What is shown before the first command. -/
def greeting : String := "Knowledge base\n\n" ++ Console.usage ++ "\n\n"

/-- A reply as it is shown. An empty one is not. -/
def display (reply : String) : String := if reply.isEmpty then "" else reply ++ "\n\n"

/-- Splits an input at line feeds and drops one carriage return before each of them.
Only the last line may lack a line feed; `line` is the part that has been read of
the current line, backwards. -/
def splitLines (line : List Char) : List Char → List (List Char)
  | [] => if line.isEmpty then [] else [line.reverse]
  | '\n' :: cs =>
    (match line with
      | '\r' :: before => before.reverse
      | _ => line.reverse) :: splitLines [] cs
  | c :: cs => splitLines (c :: line) cs

/-- The lines of an input after their backspaces. One that cannot be read is `none`. -/
def lines (input : String) : List (Option String) :=
  (splitLines [] input.toList).map fun line => (Text.applyBackspaces line).map String.ofList

/-- The base that a run starts with. -/
def start (options : Options) (content : FileContent) :
    SessionM (Except StorageError KnowledgeBase) := do
  match ← KnowledgeBase.load content options.limits with
  | .error e => return .error e
  | .ok (some kb) => return .ok kb
  | .ok none => return .ok (.new options.limits)

/-- How a run ends. -/
inductive Ending where
  /-- The input ended, and the base is as given. -/
  | done (kb : KnowledgeBase)
  /-- A line could not be read, which stops the run on the spot. -/
  | broken

/-- The exit code of a run that was stopped by a line. -/
def brokenCode : Nat := 101

/-- Carries out lines in order and gives what is shown for them. -/
def converse : List (Option String) → KnowledgeBase → SessionM (String × Ending)
  | [], kb => return ("", .done kb)
  | none :: _, _ => return ("", .broken)
  | some line :: lines, kb => do
    let (reply, kb) ← Console.execute line kb
    let (rest, ending) ← converse lines kb
    return (display reply ++ rest, ending)

/-- Everything that is shown for an input, and how the run ends. -/
def transcript (input : String) (kb : KnowledgeBase) : SessionM (String × Ending) := do
  let (shown, ending) ← converse (lines input) kb
  return (greeting ++ shown, ending)

/-- What a run leaves behind. -/
structure Outcome where
  shown : String
  code : Nat
  tree : FileTree

/-- A run in a working directory. A base that cannot be loaded stops it before anything
is shown, and one that cannot be saved shows in the exit code alone. -/
def run (options : Options) (input : String) (now : Timestamp) (tree : FileTree)
    (home : Location) : SessionM Outcome := do
  let content := match options.path with
    | some path => tree.read home path
    | none => .missing
  match ← start options content with
  | .error _ => return ⟨"", 1, tree⟩
  | .ok kb =>
    let (shown, ending) ← transcript input kb
    match ending, options.path with
    | .broken, _ => return ⟨shown, brokenCode, tree⟩
    | .done _, none => return ⟨shown, 0, tree⟩
    | .done kb, some path =>
      let text := kb.save (← get).symbols now
      match tree.write? home path text with
      | some tree => return ⟨shown, 0, tree⟩
      | none => return ⟨shown, 1, tree⟩

/-- The level of detail of the journal. -/
def level? (options : Options) : Option Level :=
  match options.verbosity with
  | 0 => none
  | 1 => some .info
  | 2 => some .debug
  | _ => some .trace

end Entailment.Program
