import Entailment.Program
import Std.Time.DateTime.Timestamp

/-! The command line. It reads and writes files and the standard streams, and
leaves every decision to `Program`. -/
namespace Entailment.Main

def readContent (path : String) : IO FileContent := do
  try
    return .text (← IO.FS.readFile path)
  catch
    | .noFileOrDirectory .. => return .missing
    | _ => return .unreadable

def now : IO Timestamp := do
  let t ← Std.Time.Timestamp.now
  return .ofEpoch t.toSecondsSinceUnixEpoch.val.toNat (t.toNanosecondsSinceUnixEpoch.val.toNat % 1000000000)

/-- A session in which each selection takes a tenth of a millisecond. -/
def session (options : Options) : Session :=
  { Session.new with
    journal := ⟨Program.level? options, #[]⟩
    clock := fun n => ⟨n * 100000⟩ }

/-- Writes the notes of the journal to the error stream and forgets them. -/
def flushJournal (s : Session) : IO Session := do
  for note in s.journal.notes do
    IO.eprintln (note.level.text ++ " " ++ note.message s.symbols)
  return { s with journal := { s.journal with notes := #[] } }

/-- Carries out lines until the input ends. -/
partial def converse (kb : KnowledgeBase) (s : Session) : IO (Program.Ending × Session) := do
  let line ← (← IO.getStdin).getLine
  match Program.lines line with
  | [] => return (.done kb, s)
  | none :: _ => return (.broken, s)
  | some line :: _ =>
    let ((reply, kb), s) := (Console.execute line kb).run s
    let s ← flushJournal s
    IO.print (Program.display reply)
    (← IO.getStdout).flush
    converse kb s

def save (path : String) (kb : KnowledgeBase) (s : Session) : IO UInt32 := do
  let text := kb.save s.symbols (← now)
  try
    IO.FS.writeFile path text
    return 0
  catch _ =>
    IO.eprintln (StorageError.inaccessible.message s.symbols)
    return 1

def run (options : Options) : IO UInt32 := do
  let content ← match options.path with
    | some path => readContent path
    | none => pure .missing
  let (start, s) := (Program.start options content).run (session options)
  let s ← flushJournal s
  match start with
  | .error e =>
    IO.eprintln (e.message s.symbols)
    return 1
  | .ok kb =>
    IO.print Program.greeting
    let (ending, s) ← converse kb s
    match ending, options.path with
    | .broken, _ => return UInt32.ofNat Program.brokenCode
    | .done kb, some path => save path kb s
    | .done _, none => return 0

end Entailment.Main

def main (args : List String) : IO UInt32 := do
  match Entailment.Options.parse args with
  | .run options => Entailment.Main.run options
  | .version =>
    IO.print Entailment.Program.version
    return 0
  | .help =>
    IO.print Entailment.Program.help
    return 0
  | .invalid =>
    IO.eprint Entailment.Program.help
    return 2
