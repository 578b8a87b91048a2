import CallChain.Layout
import CallChain.Python
import CallChain.Statement.Reading

namespace CallChain

structure Language where
  name : String
  extensions : List String
  deriving DecidableEq, Repr

def Language.chains : Language := ⟨"msc", ["msc"]⟩

def Language.python : Language := ⟨"python", ["py"]⟩

/-- The line that a fault stands on, with the fault as the last thing in the log. -/
def Logged.onLine {α : Type} (l : SourceLine) (x : Logged Fault α) : Logged LineFault α :=
  match x.outcome with
  | .ok a => ⟨x.log, .ok a⟩
  | .error fault => ⟨x.log ++ [.aborted l.number fault], .error ⟨l.number, l.raw, fault⟩⟩

namespace SourceLine

def keptComment (s : Settings) (l : SourceLine) : Option Text :=
  if s.keepComments then l.comment else none

/-- A line without code. Its comment stands at the level of the blocks open above it. -/
def blankLine (s : Settings) (layout : Layout) (l : SourceLine) : Line :=
  let comment := l.keptComment s
  ⟨if comment.isSome then layout.level else 0, .blank, comment⟩

def codeLine (s : Settings) (layout : Layout) (l : SourceLine) : Logged LineFault Line := do
  let level := (layout.enter l.width).level
  let statement ← (Statement.ofCode s l.code).onLine l
  .event (.lineRead l.number level statement.kind)
  return ⟨level, statement, l.keptComment s⟩

end SourceLine

namespace Program

/-- The first line that is refused ends the reading. -/
def ofLines (s : Settings) (layout : Layout) : List SourceLine → Logged LineFault Program
  | [] => pure []
  | l :: ls =>
    if l.code.isEmpty then List.cons (l.blankLine s layout) <$> ofLines s layout ls
    else do
      let line ← l.codeLine s layout
      List.cons line <$> ofLines s (layout.after l.width l.code) ls

def ofSource (s : Settings) (source : Text) : Logged LineFault Program :=
  ofLines s {} (SourceLine.ofSource source)

end Program

/-- A source written in Python, with the log of how it was read. -/
def compile (s : Settings) (source : Text) : Logged LineFault Text :=
  Program.python s.indentWidth <$> Program.ofSource s source

def toPython (s : Settings) (source : String) : Except LineFault String :=
  (compile s source.toList).outcome.map String.ofList

end CallChain
