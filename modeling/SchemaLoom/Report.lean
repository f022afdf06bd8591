import SchemaLoom.Layout

/-!
# Reports

What commands tell about their outcome: labelled values under check marks, a
closing message, and warnings.
-/

namespace SchemaLoom.Report

structure Field where
  label : Text
  value : Text
  deriving DecidableEq, Repr

def Field.line (f : Field) : Text :=
  "✓ " ++ Layout.block (f.label ++ ":") ++ " " ++ f.value ++ "\n"

/-- An empty line, the fields and, unless it is empty, a message below another empty line. The
message and the line above it form one block. -/
def result (fields : List Field) (message : Text) : Text :=
  "\n" ++ fields.flatMap Field.line ++
    (if message.isEmpty then [] else Layout.block ("\n" ++ message) ++ "\n")

/-- A highlighted line. -/
def warning (message : Text) : Text := Layout.block ("! " ++ message) ++ "\n"

end SchemaLoom.Report
