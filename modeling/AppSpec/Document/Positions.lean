import AppSpec.Diagnostic
import AppSpec.Named

/-!
Where the parts of a document stand in its text, and diagnostics placed there.
-/

namespace AppSpec

structure Position where
  line : Int
  column : Int
  deriving DecidableEq, Repr

abbrev Positions := Named Position

namespace Diagnostic

def placed (d : Diagnostic) (line column : Int) : Diagnostic :=
  { d with location := ⟨some line, some column, d.location.path⟩ }

/-- The diagnostic at the nearest place known for its path. A column inside a type counts from
where the type's own text starts. -/
def locate (positions : Positions) (d : Diagnostic) : Diagnostic :=
  match d.location.line with
  | some _ => d
  | none =>
      match (Path.parents d.path).find? positions.has with
      | none => d
      | some path =>
          match positions.get? path with
          | none => d
          | some p =>
              match d.location.column with
              | some column =>
                  d.placed p.line (if path = d.path then p.column + column - 1 else p.column)
              | none => d.placed p.line p.column

end Diagnostic

end AppSpec
