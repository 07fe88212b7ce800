import AppSpec.Value.Basic

/-!
Paths into a document: names joined by dots, list items by an index in brackets.
-/

namespace AppSpec

inductive Segment where
  | name (s : String)
  | index (i : Int)
  deriving DecidableEq, Repr

namespace Segment

def ofKey : Scalar → Segment
  | .int n => .index n
  | key => .name key.text

end Segment

namespace Path

def join (base : String) : Segment → String
  | .index i => base ++ "[" ++ toString i ++ "]"
  | .name s => if base.isEmpty then s else base ++ "." ++ s

def joinAll (base : String) (parts : List Segment) : String := parts.foldl join base

theorem joinAll_append (base : String) (parts more : List Segment) :
    joinAll base (parts ++ more) = joinAll (joinAll base parts) more := by
  simp [joinAll]

def child (base name : String) : String := join base (.name name)

def item (base : String) (i : Nat) : String := join base (.index i)

def isCut (c : Char) : Bool := c == '.' || c == '['

/-- What is left of a reversed path at each of its cuts, where something is left. -/
def ancestorsReversed : List Char → List (List Char)
  | [] => []
  | c :: rest =>
      if isCut c && !rest.isEmpty then rest :: ancestorsReversed rest
      else ancestorsReversed rest

def parents (path : String) : List String :=
  if path.isEmpty then []
  else
    path :: (ancestorsReversed path.toList.reverse).map fun cs => String.ofList cs.reverse

def head (path : String) : String := String.ofList (path.toList.takeWhile fun c => !isCut c)

end Path

end AppSpec
