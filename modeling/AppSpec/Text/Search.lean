/-!
Looking for one text inside another.
-/

namespace AppSpec.Text

def includes (part : List Char) : List Char → Bool
  | [] => part.isEmpty
  | c :: cs => part.isPrefixOf (c :: cs) || includes part cs

theorem includes_iff (part cs : List Char) : includes part cs = true ↔ part <:+: cs := by
  induction cs with
  | nil => simp [includes, List.isEmpty_iff]
  | cons c cs ih => simp [includes, ih, List.infix_cons_iff]

def hasPart (s part : String) : Bool := includes part.toList s.toList

end AppSpec.Text
