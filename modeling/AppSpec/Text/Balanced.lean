/-!
Texts whose brackets pair up outside quotes, and whose quotes are closed.
-/

namespace AppSpec.Text

def closerOf? (c : Char) : Option Char :=
  if c = '(' then some ')'
  else if c = '[' then some ']'
  else if c = '\x7b' then some '\x7d'
  else none

def isCloser (c : Char) : Bool := c == ')' || c == ']' || c == '\x7d'

def isQuoteMark (c : Char) : Bool := c == '\'' || c == '"'

/-- Reads on with the closers that are still owed and the quote that is open. -/
def balancedFrom : List Char → Option Char → List Char → Bool
  | owed, none, [] => owed.isEmpty
  | _, some _, [] => false
  | owed, some quote, c :: cs => balancedFrom owed (if c = quote then none else some quote) cs
  | owed, none, c :: cs =>
      if isQuoteMark c then balancedFrom owed (some c) cs
      else
        match closerOf? c with
        | some closer => balancedFrom (closer :: owed) none cs
        | none =>
            if isCloser c then
              match owed with
              | closer :: owed => if c = closer then balancedFrom owed none cs else false
              | [] => false
            else balancedFrom owed none cs

def isBalanced (s : String) : Bool := balancedFrom [] none s.toList

end AppSpec.Text
