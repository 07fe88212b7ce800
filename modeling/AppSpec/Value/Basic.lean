import AppSpec.Decimal.Shortest
import AppSpec.Text.Digit
import AppSpec.Text.Quoted
import AppSpec.Value.Moment

/-!
Raw document values: scalars, sequences and mappings in the order of their entries. Two keys are
the same key when they are the same number, text, date, bytes or null; truth values count as the
numbers one and zero.
-/

namespace AppSpec

inductive Scalar where
  | null
  | bool (b : Bool)
  | int (n : Int)
  | float (x : Float)
  | str (s : String)
  | date (d : Date)
  | timestamp (t : Timestamp)
  | bytes (bs : List UInt8)

inductive Value where
  | scalar (s : Scalar)
  | list (items : List Value)
  | tuple (items : List Value)
  | set (items : List Scalar)
  | dict (entries : List (Scalar × Value))

instance : Inhabited Value := ⟨.scalar .null⟩

abbrev Entries := List (Scalar × Value)

namespace Scalar

def boolInt (b : Bool) : Int := if b then 1 else 0

def toInt? : Scalar → Option Int
  | .bool b => some (boolInt b)
  | .int n => some n
  | .float x => Decimal.toInt? x
  | _ => none

def same : Scalar → Scalar → Bool
  | .null, .null => true
  | .str s, .str t => s == t
  | .date d, .date e => d == e
  | .timestamp t, .timestamp u => t.same u
  | .bytes a, .bytes b => a == b
  | .float x, .float y => x == y
  | a, b =>
      match a.toInt?, b.toInt? with
      | some m, some n => m == n
      | _, _ => false

theorem same_str (s t : String) : same (.str s) (.str t) = (s == t) := rfl

def kindName : Scalar → String
  | .null => "NoneType"
  | .bool _ => "bool"
  | .int _ => "int"
  | .float _ => "float"
  | .str _ => "str"
  | .date _ => "date"
  | .timestamp _ => "datetime"
  | .bytes _ => "bytes"

def shown : Scalar → String
  | .null => "None"
  | .bool true => "True"
  | .bool false => "False"
  | .int n => toString n
  | .float x => Decimal.floatText x
  | .str s => Text.quoted s
  | .date d => d.shown
  | .timestamp t => t.shown
  | .bytes bs => Text.quotedBytes bs

def text : Scalar → String
  | .str s => s
  | .date d => d.text
  | .timestamp t => t.text
  | s => s.shown

theorem text_str (s : String) : text (.str s) = s := rfl

/-- Whether the value counts as absent where only a present one is kept. -/
def isFalsy : Scalar → Bool
  | .null => true
  | .bool b => !b
  | .int n => n == 0
  | .float x => x == 0
  | .str s => s.isEmpty
  | .bytes bs => bs.isEmpty
  | _ => false

def hasLongInteger : Scalar → Bool
  | .int n => Text.integerTooLong n
  | _ => false

end Scalar

namespace Value

@[match_pattern] abbrev null : Value := .scalar .null
@[match_pattern] abbrev bool (b : Bool) : Value := .scalar (.bool b)
@[match_pattern] abbrev int (n : Int) : Value := .scalar (.int n)
@[match_pattern] abbrev float (x : Float) : Value := .scalar (.float x)
@[match_pattern] abbrev str (s : String) : Value := .scalar (.str s)

def kindName : Value → String
  | .scalar s => s.kindName
  | .list _ => "list"
  | .tuple _ => "tuple"
  | .set _ => "set"
  | .dict _ => "dict"

def isNull : Value → Bool
  | .null => true
  | _ => false

def isFalsy : Value → Bool
  | .scalar s => s.isFalsy
  | .list items => items.isEmpty
  | .tuple items => items.isEmpty
  | .set items => items.isEmpty
  | .dict entries => entries.isEmpty

def str? : Value → Option String
  | .str s => some s
  | _ => none

def dict? : Value → Option Entries
  | .dict entries => some entries
  | _ => none

mutual

def shown : Value → String
  | .scalar s => s.shown
  | .list items => "[" ++ ", ".intercalate (shownItems items) ++ "]"
  | .tuple [item] => "(" ++ item.shown ++ ",)"
  | .tuple items => "(" ++ ", ".intercalate (shownItems items) ++ ")"
  | .set [] => "set()"
  | .set items => "\x7b" ++ ", ".intercalate (items.map Scalar.shown) ++ "\x7d"
  | .dict entries => "\x7b" ++ ", ".intercalate (shownEntries entries) ++ "\x7d"

def shownItems : List Value → List String
  | [] => []
  | item :: items => item.shown :: shownItems items

def shownEntries : Entries → List String
  | [] => []
  | (key, value) :: entries => (key.shown ++ ": " ++ value.shown) :: shownEntries entries

end

def text : Value → String
  | .scalar s => s.text
  | v => v.shown

theorem text_str (s : String) : text (.str s) = s := rfl

mutual

def hasLongInteger : Value → Bool
  | .scalar s => s.hasLongInteger
  | .list items => anyLongInteger items
  | .tuple items => anyLongInteger items
  | .set items => items.any Scalar.hasLongInteger
  | .dict entries => anyLongIntegerEntry entries

def anyLongInteger : List Value → Bool
  | [] => false
  | item :: items => item.hasLongInteger || anyLongInteger items

def anyLongIntegerEntry : Entries → Bool
  | [] => false
  | (key, value) :: entries =>
      key.hasLongInteger || value.hasLongInteger || anyLongIntegerEntry entries

end

mutual

/-- Whether some mapping, in lists and mappings however deep, has a key that is not written out. -/
def hasLongKey : Value → Bool
  | .list items => anyLongKey items
  | .dict entries => anyLongKeyEntry entries
  | _ => false

def anyLongKey : List Value → Bool
  | [] => false
  | item :: items => item.hasLongKey || anyLongKey items

def anyLongKeyEntry : Entries → Bool
  | [] => false
  | (key, value) :: entries =>
      key.hasLongInteger || value.hasLongKey || anyLongKeyEntry entries

end

end Value

namespace Entries

def get? (entries : Entries) (key : Scalar) : Option Value :=
  (entries.find? fun e => e.1.same key).map (·.2)

def text? (entries : Entries) (name : String) : Option Value := get? entries (.str name)

/-- The value under a name, null when there is none. -/
def field (entries : Entries) (name : String) : Value := (text? entries name).getD .null

def has (entries : Entries) (name : String) : Bool := (text? entries name).isSome

/-- Something new under an old key keeps the place and the spelling of the key. -/
def insert {α : Type} (entries : List (Scalar × α)) (key : Scalar) (value : α) :
    List (Scalar × α) :=
  if entries.any fun e => e.1.same key then
    entries.map fun e => if e.1.same key then (e.1, value) else e
  else entries ++ [(key, value)]

def ofList {α : Type} (pairs : List (Scalar × α)) : List (Scalar × α) :=
  pairs.foldl (fun entries p => insert entries p.1 p.2) []

def without (entries : Entries) (names : List String) : Entries :=
  entries.filter fun e =>
    match e.1 with
    | .str s => !names.contains s
    | _ => true

end Entries

namespace Value

mutual

/-- Equality of values: numbers by value, mappings whatever the order of their entries. -/
def same : Value → Value → Bool
  | .scalar a, .scalar b => a.same b
  | .list a, .list b => sameItems a b
  | .tuple a, .tuple b => sameItems a b
  | .set a, .set b => a.length == b.length && a.all fun x => b.any x.same
  | .dict a, .dict b => a.length == b.length && sameEntries a b
  | _, _ => false

def sameItems : List Value → List Value → Bool
  | [], [] => true
  | a :: as, b :: bs => a.same b && sameItems as bs
  | _, _ => false

def sameEntries : Entries → Entries → Bool
  | [], _ => true
  | (key, value) :: entries, others =>
      (match Entries.get? others key with
        | none => false
        | some other => value.same other) && sameEntries entries others

end

end Value

/-! An order of scalars: kind by kind, numbers by value and all else by its text. -/

namespace Scalar

def rank : Scalar → Nat
  | .str _ => 0
  | .bool _ => 1
  | .int _ => 1
  | .float _ => 1
  | .null => 2
  | .bytes _ => 3
  | .date _ => 4
  | .timestamp _ => 5

def number : Scalar → Float
  | .bool b => if b then 1 else 0
  | .int n => Decimal.ofDecimal (decide (n < 0)) n.natAbs 0
  | .float x => x
  | _ => 0

def precedes (a b : Scalar) : Bool :=
  if a.rank != b.rank then decide (a.rank < b.rank)
  else
    match a, b with
    | .int m, .int n => decide (m ≤ n)
    | a, b =>
        if a.rank == rank (.int 0) then a.number ≤ b.number else decide (a.text ≤ b.text)

def sorted (items : List Scalar) : List Scalar := items.mergeSort precedes

theorem sorted_perm (items : List Scalar) : (sorted items).Perm items :=
  List.mergeSort_perm items _

end Scalar

end AppSpec
