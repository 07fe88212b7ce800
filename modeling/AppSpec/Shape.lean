import AppSpec.Diagnostic
import AppSpec.Failure
import AppSpec.Named

/-!
Shapes of the raw items of each layer: for each named field the kinds of values it takes, and what
else is asked of them. Other fields are free.
-/

namespace AppSpec

inductive ValueKind where
  | string
  | integer
  | float
  | boolean
  | list
  | dict
  deriving DecidableEq, Repr

namespace ValueKind

def label : ValueKind → String
  | .string => "string"
  | .integer => "integer"
  | .float => "float"
  | .boolean => "boolean"
  | .list => "list"
  | .dict => "dict"

def accepts : ValueKind → Value → Bool
  | .string, .str _ => true
  | .integer, .int _ => true
  | .integer, .bool _ => true
  | .float, .float _ => true
  | .float, .int _ => true
  | .float, .bool _ => true
  | .boolean, .bool _ => true
  | .list, .list _ => true
  | .list, .tuple _ => true
  | .list, .scalar (.bytes _) => true
  | .dict, .dict _ => true
  | _, _ => false

end ValueKind

structure FieldRule where
  kinds : List ValueKind
  nullable : Bool := false
  required : Bool := false
  nonEmpty : Bool := false
  allowed : Option (List String) := none
  least : Option Int := none
  rooted : Bool := false
  textItems : Bool := false

abbrev Shape := Named FieldRule

namespace FieldRule

def text : FieldRule := { kinds := [.string], nullable := true }

def name : FieldRule := { kinds := [.string], required := true, nonEmpty := true }

def texts : FieldRule := { kinds := [.string, .list], nullable := true, textItems := true }

def textOrList : FieldRule := { kinds := [.string, .list], nullable := true }

def duration : FieldRule := { kinds := [.string, .integer, .float], nullable := true }

def members : FieldRule := { kinds := [.dict, .list], nullable := true }

def flag : FieldRule := { kinds := [.boolean] }

def listedText (labels : List String) : String :=
  "[" ++ ", ".intercalate (labels.map fun l => "'" ++ l ++ "'") ++ "]"

def kindsText : List ValueKind → String
  | [kind] => kind.label
  | kinds => listedText (kinds.map ValueKind.label)

def wrongKind (kinds : List ValueKind) : String := "must be of " ++ kindsText kinds ++ " type"

def nullNotAllowed : String := "null value not allowed"

/-- Whether a text is one line that starts with a slash; a final line feed does not count. -/
def isRooted (s : String) : Bool :=
  match s.toList with
  | '/' :: rest =>
      let line := match rest.reverse with
        | '\n' :: before => before
        | _ => rest
      !line.contains '\n'
  | _ => false

def emptyFault (rule : FieldRule) : Value → Option String
  | .str s => if rule.nonEmpty && s.isEmpty then some "empty values not allowed" else none
  | _ => none

def allowedFault (rule : FieldRule) : Value → Option String
  | .str s =>
      match rule.allowed with
      | some labels => if labels.contains s then none else some ("unallowed value " ++ s)
      | none => none
  | _ => none

def leastFault (rule : FieldRule) : Value → Option String
  | .scalar s =>
      match rule.least, s.toInt? with
      | some least, some n =>
          if n < least then some ("min value is " ++ toString least) else none
      | _, _ => none
  | _ => none

def rootFault (rule : FieldRule) : Value → Option String
  | .str s =>
      if rule.rooted && !isRooted s then some "value does not match regex '^/.*'" else none
  | _ => none

def valueFault (rule : FieldRule) (v : Value) : Option String :=
  (rule.emptyFault v).or <| (rule.allowedFault v).or <| (rule.leastFault v).or (rule.rootFault v)

def itemFault : Value → Option String
  | .null => some nullNotAllowed
  | .str _ => none
  | _ => some (wrongKind [.string])

def itemsOf : Value → List Value
  | .list items => items
  | .tuple items => items
  | .scalar (.bytes bs) => bs.map fun b => .int b.toNat
  | _ => []

/-- The faults of list items by their index, in the order of the indices' texts. -/
def itemFaults (items : List Value) : List (List Segment × String) :=
  let faults := items.zipIdx.filterMap fun (v, i) =>
    (itemFault v).map fun message => (toString i, [Segment.index i], message)
  (faults.mergeSort fun a b => decide (a.1 ≤ b.1)).map (·.2)

def faults (rule : FieldRule) (v : Value) : List (List Segment × String) :=
  if v.isNull then (if rule.nullable then [] else [([], nullNotAllowed)])
  else if !rule.kinds.any fun kind => kind.accepts v then [([], wrongKind rule.kinds)]
  else
    match rule.valueFault v with
    | some message => [([], message)]
    | none => if rule.textItems then itemFaults (itemsOf v) else []

/-- Whether the rule for items is put to a mapping that has an entry of the rule's own name. -/
def breaksOn (rule : FieldRule) : Value → Bool
  | .dict entries => rule.textItems && Entries.has entries "type"
  | _ => false

end FieldRule

namespace Segment

def text : Segment → String
  | .name s => s
  | .index i => toString i

end Segment

namespace Shape

def fieldFaults (entries : Entries) (field : String × FieldRule) :
    List (List Segment × String) :=
  match entries.text? field.1 with
  | none => if field.2.required then [([], "required field")] else []
  | some v => field.2.faults v

def diagnostic (path field : String) (fault : List Segment × String) : Diagnostic :=
  let segments := Segment.name field :: fault.1
  .schemaError (Path.joinAll path segments)
    ("'" ++ (segments.getLastD (.name field)).text ++ "': " ++ fault.2)

/-- The faults of an item, in the order of its fields' names. -/
def check (shape : Shape) (entries : Entries) (path : String) :
    Except Failure (List Diagnostic) :=
  if shape.any fun f => f.2.breaksOn (entries.field f.1) then .error .itemRuleOnTypedMapping
  else
    let fields := shape.mergeSort fun a b => decide (a.1 ≤ b.1)
    .ok (fields.flatMap fun f => (fieldFaults entries f).map (diagnostic path f.1))

def checkValue (shape : Shape) (v : Value) (path : String) : Except Failure (List Diagnostic) :=
  match v with
  | .dict entries => shape.check entries path
  | _ => .error .notMapping

def componentKinds : List String := ["service", "module", "library", "frontend", "external_api"]

def backoffs : List String := ["fixed", "linear", "exponential"]

def project : Shape :=
  [("name", .name), ("version", .duration), ("description", .text), ("language", .text)]

def entity : Shape :=
  [("description", .text), ("fields", { kinds := [.dict], required := true }),
    ("validation", { kinds := [.list], nullable := true })]

def validationRule : Shape :=
  [("rule", .text), ("description", .text), ("expression", .name)]

def operation : Shape :=
  [("description", .text), ("input", .members), ("inputs", .members),
    ("output", { kinds := [.string, .dict], nullable := true }), ("modifies", .texts),
    ("errors", .texts), ("preconditions", .textOrList), ("postconditions", .textOrList),
    ("async", .flag), ("idempotent", .flag), ("retryable", .flag)]

def component : Shape :=
  [("type", { kinds := [.string], required := true, allowed := some componentKinds }),
    ("description", .text), ("responsibilities", .texts), ("dependencies", .texts),
    ("resources", .texts), ("exposes", .members)]

def retry : Shape :=
  [("max_attempts", { kinds := [.integer], least := some 1 }),
    ("backoff", { kinds := [.string], allowed := some backoffs }), ("delay", .duration)]

def loop : Shape :=
  [("over", .text), ("collection", .text), ("while", .text), ("condition", .text),
    ("max_iterations", { kinds := [.integer], nullable := true, least := some 1 }),
    ("timeout", .duration)]

def wait : Shape :=
  [("duration", .duration), ("until", .text), ("condition", .text), ("timeout", .duration)]

def page : Shape :=
  [("route", { kinds := [.string], nullable := true, rooted := true }), ("description", .text),
    ("displays", .texts), ("actions", .texts), ("roles", .texts)]

def role : Shape := [("description", .text), ("inherits", .texts)]

def permission : Shape :=
  [("action", .name), ("roles", .texts), ("allowed_roles", .texts),
    ("rate_limit", { kinds := [.string, .integer], nullable := true }), ("filter", .text),
    ("data_filter", .text)]

def fieldAccess : Shape :=
  [("entity", .name), ("field", .name), ("read", .texts), ("write", .texts)]

def integration : Shape :=
  [("type", .text), ("base_url", .text), ("operations", .members)]

def mappingEntry : Shape := [("operation", .name), ("target", .text)]

def all : Named Shape :=
  [("project", project), ("entity", entity), ("validation_rule", validationRule),
    ("operation", operation), ("component", component), ("retry", retry), ("loop", loop),
    ("wait", wait), ("page", page), ("role", role), ("permission", permission),
    ("field_access", fieldAccess), ("integration", integration), ("mapping_entry", mappingEntry)]

end Shape

end AppSpec
