import AppSpec.Yaml.Moment
import AppSpec.Yaml.Number

/-!
Tags: what kind of value a node stands for. A plain scalar without a tag gets one by its text.
-/

namespace AppSpec.Yaml

namespace Tag

def family : String := "tag:yaml.org,2002:"

def null : String := "tag:yaml.org,2002:null"
def bool : String := "tag:yaml.org,2002:bool"
def int : String := "tag:yaml.org,2002:int"
def float : String := "tag:yaml.org,2002:float"
def str : String := "tag:yaml.org,2002:str"
def binary : String := "tag:yaml.org,2002:binary"
def timestamp : String := "tag:yaml.org,2002:timestamp"
def merge : String := "tag:yaml.org,2002:merge"
def value : String := "tag:yaml.org,2002:value"
def seq : String := "tag:yaml.org,2002:seq"
def map : String := "tag:yaml.org,2002:map"
def set : String := "tag:yaml.org,2002:set"
def omap : String := "tag:yaml.org,2002:omap"
def pairs : String := "tag:yaml.org,2002:pairs"

/-- The tag that says no more than that there is one. -/
def bare : String := "!"

inductive ScalarKind where
  | null
  | bool
  | int
  | float
  | str
  | binary
  | timestamp
  deriving DecidableEq, Repr

inductive CollectionKind where
  | seq
  | map
  | set
  | omap
  | pairs
  deriving DecidableEq, Repr

inductive Meaning where
  | scalar (kind : ScalarKind)
  | collection (kind : CollectionKind)
  deriving DecidableEq, Repr

def meanings : List (String × Meaning) :=
  [(str, .scalar .str), (map, .collection .map), (seq, .collection .seq), (null, .scalar .null),
    (bool, .scalar .bool), (int, .scalar .int), (float, .scalar .float),
    (timestamp, .scalar .timestamp), (binary, .scalar .binary), (set, .collection .set),
    (omap, .collection .omap), (pairs, .collection .pairs)]

def meaning? (tag : String) : Option Meaning := (meanings.find? fun m => m.1 == tag).map (·.2)

def truthWords : List String :=
  ["yes", "Yes", "YES", "no", "No", "NO", "true", "True", "TRUE", "false", "False", "FALSE",
    "on", "On", "ON", "off", "Off", "OFF"]

def nullWords : List String := ["~", "null", "Null", "NULL"]

def isEvidentMoment (cs : List Char) : Bool :=
  ((WrittenMoment.read? cs).map WrittenMoment.isEvident).getD false

def ofText (text : String) : String :=
  let cs := Literal.upToLineEnd text.toList
  let word := String.ofList cs
  if text.isEmpty || nullWords.contains word then null
  else if truthWords.contains word then bool
  else if Number.isReal cs then float
  else if Number.isInteger cs then int
  else if word == "<<" then merge
  else if isEvidentMoment cs then timestamp
  else if word == "=" then value
  else str

end Tag

end AppSpec.Yaml
