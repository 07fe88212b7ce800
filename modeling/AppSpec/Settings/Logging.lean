import AppSpec.Settings.Basic

/-!
Where log lines go and how they look, as the settings ask for it.
-/

namespace AppSpec

namespace Logging

def table (entries : List (String × Value)) : Value :=
  .dict (entries.map fun e => (.str e.1, e.2))

def texts (names : List String) : Value := .list (names.map .str)

def formatters : Value :=
  let date := "%Y-%m-%d %H:%M:%S"
  table
    [("standard", table
        [("format", .str "%(asctime)s [%(levelname)s] %(name)s: %(message)s"),
          ("datefmt", .str date)]),
      ("detailed", table
        [("format", .str "%(asctime)s [%(levelname)s] %(name)s:%(lineno)d: %(message)s"),
          ("datefmt", .str date)]),
      ("json", table
        [("()", .str "pythonjsonlogger.json.JsonFormatter"),
          ("format", .str "%(asctime)s %(name)s %(levelname)s %(message)s")])]

def console (s : Settings) : Value :=
  table
    [("class", .str "logging.StreamHandler"), ("level", .str s.logLevel.label),
      ("formatter", .str (if s.environment = .production then "json" else "standard"))]

/-- A file of ten megabytes, five of them kept. -/
def rotatingFile (s : Settings) (path : String) : Value :=
  table
    [("class", .str "logging.handlers.RotatingFileHandler"), ("level", .str s.logLevel.label),
      ("formatter", .str "detailed"), ("filename", .str path), ("maxBytes", .int 10485760),
      ("backupCount", .int 5)]

def handlers (s : Settings) : List (String × Value) :=
  ("console", console s) ::
    match s.logFile with
    | some path => if s.environment = .testing then [] else [("file", rotatingFile s path)]
    | none => []

def plan (s : Settings) : Value :=
  table
    [("version", .int 1), ("disable_existing_loggers", .bool false), ("formatters", formatters),
      ("handlers", table (handlers s)),
      ("loggers", table
        [("layered_dsl", table
          [("level", .str s.logLevel.label), ("handlers", texts ((handlers s).map (·.1))),
            ("propagate", .bool false)])])]

def processorCount (s : Settings) : Nat := if s.environment = .production then 9 else 8

end Logging

end AppSpec
