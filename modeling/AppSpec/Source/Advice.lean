import AppSpec.Diagnostic
import AppSpec.Settings.Basic
import AppSpec.Text.Search

/-!
Advice on a text by the diagnostics that it got.
-/

namespace AppSpec

namespace Advice

def forJson : List String :=
  ["Check for missing commas between object properties", "Ensure all strings are properly quoted"]

def forYaml : List String :=
  ["Check indentation consistency (use spaces, not tabs)",
    "Quote type strings that contain '\x7b', ':' or '?'"]

def forTypes : List String :=
  ["Type strings look like 'array[optional[Money]]\x7bmaxItems: 10\x7d'"]

def forCycles : List String :=
  ["Break dependency cycles by removing one edge of the cycle"]

def forDomain : List String :=
  ["A LayeredDSL document usually declares a 'domain' section with its entities"]

def own (d : Diagnostic) : List String :=
  match d.suggestion with
  | none => []
  | some s =>
      if s.isEmpty then []
      else [(if d.path.isEmpty then "<document>" else d.path) ++ ": " ++ s]

def general (message : String) : List String :=
  if Text.hasPart message "JSON syntax" then forJson
  else if Text.hasPart message "YAML syntax" then forYaml
  else if Text.hasPart message "type expression" then forTypes
  else if "circular".toList.isPrefixOf message.toList then forCycles
  else []

def distinct : List String → List String → List String
  | [], kept => kept
  | s :: rest, kept => distinct rest (if kept.contains s then kept else kept ++ [s])

theorem distinct_nodup (ss kept : List String) (h : kept.Nodup) : (distinct ss kept).Nodup := by
  induction ss generalizing kept with
  | nil => exact h
  | cons s rest ih =>
      by_cases hs : s ∈ kept
      · simpa [distinct, hs] using ih kept h
      · have : (kept ++ [s]).Nodup := by
          rw [List.nodup_append]
          simp only [List.nodup_cons, List.not_mem_nil, not_false_eq_true, List.nodup_nil, and_self,
            List.mem_singleton, true_and]
          refine ⟨h, ?_⟩
          rintro a ha b rfl rfl
          exact hs ha
        simpa [distinct, hs] using ih _ this

/-- Each advice once, in the order in which it comes up, and no more of them than the settings
allow. -/
def collect (s : Settings) (content : String) (diagnostics : List Diagnostic) : List String :=
  let all := diagnostics.flatMap fun d => own d ++ general d.message
  let all := if Text.hasPart content "domain" then all else all ++ forDomain
  (distinct all []).take s.maxSuggestions

end Advice

end AppSpec
