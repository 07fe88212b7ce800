/-!
Things under names, in the order in which the names came up.
-/

namespace AppSpec

abbrev Named (α : Type) := List (String × α)

namespace Named

variable {α β : Type}

def get? : Named α → String → Option α
  | [], _ => none
  | (key, value) :: rest, name => if key = name then some value else get? rest name

def has (entries : Named α) (name : String) : Bool := (get? entries name).isSome

def keys (entries : Named α) : List String := entries.map (·.1)

def values (entries : Named α) : List α := entries.map (·.2)

/-- A new thing under an old name takes the place of the old one. -/
def set : Named α → String → α → Named α
  | [], name, value => [(name, value)]
  | (key, old) :: rest, name, value =>
      if key = name then (key, value) :: rest else (key, old) :: set rest name value

@[simp]
theorem get?_set (entries : Named α) (name other : String) (value : α) :
    get? (set entries name value) other =
      if name = other then some value else get? entries other := by
  induction entries with
  | nil => simp [set, get?]
  | cons entry rest ih =>
      obtain ⟨key, old⟩ := entry
      by_cases hkey : key = name
      · by_cases h : name = other <;> simp [set, get?, hkey, h]
      · simp only [set, hkey, if_false, get?, ih]
        by_cases h : name = other
        · subst h
          simp [hkey]
        · simp [h]

theorem has_iff_mem_keys (entries : Named α) (name : String) :
    has entries name = true ↔ name ∈ keys entries := by
  induction entries with
  | nil => simp [has, get?, keys]
  | cons entry rest ih =>
      obtain ⟨key, value⟩ := entry
      by_cases hkey : key = name
      · simp [has, get?, keys, hkey]
      · have hne : ¬ name = key := fun h => hkey h.symm
        simpa [has, get?, keys, hkey, hne] using ih

def setAll (entries more : Named α) : Named α :=
  more.foldl (fun kept entry => set kept entry.1 entry.2) entries

end Named

end AppSpec
