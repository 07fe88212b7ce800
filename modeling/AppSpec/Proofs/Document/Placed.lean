import AppSpec.Proofs.DiagnosticOrder
import AppSpec.Proofs.Document.Accepted
import AppSpec.Proofs.Path

/-!
What the places of a document's parts do to its validation: nothing but to put its diagnostics where
they belong. A diagnostic stands where the nearest part stands that leads to its own.
-/

namespace AppSpec

namespace Diagnostic

def unplaced (d : Diagnostic) : Diagnostic :=
  { d with location := ⟨none, none, d.location.path⟩ }

/-- The column of a diagnostic that is put at some path: a column of its own counts from there if
the path is its own as well. -/
def columnAt (d : Diagnostic) (path : String) (p : Position) : Int :=
  match d.location.column with
  | some column => if path = d.path then p.column + column - 1 else p.column
  | none => p.column

/-- A diagnostic, and where the longest known path above its own puts it. -/
inductive Placement (positions : Positions) (d : Diagnostic) : Diagnostic → Prop
  | nearest {path : String} {p : Position} (hpath : path ∈ Path.parents d.path)
      (hp : positions.get? path = some p)
      (hlongest : ∀ other ∈ Path.parents d.path, positions.has other = true →
        other.length ≤ path.length) :
      Placement positions d (d.placed p.line (d.columnAt path p))
  | nowhere (h : ∀ path ∈ Path.parents d.path, positions.has path = false) : Placement positions d d

variable {positions : Positions} {d : Diagnostic}

theorem unplaced_locate (positions : Positions) (d : Diagnostic) :
    (d.locate positions).unplaced = d.unplaced := by
  obtain h | ⟨line, column, h⟩ := locate_eq_or_placed positions d <;> rw [h]
  rfl

theorem placement_locate (h : d.location.line = none) : Placement positions d (d.locate positions) := by
  unfold locate
  rw [h]
  dsimp only
  split
  · next hnone =>
      refine .nowhere fun path hpath => ?_
      simpa using List.find?_eq_none.mp hnone path hpath
  · next path hpath =>
      have hlongest (other : String) (hother : other ∈ Path.parents d.path)
          (hhas : positions.has other = true) : other.length ≤ path.length :=
        Path.length_le_of_find? hpath hother hhas
      have hhas : positions.has path = true := List.find?_some hpath
      obtain ⟨p, hp⟩ := Option.isSome_iff_exists.mp hhas
      have hplaced := Placement.nearest (List.mem_of_find?_eq_some hpath) hp hlongest
      rw [columnAt] at hplaced
      rw [hp]
      dsimp only
      split
      · next hcolumn => rwa [hcolumn] at hplaced
      · next hcolumn => rwa [hcolumn] at hplaced

theorem locate_nil (d : Diagnostic) : d.locate [] = d := by
  have hnone : (Path.parents d.path).find? (Named.has ([] : Positions)) = none :=
    List.find?_eq_none.mpr fun _ _ => nofun
  unfold locate
  rw [hnone]
  split <;> rfl

/-- Where diagnostics are placed does not change their order. -/
theorem sorted_map_locate (positions : Positions) (ds : List Diagnostic) :
    sorted (ds.map (locate positions)) = (sorted ds).map (locate positions) := by
  refine (List.map_mergeSort fun d _ e _ => ?_).symm
  have hswap (d e : Diagnostic) : order d e = (order e d).swap := Std.OrientedCmp.eq_swap
  rw [order_locate, hswap d (e.locate positions), order_locate, ← hswap]

end Diagnostic

namespace Document

variable {s : Settings} {g : RawGraph} {positions : Positions} {r : ValidationResult}

theorem validate_placed (s : Settings) (e : Scalar × Value) (entries : Entries) (positions : Positions) :
    validate s (.dict (e :: entries)) positions =
      (validate s (.dict (e :: entries)) []).map fun r =>
        { r with diagnostics := r.diagnostics.map (.locate positions) } := by
  have hvalidate (positions : Positions) : validate s (.dict (e :: entries)) positions = (do
      if (Value.dict (e :: entries)).hasLongKey then throw .integerTooLong
      let result ← check s (e :: entries)
      return { result with
        diagnostics := Diagnostic.sorted (result.diagnostics.map (.locate positions)) }) := rfl
  rw [hvalidate, hvalidate]
  cases (Value.dict (e :: entries)).hasLongKey with
  | true => rfl
  | false =>
      cases check s (e :: entries) with
      | error failure => rfl
      | ok result =>
          have hnil : result.diagnostics.map (Diagnostic.locate []) = result.diagnostics :=
            List.map_id'' Diagnostic.locate_nil _
          refine congrArg (fun ds => Except.ok { result with diagnostics := ds }) ?_
          rw [Diagnostic.sorted_map_locate, hnil]

/-- A document is rejected, or validated, without regard to the places of its parts. -/
theorem validateGraph_cases (s : Settings) (g : RawGraph) :
    (∃ message, ∀ positions, validateGraph s g positions = .ok (rejected message positions)) ∨
      ∀ positions, validateGraph s g positions = (validateGraph s g []).map fun r =>
        { r with diagnostics := r.diagnostics.map (.locate positions) } := by
  unfold validateGraph
  cases hkind : g.rootKind with
  | absent => exact .inl ⟨_, fun _ => rfl⟩
  | other kind => exact .inl ⟨_, fun _ => rfl⟩
  | mapping =>
      cases g.recursion? with
      | error f => exact .inr fun _ => rfl
      | ok found =>
          cases found with
          | some path => exact .inl ⟨_, fun _ => rfl⟩
          | none =>
              obtain ⟨e, entries, hvalue⟩ :=
                RawGraph.value_of_hasEntries (RawGraph.hasEntries_of_rootKind hkind)
              rw [hvalue]
              exact .inr (validate_placed s e entries)

theorem rejected_placed (message : String) (positions positions' : Positions) :
    (rejected message positions).document = (rejected message positions').document ∧
      (rejected message positions).diagnostics.map Diagnostic.unplaced =
        (rejected message positions').diagnostics.map Diagnostic.unplaced := by
  have hunplaced (positions : Positions) :
      (rejected message positions).diagnostics.map Diagnostic.unplaced =
        [Diagnostic.fatalSyntax "" message] := by
    rw [rejected]
    cases positions.get? "" <;> rfl
  exact ⟨rfl, (hunplaced positions).trans (hunplaced positions').symm⟩

/-- The places of a document's parts are told with its diagnostics and change nothing else. -/
theorem validateGraph_placed (hr : validateGraph s g positions = .ok r) :
    (∀ positions', ∃ r', validateGraph s g positions' = .ok r' ∧ r'.document = r.document ∧
      r'.diagnostics.map Diagnostic.unplaced = r.diagnostics.map Diagnostic.unplaced) ∧
    ∃ r₀, validateGraph s g = .ok r₀ ∧
      List.Forall₂ (fun d d' => d.severity ≠ .fatal → d.location.line = none →
        d.Placement positions d') r₀.diagnostics r.diagnostics := by
  rcases validateGraph_cases s g with ⟨message, hreject⟩ | hmap
  · cases (hreject positions).symm.trans hr
    refine ⟨fun positions' => ⟨_, hreject positions', rejected_placed message _ _⟩,
      _, hreject [], ?_⟩
    rw [rejected, rejected]
    refine .cons (fun hsevere => absurd ?_ hsevere) .nil
    rfl
  · rw [hmap positions] at hr
    obtain ⟨r₀, hr₀, rfl⟩ := map_eq_ok.mp hr
    have hplaced (positions' : Positions) : validateGraph s g positions' =
        .ok { r₀ with diagnostics := r₀.diagnostics.map (.locate positions') } := by
      rw [hmap positions', hr₀]
      rfl
    refine ⟨fun positions' => ⟨_, hplaced positions', rfl, ?_⟩, r₀, hr₀, ?_⟩
    · rw [List.map_map, List.map_map]
      refine List.map_congr_left fun d _ => ?_
      rw [Function.comp_apply, Function.comp_apply, Diagnostic.unplaced_locate,
        Diagnostic.unplaced_locate]
    · exact List.forall₂_map_right_iff.mpr
        (List.forall₂_same.mpr fun d _ _ hline => Diagnostic.placement_locate hline)

def parcel : RawGraph :=
  ⟨#[], .value (.dict [(.str "domain", .dict [(.str "Parcel", .dict [(.str "weight", .str "int[")])])])⟩

def parcelPositions : Positions := [("domain", ⟨1, 1⟩), ("domain.Parcel.weight", ⟨3, 13⟩)]

theorem validateGraph_placed_parcel :
    ∃ r r₀, validateGraph {} parcel parcelPositions = .ok r ∧ validateGraph {} parcel = .ok r₀ ∧
      r₀.document = r.document ∧ r₀.diagnostics.map (·.location.column) = [some 4] ∧
      r.diagnostics.map (·.location) = [⟨some 3, some 16, "domain.Parcel.weight"⟩] ∧
      List.Forall₂ (fun d d' => d.severity ≠ .fatal → d.location.line = none →
        d.Placement parcelPositions d') r₀.diagnostics r.diagnostics := by
  have hcolumn : (validateGraph {} parcel).toOption.map (·.diagnostics.map (·.location.column)) =
      some [some 4] := by decide +kernel
  have hlocation : (validateGraph {} parcel parcelPositions).toOption.map
      (·.diagnostics.map (·.location)) = some [⟨some 3, some 16, "domain.Parcel.weight"⟩] := by
    decide +kernel
  cases hr : validateGraph {} parcel parcelPositions with
  | error e =>
      rw [hr] at hlocation
      cases hlocation
  | ok r =>
      obtain ⟨hsame, r₀, hr₀, hplaced⟩ := validateGraph_placed hr
      obtain ⟨r', hr', hdocument, -⟩ := hsame []
      cases hr'.symm.trans hr₀
      rw [hr] at hlocation
      rw [hr₀] at hcolumn
      exact ⟨r, _, rfl, hr₀, hdocument, Option.some.inj hcolumn, Option.some.inj hlocation, hplaced⟩

end Document

end AppSpec
