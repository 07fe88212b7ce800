import AppSpec.Document.Validate
import AppSpec.Proofs.DiagnosticOrder
import AppSpec.Proofs.Layer.LayerBehaves

/-!
Validating ordinary documents: where the numbers are short, no list of texts stands as a mapping with
an entry named `type`, and settings have texts for keys, a document is validated, and no diagnostic of
it is fatal.
-/

namespace AppSpec

namespace Settings

theorem readSeverity_ne_fatal {v : Value} {severity : Severity}
    (h : readSeverity v = some severity) : severity ≠ .fatal := by
  obtain ⟨-, hne⟩ := Option.filter_eq_some_iff.mp h
  simpa using hne

theorem unmappedSeverity_ne_fatal {given : Named Value} {environment : Named String} {s : Settings}
    (h : read given environment = .ok s) : s.unmappedSeverity ≠ .fatal := by
  rw [read, ofValues] at h
  dsimp only at h
  split at h
  · cases h
    dsimp only [reading]
    split
    · nofun
    · split
      · next hread => exact readSeverity_ne_fatal hread
      · nofun
  · cases h

end Settings

namespace LoadedDocument

structure Mild (d : LoadedDocument) : Prop where
  unfrozen : d.symbols.frozen = false
  faults : ∀ e ∈ d.diagnostics, e.severity ≠ .fatal

theorem Mild.add {d : LoadedDocument} (h : d.Mild) {result : LayerResult} {symbols : Symbols}
    (hfrozen : symbols.frozen = false)
    (hfaults : ∀ e ∈ result.notes.diagnostics, e.severity ≠ .fatal) :
    Mild ⟨d.results ++ [result], symbols⟩ := by
  refine ⟨hfrozen, fun e he => ?_⟩
  obtain ⟨r, hr, he⟩ := List.mem_flatMap.mp he
  rcases List.mem_append.mp hr with hr | hr
  · exact h.faults e (List.mem_flatMap.mpr ⟨r, hr, he⟩)
  · exact hfaults e (List.mem_singleton.mp hr ▸ he)

theorem mild_loadLayers {limit : Int} {entries : Entries} (hshort : entries.Short)
    (h : ∀ layer : Layer, layer.Orderly (entries.field layer.label)) {layers : List Layer}
    {d : LoadedDocument} (hd : d.Mild) : ∃ d', loadLayers limit entries layers d = .ok d' ∧ d'.Mild := by
  induction layers generalizing d with
  | nil => exact ⟨d, rfl, hd⟩
  | cons layer layers ih =>
      have hlayer : Layer.Mild (Layer.load limit layer (entries.field layer.label) d.symbols) :=
        Layer.mild_load hd.unfrozen (hshort.field layer.label) (h layer)
      obtain ⟨result, symbols, hload, hfrozen, hfaults⟩ := hlayer.runs
      obtain ⟨d', hrest, hmild⟩ := ih (hd.add hfrozen hfaults)
      exact ⟨d', bind_eq_ok.mpr ⟨(result, symbols), hload, hrest⟩, hmild⟩

end LoadedDocument

namespace Resolve

theorem severity_diagnostic? {path : String} {r : Resolution} {d : Diagnostic}
    (h : r.diagnostic? path = some d) : d.severity = .error := by
  cases r with
  | found space => cases h
  | dangling space cause hint =>
      cases h
      rfl

theorem severity_errorClash {t : Symbols} {name : String} {d : Diagnostic}
    (h : errorClash t name = some d) : d.severity = .error := by
  obtain ⟨ns, -, rfl⟩ := Option.map_eq_some_iff.mp h
  rfl

end Resolve

theorem severity_resolveAll {t : Symbols} {references : List DeferredReference}
    {resolved : ResolvedReferences} (h : resolveAll t references = .ok resolved) :
    ∀ d ∈ resolved.diagnostics, d.severity = .error := by
  intro d hd
  rw [resolveAll] at h
  split at h
  · cases h
  · cases h
    rcases List.mem_append.mp hd with hd | hd
    · obtain ⟨r, -, hr⟩ := List.mem_filterMap.mp hd
      exact Resolve.severity_diagnostic? hr
    · obtain ⟨name, -, hname⟩ := List.mem_filterMap.mp hd
      exact Resolve.severity_errorClash hname

theorem severity_inferRelationships {t : Symbols} {entities : List Entity} {paths : Named String} :
    ∀ d ∈ (inferRelationships t entities paths).diagnostics, d.severity = .error := by
  intro d hd
  obtain ⟨found, hfound, hd⟩ := List.mem_flatMap.mp hd
  obtain ⟨e, -, hfound⟩ := List.mem_flatMap.mp hfound
  obtain ⟨f, -, rfl⟩ := List.mem_map.mp hfound
  unfold Relationships.ofField at hd
  split at hd
  · cases hd
  · dsimp only at hd
    split at hd
    · cases hd
    · cases hd
    · cases List.mem_singleton.mp hd
      rfl

theorem DependencyGraph.severity_cycleDiagnostics {g : DependencyGraph} {pathOf : String → String}
    {warning : Bool} : ∀ d ∈ g.cycleDiagnostics pathOf warning, d.severity ≠ .fatal := by
  intro d hd
  obtain ⟨cycle, -, rfl⟩ := List.mem_map.mp hd
  cases warning <;> nofun

namespace Document

theorem mild_sectionWarning {key : Scalar} {d : Diagnostic} (h : sectionWarning key = some d) :
    d.severity ≠ .fatal := by
  unfold sectionWarning at h
  dsimp only at h
  split at h
  · cases h
  · cases h
    nofun

theorem mild_metadata {v : Value} : ∀ d ∈ (metadata v).2, d.severity ≠ .fatal := by
  intro d hd
  unfold metadata at hd
  split at hd
  · cases hd
  · cases hd
  · cases hd
  · cases List.mem_singleton.mp hd
    nofun

theorem mild_duplicateRoutes {paths : Named String} {pages : List Page} {seen : Named String} :
    ∀ d ∈ duplicateRoutes paths pages seen, d.severity ≠ .fatal := by
  intro d hd
  induction pages generalizing seen with
  | nil => cases hd
  | cons page pages ih =>
      unfold duplicateRoutes at hd
      split at hd
      · exact ih hd
      · split at hd
        · rcases List.mem_cons.mp hd with rfl | hd
          · nofun
          · exact ih hd
        · exact ih hd

theorem mild_cycleDiagnostics {s : Settings} {d : LoadedDocument} {g : Graphs} :
    ∀ e ∈ cycleDiagnostics s d g, e.severity ≠ .fatal := by
  intro e he
  rcases List.mem_append.mp he with he | he
  · exact (List.mem_append.mp he).elim (DependencyGraph.severity_cycleDiagnostics e)
      (DependencyGraph.severity_cycleDiagnostics e)
  · split at he
    · exact DependencyGraph.severity_cycleDiagnostics e he
    · cases he

theorem mild_crossChecks {s : Settings} (hs : s.unmappedSeverity ≠ .fatal) {entries : Entries}
    {d : LoadedDocument} {m : DocumentModel} :
    ∀ e ∈ crossChecks s entries d m, e.severity ≠ .fatal := by
  intro e he
  rcases List.mem_append.mp he with he | he
  · rcases List.mem_append.mp he with he | he
    · obtain ⟨name, -, rfl⟩ := List.mem_map.mp he
      exact hs
    · split at he
      · obtain ⟨name, -, rfl⟩ := List.mem_map.mp he
        nofun
      · cases he
  · exact mild_duplicateRoutes e he

/-- No list of texts stands as a mapping with an entry named `type`, and all settings are named by
texts. -/
structure Orderly (entries : Entries) : Prop where
  layers : ∀ layer : Layer, layer.Orderly (entries.field layer.label)
  metadata : (entries.field "metadata").TextKeys

theorem namedMetadata_runs {v : Value} (h : v.TextKeys) :
    ∃ named, namedMetadata (metadata v).1 = .ok named := by
  unfold metadata
  split
  · exact ⟨_, rfl⟩
  · exact ⟨_, rfl⟩
  · exact Security.namedSettings_runs (h _ rfl)
  · exact ⟨_, rfl⟩

theorem mild_append {ds es : List Diagnostic} (hd : ∀ d ∈ ds, d.severity ≠ .fatal)
    (he : ∀ e ∈ es, e.severity ≠ .fatal) : ∀ d ∈ ds ++ es, d.severity ≠ .fatal := fun d h =>
  (List.mem_append.mp h).elim (hd d) (he d)

theorem mild_check {s : Settings} (hs : s.unmappedSeverity ≠ .fatal) {entries : Entries}
    (hshort : entries.Short) (h : Orderly entries) :
    ∃ r, check s entries = .ok r ∧ ∀ d ∈ r.diagnostics, d.severity ≠ .fatal := by
  obtain ⟨loaded, hload, hmild⟩ : ∃ d, LoadedDocument.ofEntries s.typeLimit entries = .ok d ∧ d.Mild :=
    LoadedDocument.mild_loadLayers hshort h.layers ⟨rfl, List.forall_mem_nil _⟩
  obtain ⟨resolved, hresolved⟩ : ∃ resolved,
      resolveAll loaded.symbols.freeze loaded.references = .ok resolved := ⟨_, rfl⟩
  obtain ⟨named, hnamed⟩ := namedMetadata_runs h.metadata
  refine ⟨_, bind_eq_ok.mpr ⟨loaded, hload, bind_eq_ok.mpr ⟨resolved, hresolved,
    bind_eq_ok.mpr ⟨named, hnamed, rfl⟩⟩⟩, ?_⟩
  have hsections : ∀ d ∈ entries.filterMap fun e => sectionWarning e.1, d.severity ≠ .fatal := by
    intro d hd
    obtain ⟨e, -, he⟩ := List.mem_filterMap.mp hd
    exact mild_sectionWarning he
  have herror {ds : List Diagnostic} (h : ∀ d ∈ ds, d.severity = .error) :
      ∀ d ∈ ds, d.severity ≠ .fatal := by
    intro d hd
    rw [h d hd]
    nofun
  have hresolving := herror (severity_resolveAll hresolved)
  exact mild_append (mild_append (mild_append (mild_append (mild_append (mild_append hsections
    hmild.faults) mild_metadata) hresolving) (herror severity_inferRelationships))
    mild_cycleDiagnostics) (mild_crossChecks hs)

theorem validate_dict {s : Settings} (hs : s.unmappedSeverity ≠ .fatal) {entries : Entries}
    (hshort : entries.Short) (h : Orderly entries) (hentries : entries ≠ [])
    (positions : Positions) :
    ∃ r, validate s (.dict entries) positions = .ok r ∧ ∀ d ∈ r.diagnostics, d.severity ≠ .fatal := by
  obtain ⟨r, hcheck, hmild⟩ := mild_check hs hshort h
  cases entries with
  | nil => exact absurd rfl hentries
  | cons e entries =>
      refine ⟨{ r with diagnostics := Diagnostic.sorted (r.diagnostics.map (.locate positions)) }, ?_, ?_⟩
      · rw [validate]
        · rw [Value.hasLongKey_eq_false hshort.dict, hcheck]
          rfl
        · nofun
      · intro d hd
        obtain ⟨e, he, rfl⟩ := List.mem_map.mp ((Diagnostic.sorted_perm _).subset hd)
        rw [Diagnostic.severity_locate]
        exact hmild e he

end Document

end AppSpec
