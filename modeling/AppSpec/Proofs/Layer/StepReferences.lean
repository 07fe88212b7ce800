import AppSpec.Proofs.Layer.StepDepth
import AppSpec.Proofs.Path

/-!
The references of workflow steps: loading steps defers one for each operation that they call or go
on to, at every depth, under the path at which its name stands in the value.
-/

namespace AppSpec

namespace Value

/-- What the keys and indexes of a place lead to in a value. -/
def follow : Value → List Segment → Option Value
  | v, [] => some v
  | .dict entries, .name key :: rest => (Entries.text? entries key).bind (follow · rest)
  | .list items, .index (.ofNat n) :: rest => items[n]?.bind (follow · rest)
  | _, _ :: _ => none

theorem follow_append (v : Value) (place more : List Segment) :
    v.follow (place ++ more) = (v.follow place).bind (follow · more) := by
  induction v, place using follow.induct with
  | case1 v => rw [List.nil_append, follow, Option.bind_some]
  | case2 entries key rest ih =>
      rw [List.cons_append, follow, follow]
      cases Entries.text? entries key with
      | none => rfl
      | some inner => exact ih inner
  | case3 items n rest ih =>
      rw [List.cons_append, follow, follow]
      cases items[n]? with
      | none => rfl
      | some item => exact ih item
  | case4 v s rest hdict hlist =>
      rw [List.cons_append, follow, follow]
      · rfl
      all_goals assumption

end Value

/-- How an operation is used, and by which name. -/
abbrev OperationUse := ReferenceKind × String

namespace WorkflowStep

mutual

/-- The operations that a step calls and that it goes on to, in the order of the document. -/
def uses : WorkflowStep → List OperationUse
  | .call operation _ _ onError => (.call, operation) :: targetUses .onError onError
  | .loop _ _ body _ _ onTimeout => usesOf body ++ targetUses .onTimeout onTimeout
  | .parallel body => usesOf body
  | .branch cases => caseUses cases
  | .wait _ _ _ onTimeout => targetUses .onTimeout onTimeout

def usesOf : List WorkflowStep → List OperationUse
  | [] => []
  | step :: rest => step.uses ++ usesOf rest

def targetUses (kind : ReferenceKind) : Option StepTarget → List OperationUse
  | none => []
  | some (.operation name) => [(kind, name)]
  | some (.steps body) => usesOf body

def caseUses : List BranchCase → List OperationUse
  | [] => []
  | .mk _ body :: rest => usesOf body ++ caseUses rest

end

theorem usesOf_eq_flatMap (steps : List WorkflowStep) : usesOf steps = steps.flatMap uses := by
  induction steps with
  | nil => rfl
  | cons step rest ih => rw [usesOf, ih, List.flatMap_cons]

end WorkflowStep

namespace Load

variable {α β : Type}

/-! ### Loaders that defer nothing -/

def Silent (x : Load α) : Prop := ∀ a notes, x = .ok (a, notes) → notes.references = []

theorem silent_pure (a : α) : (pure a : Load α).Silent := by
  intro _ _ h
  cases h
  rfl

theorem silent_reportAll (ds : List Diagnostic) : (reportAll ds).Silent := by
  intro _ _ h
  cases h
  rfl

theorem silent_lift (x : Except Failure α) : (lift x).Silent := by
  intro a notes h
  unfold lift at h
  split at h
  · cases h
  · cases h
    rfl

theorem Silent.bind {x : Load α} {f : α → Load β} (hx : x.Silent) (hf : ∀ a, (f a).Silent) :
    (x >>= f).Silent := by
  intro b notes h
  obtain ⟨a, first, rest, ha, hb, rfl⟩ := load_bind_eq_ok.mp h
  exact List.append_eq_nil_iff.mpr ⟨hx a first ha, hf a b rest hb⟩

theorem silent_checkShape (shape : Shape) (entries : Entries) (path : String) :
    (checkShape shape entries path).Silent :=
  (silent_lift _).bind fun _ => silent_reportAll _

theorem silent_shown (v : Value) : (shown v).Silent := by
  unfold shown
  split
  · exact nofun
  · exact silent_pure _

theorem silent_text (v : Value) (path : String) : (text v path).Silent := by
  unfold text
  split
  · exact silent_pure _
  · exact silent_pure _
  · exact silent_pure _
  · exact (silent_shown _).bind fun _ => silent_pure _
  · exact silent_pure _
  · exact (silent_reportAll _).bind fun _ => silent_pure _

theorem silent_reject (d : Diagnostic) : (Steps.reject d : Load (Option α)).Silent :=
  (silent_reportAll _).bind fun _ => silent_pure _

theorem silent_loadRetry (v : Value) (path : String) : (Steps.loadRetry v path).Silent := by
  unfold Steps.loadRetry
  split
  · exact silent_pure _
  · exact silent_pure _
  · refine (silent_checkShape _ _ _).bind fun _ => (silent_text _ _).bind fun _ => ?_
    exact (silent_text _ _).bind fun _ => silent_pure _
  · exact silent_reject _

end Load

/-! ### Where names stand -/

namespace Steps

open WorkflowStep (uses usesOf targetUses caseUses)

/-- A word of steps, or an index. -/
def IsStepSegment : Segment → Prop
  | .name s => s ∈ words
  | .index i => 0 ≤ i

theorem IsStepSegment.plain {s : Segment} (h : IsStepSegment s) : Path.Plain s := by
  cases s with
  | name s =>
      have hwords : words.all (fun w => w != "" && w.toList.all fun c => !Path.isCut c) = true := by
        decide +kernel
      have hs := List.all_eq_true.mp hwords s h
      rw [Bool.and_eq_true, bne_iff_ne, List.all_eq_true] at hs
      exact ⟨hs.1, fun c hc => by simpa using hs.2 c hc⟩
  | index i => exact h

/-- A value stands at a place of the whole, with its path; where nothing stands it is null. -/
structure Stands (raw : Value) (base : String) (place : List Segment) (path : String)
    (v : Value) : Prop where
  path_eq : path = Path.joinAll base place
  segments : ∀ s ∈ place, IsStepSegment s
  value : v = .null ∨ raw.follow place = some v

namespace Stands

variable {raw : Value} {base path : String} {place : List Segment} {entries : Entries}

theorem start (raw : Value) (base : String) : Stands raw base [] base raw :=
  ⟨rfl, nofun, .inr (by rw [Value.follow])⟩

theorem concat {v w : Value} {s : Segment} (h : Stands raw base place path v)
    (hs : IsStepSegment s) (hv : v.isNull = false) (hw : w = .null ∨ v.follow [s] = some w) :
    Stands raw base (place ++ [s]) (Path.join path s) w := by
  have hnull : v ≠ .null := by
    rintro rfl
    cases hv
  refine ⟨?_, ?_, hw.imp_right fun hw => ?_⟩
  · rw [Path.joinAll_append, ← h.path_eq]
    rfl
  · intro t ht
    rcases List.mem_append.mp ht with ht | ht
    · exact h.segments t ht
    · rw [List.mem_singleton.mp ht]
      exact hs
  · rw [Value.follow_append, h.value.resolve_left hnull]
    exact hw

theorem text? {key : String} {v : Value} (h : Stands raw base place path (.dict entries))
    (hkey : key ∈ words) (hv : Entries.text? entries key = some v) :
    Stands raw base (place ++ [.name key]) (Path.child path key) v := by
  refine h.concat (s := .name key) hkey rfl (.inr ?_)
  rw [Value.follow, hv, Option.bind_some, Value.follow]

theorem field (h : Stands raw base place path (.dict entries)) (key : String)
    (hkey : key ∈ words) :
    Stands raw base (place ++ [.name key]) (Path.child path key) (Entries.field entries key) := by
  cases hv : Entries.text? entries key with
  | some v =>
      rw [Entries.field, hv]
      exact h.text? hkey hv
  | none =>
      rw [Entries.field, hv]
      exact h.concat (s := .name key) hkey rfl (.inl rfl)

theorem item {items : List Value} {p : Nat × Value}
    (h : Stands raw base place path (.list items)) (hp : p ∈ Load.indexed items) :
    Stands raw base (place ++ [.index p.1]) (Path.item path p.1) p.2 := by
  refine h.concat (s := .index p.1) (Int.natCast_nonneg _) rfl (.inr ?_)
  obtain ⟨q, hq, rfl⟩ := List.mem_map.mp hp
  have hget : items[q.2]? = some q.1 := List.mk_mem_zipIdx_iff_getElem?.mp hq
  have hfollow : (Value.list items).follow [.index (.ofNat q.2)] =
      items[q.2]?.bind (Value.follow · []) := by rw [Value.follow]
  exact hfollow.trans (by rw [hget, Option.bind_some, Value.follow])

end Stands

/-- A reference is that of a use: its name stands where its path leads to from the whole value. -/
structure Locates (raw : Value) (base : String) (r : DeferredReference) (use : OperationUse) :
    Prop where
  kind : r.kind = use.1
  name : r.name = use.2
  spaces : r.spaces = [.operation]
  place : ∃ place, (∀ s ∈ place, IsStepSegment s) ∧ r.path = Path.joinAll base place ∧
    raw.follow place = some (.str use.2)

/-- The places below one, itself among them. -/
abbrev under (place : List Segment) : List Segment → Prop := fun p => place <+: p

/-- A use whose name stands at a place of some area. -/
structure Found (raw : Value) (area : List Segment → Prop) (f : List Segment × OperationUse) :
    Prop where
  area : area f.1
  segments : ∀ s ∈ f.1, IsStepSegment s
  value : raw.follow f.1 = some (.str f.2.2)

def referenceOf (base : String) (f : List Segment × OperationUse) : DeferredReference :=
  ⟨Path.joinAll base f.1, f.2.2, [.operation], f.2.1⟩

/-- A loader defers the uses of its result that are not known before, each under the place of its
name in the area, and no two under one place. -/
def Defers {α : Type} (raw : Value) (base : String) (area : List Segment → Prop)
    (known : List OperationUse) (used : α → List OperationUse) (x : Load α) : Prop :=
  ∀ a notes, x = .ok (a, notes) → ∃ found : List (List Segment × OperationUse),
    notes.references = found.map (referenceOf base) ∧
    known ++ found.map (·.2) = used a ∧ (found.map (·.1)).Nodup ∧ ∀ f ∈ found, Found raw area f

namespace Defers

variable {α β : Type} {raw : Value} {base : String} {area area₁ area₂ : List Segment → Prop}
  {known : List OperationUse} {used : β → List OperationUse}

theorem pure {b : β} (h : known = used b) : Defers raw base area known used (Pure.pure b) := by
  intro _ notes hb
  cases hb
  exact ⟨[], rfl, (List.append_nil _).trans h, .nil, nofun⟩

theorem mono {x : Load β} (h : Defers raw base area₁ known used x) (hsub : ∀ p, area₁ p → area p) :
    Defers raw base area known used x := by
  intro b notes hb
  obtain ⟨found, hrefs, hused, hnodup, hfound⟩ := h b notes hb
  exact ⟨found, hrefs, hused, hnodup, fun f hf =>
    ⟨hsub _ (hfound f hf).area, (hfound f hf).segments, (hfound f hf).value⟩⟩

/-- Two loaders after each other defer in areas of their own. -/
theorem bind {x : Load α} {f : α → Load β} {used' : α → List OperationUse}
    (hx : Defers raw base area₁ [] used' x)
    (hf : ∀ a, Defers raw base area₂ (known ++ used' a) used (f a))
    (hapart : ∀ p, area₁ p → ¬ area₂ p) :
    Defers raw base (fun p => area₁ p ∨ area₂ p) known used (x >>= f) := by
  intro b notes h
  obtain ⟨a, first, rest, ha, hb, rfl⟩ := Load.load_bind_eq_ok.mp h
  obtain ⟨found, hrefs, hused, hnodup, hfound⟩ := hx a first ha
  obtain ⟨more, hrefs', hused', hnodup', hfound'⟩ := hf a b rest hb
  refine ⟨found ++ more, ?_, ?_, ?_, ?_⟩
  · rw [List.map_append, ← hrefs, ← hrefs']
    rfl
  · rw [List.map_append, ← List.append_assoc, ← hused', ← hused, List.nil_append]
  · rw [List.map_append]
    refine hnodup.append hnodup' ?_
    intro p hp hp'
    obtain ⟨f, hf, rfl⟩ := List.mem_map.mp hp
    obtain ⟨g, hg, heq⟩ := List.mem_map.mp hp'
    exact hapart _ (hfound f hf).area (heq ▸ (hfound' g hg).area)
  · intro f hf
    rcases List.mem_append.mp hf with hf | hf
    · exact ⟨.inl (hfound f hf).area, (hfound f hf).segments, (hfound f hf).value⟩
    · exact ⟨.inr (hfound' f hf).area, (hfound' f hf).segments, (hfound' f hf).value⟩

/-- The last loader of a step gives its last uses. -/
theorem last {x : Load α} {g : α → β} {used' : α → List OperationUse}
    (hx : Defers raw base area [] used' x) (hg : ∀ a, known ++ used' a = used (g a)) :
    Defers raw base area known used (x >>= fun a => Pure.pure (g a)) := by
  have hend (a : α) : Defers raw base (fun _ => False) (known ++ used' a) used (Pure.pure (g a)) :=
    pure (hg a)
  exact (hx.bind hend fun _ _ => id).mono fun p hp => hp.resolve_right id

theorem afterOf {x : Load α} {f : α → Load β} (hx : x.Silent)
    (hf : ∀ a notes, x = .ok (a, notes) → Defers raw base area known used (f a)) :
    Defers raw base area known used (x >>= f) := by
  intro b notes h
  obtain ⟨a, first, rest, ha, hb, rfl⟩ := Load.load_bind_eq_ok.mp h
  obtain ⟨found, hrefs, hrest⟩ := hf a first ha b rest hb
  refine ⟨found, ?_, hrest⟩
  rw [← hrefs]
  show first.references ++ rest.references = rest.references
  rw [hx a first ha, List.nil_append]

theorem after {x : Load α} {f : α → Load β} (hx : x.Silent)
    (hf : ∀ a, Defers raw base area known used (f a)) :
    Defers raw base area known used (x >>= f) := afterOf hx fun a _ _ => hf a

theorem perhapsAfter {c : Prop} [Decidable c] {x : Load Unit} {f : Unit → Load β} (hx : x.Silent)
    (hf : ∀ u, Defers raw base area known used (f u)) :
    Defers raw base area known used (if c then x >>= f else f ()) := by
  split
  · exact .after hx hf
  · exact hf ()

theorem name {place : List Segment} {path name : String} {kind : ReferenceKind}
    (h : Stands raw base place path (.str name)) :
    Defers raw base (under place) [] (fun _ : Unit => [(kind, name)])
      (Load.defer path name kind [.operation]) := by
  intro _ notes hnotes
  cases hnotes
  refine ⟨[(place, kind, name)], ?_, rfl, List.nodup_singleton _, fun f hf => ?_⟩
  · rw [h.path_eq]
    rfl
  · rw [List.mem_singleton.mp hf]
    exact ⟨List.prefix_rfl, h.segments, h.value.resolve_left nofun⟩

end Defers

theorem not_under_of_ne {place : List Segment} {s t : Segment} (hne : s ≠ t) (p : List Segment)
    (hs : under (place ++ [s]) p) : ¬ under (place ++ [t]) p := by
  rintro ⟨more, ht⟩
  obtain ⟨more', rfl⟩ := hs
  rw [List.append_assoc, List.append_assoc, List.append_cancel_left_eq] at ht
  exact hne (List.cons.inj ht).1.symm

theorem under_of_append {place more : List Segment} (p : List Segment)
    (h : under (place ++ more) p) : under place p := (List.prefix_append place more).trans h

/-! ### The loaders -/

section Loaders

variable {raw : Value} {base path : String} {place : List Segment} {area : List Segment → Prop}
  {steps : StepsLoader} {entries : Entries} {v : Value}

def DefersSteps (raw : Value) (base : String) (steps : StepsLoader) : Prop :=
  ∀ {place : List Segment} {path : String} {v : Value}, Stands raw base place path v →
    Defers raw base (under place) [] usesOf (steps v path)

def optionUses : Option WorkflowStep → List OperationUse
  | none => []
  | some step => step.uses

theorem defers_reject (d : Diagnostic) : Defers raw base area [] optionUses (reject d) :=
  .after (Load.silent_reportAll _) fun _ => .pure rfl

theorem defers_loadTarget (hsteps : DefersSteps raw base steps) (kind : ReferenceKind)
    (h : Stands raw base place path v) :
    Defers raw base (under place) [] (targetUses kind) (loadTarget steps kind v path) := by
  have hreject (d : String → Diagnostic) : Defers raw base (under place) [] (targetUses kind)
      (do Load.report (d (← Load.shown v)); return none) :=
    .after (Load.silent_shown v) fun _ => .after (Load.silent_reportAll _) fun _ =>
      .pure (by rw [targetUses])
  have hinner : Defers raw base (under place) [] (targetUses kind)
      (do return some (.steps (← steps v path))) :=
    (hsteps h).last fun body => by rw [List.nil_append, targetUses]
  unfold loadTarget
  split
  · exact .pure (by rw [targetUses])
  · split
    · exact hreject _
    · exact (Defers.name h).last fun _ => by rw [List.nil_append, targetUses]
  · split
    · exact hinner
    · exact hreject _
  · split
    · exact hreject _
    · exact hinner
  · exact hreject _

theorem defers_loadCall (hsteps : DefersSteps raw base steps)
    (h : Stands raw base place path (.dict entries)) :
    Defers raw base (under place) [] optionUses (loadCall steps entries path) := by
  have hcall := h.field "call" (by decide)
  have htarget := h.field "on_error" (by decide)
  unfold loadCall
  dsimp only
  split
  · next operation hoperation =>
      rw [hoperation] at hcall
      split
      · exact defers_reject _
      · refine ((Defers.name hcall).bind (fun _ => .after (Load.silent_text _ _) fun condition =>
          .after (Load.silent_loadRetry _ _) fun retry =>
            (defers_loadTarget hsteps .onError htarget).last fun onError => ?_)
          (not_under_of_ne (by decide))).mono ?_
        · rw [optionUses, uses]
          rfl
        · exact fun p hp => hp.elim (under_of_append p) (under_of_append p)
  · exact defers_reject _

theorem bodyKey_mem (spec : Entries) : bodyKey spec ∈ ["steps", "body", "do"] := by
  rw [bodyKey]
  cases hfind : ["steps", "body", "do"].find? fun key => Entries.has spec key with
  | none => exact List.mem_cons_self
  | some key => exact List.mem_of_find?_eq_some hfind

theorem defers_loadLoop (hsteps : DefersSteps raw base steps)
    (h : Stands raw base place path (.dict entries)) :
    Defers raw base (under place) [] optionUses (loadLoop steps entries path) := by
  have hloop := h.field "loop" (by decide)
  unfold loadLoop
  dsimp only
  split
  · next spec hspec =>
      rw [hspec] at hloop
      have hkeys : ∀ key ∈ ["steps", "body", "do"], key ∈ words ∧ key ≠ "on_timeout" := by decide
      obtain ⟨hword, hother⟩ := hkeys _ (bodyKey_mem spec)
      have hbody := hloop.field _ hword
      have htarget := hloop.field "on_timeout" (by decide)
      refine .after (Load.silent_checkShape _ _ _) fun _ => .after (Load.silent_text _ _) fun _ =>
        .after (Load.silent_text _ _) fun _ => .perhapsAfter (Load.silent_reportAll _) fun _ => ?_
      have hapart : Segment.name (bodyKey spec) ≠ .name "on_timeout" :=
        fun heq => hother (Segment.name.inj heq)
      refine ((hsteps hbody).bind (fun body => .perhapsAfter (Load.silent_reportAll _) fun _ =>
        .after (Load.silent_text _ _) fun timeout =>
          (defers_loadTarget hsteps .onTimeout htarget).last fun onTimeout => ?_)
        (not_under_of_ne hapart)).mono ?_
      · rw [optionUses, uses, List.nil_append]
      · exact fun p hp => under_of_append p (hp.elim (under_of_append p) (under_of_append p))
  · exact defers_reject _

theorem stands_unwrapped (key : String) (hkey : key ∈ words) (h : Stands raw base place path v) :
    ∃ more, Stands raw base (place ++ more) (unwrapped v path key).2 (unwrapped v path key).1 := by
  have hsame : ∃ more, Stands raw base (place ++ more) path v :=
    ⟨[], by rwa [List.append_nil]⟩
  unfold unwrapped
  split
  · split
    · next hinner => exact ⟨_, h.text? hkey hinner⟩
    · exact hsame
  · exact hsame

theorem defers_loadParallel (hsteps : DefersSteps raw base steps)
    (h : Stands raw base place path (.dict entries)) :
    Defers raw base (under place) [] optionUses (loadParallel steps entries path) := by
  obtain ⟨more, hspec⟩ := stands_unwrapped "steps" (by decide)
    (h.field "parallel" (by decide))
  unfold loadParallel
  dsimp only
  split
  · have hend (body : List WorkflowStep) (d : Diagnostic) :
        Defers raw base (fun _ => False) ([] ++ usesOf body) optionUses (do
          if body.length < 2 then
            Load.report d
          return some (.parallel body)) :=
      .perhapsAfter (Load.silent_reportAll _) fun _ => .pure (by
        rw [optionUses, uses, List.nil_append])
    refine ((hsteps hspec).bind (fun body => hend body _) fun _ _ => id).mono fun p hp => ?_
    exact under_of_append p (under_of_append p (hp.resolve_right id))
  · exact defers_reject _

/-- The places below some items of a list. -/
abbrev underItems (place : List Segment) (items : List (Nat × Value)) : List Segment → Prop :=
  fun p => ∃ item ∈ items, under (place ++ [.index item.1]) p

theorem not_underItems {items : List (Nat × Value)} {index : Nat}
    (hnew : index ∉ items.map (·.1)) (p : List Segment) (h : under (place ++ [.index index]) p) :
    ¬ underItems place items p := by
  rintro ⟨item, hitem, hp⟩
  refine not_under_of_ne (fun heq => hnew ?_) p h hp
  rw [Int.ofNat.inj (Segment.index.inj heq)]
  exact List.mem_map_of_mem hitem

theorem nodup_indexed (items : List Value) : ((Load.indexed items).map (·.1)).Nodup := by
  have hindexes : (Load.indexed items).map (·.1) = items.zipIdx.map (·.2) := by
    rw [Load.indexed, List.map_map]
    rfl
  rw [hindexes, List.zipIdx_map_snd]
  exact List.nodup_range'

theorem defers_each {f : Nat × Value → Load (Option WorkflowStep)} {items : List (Nat × Value)}
    (hitems : (items.map (·.1)).Nodup)
    (hf : ∀ p ∈ items, Defers raw base (under (place ++ [.index p.1])) [] optionUses (f p)) :
    Defers raw base (underItems place items) [] (fun os => os.flatMap optionUses)
      (Load.each f items) := by
  induction items with
  | nil => exact .pure rfl
  | cons p items ih =>
      obtain ⟨hnew, hitems⟩ := List.nodup_cons.mp hitems
      refine ((hf p List.mem_cons_self).bind (fun o => (ih hitems fun q hq =>
        hf q (List.mem_cons_of_mem _ hq)).last fun os => ?_) (not_underItems hnew)).mono ?_
      · rw [List.nil_append, List.flatMap_cons]
      · rintro q (hq | ⟨item, hitem, hq⟩)
        · exact ⟨p, List.mem_cons_self, hq⟩
        · exact ⟨item, List.mem_cons_of_mem _ hitem, hq⟩

theorem usesOf_filterMap (os : List (Option WorkflowStep)) :
    usesOf (os.filterMap id) = os.flatMap optionUses := by
  induction os with
  | nil => rw [List.filterMap_nil, usesOf, List.flatMap_nil]
  | cons o os ih =>
      cases o with
      | none => exact ih
      | some step =>
          have hcons : (some step :: os).filterMap id = step :: os.filterMap id := rfl
          rw [hcons, usesOf, ih, List.flatMap_cons, optionUses]

theorem silent_writtenCase (entries : Entries) (path : String) :
    (writtenCase entries path).Silent := by
  unfold writtenCase
  split
  · exact Load.silent_pure _
  · refine (Load.silent_text _ _).bind fun condition => ?_
    dsimp only
    split
    · exact (Load.silent_reportAll _).bind fun _ => Load.silent_pure _
    · exact Load.silent_pure _
  · exact Load.silent_reject _

theorem defers_loadCases (hsteps : DefersSteps raw base steps) {closed : Bool}
    {items : List (Nat × Value)} (hitems : (items.map (·.1)).Nodup)
    (h : ∀ p ∈ items, Stands raw base (place ++ [.index p.1]) (Path.item path p.1) p.2) :
    Defers raw base (underItems place items) [] caseUses (loadCases steps path closed items) := by
  induction items generalizing closed with
  | nil => exact .pure (by rw [caseUses])
  | cons p items ih =>
      obtain ⟨index, v⟩ := p
      obtain ⟨hnew, hitems⟩ := List.nodup_cons.mp hitems
      have hrest {closed : Bool} : Defers raw base (underItems place items) [] caseUses
          (loadCases steps path closed items) :=
        ih hitems fun q hq => h q (List.mem_cons_of_mem _ hq)
      have hlater (q : List Segment) (hq : underItems place items q) :
          underItems place ((index, v) :: items) q := by
        obtain ⟨item, hitem, hq⟩ := hq
        exact ⟨item, List.mem_cons_of_mem _ hitem, hq⟩
      have hfirst := h _ List.mem_cons_self
      unfold loadCases
      dsimp only
      split
      · next entries =>
          refine .afterOf (silent_writtenCase _ _) fun written notes hwritten => ?_
          cases written with
          | none => exact hrest.mono hlater
          | some written =>
              obtain ⟨key, hkey, hpath, hbody⟩ := writtenCase_body hwritten
              have hstands := hfirst.field key hkey
              rw [← hpath, ← hbody] at hstands
              refine .perhapsAfter (Load.silent_reportAll _) fun _ => ?_
              refine ((hsteps hstands).bind (fun body => hrest.last fun more => ?_)
                fun q hq => not_underItems hnew q (under_of_append q hq)).mono ?_
              · rw [List.nil_append, caseUses]
              · rintro q (hq | hq)
                · exact ⟨_, List.mem_cons_self, under_of_append q hq⟩
                · exact hlater q hq
      · exact .after (Load.silent_reportAll _) fun _ => hrest.mono hlater

theorem defers_loadBranch (hsteps : DefersSteps raw base steps)
    (h : Stands raw base place path (.dict entries)) :
    Defers raw base (under place) [] optionUses (loadBranch steps entries path) := by
  have hbranch := h.field "branch" (by decide)
  unfold loadBranch
  dsimp only
  split
  · next item items hspec =>
      rw [hspec] at hbranch
      refine ((defers_loadCases hsteps (nodup_indexed _) fun p hp => hbranch.item hp).last
        fun cases => ?_).mono ?_
      · rw [List.nil_append, optionUses, uses]
      · rintro p ⟨item, -, hp⟩
        exact under_of_append p (under_of_append p hp)
  · exact defers_reject _

theorem defers_loadWait (hsteps : DefersSteps raw base steps)
    (h : Stands raw base place path (.dict entries)) :
    Defers raw base (under place) [] optionUses (loadWait steps entries path) := by
  have hwait := h.field "wait" (by decide)
  have hplain {duration : Option String} :
      Defers raw base (under place) [] optionUses (pure (some (.wait duration none none none))) :=
    .pure (by rw [optionUses, uses, targetUses])
  unfold loadWait
  dsimp only
  split
  · exact hplain
  · exact .after (Load.silent_shown _) fun _ => hplain
  · exact hplain
  · next spec hspec =>
      rw [hspec] at hwait
      have htarget := hwait.field "on_timeout" (by decide)
      refine .after (Load.silent_checkShape _ _ _) fun _ => .after (Load.silent_text _ _) fun _ =>
        .after (Load.silent_text _ _) fun _ => .perhapsAfter (Load.silent_reportAll _) fun _ =>
          .after (Load.silent_text _ _) fun timeout => ?_
      refine ((defers_loadTarget hsteps .onTimeout htarget).last fun onTimeout => ?_).mono ?_
      · rw [List.nil_append, optionUses, uses]
      · exact fun p hp => under_of_append p (under_of_append p hp)
  · exact defers_reject _

theorem defers_loadStep (hsteps : DefersSteps raw base steps) (h : Stands raw base place path v) :
    Defers raw base (under place) [] optionUses (loadStep steps v path) := by
  unfold loadStep
  dsimp only
  split
  · next name =>
      split
      · exact defers_reject _
      · exact (Defers.name h).last fun _ => by
          rw [List.nil_append, optionUses, uses, targetUses]
  · split
    · exact defers_loadCall hsteps h
    · exact defers_loadLoop hsteps h
    · exact defers_loadParallel hsteps h
    · exact defers_loadBranch hsteps h
    · exact defers_loadWait hsteps h
    · exact defers_reject _
  · exact defers_reject _

theorem defers_loadBody (hsteps : DefersSteps raw base steps) :
    DefersSteps raw base (loadBody steps) := by
  intro place path v h
  unfold loadBody
  split
  · exact .pure (by rw [usesOf])
  · refine (defers_loadStep hsteps h).last fun step => ?_
    cases step with
    | none => exact (usesOf.eq_1).symm
    | some step => simp [optionUses, usesOf]
  · refine ((defers_each (nodup_indexed _) fun p hp => defers_loadStep hsteps (h.item hp)).last
      fun os => (usesOf_filterMap os).symm).mono ?_
    rintro p ⟨item, -, hp⟩
    exact under_of_append p hp
  · exact .after (Load.silent_reportAll _) fun _ => .pure (by rw [usesOf])

theorem defers_loadWithin (depth : Nat) : DefersSteps raw base (loadWithin depth) := by
  induction depth with
  | zero => exact fun _ => .pure (by rw [usesOf])
  | succ depth ih => exact defers_loadBody ih

end Loaders

/-- The references of steps are those of the operations that they call and go on to, at every depth
and in this order; each name stands in the value where its path says, and no two paths are the same.
The depth of the value is enough for all its steps, and where numbers are short they are loaded. -/
theorem load_references_located (raw : Value) (path : String) :
    (raw.Short → ∃ steps notes, load raw path = .ok (steps, notes)) ∧
    (∀ depth, raw.depth ≤ depth → loadWithin depth raw path = load raw path) ∧
    ∀ steps notes, load raw path = .ok (steps, notes) →
      List.Forall₂ (Locates raw path) notes.references (usesOf steps) ∧
        (notes.references.map (·.path)).Nodup := by
  refine ⟨fun hshort => ?_, fun depth hle => ?_, fun steps notes h => ?_⟩
  · exact (behaves_loadWithin (P := raw.Short) raw.depth id).runs hshort
  · exact (agree_loadWithin hle (.inr le_rfl)).symm
  · obtain ⟨found, hrefs, hused, hnodup, hfound⟩ :=
      defers_loadWithin raw.depth (.start raw path) steps notes h
    rw [hrefs, ← hused, List.nil_append]
    constructor
    · rw [List.forall₂_map_left_iff, List.forall₂_map_right_iff, List.forall₂_same]
      intro f hf
      exact ⟨rfl, rfl, rfl, f.1, (hfound f hf).segments, rfl, (hfound f hf).value⟩
    · have hpaths : (found.map (referenceOf path)).map (·.path) =
          (found.map (·.1)).map (Path.joinAll path) := by
        rw [List.map_map, List.map_map]
        rfl
      have hplain : ∀ p ∈ found.map (·.1), ∀ s ∈ p, Path.Plain s := by
        intro p hp s hs
        obtain ⟨f, hf, rfl⟩ := List.mem_map.mp hp
        exact ((hfound f hf).segments s hs).plain
      rw [hpaths]
      exact hnodup.map_on fun p hp q hq heq => Path.joinAll_inj (hplain p hp) (hplain q hq) heq

def delivery : Value :=
  .list [.str "pack",
    .dict [(.str "loop", .dict [(.str "over", .str "parcels"),
      (.str "body", .list [.dict [(.str "call", .str "ship"), (.str "on_error", .str "notify")]]),
      (.str "on_timeout", .dict [(.str "parallel", .dict [(.str "steps",
        .list [.str "refund", .str "ship"])])])])],
    .dict [(.str "call", .null)],
    .dict [(.str "branch", .list [.dict [(.str "else", .list [.str "pack"])]])]]

theorem short_delivery : delivery.Short := by
  have hword {s : String} (h : s.toList.length ≤ Text.maxIntegerDigits) : (Scalar.str s).Short :=
    .str (Text.not_hasLongNumber h)
  have hscalar (s : Scalar) : (Value.scalar s).Short ↔ s.Short :=
    ⟨fun h => by cases h; assumption, .scalar⟩
  have hlist (items : List Value) : (Value.list items).Short ↔ ∀ v ∈ items, v.Short :=
    ⟨fun h => by cases h; assumption, .list⟩
  have hdict (entries : Entries) :
      (Value.dict entries).Short ↔ ∀ e ∈ entries, e.1.Short ∧ e.2.Short :=
    ⟨fun h => by cases h with | dict hkeys hvalues => exact fun e he => ⟨hkeys e he, hvalues e he⟩,
      fun h => .dict (fun e he => (h e he).1) fun e he => (h e he).2⟩
  simp only [delivery, hlist, hdict, hscalar, List.forall_mem_cons, List.not_mem_nil,
    false_imp_iff, implies_true, and_true]
  and_intros
  all_goals first | exact .null | (apply hword; decide)

/-- The step that calls nothing is left out, and keeps its index. -/
theorem load_references_located_delivery : ∃ steps notes,
    load delivery "steps" = .ok (steps, notes) ∧
      notes.references.map (fun r => (r.path, r.name)) =
        [("steps[0]", "pack"), ("steps[1].loop.body[0].call", "ship"),
          ("steps[1].loop.body[0].on_error", "notify"),
          ("steps[1].loop.on_timeout.parallel.steps[0]", "refund"),
          ("steps[1].loop.on_timeout.parallel.steps[1]", "ship"),
          ("steps[3].branch[0].else[0]", "pack")] ∧
      List.Forall₂ (Locates delivery "steps") notes.references (usesOf steps) ∧
        (notes.references.map (·.path)).Nodup := by
  obtain ⟨hloads, -, hlocated⟩ := load_references_located delivery "steps"
  obtain ⟨steps, notes, hload⟩ := hloads short_delivery
  refine ⟨steps, notes, hload, ?_, hlocated steps notes hload⟩
  have hpaths : (match load delivery "steps" with
      | .ok (_, notes) => notes.references.map fun r => (r.path, r.name)
      | .error _ => []) = [("steps[0]", "pack"), ("steps[1].loop.body[0].call", "ship"),
          ("steps[1].loop.body[0].on_error", "notify"),
          ("steps[1].loop.on_timeout.parallel.steps[0]", "refund"),
          ("steps[1].loop.on_timeout.parallel.steps[1]", "ship"),
          ("steps[3].branch[0].else[0]", "pack")] := by decide +kernel
  rwa [hload] at hpaths

end Steps

end AppSpec
