import AppSpec.Proofs.Layer.StepBehaves

/-!
The depth of a value is enough for the steps in it: loading them with more levels makes no
difference.
-/

namespace AppSpec

namespace Load

variable {α β : Type}

theorem load_bind_congr {x : Load α} {f g : α → Load β}
    (h : ∀ a notes, x = .ok (a, notes) → f a = g a) : x >>= f = x >>= g := by
  show andThen x f = andThen x g
  unfold andThen
  split
  · rfl
  · next a notes => rw [h a notes rfl]

theorem each_congr {f g : α → Load β} {as : List α} (h : ∀ a ∈ as, f a = g a) :
    each f as = each g as := by
  induction as with
  | nil => rfl
  | cons a as ih =>
      rw [each, each, h a List.mem_cons_self,
        ih fun b hb => h b (List.mem_cons_of_mem _ hb)]

end Load

namespace Steps

/-- The keys under which steps nest, and under which they name operations. -/
def words : List String :=
  keywords ++ ["steps", "body", "do", "else", "then", "on_error", "on_timeout"]

variable {n : Nat} {steps steps' : StepsLoader} {entries : Entries} {v : Value} {path : String}

/-- A value holds no more levels than these; that of a missing key counts for none. -/
def Fits (n : Nat) (v : Value) : Prop := v = .null ∨ v.depth ≤ n

theorem depth_le_depthItems {items : List Value} (h : v ∈ items) :
    v.depth ≤ Value.depthItems items := by
  induction items with
  | nil => cases h
  | cons item items ih =>
      rw [Value.depthItems]
      rcases List.mem_cons.mp h with rfl | h
      · exact le_max_left _ _
      · exact (ih h).trans (le_max_right _ _)

theorem depth_le_depthEntries {key : Scalar} (h : (key, v) ∈ entries) :
    v.depth ≤ Value.depthEntries entries := by
  induction entries with
  | nil => cases h
  | cons e entries ih =>
      obtain ⟨k, w⟩ := e
      rw [Value.depthEntries]
      rcases List.mem_cons.mp h with heq | h
      · cases heq
        exact le_max_left _ _
      · exact (ih h).trans (le_max_right _ _)

theorem fits_text? {key : String} (h : Value.depthEntries entries ≤ n)
    (hv : Entries.text? entries key = some v) : Fits n v := by
  obtain ⟨e, he, rfl⟩ := Option.map_eq_some_iff.mp hv
  exact .inr ((depth_le_depthEntries (List.mem_of_find?_eq_some he)).trans h)

theorem fits_field (h : Value.depthEntries entries ≤ n) (key : String) :
    Fits n (Entries.field entries key) := by
  cases hv : Entries.text? entries key with
  | some v =>
      rw [Entries.field, hv]
      exact fits_text? h hv
  | none =>
      rw [Entries.field, hv]
      exact .inl rfl

theorem Fits.depthEntries_lt (h : Fits n (.dict entries)) : Value.depthEntries entries < n := by
  rcases h with h | h
  · cases h
  · rw [Value.depth] at h
    omega

theorem Fits.item {items : List Value} {p : Nat × Value} (h : Fits n (.list items))
    (hp : p ∈ Load.indexed items) : Fits n p.2 := by
  rcases h with h | h
  · cases h
  · rw [Value.depth] at h
    exact .inr (by have := depth_le_depthItems (Load.mem_indexed hp); omega)

theorem fits_unwrapped {key : String} (h : Fits n v) : Fits n (unwrapped v path key).1 := by
  unfold unwrapped
  split
  · split
    · next hinner => exact fits_text? h.depthEntries_lt.le hinner
    · exact h
  · exact h

/-- The body of a case is what stands under its key. -/
theorem writtenCase_body {written : WrittenCase} {notes : Notes}
    (h : writtenCase entries path = .ok (some written, notes)) :
    ∃ key ∈ words, written.bodyPath = Path.child path key ∧
      written.body = Entries.field entries key := by
  unfold writtenCase at h
  split at h
  · next helse =>
      cases h
      exact ⟨"else", by decide, rfl, by rw [Entries.field, helse, Option.getD_some]⟩
  · obtain ⟨condition, _, _, -, hrest, -⟩ := Load.load_bind_eq_ok.mp h
    dsimp only at hrest
    split at hrest
    · obtain ⟨_, _, _, -, hend, -⟩ := Load.load_bind_eq_ok.mp hrest
      cases hend
      exact ⟨"then", by decide, rfl, rfl⟩
    · cases hrest
      exact ⟨"then", by decide, rfl, rfl⟩
  · obtain ⟨_, _, _, -, hend, -⟩ := Load.load_bind_eq_ok.mp h
    cases hend

/-- Two loaders of nested steps do the same on values that fit. -/
def Agree (n : Nat) (steps steps' : StepsLoader) : Prop :=
  ∀ {v : Value} {path : String}, Fits n v → steps v path = steps' v path

theorem loadTarget_congr (h : Agree n steps steps') {kind : ReferenceKind} (hv : Fits n v) :
    loadTarget steps kind v path = loadTarget steps' kind v path := by
  simp only [loadTarget, h hv]

theorem loadCall_congr (h : Agree n steps steps') (hn : Value.depthEntries entries ≤ n) :
    loadCall steps entries path = loadCall steps' entries path := by
  simp only [loadCall, loadTarget_congr h (fits_field hn _)]

theorem loadLoop_congr (h : Agree n steps steps') (hn : Value.depthEntries entries ≤ n) :
    loadLoop steps entries path = loadLoop steps' entries path := by
  unfold loadLoop
  cases hloop : Entries.field entries "loop" with
  | dict spec =>
      have hfits := fits_field hn "loop"
      rw [hloop] at hfits
      have hspec := hfits.depthEntries_lt.le
      simp only [h (fits_field hspec _), loadTarget_congr h (fits_field hspec _)]
  | _ => rfl

theorem loadParallel_congr (h : Agree n steps steps') (hn : Value.depthEntries entries ≤ n) :
    loadParallel steps entries path = loadParallel steps' entries path := by
  have hspec : Fits n (unwrapped (Entries.field entries "parallel")
      (Path.child path "parallel") "steps").1 := fits_unwrapped (fits_field hn "parallel")
  unfold loadParallel
  dsimp only
  split
  · rw [h hspec]
  · rfl

theorem loadCases_congr (h : Agree n steps steps') {closed : Bool} {items : List (Nat × Value)}
    (hn : ∀ p ∈ items, Fits n p.2) :
    loadCases steps path closed items = loadCases steps' path closed items := by
  induction items generalizing closed with
  | nil => rfl
  | cons p items ih =>
      obtain ⟨index, v⟩ := p
      have hrest {closed : Bool} :
          loadCases steps path closed items = loadCases steps' path closed items :=
        ih fun q hq => hn q (List.mem_cons_of_mem _ hq)
      unfold loadCases
      dsimp only
      split
      · next entries =>
          have hentries := (hn _ List.mem_cons_self).depthEntries_lt.le
          refine Load.load_bind_congr fun written notes hwritten => ?_
          cases written with
          | none => exact hrest
          | some written =>
              obtain ⟨key, -, -, hbody⟩ := writtenCase_body hwritten
              have hfits := fits_field hentries key
              rw [← hbody] at hfits
              simp only [h hfits, hrest]
      · simp only [hrest]

theorem loadBranch_congr (h : Agree n steps steps') (hn : Value.depthEntries entries ≤ n) :
    loadBranch steps entries path = loadBranch steps' entries path := by
  have hbranch := fits_field hn "branch"
  unfold loadBranch
  dsimp only
  split
  · next item items hspec =>
      rw [hspec] at hbranch
      rw [loadCases_congr h fun p hp => hbranch.item hp]
  · rfl

theorem loadWait_congr (h : Agree n steps steps') (hn : Value.depthEntries entries ≤ n) :
    loadWait steps entries path = loadWait steps' entries path := by
  have hwait := fits_field hn "wait"
  unfold loadWait
  dsimp only
  split
  · rfl
  · rfl
  · rfl
  · next spec hspec =>
      rw [hspec] at hwait
      simp only [loadTarget_congr h (fits_field hwait.depthEntries_lt.le _)]
  · rfl

theorem loadStep_congr (h : Agree n steps steps') (hv : Fits (n + 1) v) :
    loadStep steps v path = loadStep steps' v path := by
  unfold loadStep
  dsimp only
  split
  · rfl
  · next entries =>
      have hn : Value.depthEntries entries ≤ n := Nat.le_of_lt_succ hv.depthEntries_lt
      rw [loadCall_congr h hn, loadLoop_congr h hn, loadParallel_congr h hn, loadBranch_congr h hn,
        loadWait_congr h hn]
  · rfl

theorem agree_loadBody (h : Agree n steps steps') :
    Agree (n + 1) (loadBody steps) (loadBody steps') := by
  intro v path hv
  unfold loadBody
  split
  · rfl
  · rw [loadStep_congr h hv]
  · next items =>
      refine congrArg (· >>= _) (Load.each_congr fun p hp => ?_)
      exact loadStep_congr h (hv.item hp)
  · rfl

theorem depth_pos (v : Value) : 0 < v.depth := by
  cases v <;> simp [Value.depth]

theorem loadWithin_null (n : Nat) (path : String) : loadWithin n .null path = pure [] := by
  cases n <;> rfl

/-- More levels than a value holds make no difference to the steps in it. -/
theorem agree_loadWithin {more : Nat} (hle : n ≤ more) :
    Agree n (loadWithin n) (loadWithin more) := by
  induction n generalizing more with
  | zero =>
      intro v path hv
      obtain rfl := hv.resolve_right (by have := depth_pos v; omega)
      rw [loadWithin_null, loadWithin_null]
  | succ n ih =>
      obtain ⟨more, rfl⟩ : ∃ m, more = m + 1 := ⟨more - 1, by omega⟩
      exact agree_loadBody (ih (by omega))

end Steps

end AppSpec
