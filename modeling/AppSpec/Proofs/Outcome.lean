/-!
What a computation that succeeded has gone through, and how one ends at all.
-/

namespace AppSpec

variable {ε α β : Type}

theorem bind_eq_ok {x : Except ε α} {f : α → Except ε β} {b : β} :
    (x >>= f) = .ok b ↔ ∃ a, x = .ok a ∧ f a = .ok b := by
  cases x with
  | error e => exact ⟨nofun, fun ⟨_, h, _⟩ => nomatch h⟩
  | ok a => exact ⟨fun h => ⟨a, rfl, h⟩, fun ⟨_, h, h'⟩ => by cases h; exact h'⟩

theorem bind_eq_error {x : Except ε α} {f : α → Except ε β} {e : ε} :
    (x >>= f) = .error e ↔ x = .error e ∨ ∃ a, x = .ok a ∧ f a = .error e := by
  cases x with
  | error e' =>
      constructor
      · intro h
        cases h
        exact .inl rfl
      · rintro (h | ⟨_, h, _⟩)
        · cases h
          rfl
        · cases h
  | ok a => exact ⟨fun h => .inr ⟨a, rfl, h⟩, by rintro (h | ⟨_, h, h'⟩) <;> cases h; exact h'⟩

theorem eq_ok_of_mem_toOption {x : Except ε α} {a : α} (h : a ∈ x.toOption) : x = .ok a := by
  cases x with
  | error e => cases h
  | ok b =>
      cases h
      rfl

theorem map_eq_ok {x : Except ε α} {f : α → β} {b : β} :
    x.map f = .ok b ↔ ∃ a, x = .ok a ∧ f a = b := by
  cases x with
  | error e => exact ⟨nofun, fun ⟨_, h, _⟩ => nomatch h⟩
  | ok a =>
      constructor
      · intro h
        cases h
        exact ⟨a, rfl, rfl⟩
      · rintro ⟨_, h, rfl⟩
        cases h
        rfl

/-- A computation ends with such a result, or in such an error. -/
def Ends (E : ε → Prop) (Q : α → Prop) : Except ε α → Prop
  | .ok a => Q a
  | .error e => E e

namespace Ends

variable {E E' : ε → Prop} {Q Q' : α → Prop} {R : β → Prop}

theorem bind {x : Except ε α} {f : α → Except ε β} (hx : Ends E Q x)
    (hf : ∀ a, Q a → Ends E R (f a)) : Ends E R (x >>= f) := by
  cases x with
  | ok a => exact hf a hx
  | error e => exact hx

theorem map {x : Except ε α} {f : α → β} (hx : Ends E Q x) (hf : ∀ a, Q a → R (f a)) :
    Ends E R (x.map f) := by
  cases x with
  | ok a => exact hf a hx
  | error e => exact hx

theorem mono {x : Except ε α} (hx : Ends E Q x) (hE : ∀ e, E e → E' e) (hQ : ∀ a, Q a → Q' a) :
    Ends E' Q' x := by
  cases x with
  | ok a => exact hQ a hx
  | error e => exact hE e hx

theorem result {x : Except ε α} (hx : Ends E Q x) (hQ : ∀ a, Q a → Q' a) : Ends E Q' x :=
  hx.mono (fun _ h => h) hQ

/-- One item after the other, each of which keeps the state and gains something of its own. -/
theorem foldlM {f : β → α → Except ε β} {as : List α}
    (h : ∀ a ∈ as, ∀ b, R b → Ends E (fun b' => R b' ∧ Q a) (f b a)) {b : β} (hb : R b) :
    Ends E (fun b' => R b' ∧ ∀ a ∈ as, Q a) (as.foldlM f b) := by
  induction as generalizing b with
  | nil => exact ⟨hb, nofun⟩
  | cons a as ih =>
      rw [List.foldlM_cons]
      refine (h a List.mem_cons_self b hb).bind fun b' hb' => ?_
      refine (ih (fun c hc => h c (List.mem_cons_of_mem _ hc)) hb'.1).result fun b'' hb'' => ?_
      refine ⟨hb''.1, fun c hc => ?_⟩
      rcases List.mem_cons.mp hc with rfl | hc
      · exact hb'.2
      · exact hb''.2 c hc

end Ends

theorem exists_of_foldlM_eq_error {f : β → α → Except ε β} {as : List α} {b : β} {e : ε}
    (h : as.foldlM f b = .error e) : ∃ a ∈ as, ∃ c, f c a = .error e := by
  induction as generalizing b with
  | nil => cases h
  | cons a as ih =>
      rw [List.foldlM_cons] at h
      rcases bind_eq_error.mp h with h | ⟨c, -, h⟩
      · exact ⟨a, List.mem_cons_self, b, h⟩
      · obtain ⟨d, hd, hstop⟩ := ih h
        exact ⟨d, List.mem_cons_of_mem _ hd, hstop⟩

theorem foldlM_congr {f f' : β → α → Except ε β} {as : List α}
    (h : ∀ a ∈ as, ∀ b, f b a = f' b a) (b : β) : as.foldlM f b = as.foldlM f' b := by
  induction as generalizing b with
  | nil => rfl
  | cons a as ih =>
      rw [List.foldlM_cons, List.foldlM_cons, h a List.mem_cons_self]
      exact congrArg _ (funext fun c => ih (fun d hd => h d (List.mem_cons_of_mem _ hd)) c)

variable {σ : Type}

/-- Started in a state with the invariant, a computation ends in one, or in such an error. -/
def Preserves (E : ε → Prop) (I : σ → Prop) (Q : α → Prop) (x : StateT σ (Except ε) α) : Prop :=
  ∀ s, I s → Ends E (fun r => Q r.1 ∧ I r.2) (x.run s)

namespace Preserves

variable {E : ε → Prop} {I : σ → Prop} {Q : α → Prop} {R : β → Prop}

theorem bind {x : StateT σ (Except ε) α} {f : α → StateT σ (Except ε) β}
    (hx : Preserves E I Q x) (hf : ∀ a, Q a → Preserves E I R (f a)) :
    Preserves E I R (x >>= f) := fun s hs =>
  (hx s hs).bind fun r hr => hf r.1 hr.1 r.2 hr.2

theorem pure {a : α} (h : Q a) : Preserves E I Q (Pure.pure a : StateT σ (Except ε) α) :=
  fun _ hs => ⟨h, hs⟩

theorem lift {x : Except ε α} (h : Ends E Q x) : Preserves E I Q (StateT.lift x) := fun _ hs =>
  h.bind fun _ ha => ⟨ha, hs⟩

theorem get : Preserves E I I (MonadState.get : StateT σ (Except ε) σ) := fun _ hs => ⟨hs, hs⟩

theorem update {f : σ → σ} (h : ∀ s, I s → I (f s)) :
    Preserves E I (fun _ => True) (modify f : StateT σ (Except ε) PUnit) :=
  fun s hs => ⟨trivial, h s hs⟩

theorem throw {e : ε} (h : E e) : Preserves E I Q (throwThe ε e : StateT σ (Except ε) α) :=
  fun _ _ => h

theorem result {Q' : α → Prop} {x : StateT σ (Except ε) α} (hx : Preserves E I Q x)
    (hQ : ∀ a, Q a → Q' a) : Preserves E I Q' x := fun s hs =>
  (hx s hs).result fun r hr => ⟨hQ r.1 hr.1, hr.2⟩

end Preserves

end AppSpec
