import AppSpec.Proofs.TypeExpr.Invariant

/-!
What reading a type tells about its text: the names in a fault are names that were read, and the
only fault that an issue passes on is that a list literal is nested too deep.
-/

namespace AppSpec

def IsNameText (name : String) : Prop := ∀ c ∈ name.toList, TypeText.isNameChar c = true

def Expecting.Names : Expecting → Prop
  | .closing name _ => IsNameText name
  | .fieldType name => IsNameText name

namespace TypeFaultKind

def Names : TypeFaultKind → Prop
  | .expectedCharacter _ context _ => context.Names
  | .takesNoArguments name => IsNameText name
  | .requiresArguments name => IsNameText name
  | .argumentCount name _ _ => IsNameText name
  | .duplicateField name => IsNameText name
  | _ => True

def IsDeepList (kind : TypeFaultKind) : Prop := ∃ limit, kind = .listTooDeep limit

end TypeFaultKind

def TypeIssueKind.PassesOn (kind : TypeIssueKind) : Prop :=
  ∀ name fault, kind = .constraintFault name fault → fault.IsDeepList

namespace TypeCursor

def Tidy (s : TypeCursor) : Prop := ∀ issue ∈ s.issues, issue.kind.PassesOn

variable {s : TypeCursor}

theorem Tidy.note (h : s.Tidy) {kind : TypeIssueKind} {left : Nat} (hkind : kind.PassesOn) :
    (s.note kind left).Tidy := by
  intro issue hmem
  rcases List.mem_append.mp hmem with hmem | hmem
  · exact h issue hmem
  · obtain rfl := List.mem_singleton.mp hmem
    exact hkind

end TypeCursor

namespace TypeExpr

open TypeFaultKind (Names IsDeepList)

variable {α β : Type} {s : TypeCursor}

structure Tells (F : TypeFaultKind → Prop) (x : Except TypeStop α) (P : α → Prop) : Prop where
  ok : ∀ a, x = .ok a → P a
  fault : ∀ f, x = .error (.fault f) → F f.kind

namespace Tells

variable {F : TypeFaultKind → Prop} {x : Except TypeStop α} {P : α → Prop} {Q : β → Prop}

theorem done {a : α} (h : P a) : Tells F (.ok a) P where
  ok _ heq := by
    cases heq
    exact h
  fault := nofun

theorem stopped {f : TypeFault} (h : F f.kind) : Tells F (.error (.fault f)) P where
  ok := nofun
  fault _ heq := by
    cases heq
    exact h

theorem failed {e : Failure} : Tells F (.error (.failure e)) P := ⟨nofun, nofun⟩

theorem bind {f : α → Except TypeStop β} (hx : Tells F x P) (hf : ∀ a, P a → Tells F (f a) Q) :
    Tells F (x >>= f) Q := by
  cases x with
  | error stop =>
      refine ⟨nofun, fun fault h => hx.fault fault ?_⟩
      cases h
      rfl
  | ok a => exact hf a (hx.ok a rfl)

end Tells

/-! ### Literals -/

abbrev TellsLiteral (read : LiteralReader) : Prop :=
  ∀ cs, Tells IsDeepList (read cs) fun _ => True

theorem tells_readItems {item : LiteralReader} (hitem : TellsLiteral item) (steps : Nat)
    (cs : List Char) : Tells IsDeepList (readItems item steps cs) fun _ => True := by
  induction steps generalizing cs with
  | zero => exact .done trivial
  | succ steps ih =>
      refine (hitem _).bind fun (value, rest) _ => ?_
      cases value with
      | none => exact .done trivial
      | some value =>
          dsimp only
          split
          · exact (ih _).bind fun _ _ => .done trivial
          · exact .done trivial
          · exact .done trivial

theorem tells_readList {item : LiteralReader} (hitem : TellsLiteral item) :
    TellsLiteral (readList item) := by
  intro cs
  unfold readList
  split
  · exact .done trivial
  · exact (tells_readItems hitem _ _).bind fun _ _ => .done trivial

theorem tells_readLiteralWith {list : LiteralReader} (hlist : TellsLiteral list) :
    TellsLiteral (readLiteralWith list) := by
  intro cs
  unfold readLiteralWith
  split
  · exact hlist _
  · exact .done trivial
  · exact .done trivial
  · dsimp only
    split
    · exact .done trivial
    · exact .failed

theorem tells_readLiteral (limit : Int) (depth : Nat) : TellsLiteral (readLiteral limit depth) := by
  induction depth with
  | zero => exact tells_readLiteralWith fun _ => .stopped ⟨limit, rfl⟩
  | succ depth ih => exact tells_readLiteralWith (tells_readList ih)

/-! ### Types -/

abbrev TellsReader (read : TypeReader α) : Prop :=
  ∀ s : TypeCursor, s.Tidy → Tells Names (read s) fun r => r.2.Tidy

theorem isNameText_of_splitName {cs name rest : List Char}
    (h : TypeText.splitName cs = (name, rest)) : IsNameText (String.ofList name) := by
  by_cases hne : name = []
  · subst hne
    exact nofun
  · obtain ⟨d, ds, heq, hd, hds⟩ := isIdentifier_of_splitName h hne
    intro c hc
    rw [heq] at hc
    rcases List.mem_cons.mp hc with rfl | hc
    · exact TypeText.isNameChar_of_isNameStart hd
    · exact hds c hc

theorem tells_expect (c : Char) {context : Expecting} (hcontext : context.Names) (h : s.Tidy) :
    Tells Names (expect c context s) TypeCursor.Tidy := by
  unfold expect
  dsimp only
  split
  · split
    · exact .done h
    · exact .stopped hcontext
  · exact .stopped hcontext

theorem tells_readConstraint (limit : Int) (found : Constraints) :
    TellsReader fun s => readConstraint limit s found := by
  intro s h
  unfold readConstraint
  dsimp only
  split
  · exact .done (h.note nofun)
  · split
    · split
      · next fault hread =>
          refine .done (h.note ?_)
          rintro name kind heq
          cases heq
          exact (tells_readLiteral limit _ _).fault fault hread
      · exact .failed
      · exact .done h
      · exact .done (h.note nofun)
    · exact .done h

theorem tidy_endConstraint (h : s.Tidy) : (endConstraint s).Tidy := by
  unfold endConstraint
  dsimp only
  split
  · exact h
  · exact h
  · exact h
  · exact h.note nofun

theorem tells_readBlock (limit : Int) (openLeft steps : Nat) (found : Constraints) :
    TellsReader fun s => readBlock limit openLeft steps s found := by
  induction steps using Nat.strongRecOn generalizing found with
  | ind steps ih =>
      intro s h
      dsimp only
      rw [readBlock.eq_def]
      dsimp only
      split
      · exact .done h
      · next n _ _ =>
          exact Tells.bind (tells_readConstraint limit found s.skipBlanks h) fun r hr =>
            ih n (Nat.lt_succ_self n) r.1 _ (tidy_endConstraint hr)
      · exact .done (h.note nofun)

theorem tells_readSuffixes (limit : Int) (steps depth : Nat) (t : TypeExpr) :
    TellsReader (readSuffixes limit steps depth t) := by
  induction steps using Nat.strongRecOn generalizing depth t with
  | ind steps ih =>
      intro s h
      rw [readSuffixes.eq_def]
      dsimp only
      split
      · next n _ =>
          cases depth with
          | zero => exact .stopped trivial
          | succ depth => exact ih n (Nat.lt_succ_self n) depth _ _ h
      · next n _ =>
          refine Tells.bind (tells_readBlock limit _ _ [] ⟨_, s.skipBlanks.issues⟩ h) fun r hr => ?_
          exact ih n (Nat.lt_succ_self n) depth _ _ hr
      · exact .done h

theorem tells_readArguments {item : TypeReader TypeExpr} (hitem : TellsReader item) (steps : Nat) :
    TellsReader (readArguments item steps) := by
  induction steps with
  | zero => exact fun s h => .done h
  | succ steps ih =>
      intro s h
      refine (hitem s h).bind fun r hr => ?_
      dsimp only
      split
      · exact Tells.bind (ih ⟨_, r.2.skipBlanks.issues⟩ hr) fun _ hr => .done hr
      · exact .done hr

theorem tells_readFields {item : TypeReader TypeExpr} (hitem : TellsReader item) (steps : Nat)
    (found : List (String × TypeExpr)) : TellsReader (readFields item steps found) := by
  induction steps generalizing found with
  | zero => exact fun s h => .done h
  | succ steps ih =>
      intro s h
      unfold readFields
      dsimp only
      split
      · exact .stopped trivial
      · next name rest _ hname =>
          have hkey := isNameText_of_splitName hname
          have hcontext : (Expecting.fieldType (String.ofList name)).Names := hkey
          have hrest : (TypeCursor.mk rest s.skipBlanks.issues).Tidy := h
          refine (tells_expect ':' hcontext hrest).bind fun after hafter => ?_
          refine (hitem after hafter).bind fun r hr => ?_
          split
          · exact .stopped hkey
          · split
            · exact ih _ _ hr
            · exact .done hr

theorem tells_readEnumValue (s : TypeCursor) : Tells Names (readEnumValue s) fun _ => True := by
  unfold readEnumValue
  dsimp only
  split
  · split
    · exact .stopped trivial
    · exact .done trivial
  · split
    · exact .stopped trivial
    · exact .done trivial
  · split
    · exact .stopped trivial
    · split
      · exact .stopped trivial
      · exact .done trivial

theorem tells_readEnumValues (steps : Nat) (found : List String) :
    TellsReader (readEnumValues steps found) := by
  induction steps generalizing found with
  | zero => exact fun s h => .done h
  | succ steps ih =>
      intro s h
      refine (tells_readEnumValue _).bind fun (text, rest) _ => ?_
      dsimp only
      have hafter (known : Bool) : ((if known then
          (found, s.skipBlanks.note (.duplicateEnumValue (String.ofList text)) s.skipBlanks.left)
          else (found ++ [String.ofList text], s.skipBlanks)).2).Tidy := by
        cases known
        · exact h
        · exact TypeCursor.Tidy.note h nofun
      split
      · exact ih _ _ (hafter _)
      · exact .done (hafter _)

theorem tells_readComposite {item : TypeReader TypeExpr} (hitem : TellsReader item)
    (composite : Composite) {name : String} (hname : IsNameText name) (nameLeft : Nat) :
    TellsReader (readComposite item composite name nameLeft) := by
  intro s h
  have hclose (t : TypeExpr) {s : TypeCursor} (h : s.Tidy) :
      Tells Names (do return (t, ← expect ']' (.closing name nameLeft) s)) fun r => r.2.Tidy := by
    have hcontext : (Expecting.closing name nameLeft).Names := hname
    exact (tells_expect ']' hcontext h).bind fun _ hr => .done hr
  have harguments (hcomposite : composite = .map ∨ composite = .array ∨ composite = .optional) :
      Tells Names (readComposite item composite name nameLeft s) fun r => r.2.Tidy := by
    rw [readComposite_arguments item s name nameLeft hcomposite]
    refine (tells_readArguments hitem (s.left + 1) s h).bind fun r hr => ?_
    split
    · exact hclose _ hr
    · exact .stopped hname
  cases composite with
  | enum => exact (tells_readEnumValues _ [] s h).bind fun r hr => hclose (.enum r.1 []) hr
  | reference =>
      unfold readComposite
      dsimp only
      split
      · exact .stopped trivial
      · exact hclose (.reference _ []) h
  | object =>
      unfold readComposite
      dsimp only
      split
      · exact hclose (.object [] []) h
      · exact (tells_readFields hitem _ [] s.skipBlanks h).bind fun r hr => hclose (.object r.1 []) hr
  | map => exact harguments (.inl rfl)
  | array => exact harguments (.inr (.inl rfl))
  | optional => exact harguments (.inr (.inr rfl))

theorem tells_readForm {item : TypeReader TypeExpr} (hitem : TellsReader item) :
    TellsReader (readForm item) := by
  intro s h
  rw [readForm_eq]
  split
  · exact .stopped trivial
  · next c cs rest hsplit =>
      have hname := isNameText_of_splitName hsplit
      split
      · split
        · exact tells_readComposite hitem _ hname _ _ h
        · exact .stopped hname
      · unfold readAlone
        split
        · exact .done h
        · exact .stopped hname
        · exact .done h

theorem tells_readType (limit : Int) (depth : Nat) : TellsReader (readType limit depth) := by
  induction depth with
  | zero => exact fun _ _ => .stopped trivial
  | succ depth ih =>
      intro s h
      exact (tells_readForm ih s h).bind fun r hr => tells_readSuffixes limit _ depth r.1 r.2 hr

theorem tells_readTrailing (cs : List Char) (issues : List TypeIssue)
    (h : ∀ issue ∈ issues, issue.kind.PassesOn) :
    Tells Names (readTrailing cs issues) fun issues => ∀ issue ∈ issues, issue.kind.PassesOn := by
  induction cs generalizing issues with
  | nil => exact .done h
  | cons c cs ih =>
      rw [readTrailing]
      split
      · exact ih issues h
      · split
        · refine ih _ fun issue hmem => ?_
          rcases List.mem_append.mp hmem with hmem | hmem
          · exact h issue hmem
          · obtain rfl := List.mem_singleton.mp hmem
            exact nofun
        · exact .stopped trivial

theorem tells_readWhole (limit : Int) (cs : List Char) :
    Tells Names (readWhole limit cs) fun r => ∀ issue ∈ r.2, issue.kind.PassesOn := by
  unfold readWhole
  dsimp only
  split
  · exact .stopped trivial
  · refine (tells_readType limit _ _ fun _ h => absurd h List.not_mem_nil).bind fun r hr => ?_
    exact (tells_readTrailing _ _ hr).bind fun issues h => .done h

end TypeExpr

end AppSpec
