import AppSpec.Proofs.Layer.Contribution

/-!
Collections that leave behind the same but for the order of their items.
-/

namespace AppSpec

variable {α : Type} {ns : Namespace} {define : α → Definition}
  {load : String → Value → String → Load (Option α)} {t t' : Symbols} {s s' r : Declared α}
  {a b : Contribution α} {item : CollectionItem} {E : String → Prop} {F : Prop} {π : Permitted}

namespace Declared

/-- The same is left behind but for the order in which it came up. Where only the items of other
collections are in another order (`¬ F`), those of this one are the same. -/
structure Alike (E : String → Prop) (F : Prop) (π : Permitted) (s s' : Declared α) : Prop where
  items : s.items.Alike s'.items
  fixed : F ∨ s.items = s'.items
  paths : s.paths.Alike s'.paths
  diagnostics : Shuffled π.fault s.notes.diagnostics s'.notes.diagnostics
  references : Shuffled π.reference s.notes.references s'.notes.references
  symbols : s.symbols.Alike E s'.symbols

theorem alike_start (h : t.Alike E t') (notes : Notes) :
    Alike E F π ((start t).note notes : Declared α) ((start t').note notes) :=
  ⟨.refl .nil, .inr rfl, .refl .nil, .same _, .same _, h⟩

theorem Alike.right (h : Alike E F π s s') : Alike E F π s' s' :=
  ⟨.refl h.items.nodup', .inr rfl, .refl h.paths.nodup', .same _, .same _, h.symbols.right⟩

theorem Alike.trans (h : Alike E F π s s') (h' : Alike E F π s' r) : Alike E F π s r where
  items := h.items.trans h'.items
  fixed := h.fixed.elim .inl fun heq => h'.fixed.imp_right heq.trans
  paths := h.paths.trans h'.paths
  diagnostics := .trans h.diagnostics h'.diagnostics
  references := .trans h.references h'.references
  symbols := h.symbols.trans h'.symbols

theorem Alike.add (h : Alike E F π s s') (hns : ns ≠ .error) (c : Contribution α) :
    Alike E F π (s.add ns define c) (s'.add ns define c) where
  items := h.items.setAll (.refl (Contribution.nodup_keys_toList _ _))
  fixed := h.fixed.imp_right fun heq => congrArg (Named.setAll · c.items) heq
  paths := h.paths.setAll (.refl (Contribution.nodup_keys_toList _ _))
  diagnostics := h.diagnostics.append (.same _)
  references := h.references.append (.same _)
  symbols := h.symbols.after _ (Contribution.space_declarations hns define c)

theorem Alike.add_comm (h : Alike E F π s s') (hF : F) (hns : ns ≠ .error) (hapart : a.Apart E b)
    (ha : a.Permits π) (hb : b.Permits π) :
    Alike E F π ((s.add ns define a).add ns define b) ((s'.add ns define b).add ns define a) where
  items := h.items.setAll_comm (Contribution.nodup_keys_toList _ _)
    (Contribution.nodup_keys_toList _ _) (hapart.keys fun k => k.item)
  fixed := .inl hF
  paths := h.paths.setAll_comm (Contribution.nodup_keys_toList _ _)
    (Contribution.nodup_keys_toList _ _) (hapart.keys fun k => k.path)
  diagnostics := by
    show Shuffled π.fault (s.notes.diagnostics ++ a.notes.diagnostics ++ b.notes.diagnostics)
      (s'.notes.diagnostics ++ b.notes.diagnostics ++ a.notes.diagnostics)
    rw [List.append_assoc, List.append_assoc]
    refine h.diagnostics.append (.perm List.perm_append_comm fun d hd => ?_)
    exact (List.mem_append.mp hd).elim (ha.faults d) (hb.faults d)
  references := by
    show Shuffled π.reference (s.notes.references ++ a.notes.references ++ b.notes.references)
      (s'.notes.references ++ b.notes.references ++ a.notes.references)
    rw [List.append_assoc, List.append_assoc]
    refine h.references.append (.perm List.perm_append_comm fun r hr => ?_)
    exact (List.mem_append.mp hr).elim (ha.references r) (hb.references r)
  symbols := by
    have hspace (c : Contribution α) := Contribution.space_declarations hns define c
    exact (h.symbols.left.after_comm (hspace a) (hspace b) hapart.declarations hapart.errors).trans
      ((h.symbols.after _ (hspace b)).after _ (hspace a))

theorem step_eq_ok (hns : ns ≠ .error) (h : s.symbols.frozen = false) :
    step ns define load item s = .ok r ↔
      ∃ c, Contribution.ofItem ns load s.symbols item = .ok c ∧ s.add ns define c = r := by
  rw [step_eq hns h, map_eq_ok]

theorem Alike.ofItem (h : Alike E F π s s') (hns : ns ≠ .error) (item : CollectionItem) :
    Contribution.ofItem ns load s.symbols item = Contribution.ofItem ns load s'.symbols item :=
  Contribution.ofItem_congr fun name _ => h.symbols.clash? hns name

theorem Alike.step (h : Alike E F π s s') (hns : ns ≠ .error)
    (hs : step ns define load item s = .ok r) :
    ∃ r', step ns define load item s' = .ok r' ∧ Alike E F π r r' := by
  obtain ⟨c, hc, rfl⟩ := (step_eq_ok hns h.symbols.unfrozen).mp hs
  exact ⟨_, (step_eq_ok hns h.symbols.unfrozen').mpr ⟨c, h.ofItem hns item ▸ hc, rfl⟩, h.add hns c⟩

theorem Alike.steps {items : List CollectionItem} (h : Alike E F π s s') (hns : ns ≠ .error)
    (hs : steps ns define load items s = .ok r) :
    ∃ r', steps ns define load items s' = .ok r' ∧ Alike E F π r r' :=
  steps_side_by_side (fun h hs => h.step hns hs) h hs

theorem ofItem_add {x y : CollectionItem} (hns : ns ≠ .error) (define : α → Definition)
    (s : Declared α) (hapart : x.Apart E load y) (ha : Contribution.Contributes ns load t x a) :
    Contribution.ofItem ns load (s.add ns define a).symbols y =
      Contribution.ofItem ns load s.symbols y := by
  refine Contribution.ofItem_congr fun name hname => SymbolTable.clash?_after hns fun d hd heq => ?_
  obtain ⟨k, hk, rfl⟩ := List.mem_map.mp hd
  have hx := Contribution.name?_of_accepted ha (Option.mem_toList.mp hk)
  exact hapart.names k.name hx (hname.trans (heq ▸ rfl))

theorem Alike.steps_swap {x y : CollectionItem} (h : Alike E F π s s') (hF : F) (hns : ns ≠ .error)
    (hapart : x.Apart E load y) (hx : PermitsItem π load x) (hy : PermitsItem π load y)
    (hs : Declared.steps ns define load [x, y] s = .ok r) :
    ∃ r', Declared.steps ns define load [y, x] s' = .ok r' ∧ Alike E F π r r' := by
  obtain ⟨s₁, hstep, hs⟩ := bind_eq_ok.mp hs
  obtain ⟨a, ha, rfl⟩ := (step_eq_ok hns h.symbols.unfrozen).mp hstep
  obtain ⟨s₂, hstep, hs⟩ := bind_eq_ok.mp hs
  have hopen : (s.add ns define a).symbols.frozen = false := h.symbols.unfrozen
  obtain ⟨b, hb, rfl⟩ := (step_eq_ok hns hopen).mp hstep
  cases hs
  have hca := Contribution.contributes ha
  rw [ofItem_add hns define s hapart hca, h.ofItem hns] at hb
  have hcb := Contribution.contributes hb
  rw [h.ofItem hns, ← ofItem_add hns define s' hapart.symm hcb] at ha
  have hopen' : (s'.add ns define b).symbols.frozen = false := h.symbols.unfrozen'
  refine ⟨_, bind_eq_ok.mpr ⟨_, (step_eq_ok hns h.symbols.unfrozen').mpr ⟨b, hb, rfl⟩,
    bind_eq_ok.mpr ⟨_, (step_eq_ok hns hopen').mpr ⟨a, ha, rfl⟩, rfl⟩⟩, ?_⟩
  exact h.add_comm hF hns (Contribution.apart hapart hca hcb) (Contribution.permits hca hx)
    (Contribution.permits hcb hy)

theorem steps_append (items more : List CollectionItem) (s : Declared α) :
    steps ns define load (items ++ more) s =
      (do steps ns define load more (← steps ns define load items s)) := by
  induction items generalizing s with
  | nil => rfl
  | cons item items ih =>
      rw [List.cons_append, steps, steps]
      cases step ns define load item s with
      | error e => rfl
      | ok between => exact ih between

theorem Alike.steps_perm {items items' : List CollectionItem} (h : Alike E F π s s') (hF : F)
    (hns : ns ≠ .error) (hperm : items.Perm items') (hapart : items.Pairwise (CollectionItem.Apart E load))
    (hitems : ∀ item ∈ items, PermitsItem π load item)
    (hs : Declared.steps ns define load items s = .ok r) :
    ∃ r', Declared.steps ns define load items' s' = .ok r' ∧ Alike E F π r r' := by
  induction hperm generalizing s s' r with
  | nil =>
      cases hs
      exact ⟨s', rfl, h⟩
  | cons item _ ih =>
      obtain ⟨between, hstep, hs⟩ := bind_eq_ok.mp hs
      obtain ⟨between', hstep', hbetween⟩ := h.step hns hstep
      obtain ⟨r', hs', hr⟩ := ih hbetween (List.pairwise_cons.mp hapart).2
        (List.forall_mem_cons.mp hitems).2 hs
      exact ⟨r', bind_eq_ok.mpr ⟨between', hstep', hs'⟩, hr⟩
  | swap x y items =>
      have hs : Declared.steps ns define load ([y, x] ++ items) s = .ok r := hs
      rw [steps_append] at hs
      obtain ⟨between, hfirst, hs⟩ := bind_eq_ok.mp hs
      obtain ⟨hy, hrest⟩ := List.forall_mem_cons.mp hitems
      have hyx := (List.pairwise_cons.mp hapart).1 x List.mem_cons_self
      obtain ⟨between', hfirst', hbetween⟩ := h.steps_swap hF hns hyx hy
        (List.forall_mem_cons.mp hrest).1 hfirst
      obtain ⟨r', hs', hr⟩ := hbetween.steps hns hs
      refine ⟨r', ?_, hr⟩
      show Declared.steps ns define load ([x, y] ++ items) s' = .ok r'
      rw [steps_append]
      exact bind_eq_ok.mpr ⟨between', hfirst', hs'⟩
  | trans hperm _ ih ih' =>
      obtain ⟨r₁, hs₁, hr₁⟩ := ih h hapart hitems hs
      have hapart' := hperm.pairwise hapart fun hxy => hxy.symm
      have hitems' := fun item hitem => hitems item (hperm.mem_iff.mpr hitem)
      obtain ⟨r', hs', hr⟩ := ih' h.right hapart' hitems' hs₁
      exact ⟨r', hs', hr₁.trans hr⟩

end Declared

end AppSpec
