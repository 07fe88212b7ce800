import AppSpec.Proofs.Outcome
import AppSpec.Yaml.Node.Read

/-!
Reading nodes never fails by itself: it fails only where the tokens end in a failure.
-/

namespace AppSpec.Yaml

/-- Every failure among the reasons to stop is of such a kind. -/
def Stop.FailsIn (P : Failure → Prop) (stop : Stop) : Prop := ∀ f, stop = .failure f → P f

variable {α β : Type} {P : Failure → Prop}

theorem ends_stopIn {Q : α → Prop} {level : Level} {activity : Activity} {since : Mark}
    {problem : Problem} {mark : Mark} :
    Ends (Stop.FailsIn P) Q (stopIn level activity since problem mark) := nofun

theorem ends_stopAt {Q : α → Prop} {level : Level} {problem : Problem} {mark : Mark} :
    Ends (Stop.FailsIn P) Q (stopAt level problem mark) := nofun

section Safe

variable {σ : Type} {I : σ → Prop}

/-- Started where the invariant holds, the work ends where it holds, or in no other failure. -/
structure Safe (P : Failure → Prop) (I : σ → Prop) (x : StateT σ (Except Stop) α) : Prop where
  ends : Preserves (Stop.FailsIn P) I (fun _ => True) x

theorem Safe.bind {x : StateT σ (Except Stop) α} {f : α → StateT σ (Except Stop) β}
    (hx : Safe P I x) (hf : ∀ a, Safe P I (f a)) : Safe P I (x >>= f) :=
  ⟨hx.ends.bind fun a _ => (hf a).ends⟩

theorem safe_pure (a : α) : Safe P I (pure a) := ⟨.pure trivial⟩

theorem safe_get : Safe P I (get : StateT σ (Except Stop) σ) :=
  ⟨Preserves.get.result fun _ _ => trivial⟩

theorem safe_modify {f : σ → σ} (h : ∀ s, I s → I (f s)) :
    Safe P I (modify f : StateT σ (Except Stop) PUnit) := ⟨.update h⟩

theorem safe_stopIn {level : Level} {activity : Activity} {since mark : Mark} {problem : Problem} :
    Safe P I (StateT.lift (stopIn level activity since problem mark) : StateT σ (Except Stop) α) :=
  ⟨.lift ends_stopIn⟩

theorem safe_stopAt {level : Level} {problem : Problem} {mark : Mark} :
    Safe P I (StateT.lift (stopAt level problem mark) : StateT σ (Except Stop) α) :=
  ⟨.lift ends_stopAt⟩

end Safe

namespace NodeReader

/-- Reading tokens that end in no other failure ends in no other failure. -/
abbrev Safe (P : Failure → Prop) (x : ReadNodes α) : Prop :=
  Yaml.Safe P (fun r => ∀ stop ∈ r.ending, Stop.FailsIn P stop) x

theorem safe_update {f : NodeReader → NodeReader} (h : ∀ r, (f r).ending = r.ending) :
    Safe P (modify f) := safe_modify fun r hr => by rwa [h]

theorem safe_refuse {activity : Activity} {since mark : Mark} {problem : Problem} :
    Safe P (refuse activity since problem mark : ReadNodes α) := safe_stopIn

theorem safe_refuseAt {problem : Problem} {mark : Mark} :
    Safe P (refuseAt problem mark : ReadNodes α) := safe_stopAt

theorem safe_noEnd : Safe P (throw noEnd : ReadNodes α) := ⟨.throw nofun⟩

theorem safe_peek : Safe P peek := by
  refine ⟨fun r hr => ?_⟩
  obtain ⟨tokens, ending, handles, nodes, anchors⟩ := r
  cases tokens with
  | cons t tokens => exact ⟨trivial, hr⟩
  | nil =>
      cases ending with
      | none => exact nofun
      | some stop => exact hr stop rfl

theorem safe_drop : Safe P drop := safe_update fun _ => rfl

theorem safe_newNode {tag : String} {start : Mark} {content : Content} :
    Safe P (newNode tag start content) := ⟨fun _ hr => ⟨trivial, hr⟩⟩

theorem safe_setContent {i : Nat} {content : Content} : Safe P (setContent i content) :=
  safe_update fun _ => rfl

theorem safe_emptyNode {mark : Mark} : Safe P (emptyNode mark) := safe_newNode

theorem safe_properties (most : Nat) (p : Properties) : Safe P (properties most p) := by
  induction most generalizing p with
  | zero => exact safe_pure p
  | succ most ih =>
      rw [properties]
      refine safe_peek.bind fun t => ?_
      split
      · exact safe_drop.bind fun _ => ih _
      · exact safe_pure p

theorem safe_fullTag (p : Properties) : Safe P (fullTag p) := by
  rw [fullTag]
  split
  · exact safe_pure _
  · split
    · exact safe_pure _
    · refine safe_get.bind fun r => ?_
      split
      · exact safe_pure _
      · exact safe_refuse

theorem safe_checkAnchor (anchor : Option String) (start : Mark) :
    Safe P (checkAnchor anchor start) := by
  unfold checkAnchor
  split
  · exact safe_pure _
  · refine safe_get.bind fun r => ?_
    split
    · exact safe_pure _
    · exact safe_stopIn

theorem safe_bind (anchor : Option String) (i : Nat) : Safe P (bind anchor i) :=
  safe_update fun r => by cases anchor <;> rfl

theorem safe_anchored {anchor : Option String} {tag : String} {start : Mark} {content : Content} :
    Safe P (anchored anchor tag start content) :=
  (safe_checkAnchor anchor start).bind fun _ => safe_newNode.bind fun i =>
    (safe_bind anchor i).bind fun _ => safe_pure i

theorem safe_aliased (name : String) (mark : Mark) : Safe P (aliased name mark) := by
  rw [aliased]
  refine safe_get.bind fun r => ?_
  split
  · exact safe_pure _
  · exact safe_stopAt

theorem safe_comma (isFirst : Bool) {activity : Activity} {since : Mark}
    {problem : String → Problem} : Safe P (comma isFirst activity since problem) := by
  rw [comma]
  split
  · exact safe_pure _
  · refine safe_peek.bind fun t => ?_
    split
    · exact safe_drop
    · exact safe_refuse

/-! ### Nodes -/

/-- Whatever is read in so many steps. -/
structure SafeAt (P : Failure → Prop) (steps : Nat) : Prop where
  node : ∀ place, Safe P (node steps place)
  content : ∀ place anchor tag start first, Safe P (content steps place anchor tag start first)
  nodeUnless : ∀ place isLeftOut mark, Safe P (nodeUnless steps place isLeftOut mark)
  valueNode : ∀ place isLeftOut, Safe P (valueNode steps place isLeftOut)
  blockItems : ∀ since items, Safe P (blockItems steps since items)
  indentlessItems : ∀ items, Safe P (indentlessItems steps items)
  blockPairs : ∀ since pairs, Safe P (blockPairs steps since pairs)
  singlePair : ∀ t, Safe P (singlePair steps t)
  flowItems : ∀ since isFirst items, Safe P (flowItems steps since isFirst items)
  flowPairs : ∀ since isFirst pairs, Safe P (flowPairs steps since isFirst pairs)

variable {steps : Nat}

theorem SafeAt.node_succ (h : SafeAt P steps) (place : Place) :
    Safe P (NodeReader.node (steps + 1) place) := by
  rw [NodeReader.node.eq_def]
  refine safe_peek.bind fun t => ?_
  split
  · exact safe_drop.bind fun _ => safe_aliased _ _
  · exact (safe_properties 2 {}).bind fun p => (safe_fullTag p).bind fun tag =>
      safe_peek.bind fun first => h.content ..

/-- A collection is known before it is read, and complete after that. -/
theorem safe_collection {anchor : Option String} {tag : String} {start : Mark} {empty : Content}
    {α : Type} {items : ReadNodes α} {full : α → Content} (h : Safe P items) :
    Safe P (do
      let i ← anchored anchor tag start empty
      setContent i (full (← items))
      return i) :=
  safe_anchored.bind fun _ => h.bind fun _ => safe_setContent.bind fun _ => safe_pure _

theorem SafeAt.content_succ (h : SafeAt P steps) (place : Place) (anchor tag : Option String)
    (start : Mark) (first : Token) :
    Safe P (NodeReader.content (steps + 1) place anchor tag start first) := by
  rw [NodeReader.content.eq_def]
  dsimp only
  split
  · exact safe_drop.bind fun _ => safe_anchored
  · exact safe_drop.bind fun _ => safe_collection (h.flowItems ..)
  · exact safe_drop.bind fun _ => safe_collection (h.flowPairs ..)
  · exact safe_drop.bind fun _ => safe_collection (h.blockItems ..)
  · exact safe_drop.bind fun _ => safe_collection (h.blockPairs ..)
  · split
    · exact safe_collection (h.indentlessItems _)
    · split
      · exact safe_anchored
      · exact safe_refuse

theorem SafeAt.nodeUnless_succ (h : SafeAt P steps) (place : Place) (isLeftOut : TokenKind → Bool)
    (mark : Mark) : Safe P (NodeReader.nodeUnless (steps + 1) place isLeftOut mark) := by
  rw [NodeReader.nodeUnless.eq_def]
  refine safe_peek.bind fun t => ?_
  split
  · exact safe_emptyNode
  · exact h.node place

theorem SafeAt.valueNode_succ (h : SafeAt P steps) (place : Place)
    (isLeftOut : TokenKind → Bool) : Safe P (NodeReader.valueNode (steps + 1) place isLeftOut) := by
  rw [NodeReader.valueNode.eq_def]
  refine safe_peek.bind fun t => ?_
  split
  · exact safe_drop.bind fun _ => h.nodeUnless ..
  · exact safe_emptyNode

theorem SafeAt.blockItems_succ (h : SafeAt P steps) (since : Mark) (items : List Nat) :
    Safe P (NodeReader.blockItems (steps + 1) since items) := by
  rw [NodeReader.blockItems.eq_def]
  refine safe_peek.bind fun t => ?_
  split
  · exact safe_drop.bind fun _ => (h.nodeUnless ..).bind fun _ => h.blockItems ..
  · exact safe_drop.bind fun _ => safe_pure items
  · exact safe_refuse

theorem SafeAt.indentlessItems_succ (h : SafeAt P steps) (items : List Nat) :
    Safe P (NodeReader.indentlessItems (steps + 1) items) := by
  rw [NodeReader.indentlessItems.eq_def]
  refine safe_peek.bind fun t => ?_
  split
  · exact safe_drop.bind fun _ => (h.nodeUnless ..).bind fun _ => h.indentlessItems _
  · exact safe_pure items

theorem SafeAt.blockPairs_succ (h : SafeAt P steps) (since : Mark) (pairs : List (Nat × Nat)) :
    Safe P (NodeReader.blockPairs (steps + 1) since pairs) := by
  rw [NodeReader.blockPairs.eq_def]
  refine safe_peek.bind fun t => ?_
  split
  · exact safe_drop.bind fun _ => (h.nodeUnless ..).bind fun _ => (h.valueNode ..).bind fun _ =>
      h.blockPairs ..
  · exact safe_drop.bind fun _ => safe_pure pairs
  · exact safe_refuse

theorem SafeAt.singlePair_succ (h : SafeAt P steps) (t : Token) :
    Safe P (NodeReader.singlePair (steps + 1) t) := by
  rw [NodeReader.singlePair.eq_def]
  exact safe_newNode.bind fun _ => safe_drop.bind fun _ => (h.nodeUnless ..).bind fun _ =>
    (h.valueNode ..).bind fun _ => safe_setContent.bind fun _ => safe_pure _

theorem SafeAt.flowItems_succ (h : SafeAt P steps) (since : Mark) (isFirst : Bool)
    (items : List Nat) : Safe P (NodeReader.flowItems (steps + 1) since isFirst items) := by
  rw [NodeReader.flowItems.eq_def]
  refine safe_peek.bind fun t => ?_
  split
  · exact safe_drop.bind fun _ => safe_pure items
  · refine (safe_comma isFirst).bind fun _ => safe_peek.bind fun t => ?_
    split
    · exact safe_drop.bind fun _ => safe_pure items
    · exact (h.singlePair t).bind fun _ => h.flowItems ..
    · exact (h.node .flow).bind fun _ => h.flowItems ..

theorem SafeAt.flowPairs_succ (h : SafeAt P steps) (since : Mark) (isFirst : Bool)
    (pairs : List (Nat × Nat)) : Safe P (NodeReader.flowPairs (steps + 1) since isFirst pairs) := by
  rw [NodeReader.flowPairs.eq_def]
  refine safe_peek.bind fun t => ?_
  split
  · exact safe_drop.bind fun _ => safe_pure pairs
  · refine (safe_comma isFirst).bind fun _ => safe_peek.bind fun t => ?_
    split
    · exact safe_drop.bind fun _ => safe_pure pairs
    · exact safe_drop.bind fun _ => (h.nodeUnless ..).bind fun _ => (h.valueNode ..).bind fun _ =>
        h.flowPairs ..
    · exact (h.node .flow).bind fun _ => safe_peek.bind fun _ => safe_emptyNode.bind fun _ =>
        h.flowPairs ..

theorem safeAt (P : Failure → Prop) (steps : Nat) : SafeAt P steps := by
  induction steps with
  | zero =>
      exact ⟨fun _ => safe_noEnd, fun _ _ _ _ _ => safe_noEnd, fun _ _ _ => safe_noEnd,
        fun _ _ => safe_noEnd, fun _ _ => safe_noEnd, fun _ => safe_noEnd, fun _ _ => safe_noEnd,
        fun _ => safe_noEnd, fun _ _ _ => safe_noEnd, fun _ _ _ => safe_noEnd⟩
  | succ steps ih =>
      exact ⟨ih.node_succ, ih.content_succ, ih.nodeUnless_succ, ih.valueNode_succ,
        ih.blockItems_succ, ih.indentlessItems_succ, ih.blockPairs_succ, ih.singlePair_succ,
        ih.flowItems_succ, ih.flowPairs_succ⟩

/-! ### Documents -/

theorem safe_skipDocumentEnds (steps : Nat) : Safe P (skipDocumentEnds steps) := by
  induction steps with
  | zero => exact safe_pure _
  | succ steps ih =>
      rw [skipDocumentEnds]
      refine safe_peek.bind fun t => ?_
      split
      · exact safe_drop.bind fun _ => ih
      · exact safe_pure _

theorem safe_directives (steps : Nat) (hasVersion : Bool) :
    Safe P (directives steps hasVersion) := by
  induction steps generalizing hasVersion with
  | zero => exact safe_pure _
  | succ steps ih =>
      rw [directives]
      refine safe_peek.bind fun t => ?_
      split
      · refine safe_drop.bind fun _ => ?_
        split
        · exact safe_refuseAt
        · split
          · exact safe_refuseAt
          · exact ih true
      · refine safe_drop.bind fun _ => safe_get.bind fun r => ?_
        split
        · exact safe_refuseAt
        · exact .bind (safe_update fun _ => rfl) fun _ => ih hasVersion
      · exact safe_drop.bind fun _ => ih hasVersion
      · exact safe_pure _

theorem safe_documentStart? : Safe P documentStart? := by
  rw [documentStart?]
  refine safe_get.bind fun r => (safe_skipDocumentEnds _).bind fun _ => safe_peek.bind fun first => ?_
  split
  · exact safe_pure _
  · refine .bind (safe_update fun _ => rfl) fun _ => (safe_directives ..).bind fun _ =>
      .bind (safe_update fun _ => rfl) fun _ => safe_peek.bind fun t => ?_
    split
    · exact safe_drop.bind fun _ => safe_pure _
    · exact safe_refuseAt

theorem safe_root? : Safe P root? := by
  have hnode := (safeAt P · |>.node .block)
  rw [root?]
  refine safe_get.bind fun r => safe_peek.bind fun first => ?_
  split
  · exact .bind (safe_update fun _ => rfl) fun _ => (hnode _).bind fun _ => safe_pure _
  · refine safe_documentStart?.bind fun start => ?_
    split
    · exact safe_pure _
    · refine safe_peek.bind fun t => ?_
      split
      · exact safe_emptyNode.bind fun _ => safe_pure _
      · exact (hnode _).bind fun _ => safe_pure _

theorem safe_document? : Safe P document? := by
  rw [document?]
  refine safe_root?.bind fun root => ?_
  split
  · exact safe_pure _
  · refine safe_get.bind fun r => safe_peek.bind fun t => ?_
    dsimp only
    split
    · refine safe_drop.bind fun _ => safe_documentStart?.bind fun start => ?_
      split
      · exact safe_pure _
      · exact safe_stopIn
    · refine safe_documentStart?.bind fun start => ?_
      split
      · exact safe_pure _
      · exact safe_stopIn

end NodeReader

theorem NodeGraph.ends_ofTokens? {tokens : List Token} {ending : Option Stop}
    (h : ∀ stop ∈ ending, Stop.FailsIn P stop) :
    Ends (Stop.FailsIn P) (fun _ => True) (ofTokens? tokens ending) :=
  (NodeReader.safe_document?.ends { tokens, ending } h).map fun _ _ => trivial

end AppSpec.Yaml
