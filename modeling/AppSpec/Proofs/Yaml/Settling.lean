import AppSpec.Proofs.Yaml.Making
import Mathlib.Data.Fintype.Card

/-!
Filling containers in the order in which they were made. A mapping that no other has flattened
before it is filled gives its own pairs first, and what is brought in only behind them.
-/

namespace AppSpec.Yaml

open Relation

namespace Builder

open Build

variable {nodes₀ : Array Node} {owners : List (Tag.CollectionKind × Nat)} {next : Nat}
  {b b' : Builder} {i : Nat} {kind : Tag.CollectionKind}

/-! ### The containers and their owners -/

namespace Stock

/-- A node owns one container at most. -/
theorem owner_unique {c c' : Nat} {kind' : Tag.CollectionKind} (hs : Stock owners next b)
    (h : owners[c]? = some (kind, i)) (h' : owners[c']? = some (kind', i)) : c = c' := by
  have hc := (hs.owned i c).mpr ⟨kind, h⟩
  have hc' := (hs.owned i c').mpr ⟨kind', h'⟩
  rw [hc] at hc'
  cases hc'
  rfl

theorem length_le (hs : Stock owners next b) : owners.length ≤ b.made.size := by
  have hlt (c : Fin owners.length) : owners[c].2 < b.made.size := by
    have hmade := (hs.owned owners[c].2 c).mpr ⟨owners[c].1, List.getElem?_eq_getElem c.isLt⟩
    exact (Array.getElem?_eq_some_iff.mp hmade).1
  have hinj : Function.Injective fun c : Fin owners.length =>
      (⟨owners[c].2, hlt c⟩ : Fin b.made.size) := by
    intro c c' h
    have hsame : owners[c].2 = owners[c'].2 := congrArg Fin.val h
    have hc : owners[c.val]? = some (owners[c].1, owners[c].2) := List.getElem?_eq_getElem c.isLt
    have hc' : owners[c'.val]? = some (owners[c'].1, owners[c].2) :=
      hsame ▸ List.getElem?_eq_getElem c'.isLt
    exact Fin.ext (hs.owner_unique hc hc')
  simpa using Fintype.card_le_of_injective _ hinj

/-- The container that waits longest is the next one. -/
theorem pop {c : Nat} {rest : List (Tag.CollectionKind × Nat × Nat)} (hs : Stock owners next b)
    (hp : b.pending = (kind, i, c) :: rest) :
    c = next ∧ owners[next]? = some (kind, i) ∧ Stock owners (next + 1) { b with pending := rest } := by
  have hdrop := hs.pending.symm.trans hp
  have hhead := congrArg (·[0]?) hdrop
  simp only [List.getElem?_map, List.getElem?_drop, List.getElem?_zipIdx, Option.map_map,
    List.getElem?_cons_zero, Option.map_eq_some_iff] at hhead
  obtain ⟨⟨_, _⟩, howner, heq⟩ := hhead
  cases heq
  refine ⟨by simp, howner, ?_, hs.count, hs.owned, ?_⟩
  · exact (List.getElem?_eq_some_iff.mp howner).1
  · have htail := congrArg List.tail hdrop
    rw [← List.map_tail, List.tail_drop] at htail
    exact htail.symm

theorem merged (hs : Stock owners next b) (hm : Merged nodes₀ i b b') : Stock owners next b' where
  next_le := hs.next_le
  count := hm.containers ▸ hs.count
  owned := hm.made ▸ hs.owned
  pending := hm.pending ▸ hs.pending

end Stock

/-! ### Filling one container -/

/-- The entries of a mapping's value are, first, those of the pairs that it writes, and behind them
those of pairs that are brought in, under keys that it does not write. -/
def WrittenFirst (nodes₀ : Array Node) (made : Array (Option RawItem)) (i : Nat)
    (entries : List (Scalar × RawItem)) : Prop :=
  ∃ own rest dropped, entries = (own ++ rest).map (fun e => (e.1.scalar, e.2)) ∧
    Sifted made (writtenAt nodes₀ i) [] own dropped ∧
    ∀ e ∈ rest, (∀ o ∈ own, o.1.same e.1 = false) ∧
      ∃ p, Brought nodes₀ i p ∧ KeyOf made p.1 e.1 ∧ Made made p.2 e.2

theorem WrittenFirst.mono {made made' : Array (Option RawItem)} {entries : List (Scalar × RawItem)}
    (hk : Remembers made made') (h : WrittenFirst nodes₀ made i entries) :
    WrittenFirst nodes₀ made' i entries := by
  obtain ⟨own, rest, dropped, heq, hown, hrest⟩ := h
  refine ⟨own, rest, dropped, heq, hk.sifted hown, fun e he => ?_⟩
  obtain ⟨hnew, p, hp, hkey, hitem⟩ := hrest e he
  exact ⟨hnew, p, hp, hk.keyOf hkey, hk.isMade hitem⟩

/-- Sifting what is written, and what is brought in behind it. -/
theorem WrittenFirst.of_sifted {made : Array (Option RawItem)} {es : List (Key × RawItem)}
    {brought dropped : List (Nat × Nat)}
    (h : Sifted made (writtenAt nodes₀ i ++ brought) [] es dropped)
    (hbrought : ∀ p ∈ brought, Brought nodes₀ i p) :
    WrittenFirst nodes₀ made i (es.map fun e => (e.1.scalar, e.2)) := by
  obtain ⟨own, d, d', hown, hmore⟩ := h.split
  obtain ⟨rest, rfl, hrest⟩ := hmore.exists_rest
  refine ⟨own, rest, d, rfl, hown, fun e he => ?_⟩
  obtain ⟨hnew, p, hp, hfrom⟩ := hrest e he
  exact ⟨hnew, p, hbrought p hp, hfrom⟩

/-- A mapping that merges nothing gives the entries of the pairs it writes, and no others. -/
theorem WrittenFirst.of_mergeFree {nodes : Array Node} {made : Array (Option RawItem)} {i : Nat}
    {entries : List (Scalar × RawItem)} (h : WrittenFirst nodes made i entries)
    (hfree : MergeFree nodes (pairsAt nodes i)) :
    ∃ own dropped, entries = own.map (fun e => (e.1.scalar, e.2)) ∧
      Sifted made (pairsAt nodes i) [] own dropped := by
  obtain ⟨own, rest, dropped, heq, hown, hrest⟩ := h
  have hnil : rest = [] := List.eq_nil_iff_forall_not_mem.mpr fun e he =>
    let ⟨_, _, hp, _⟩ := hrest e he
    not_brought hfree hp
  rw [writtenAt, hfree.filter_eq] at hown
  exact ⟨own, dropped, by rw [heq, hnil, List.append_nil], hown⟩

theorem mappingEntries_eq_ok {entries : List (Scalar × RawItem)}
    (hsize : b.made.size = b.nodes.size) (hflat : Flat nodes₀ b.nodes)
    (h : (mappingEntries i).run b = .ok (entries, b')) :
    ∃ b₁, Merged nodes₀ i b b₁ ∧ Grows b₁ b' ∧
      (pairsAt b.nodes i = pairsAt nodes₀ i → WrittenFirst nodes₀ b'.made i entries) := by
  obtain ⟨_, _, hn, h⟩ := run_bind_eq_ok.mp h
  cases hn
  split at h
  · next hcontent =>
      obtain ⟨pairs, b₁, hpairs, h⟩ := run_bind_eq_ok.mp h
      obtain ⟨hmerged, hordered⟩ := orderedPairs_eq_ok (isMapping_of_node hcontent) hflat hpairs
      obtain ⟨es, b₂, hes, h⟩ := run_bind_eq_ok.mp h
      obtain ⟨rfl, rfl⟩ := run_pure_eq_ok.mp h
      have hsize₁ : b₁.made.size = b₁.nodes.size := by
        rw [hmerged.made, hmerged.flat.size, hsize, hflat.size]
      obtain ⟨hgrows, dropped, hsifted⟩ := entries_eq_ok hsize₁ hes
      refine ⟨b₁, hmerged, hgrows, fun hsame => ?_⟩
      obtain ⟨brought, rfl, hbrought⟩ := hordered hsame
      exact .of_sifted hsifted hbrought
  · cases h

/-- The items of a list are made of those of a sequence, or are pairs. -/
def Listed (nodes₀ : Array Node) (made : Array (Option RawItem)) (i : Nat)
    (items : List RawItem) : Prop :=
  List.Forall₂ (Made made) (itemsAt nodes₀ i) items ∨ ∀ item ∈ items, ∃ parts, item = .tuple parts

theorem Listed.mono {made made' : Array (Option RawItem)} {items : List RawItem}
    (hk : Remembers made made') (h : Listed nodes₀ made i items) : Listed nodes₀ made' i items :=
  h.imp_left fun hall => hall.imp fun _ _ => hk.isMade

/-- What a container holds that was filled from a node: a list, or the entries of a mapping, in
order if its pairs were untouched. -/
structure Fills (nodes₀ : Array Node) (made : Array (Option RawItem)) (i : Nat) (untouched : Prop)
    (held : RawNode) : Prop where
  listed : ∀ items, held = .list items → Listed nodes₀ made i items
  written : ∀ entries, held = .dict entries → untouched → WrittenFirst nodes₀ made i entries

theorem Fills.mono {made made' : Array (Option RawItem)} {untouched untouched' : Prop}
    {held : RawNode} (h : Fills nodes₀ made i untouched held) (hk : Remembers made made')
    (himp : untouched' → untouched) : Fills nodes₀ made' i untouched' held where
  listed items heq := (h.listed items heq).mono hk
  written entries heq huntouched := (h.written entries heq (himp huntouched)).mono hk

theorem filling_eq_ok {held : RawNode} (h : (filling i kind).run b = .ok (held, b'))
    (hsize : b.made.size = b.nodes.size) (hflat : Flat nodes₀ b.nodes) :
    ∃ b₁, Merged nodes₀ i b b₁ ∧ Grows b₁ b' ∧
      Fills nodes₀ b'.made i (pairsAt b.nodes i = pairsAt nodes₀ i) held := by
  cases kind with
  | seq =>
      obtain ⟨_, _, hn, h⟩ := run_bind_eq_ok.mp h
      cases hn
      split at h
      · next nodes hcontent =>
          obtain ⟨items, b₁, hitems, h⟩ := run_bind_eq_ok.mp h
          obtain ⟨rfl, rfl⟩ := run_pure_eq_ok.mp h
          obtain ⟨hgrows, hall⟩ := makeAll_eq_ok hsize hitems
          rw [← itemsAt_of_node hcontent, hflat.items] at hall
          refine ⟨b, .refl hflat, hgrows, fun _ heq => ?_, nofun⟩
          cases heq
          exact .inl hall
      · cases h
  | map =>
      obtain ⟨entries, b₁, hentries, h⟩ := run_bind_eq_ok.mp h
      obtain ⟨rfl, rfl⟩ := run_pure_eq_ok.mp h
      obtain ⟨b₂, hmerged, hgrows, hfirst⟩ := mappingEntries_eq_ok hsize hflat hentries
      refine ⟨b₂, hmerged, hgrows, nofun, fun _ heq hsame => ?_⟩
      cases heq
      exact hfirst hsame
  | set =>
      obtain ⟨entries, b₁, hentries, h⟩ := run_bind_eq_ok.mp h
      obtain ⟨rfl, rfl⟩ := run_pure_eq_ok.mp h
      obtain ⟨b₂, hmerged, hgrows, -⟩ := mappingEntries_eq_ok hsize hflat hentries
      exact ⟨b₂, hmerged, hgrows, nofun, nofun⟩
  | omap =>
      obtain ⟨hgrows, items, rfl, hall⟩ := pairList_eq_ok hsize h
      refine ⟨b, .refl hflat, hgrows, fun _ heq => ?_, nofun⟩
      cases heq
      exact .inr hall
  | pairs =>
      obtain ⟨hgrows, items, rfl, hall⟩ := pairList_eq_ok hsize h
      refine ⟨b, .refl hflat, hgrows, fun _ heq => ?_, nofun⟩
      cases heq
      exact .inr hall

/-! ### Filling all containers -/

/-- No mapping that merges another is filled before it, unless there is nothing to take apart. -/
def FilledFirst (nodes₀ : Array Node) (made : Array (Option RawItem)) (i c : Nat) : Prop :=
  MergeFree nodes₀ (pairsAt nodes₀ i) ∨ ∀ j c' : Nat, TransGen (Merges nodes₀) j i →
    made[j]? = some (some (.node c')) → c ≤ c'

/-- The containers before the next one are filled; only what they merge may be flattened. -/
structure Settling (nodes₀ : Array Node) (owners : List (Tag.CollectionKind × Nat)) (next : Nat)
    (b : Builder) : Prop where
  sized : b.made.size = b.nodes.size
  stock : Stock owners next b
  flat : Flat nodes₀ b.nodes
  gives : ∀ (k : Nat) (item : RawItem), b.made[k]? = some (some item) → Gives nodes₀ k item
  touched : ∀ j, pairsAt b.nodes j = pairsAt nodes₀ j ∨ ∃ c kind m, c < next ∧
    owners[c]? = some (kind, m) ∧ ReflTransGen (Merges nodes₀) m j
  filled : ∀ c kind i held, c < next → owners[c]? = some (kind, i) →
    b.containers[c]? = some held → Fills nodes₀ b.made i (FilledFirst nodes₀ b.made i c) held

theorem FilledFirst.before {made made' : Array (Option RawItem)} {c : Nat}
    (hk : Remembers made made') (h : FilledFirst nodes₀ made' i c) : FilledFirst nodes₀ made i c :=
  h.imp_right fun hlater j c' hji hj => hlater j c' hji (hk.item j _ hj)

/-- A mapping that is filled before those that merge it still has its pairs. -/
theorem Settling.pairs_eq (hs : Settling nodes₀ owners next b) (howner : owners[next]? = some (kind, i))
    (hfirst : FilledFirst nodes₀ b.made i next) : pairsAt b.nodes i = pairsAt nodes₀ i := by
  rcases hfirst with hfree | hlater
  · exact hs.flat.pairs_eq hfree
  · refine (hs.touched i).resolve_right ?_
    rintro ⟨c, kind', m, hc, hm, hreach⟩
    rcases reflTransGen_iff_eq_or_transGen.mp hreach with rfl | htrans
    · exact Nat.ne_of_lt hc (hs.stock.owner_unique hm howner)
    · have hle := hlater m c htrans ((hs.stock.owned m c).mpr ⟨kind', hm⟩)
      exact Nat.not_lt_of_le hle hc

/-- A container that is filled leaves the others and their owners as they are. -/
theorem Stock.fill {c : Nat} {held : RawNode} (hs : Stock owners next b) :
    Stock owners next { b with containers := b.containers.setIfInBounds c held } :=
  ⟨hs.next_le, Array.size_setIfInBounds.trans hs.count, hs.owned, hs.pending⟩

theorem Settling.step {held : RawNode} {rest : List (Tag.CollectionKind × Nat × Nat)} {c : Nat}
    (hs : Settling nodes₀ owners next b) (hp : b.pending = (kind, i, c) :: rest)
    (hfill : (filling i kind).run { b with pending := rest } = .ok (held, b')) :
    b'.nodes.size = b.nodes.size ∧ Remembers b.made b'.made ∧
      ∃ more, Settling nodes₀ (owners ++ more) (next + 1)
        { b' with containers := b'.containers.setIfInBounds c held } := by
  obtain ⟨rfl, howner, hpopped⟩ := hs.stock.pop hp
  obtain ⟨b₁, hmerged, hgrows, hfills⟩ := filling_eq_ok hfill hs.sized hs.flat
  obtain ⟨more, hstock⟩ := hgrows.stock owners _ (hpopped.merged hmerged)
  have hmade : Remembers b.made b'.made := hmerged.made ▸ hgrows.made
  have hflat : Flat nodes₀ b'.nodes := hgrows.nodes ▸ hmerged.flat
  have hsize : b'.nodes.size = b.nodes.size := hflat.size.trans hs.flat.size.symm
  have hlt : c < owners.length := (List.getElem?_eq_some_iff.mp howner).1
  have hold {c' : Nat} (hc' : c' < c + 1) : (owners ++ more)[c']? = owners[c']? :=
    List.getElem?_append_left (by omega)
  refine ⟨hsize, hmade, more, ⟨?_, hstock.fill, hflat, fun k item hm => ?_, fun j => ?_, ?_⟩⟩
  · exact (hmade.size.trans hs.sized).trans hsize.symm
  · exact (hgrows.gives k item hm).elim (fun hm => hs.gives k item (hmerged.made ▸ hm))
      (hmerged.flat.gives k item)
  · rw [hgrows.nodes]
    rcases hmerged.changed j with hsame | ⟨-, hreach⟩
    · rw [hsame]
      refine (hs.touched j).imp_right ?_
      rintro ⟨c', kind', m, hc', hm, hreach⟩
      exact ⟨c', kind', m, by omega, by rw [hold (by omega), hm], hreach⟩
    · exact .inr ⟨c, kind, i, by omega, by rw [hold (by omega), howner], hreach⟩
  · intro c' kind' i' held' hc' howner' hheld
    rw [hold hc'] at howner'
    rcases Nat.lt_or_eq_of_le (Nat.le_of_lt_succ hc') with hbefore | rfl
    · -- a container that was filled before keeps what it holds
      obtain ⟨before, hb⟩ : ∃ before, b.containers[c']? = some before :=
        ⟨_, Array.getElem?_eq_getElem (by rw [hs.stock.count]; omega)⟩
      have hkept := hgrows.containers c' before (hmerged.containers ▸ hb)
      rw [Array.getElem?_setIfInBounds_ne (by omega), hkept] at hheld
      cases hheld
      exact (hs.filled c' kind' i' _ hbefore howner' hb).mono hmade fun h => h.before hmade
    · rw [howner] at howner'
      cases howner'
      have hin : c' < b'.containers.size := by
        rw [hstock.count, List.length_append]
        omega
      rw [Array.getElem?_setIfInBounds_self_of_lt hin] at hheld
      cases hheld
      exact hfills.mono (.refl _) fun h => hs.pairs_eq howner (h.before hmade)

/-- The steps last: there are no more containers than nodes. -/
theorem settle_eq_ok {steps : Nat} (hs : Settling nodes₀ owners next b)
    (hsteps : b.nodes.size ≤ next + steps) (h : (settle steps).run b = .ok ((), b')) :
    Remembers b.made b'.made ∧ ∃ owners', Settling nodes₀ owners' owners'.length b' := by
  induction steps generalizing owners next b with
  | zero =>
      obtain ⟨-, rfl⟩ := run_pure_eq_ok.mp h
      have hlength := hs.stock.length_le
      rw [hs.sized] at hlength
      have hall : next = owners.length := Nat.le_antisymm hs.stock.next_le (by omega)
      exact ⟨.refl _, owners, hall ▸ hs⟩
  | succ steps ih =>
      obtain ⟨_, _, hb, h⟩ := run_bind_eq_ok.mp h
      cases hb
      split at h
      · next hp =>
          obtain ⟨-, rfl⟩ := run_pure_eq_ok.mp h
          have hnone := congrArg List.length (hs.stock.pending.symm.trans hp)
          rw [List.length_map, List.length_drop, List.length_zipIdx, List.length_nil] at hnone
          have hall : next = owners.length := Nat.le_antisymm hs.stock.next_le (by omega)
          exact ⟨.refl _, owners, hall ▸ hs⟩
      · next kind i c rest hp =>
          obtain ⟨_, _, hset, h⟩ := run_bind_eq_ok.mp h
          cases hset
          obtain ⟨held, b₁, hfill, h⟩ := run_bind_eq_ok.mp h
          obtain ⟨_, _, hset, hrest⟩ := run_bind_eq_ok.mp h
          cases hset
          obtain ⟨hsize, hmade, more, hnext⟩ := hs.step hp hfill
          obtain ⟨hlater, hsettled⟩ := ih hnext (by dsimp only; omega) hrest
          exact ⟨hmade.trans hlater, hsettled⟩

end Builder

/-! ### A whole document -/

namespace NodeGraph

open Builder Build

/-- The value of a document, next to what is left of making it. -/
def build (g : NodeGraph) : Except Stop (RawGraph × Builder) :=
  (document g.root).run { nodes := g.nodes, made := Array.replicate g.nodes.size none }

variable {g : NodeGraph} {raw : RawGraph} {b : Builder}

theorem value_eq (g : NodeGraph) : g.value = g.build.map (·.1) := rfl

theorem settling_start {i : Nat} {item : RawItem}
    (h : (make i).run { nodes := g.nodes, made := Array.replicate g.nodes.size none } =
      .ok (item, b)) : Made b.made i item ∧ ∃ owners, Settling g.nodes owners 0 b := by
  have hnone (k : Nat) (item : RawItem) :
      (Array.replicate g.nodes.size (none : Option RawItem))[k]? ≠ some (some item) := by
    rw [Array.getElem?_replicate]
    split <;> nofun
  obtain ⟨hgrows, hmade⟩ := make_eq_ok Array.size_replicate h
  obtain ⟨owners, hstock⟩ := hgrows.stock [] 0
    ⟨Nat.le_refl _, rfl, fun k c => iff_of_false (hnone k _) (by simp), rfl⟩
  refine ⟨hmade, owners, ⟨hgrows.sized Array.size_replicate, hstock, hgrows.nodes ▸ .refl _,
    fun k item hm => ?_, fun j => .inl (by rw [hgrows.nodes]), nofun⟩⟩
  exact (hgrows.gives k item hm).elim (fun hm => absurd hm (hnone k item)) id

/-- All containers of a document are filled. -/
theorem settled_build (h : g.build = .ok (raw, b)) :
    raw.nodes = b.containers ∧ Made b.made g.root raw.root ∧
      ∃ owners, Settling g.nodes owners owners.length b := by
  obtain ⟨item, b₁, hmake, h⟩ := run_bind_eq_ok.mp h
  obtain ⟨hroot, owners, hstart⟩ := settling_start hmake
  obtain ⟨_, _, hb, h⟩ := run_bind_eq_ok.mp h
  cases hb
  obtain ⟨_, b₂, hsettle, h⟩ := run_bind_eq_ok.mp h
  obtain ⟨_, _, hb, h⟩ := run_bind_eq_ok.mp h
  cases hb
  obtain ⟨rfl, rfl⟩ := run_pure_eq_ok.mp h
  obtain ⟨hmade, hsettled⟩ := settle_eq_ok hstart (Nat.le_add_left _ _) hsettle
  exact ⟨rfl, hmade.isMade hroot, hsettled⟩

theorem gives_build (h : g.build = .ok (raw, b)) {i : Nat} {item : RawItem}
    (hi : Made b.made i item) :
    Gives g.nodes i item ∨ g.nodes.size ≤ i ∧ item = .value .null := by
  obtain ⟨-, -, owners, hs⟩ := settled_build h
  rw [← hs.flat.size, ← hs.sized]
  exact hi.imp_left (hs.gives i item)

theorem fills_build (h : g.build = .ok (raw, b)) {i c : Nat} {held : RawNode}
    (hi : b.made[i]? = some (some (.node c))) (hc : raw.nodes[c]? = some held) :
    Fills g.nodes b.made i (FilledFirst g.nodes b.made i c) held := by
  obtain ⟨hnodes, -, owners, hs⟩ := settled_build h
  obtain ⟨kind, howner⟩ := (hs.stock.owned i c).mp hi
  rw [hnodes] at hc
  exact hs.filled c kind i held (List.getElem?_eq_some_iff.mp howner).1 howner hc

/-- A mapping that is filled before those that merge it gives what it writes first. -/
theorem writtenFirst_build (h : g.build = .ok (raw, b)) {i c : Nat}
    {entries : List (Scalar × RawItem)} (hi : b.made[i]? = some (some (.node c)))
    (hc : raw.nodes[c]? = some (.dict entries)) (hfirst : FilledFirst g.nodes b.made i c) :
    WrittenFirst g.nodes b.made i entries :=
  (fills_build h hi hc).written entries rfl hfirst

end NodeGraph

end AppSpec.Yaml
