import Flowchart.Proofs.GraphMaps
import Flowchart.Proofs.Relabelling
import Flowchart.Proofs.SlotGraphs

/-!
# Graphs found by name

An indexed graph keeps its vertices in slots and notes the slot of each reference. It mirrors a
graph of references: the vertices stand in the same order, the index says at which place each of
them stands, and the arcs are the edges between these places, in whatever order. A vertex that moves
takes its arcs and its entry in the index along.
-/

namespace Flowchart

theorem Dict.get?_erase {α : Type} (d : Dict α) (key k : String) :
    get? (erase d key) k = if k = key then none else get? d k := by
  induction d with
  | nil => simp [erase]
  | cons entry rest ih =>
    obtain ⟨key', a⟩ := entry
    rw [erase] at ih ⊢
    by_cases hkey : key' = key
    · rw [List.filter_cons_of_neg (by simp [hkey]), ih, get?_cons]
      by_cases hk : k = key
      · rw [if_pos hk, if_pos hk]
      · rw [if_neg hk, if_neg hk, if_neg fun heq => hk (heq.symm.trans hkey)]
    · rw [List.filter_cons_of_pos (by simp [hkey]), get?_cons, ih, get?_cons]
      by_cases hk : key' = k
      · rw [if_pos hk, if_pos hk, if_neg fun heq => hkey (hk.trans heq)]
      · rw [if_neg hk, if_neg hk]

theorem eraseReps_of_nodup {slots : List Nat} (h : slots.Nodup) : slots.eraseReps = slots := by
  have hloop : ∀ (a : Nat) (rest acc : List Nat), (a :: rest).Nodup →
      List.eraseRepsBy.loop (· == ·) a rest acc = acc.reverse ++ a :: rest := by
    intro a rest
    induction rest generalizing a with
    | nil => exact fun acc _ => List.reverse_cons
    | cons b rest ih =>
      intro acc hnodup
      obtain ⟨ha, hrest⟩ := List.nodup_cons.mp hnodup
      have hne : (a == b) = false := beq_false_of_ne fun heq => ha (heq ▸ List.mem_cons_self)
      rw [List.eraseRepsBy.loop, hne]
      dsimp only
      rw [ih b _ hrest, List.reverse_cons, List.append_assoc]
      rfl
  cases slots with
  | nil => rfl
  | cons a rest => exact hloop a rest [] h

/-- Distinct slots in their order are the slots of a range that are among them. -/
theorem mergeSort_eq_filter_range {slots : List Nat} {n : Nat} (h : slots.Nodup)
    (hbound : ∀ i ∈ slots, i < n) : slots.mergeSort = (List.range n).filter (· ∈ slots) := by
  have hsorted : slots.mergeSort.Pairwise (· ≤ ·) :=
    (List.pairwise_mergeSort (fun a b c => by simpa using Nat.le_trans)
      (fun a b => by simpa using Nat.le_total a b) slots).imp of_decide_eq_true
  have hrange : ((List.range n).filter (· ∈ slots)).Pairwise (· ≤ ·) :=
    List.pairwise_le_range.filter _
  refine (List.Perm.eq_of_pairwise (fun a b _ _ => Nat.le_antisymm) hsorted hrange ?_)
  refine (List.mergeSort_perm slots _).trans ?_
  refine (List.perm_ext_iff_of_nodup h (List.nodup_range.filter _)).mpr fun i => ?_
  rw [List.mem_filter, List.mem_range, decide_eq_true_eq]
  exact (and_iff_right_of_imp (hbound i)).symm

/-- The edge with its ends as places in a list of references. -/
def Edge.arc (references : List String) (e : Edge) : Arc where
  source := references.idxOf e.source
  target := references.idxOf e.target
  label := e.label

namespace IndexedGraph

variable {σ : Type} [SlotGraph σ] {x x' : IndexedGraph σ} {g g' : Graph} {r u w : String}

/-- The indexed graph stands for a graph of references. -/
structure Mirrors (x : IndexedGraph σ) (g : Graph) : Prop where
  built : SlotGraph.Built x.slots
  vertices : x.vertices = g.vertices
  index : ∀ r, x.slot? r = if r ∈ g.references then some (g.references.idxOf r) else none
  arcs : (SlotGraph.arcs x.slots).Perm (g.edges.map (Edge.arc g.references))

theorem Mirrors.slot?_of_mem (h : x.Mirrors g) (hr : r ∈ g.references) :
    x.slot? r = some (g.references.idxOf r) := by rw [h.index, if_pos hr]

theorem Mirrors.slot?_of_not_mem (h : x.Mirrors g) (hr : r ∉ g.references) : x.slot? r = none := by
  rw [h.index, if_neg hr]

theorem Mirrors.idxOf_lt (h : x.Mirrors g) (hr : r ∈ g.references) :
    g.references.idxOf r < x.vertices.length := by
  have hlength : x.vertices.length = g.references.length := by
    rw [h.vertices, Graph.references, List.length_map]
  rw [hlength]
  exact List.idxOf_lt_length_of_mem hr

theorem Mirrors.name_eq (h : x.Mirrors g) (slot : Nat) :
    x.name slot = g.references[slot]?.getD "" := by
  rw [name, h.vertices, Graph.references, List.getElem?_map]

theorem Mirrors.name_idxOf (h : x.Mirrors g) (hr : r ∈ g.references) :
    x.name (g.references.idxOf r) = r := by
  rw [h.name_eq, List.getElem?_idxOf hr]
  rfl

theorem Mirrors.contains_eq (h : x.Mirrors g) (r : String) : x.contains r = g.contains r := by
  have hkeys : x.contains r = (x.slot? r).isSome := by
    rw [contains, slot?, ← Option.not_isNone, Dict.isNone_get?, Bool.eq_iff_iff,
      Dict.contains_iff]
    simp
  rw [hkeys, h.index, Bool.eq_iff_iff, Graph.contains_iff]
  split
  · next hmem => exact iff_of_true rfl hmem
  · next hmem => exact iff_of_false nofun hmem

theorem Mirrors.vertex?_eq (h : x.Mirrors g) (hg : g.Consistent) (r : String) :
    x.vertex? r = g.vertex? r := by
  rw [vertex?]
  by_cases hr : r ∈ g.references
  · rw [h.slot?_of_mem hr, h.vertices]
    have hplace : (g.vertices[g.references.idxOf r]?).map (·.reference) = some r := by
      rw [← List.getElem?_map]
      exact List.getElem?_idxOf hr
    obtain ⟨v, hv, href⟩ := Option.map_eq_some_iff.mp hplace
    rw [(Graph.vertex?_eq_some hg).mpr ⟨List.mem_of_getElem? hv, href⟩]
    exact hv
  · rw [h.slot?_of_not_mem hr, Graph.vertex?_of_not_mem hr]
    rfl

/-! ### Edges and arcs

The slots below keep their arcs in an order of their own, so arcs and edges agree up to order only.
Questions about one edge do not depend on it, and neighbours are listed by place on both sides.
-/

/-- References in a list are told apart by their places. -/
theorem beq_idxOf {references : List String} (hr : r ∈ references) (s : String) :
    (references.idxOf r == references.idxOf s) = (r == s) := by
  rw [Bool.eq_iff_iff, beq_iff_eq, beq_iff_eq, List.idxOf_inj hr]

/-- An arc joins the places of two references if its edge joins these references. -/
theorem joins_arc (hg : g.Consistent) {e : Edge} (he : e ∈ g.edges) :
    (e.arc g.references).joins (g.references.idxOf u) (g.references.idxOf w) = e.joins u w := by
  obtain ⟨hsource, htarget⟩ := hg.closed e he
  exact congrArg₂ and (beq_idxOf hsource u) (beq_idxOf htarget w)

theorem Mirrors.mem_arcs_iff (h : x.Mirrors g) {a : Arc} :
    a ∈ SlotGraph.arcs x.slots ↔ ∃ e ∈ g.edges, e.arc g.references = a := by
  rw [h.arcs.mem_iff, List.mem_map]

theorem Mirrors.any_joins (h : x.Mirrors g) (hg : g.Consistent) (u w : String) :
    (SlotGraph.arcs x.slots).any (·.joins (g.references.idxOf u) (g.references.idxOf w)) =
      g.edges.any (·.joins u w) := by
  rw [h.arcs.any_eq, List.any_map, Bool.eq_iff_iff, List.any_eq_true, List.any_eq_true]
  refine exists_congr fun e => and_congr_right fun he => ?_
  rw [Function.comp_apply, joins_arc hg he]

theorem Mirrors.edges_perm (h : x.Mirrors g) (hg : g.Consistent) : x.edges.Perm g.view.edges := by
  refine (h.arcs.map _).trans (List.Perm.of_eq ?_)
  rw [List.map_map]
  refine List.map_congr_left fun e he => ?_
  obtain ⟨hsource, htarget⟩ := hg.closed e he
  rw [Function.comp_apply, Edge.arc, h.name_idxOf hsource, h.name_idxOf htarget]

theorem Mirrors.arc_bound (h : x.Mirrors g) (hg : g.Consistent) :
    ∀ a ∈ SlotGraph.arcs x.slots, a.source < x.vertices.length ∧ a.target < x.vertices.length := by
  intro a ha
  obtain ⟨e, he, rfl⟩ := h.mem_arcs_iff.mp ha
  obtain ⟨hsource, htarget⟩ := hg.closed e he
  exact ⟨h.idxOf_lt hsource, h.idxOf_lt htarget⟩

/-- Distinct slots are named in the order of the references. -/
theorem Mirrors.names_eq (h : x.Mirrors g) (hg : g.Consistent) {slots : List Nat}
    {q : String → Bool} (hnodup : slots.Nodup) (hbound : ∀ i ∈ slots, i < g.references.length)
    (hq : ∀ s ∈ g.references, g.references.idxOf s ∈ slots ↔ q s = true) :
    x.names slots = g.references.filter q := by
  have hrange : (List.range g.references.length).map x.name = g.references := by
    refine List.ext_getElem (by simp) fun i hi hi' => ?_
    rw [List.getElem_map, List.getElem_range, h.name_eq, List.getElem?_eq_getElem hi']
    rfl
  calc x.names slots
    _ = ((List.range g.references.length).filter (· ∈ slots)).map x.name := by
      rw [names, mergeSort_eq_filter_range hnodup hbound,
        eraseReps_of_nodup (List.nodup_range.filter _)]
    _ = ((List.range g.references.length).filter (q ∘ x.name)).map x.name := by
      refine congrArg _ (List.filter_congr fun i hi => ?_)
      have hlt := List.mem_range.mp hi
      have hname : x.name i = g.references[i] := by
        rw [h.name_eq, List.getElem?_eq_getElem hlt]
        rfl
      have hplace := hq _ (List.getElem_mem hlt)
      rw [hg.references.idxOf_getElem i hlt, ← hname] at hplace
      rw [Bool.eq_iff_iff, decide_eq_true_eq, hplace]
      rfl
    _ = ((List.range g.references.length).map x.name).filter q := List.filter_map.symm
    _ = g.references.filter q := by rw [hrange]

/-- The neighbours on one side, whichever end of the edges is `near` and which one `far`, are named
in the order of the references. -/
theorem Mirrors.neighbours_eq (h : x.Mirrors g) (hg : g.Consistent) {near far : Edge → String}
    {nearSlot farSlot : Arc → Nat} {found : Nat → List Arc}
    (hnear : ∀ e, nearSlot (Edge.arc g.references e) = g.references.idxOf (near e))
    (hfar : ∀ e, farSlot (Edge.arc g.references e) = g.references.idxOf (far e))
    (hfound : ∀ slot, (found slot).Perm ((SlotGraph.arcs x.slots).filter (nearSlot · == slot)))
    (hclosed : ∀ e ∈ g.edges, near e ∈ g.references ∧ far e ∈ g.references)
    (hends : ∀ e e', near e = near e' → far e = far e' → e.ends = e'.ends) (r : String) :
    (match x.slot? r with
      | some slot => x.names ((found slot).map farSlot)
      | none => []) =
      g.references.filter fun s => g.edges.any fun e => near e == r && far e == s := by
  by_cases hr : r ∈ g.references
  · have hperm : ((found (g.references.idxOf r)).map farSlot).Perm
        ((g.edges.filter (near · == r)).map fun e => g.references.idxOf (far e)) := by
      refine ((hfound _).map _).trans (((h.arcs.filter _).map _).trans (List.Perm.of_eq ?_))
      have hslots : farSlot ∘ Edge.arc g.references = fun e => g.references.idxOf (far e) :=
        funext hfar
      rw [List.filter_map, List.map_map, hslots]
      refine congrArg _ (List.filter_congr fun e he => ?_)
      rw [Function.comp_apply, hnear, beq_idxOf (hclosed e he).1]
    have hmem : ∀ i, i ∈ (found (g.references.idxOf r)).map farSlot ↔
        ∃ e ∈ g.edges, (near e == r) = true ∧ g.references.idxOf (far e) = i := by
      intro i
      simp only [hperm.mem_iff, List.mem_map, List.mem_filter, and_assoc]
    rw [h.slot?_of_mem hr]
    refine h.names_eq hg ?_ (fun i hi => ?_) fun s hs => ?_
    · refine hperm.nodup_iff.mpr (Graph.nodup_map_filter hg.ends ?_)
      intro e he e' _ hmeets hmeets' heq
      exact hends e e' ((beq_iff_eq.mp hmeets).trans (beq_iff_eq.mp hmeets').symm)
        ((List.idxOf_inj (hclosed e he).2).mp heq)
    · obtain ⟨e, he, -, rfl⟩ := (hmem i).mp hi
      exact List.idxOf_lt_length_of_mem (hclosed e he).2
    · rw [hmem, List.any_eq_true]
      refine exists_congr fun e => and_congr_right fun he => ?_
      rw [Bool.and_eq_true, beq_iff_eq (a := far e), List.idxOf_inj (hclosed e he).2]
  · rw [h.slot?_of_not_mem hr, eq_comm, List.filter_eq_nil_iff]
    intro s _ hjoins
    obtain ⟨e, he, hends⟩ := List.any_eq_true.mp hjoins
    exact hr (beq_iff_eq.mp (Bool.and_eq_true_iff.mp hends).1 ▸ (hclosed e he).1)

variable [LawfulSlotGraph σ]

theorem Mirrors.edge?_eq (h : x.Mirrors g) (hg : g.Consistent) (u w : String) :
    x.edge? u w = g.edge? u w := by
  rw [edge?]
  by_cases hmem : u ∈ g.references ∧ w ∈ g.references
  · obtain ⟨hu, hw⟩ := hmem
    rw [h.slot?_of_mem hu, h.slot?_of_mem hw]
    change SlotGraph.label? x.slots (g.references.idxOf u) (g.references.idxOf w) = _
    cases hlabel : SlotGraph.label? x.slots (g.references.idxOf u) (g.references.idxOf w) with
    | some label =>
      obtain ⟨a, ha, hjoins, rfl⟩ := LawfulSlotGraph.label?_of_some h.built hlabel
      obtain ⟨e, he, rfl⟩ := h.mem_arcs_iff.mp ha
      rw [joins_arc hg he] at hjoins
      exact ((Graph.edge?_eq_some hg).mpr ⟨e, he, Graph.joins_iff_ends.mp hjoins, rfl⟩).symm
    | none =>
      have hapart := LawfulSlotGraph.label?_of_none h.built hlabel
      rw [eq_comm, ← Option.isNone_iff_eq_none, ← Option.isSome_eq_false_iff, Graph.isSome_edge?,
        ← h.any_joins hg, List.any_eq_false]
      exact fun a ha => Bool.not_eq_true _ ▸ hapart a ha
  · have hnone : g.edge? u w = none := by
      refine Option.eq_none_iff_forall_ne_some.mpr fun label hlabel => hmem ?_
      obtain ⟨e, he, hends, -⟩ := (Graph.edge?_eq_some hg).mp hlabel
      obtain ⟨rfl, rfl⟩ := Prod.mk.inj hends
      exact hg.closed e he
    rw [hnone]
    rcases not_and_or.mp hmem with hu | hw
    · rw [h.slot?_of_not_mem hu]
      rfl
    · rw [h.slot?_of_not_mem hw]
      cases x.slot? u <;> rfl

theorem Mirrors.inDegree_eq (h : x.Mirrors g) (hg : g.Consistent) (r : String) :
    x.inDegree r = g.inDegree r := by
  rw [inDegree, Graph.inDegree]
  by_cases hr : r ∈ g.references
  · rw [h.slot?_of_mem hr]
    dsimp only
    rw [(LawfulSlotGraph.entering_perm h.built _).length_eq, ← List.countP_eq_length_filter,
      h.arcs.countP_eq, List.countP_map]
    exact List.countP_congr fun e he => Bool.eq_iff_iff.mp (beq_idxOf (hg.closed e he).2 r)
  · rw [h.slot?_of_not_mem hr, eq_comm, List.countP_eq_zero]
    intro e he htarget
    exact hr (beq_iff_eq.mp htarget ▸ (hg.closed e he).2)

theorem Mirrors.successors_eq (h : x.Mirrors g) (hg : g.Consistent) (r : String) :
    x.successors r = g.successors r :=
  h.neighbours_eq hg (fun _ => rfl) (fun _ => rfl) (LawfulSlotGraph.leaving_perm h.built) hg.closed
    (fun _ _ hsource htarget => Prod.ext hsource htarget) r

theorem Mirrors.predecessors_eq (h : x.Mirrors g) (hg : g.Consistent) (r : String) :
    x.predecessors r = g.predecessors r := by
  have hjoins : ∀ s, g.edges.any (·.joins s r) =
      g.edges.any fun e => e.target == r && e.source == s := fun s =>
    congrArg g.edges.any (funext fun e => Bool.and_comm _ _)
  rw [Graph.predecessors, List.filter_congr fun s _ => hjoins s]
  exact h.neighbours_eq hg (fun _ => rfl) (fun _ => rfl) (LawfulSlotGraph.entering_perm h.built)
    (fun e he => (hg.closed e he).symm) (fun _ _ htarget hsource => Prod.ext hsource htarget) r

theorem Mirrors.empty : (IndexedGraph.empty : IndexedGraph σ).Mirrors Graph.empty where
  built := .empty
  vertices := LawfulSlotGraph.vertices_empty
  index _ := rfl
  arcs := List.Perm.of_eq LawfulSlotGraph.arcs_empty

theorem map_arc_congr (hg : g.Consistent) {references : List String}
    (h : ∀ r ∈ g.references, references.idxOf r = g.references.idxOf r) :
    g.edges.map (Edge.arc references) = g.edges.map (Edge.arc g.references) := by
  refine List.map_congr_left fun e he => ?_
  obtain ⟨hsource, htarget⟩ := hg.closed e he
  rw [Edge.arc, Edge.arc, h _ hsource, h _ htarget]

theorem vertices_putVertex_of_mem (hg : g.Consistent) {v : Vertex}
    (hr : v.reference ∈ g.references) :
    (g.putVertex v).vertices = g.vertices.set (g.references.idxOf v.reference) v := by
  rw [Graph.putVertex, if_pos (Graph.contains_iff.mpr hr)]
  refine List.ext_getElem (by simp) fun i hi hi' => ?_
  rw [List.length_map] at hi
  have hlt : i < g.references.length := by rwa [Graph.references, List.length_map]
  have hplace : g.vertices[i].reference = v.reference ↔ g.references.idxOf v.reference = i := by
    have href : g.vertices[i].reference = g.references[i] := (List.getElem_map _).symm
    rw [href]
    constructor
    · intro heq
      rw [← heq, hg.references.idxOf_getElem i hlt]
    · rintro rfl
      exact List.getElem_idxOf hlt
  rw [List.getElem_map, List.getElem_set]
  by_cases heq : g.vertices[i].reference = v.reference
  · rw [if_pos heq, if_pos (hplace.mp heq)]
  · rw [if_neg heq, if_neg (mt hplace.mpr heq)]

theorem Mirrors.putVertex (h : x.Mirrors g) (hg : g.Consistent) (v : Vertex) :
    (x.putVertex v).Mirrors (g.putVertex v) := by
  obtain ⟨hedges, -⟩ := g.edges_putVertex v
  have hreferences := g.references_putVertex v
  unfold recordRef at hreferences
  rw [IndexedGraph.putVertex]
  by_cases hr : v.reference ∈ g.references
  · rw [if_pos hr] at hreferences
    rw [h.slot?_of_mem hr]
    have hslot : g.references.idxOf v.reference < (SlotGraph.vertices x.slots).length :=
      h.idxOf_lt hr
    refine ⟨h.built.replace hslot v, ?_, ?_, ?_⟩
    · rw [vertices_putVertex_of_mem hg hr, ← h.vertices]
      exact LawfulSlotGraph.vertices_replace h.built hslot v
    · rw [hreferences]
      exact h.index
    · rw [hreferences, hedges]
      exact (LawfulSlotGraph.arcs_replace h.built hslot v).symm ▸ h.arcs
  · rw [if_neg hr] at hreferences
    have hold : ∀ r ∈ g.references,
        (g.references ++ [v.reference]).idxOf r = g.references.idxOf r :=
      fun r hmem => List.idxOf_append_of_mem hmem
    rw [h.slot?_of_not_mem hr]
    refine ⟨h.built.append v, ?_, fun r => ?_, ?_⟩
    · rw [Graph.putVertex_fresh hr, ← h.vertices]
      exact LawfulSlotGraph.vertices_append h.built v
    · have hlength : (SlotGraph.append x.slots v).2 = g.references.length := by
        rw [LawfulSlotGraph.append_snd h.built, Graph.references, List.length_map, ← h.vertices]
        rfl
      change Dict.get? (Dict.put x.index v.reference (SlotGraph.append x.slots v).2) r = _
      rw [hreferences, Dict.get?_put, hlength]
      change (if v.reference = r then _ else x.slot? r) = _
      by_cases hnew : v.reference = r
      · rw [if_pos hnew, if_pos (by simp [hnew]), ← hnew, List.idxOf_append_of_notMem hr]
        simp
      · rw [if_neg hnew, h.index]
        by_cases hmem : r ∈ g.references
        · rw [if_pos hmem, if_pos (List.mem_append_left _ hmem), hold r hmem]
        · rw [if_neg hmem, if_neg (by simp [hmem, Ne.symm hnew])]
    · rw [hreferences, hedges, map_arc_congr hg hold]
      exact (LawfulSlotGraph.arcs_append h.built v).symm ▸ h.arcs

/-- Only one edge gets the new label. -/
theorem map_relabel {front back : List Edge} {e : Edge} {label : EdgeLabel}
    (h : ((front ++ e :: back).map Edge.ends).Nodup) (he : e.ends = (u, w)) :
    ((front ++ e :: back).map fun e => if e.joins u w then { e with label := label } else e) =
      front ++ { e with label := label } :: back := by
  rw [List.map_append, List.map_cons, List.nodup_middle, List.nodup_cons, List.mem_append,
    not_or] at h
  have hkept : ∀ edges : List Edge, e.ends ∉ edges.map Edge.ends →
      (edges.map fun e => if e.joins u w then { e with label := label } else e) = edges := by
    intro edges hends
    refine (List.map_congr_left fun e' he' => if_neg fun hjoins => hends ?_).trans (List.map_id _)
    rw [he, ← Graph.joins_iff_ends.mp hjoins]
    exact List.mem_map_of_mem he'
  rw [List.map_append, List.map_cons, if_pos (Graph.joins_iff_ends.mpr he), hkept _ h.1.1,
    hkept _ h.1.2]

omit [LawfulSlotGraph σ] in
theorem Mirrors.arcs_putEdge (h : x.Mirrors g) (hg : g.Consistent) {label : EdgeLabel}
    {arcs : List Arc} (hput : g.putEdge u w label = .ok g')
    (harcs : SlotGraph.Linked (g.references.idxOf u) (g.references.idxOf w) label
      (SlotGraph.arcs x.slots) arcs) : arcs.Perm (g'.edges.map (Edge.arc g.references)) := by
  obtain ⟨-, -, rfl⟩ := Graph.putEdge_ok hput
  rcases harcs with ⟨hapart, rfl⟩ | ⟨front, a, back, heq, hjoins, rfl⟩
  · have hany : ¬ g.edges.any (·.joins u w) = true := by
      rw [← h.any_joins hg, List.any_eq_true]
      rintro ⟨a, ha, hjoins⟩
      rw [hapart a ha] at hjoins
      cases hjoins
    rw [if_neg hany, List.map_append]
    exact h.arcs.append_right _
  · obtain ⟨e, he, rfl⟩ := h.mem_arcs_iff.mp (heq ▸ List.mem_append_right front List.mem_cons_self)
    rw [joins_arc hg he] at hjoins
    rw [if_pos (List.any_eq_true.mpr ⟨e, he, hjoins⟩)]
    obtain ⟨front', back', hedges⟩ := List.append_of_mem he
    have hnodup := hg.ends
    have hperm := h.arcs
    rw [hedges] at hnodup
    rw [heq, hedges, List.map_append, List.map_cons] at hperm
    have hrest : (front ++ back).Perm
        (front'.map (Edge.arc g.references) ++ back'.map (Edge.arc g.references)) :=
      ((List.perm_middle.symm.trans hperm).trans List.perm_middle).cons_inv
    dsimp only
    rw [hedges, map_relabel hnodup (Graph.joins_iff_ends.mp hjoins), List.map_append, List.map_cons]
    exact List.perm_middle.trans ((hrest.cons _).trans List.perm_middle.symm)

/-- Both graphs take an edge, or both refuse it for the same reason. -/
theorem Mirrors.putEdge (h : x.Mirrors g) (hg : g.Consistent) (u w : String) (label : EdgeLabel) :
    (∃ error, x.putEdge u w label = .error error ∧ g.putEdge u w label = .error error) ∨
      ∃ x' g', x.putEdge u w label = .ok x' ∧ g.putEdge u w label = .ok g' ∧ x'.Mirrors g' := by
  rw [IndexedGraph.putEdge, slot, slot]
  by_cases hu : u ∈ g.references
  · by_cases hw : w ∈ g.references
    · obtain ⟨g', hput⟩ : ∃ g', g.putEdge u w label = .ok g' :=
        Graph.exists_putEdge (Graph.contains_iff.mpr hu) (Graph.contains_iff.mpr hw)
      have hvertices := (Graph.putEdge_changes hput).1
      have hreferences := Graph.references_putEdge hput
      have hsource : g.references.idxOf u < (SlotGraph.vertices x.slots).length := h.idxOf_lt hu
      have htarget : g.references.idxOf w < (SlotGraph.vertices x.slots).length := h.idxOf_lt hw
      rw [h.slot?_of_mem hu, h.slot?_of_mem hw]
      refine Or.inr ⟨_, g', rfl, hput, h.built.link hsource htarget label, ?_, ?_, ?_⟩
      · rw [hvertices, ← h.vertices]
        exact LawfulSlotGraph.vertices_link h.built hsource htarget label
      · rw [hreferences]
        exact h.index
      · rw [hreferences]
        exact h.arcs_putEdge hg hput (LawfulSlotGraph.arcs_link h.built hsource htarget label)
    · rw [h.slot?_of_mem hu, h.slot?_of_not_mem hw]
      refine Or.inl ⟨_, rfl, ?_⟩
      rw [Graph.putEdge, Graph.contains_iff.mpr hu, Graph.contains_of_not_mem hw]
      rfl
  · rw [h.slot?_of_not_mem hu]
    refine Or.inl ⟨_, rfl, ?_⟩
    rw [Graph.putEdge, Graph.contains_of_not_mem hu]
    rfl

/-- The entries of an index after the last vertex has moved to the slot of the one taken out. -/
theorem get?_moved {index : Dict Nat} {references : List String} (hnodup : references.Nodup)
    (hr : r ∈ references) (hindex : ∀ s, Dict.get? index s =
      if s ∈ references then some (references.idxOf s) else none) (s : String) :
    Dict.get? (match (swapErase references (references.idxOf r))[references.idxOf r]? with
        | some moved => Dict.put (Dict.erase index r) moved (references.idxOf r)
        | none => Dict.erase index r) s =
      if s ∈ swapErase references (references.idxOf r) then
        some ((swapErase references (references.idxOf r)).idxOf s) else none := by
  have hlt := List.idxOf_lt_length_of_mem hr
  have hold : Dict.get? (Dict.erase index r) s =
      if s ∈ references ∧ s ≠ r then some (references.idxOf s) else none := by
    rw [Dict.get?_erase, hindex]
    by_cases heq : s = r
    · rw [if_pos heq, if_neg fun hs => hs.2 heq]
    · simp only [heq, if_false, ne_eq, not_false_eq_true, and_true]
  simp only [mem_swapErase_idxOf hnodup hr]
  rw [getElem?_swapErase hlt, if_pos rfl]
  by_cases hlast : references.idxOf r < references.length - 1
  · have hbound : references.length - 1 < references.length := by omega
    have hmoved : references[references.length - 1] = s ↔
        s ∈ references ∧ references.idxOf s = references.length - 1 := by
      rw [← getElem?_iff_idxOf hnodup, List.getElem?_eq_getElem hbound, Option.some.injEq]
    rw [if_pos hlast, List.getElem?_eq_getElem hbound]
    dsimp only
    rw [Dict.get?_put, hold]
    by_cases hs : s ∈ references ∧ s ≠ r
    · have hne : references.idxOf s ≠ references.idxOf r := mt (List.idxOf_inj hs.1).mp hs.2
      rw [if_pos hs, if_pos hs, idxOf_swapErase hnodup hlt hs.1 hne]
      by_cases heq : references.idxOf s = references.length - 1
      · rw [if_pos (hmoved.mpr ⟨hs.1, heq⟩), if_pos heq]
      · rw [if_neg fun hplace => heq (hmoved.mp hplace).2, if_neg heq]
    · have hapart : references[references.length - 1] ≠ s := by
        intro heq
        obtain ⟨hmem, hplace⟩ := hmoved.mp heq
        refine hs ⟨hmem, ?_⟩
        rintro rfl
        omega
      rw [if_neg hapart, if_neg hs, if_neg hs]
  · rw [if_neg hlast]
    dsimp only
    rw [hold]
    by_cases hs : s ∈ references ∧ s ≠ r
    · have hne : references.idxOf s ≠ references.idxOf r := mt (List.idxOf_inj hs.1).mp hs.2
      rw [if_pos hs, if_pos hs, idxOf_swapErase hnodup hlt hs.1 hne, if_neg (by omega)]
    · rw [if_neg hs, if_neg hs]

omit [LawfulSlotGraph σ] in
/-- The arcs after the last vertex has moved. -/
theorem Mirrors.arcs_moved (h : x.Mirrors g) (hg : g.Consistent) (hr : r ∈ g.references) :
    (((SlotGraph.arcs x.slots).filter fun a => !a.touches (g.references.idxOf r)).map
      (Arc.move (g.references.length - 1) (g.references.idxOf r))).Perm
      ((g.eraseVertex r).edges.map
        (Edge.arc (swapErase g.references (g.references.idxOf r)))) := by
  have hlt := List.idxOf_lt_length_of_mem hr
  have hkept : g.edges.filter ((fun a => !a.touches (g.references.idxOf r)) ∘
      Edge.arc g.references) = g.edges.filter fun e => !e.touches r := by
    refine List.filter_congr fun e he => ?_
    obtain ⟨hsource, htarget⟩ := hg.closed e he
    exact congrArg (! ·) (congrArg₂ or (beq_idxOf hsource r) (beq_idxOf htarget r))
  have hplace : ∀ s ∈ g.references, s ≠ r →
      (if g.references.idxOf s = g.references.length - 1 then g.references.idxOf r
        else g.references.idxOf s) =
      (swapErase g.references (g.references.idxOf r)).idxOf s := by
    intro s hs hne
    exact (idxOf_swapErase hg.references hlt hs (mt (List.idxOf_inj hs).mp hne)).symm
  refine ((h.arcs.filter _).map _).trans ?_
  refine List.Perm.trans (List.Perm.of_eq ?_) ((Graph.edges_eraseVertex hg r).map _).symm
  rw [List.filter_map, List.map_map, hkept]
  refine List.map_congr_left fun e he => ?_
  obtain ⟨he, hapart⟩ := List.mem_filter.mp he
  obtain ⟨hsource, htarget⟩ := hg.closed e he
  rw [Edge.touches, Bool.not_or, Bool.and_eq_true, Bool.not_eq_true', Bool.not_eq_true',
    beq_eq_false_iff_ne, beq_eq_false_iff_ne] at hapart
  rw [Function.comp_apply, Arc.move, Edge.arc, hplace _ hsource hapart.1,
    hplace _ htarget hapart.2]
  rfl

theorem vertices_eraseVertex_of_mem (hr : r ∈ g.references) :
    (g.eraseVertex r).vertices = swapErase g.vertices (g.references.idxOf r) := by
  have hfound : g.vertices.findIdx? (·.reference == r) = some (g.references.idxOf r) := by
    obtain ⟨v, hv, rfl⟩ := List.mem_map.mp hr
    have hplace : g.references.idxOf v.reference =
        g.vertices.findIdx (·.reference == v.reference) := List.findIdx_map _ _ _
    rw [hplace]
    exact List.findIdx?_eq_some_of_exists ⟨v, hv, beq_self_eq_true _⟩
  change swapEraseP (·.reference == r) g.vertices = _
  rw [swapEraseP, hfound]

omit [LawfulSlotGraph σ] in
/-- Where there is no vertex to take out, nothing changes. -/
theorem Mirrors.of_eraseVertex (h : x.Mirrors g) (hg : g.Consistent) (hr : r ∉ g.references) :
    x.Mirrors (g.eraseVertex r) := by
  have hvertices := Graph.vertices_eraseVertex_of_none (Graph.vertex?_of_not_mem hr)
  have hreferences : (g.eraseVertex r).references = g.references := by
    rw [Graph.references, hvertices]
    rfl
  have hedges : (g.eraseVertex r).edges.Perm g.edges := by
    refine (Graph.edges_eraseVertex hg r).trans (List.Perm.of_eq ?_)
    refine List.filter_eq_self.mpr fun e he => ?_
    obtain ⟨hsource, htarget⟩ := hg.closed e he
    have hne : ∀ s ∈ g.references, (s == r) = false := fun s hs =>
      beq_false_of_ne (ne_of_mem_of_not_mem hs hr)
    rw [Edge.touches, hne _ hsource, hne _ htarget]
    rfl
  refine ⟨h.built, hvertices ▸ h.vertices, ?_, ?_⟩
  · rw [hreferences]
    exact h.index
  · rw [hreferences]
    exact h.arcs.trans (hedges.map _).symm

/-- Both graphs take out the same vertex, and the same vertex moves. -/
theorem Mirrors.eraseVertex (h : x.Mirrors g) (hg : g.Consistent) (r : String) :
    (x.eraseVertex r).1 = g.vertex? r ∧ (x.eraseVertex r).2.Mirrors (g.eraseVertex r) := by
  rw [IndexedGraph.eraseVertex]
  by_cases hr : r ∈ g.references
  · have hslot : g.references.idxOf r < (SlotGraph.vertices x.slots).length := h.idxOf_lt hr
    have hvertices' := vertices_eraseVertex_of_mem hr
    have hreferences : (g.eraseVertex r).references =
        swapErase g.references (g.references.idxOf r) := by
      rw [Graph.references, hvertices', ← swapErase_map]
      rfl
    obtain ⟨slots, hremove, hvertices, harcs⟩ := LawfulSlotGraph.exists_remove h.built hslot
    have hbuilt := h.built.remove hslot hremove
    have hsame : SlotGraph.vertices slots = (g.eraseVertex r).vertices := by
      rw [hvertices, hvertices', ← h.vertices]
      rfl
    have hmoved : (swapErase g.references (g.references.idxOf r))[g.references.idxOf r]? =
        (SlotGraph.vertices slots)[g.references.idxOf r]?.map (·.reference) := by
      rw [hsame, ← List.getElem?_map, ← hreferences]
      rfl
    have hlength : (SlotGraph.vertices x.slots).length = g.references.length := by
      rw [Graph.references, List.length_map, ← h.vertices]
      rfl
    have hmirrors : ∀ index : Dict Nat, (∀ s, Dict.get? index s =
        if s ∈ swapErase g.references (g.references.idxOf r) then
          some ((swapErase g.references (g.references.idxOf r)).idxOf s) else none) →
        Mirrors ⟨slots, index⟩ (g.eraseVertex r) := by
      intro index hindex
      refine ⟨hbuilt, hsame, fun s => ?_, ?_⟩
      · rw [hreferences]
        exact hindex s
      · rw [hreferences]
        exact (hlength ▸ harcs).trans (h.arcs_moved hg hr)
    have hfound : g.vertex? r = some ((SlotGraph.vertices x.slots)[g.references.idxOf r]) := by
      rw [← h.vertex?_eq hg, vertex?, h.slot?_of_mem hr]
      exact List.getElem?_eq_getElem hslot
    have hindex := get?_moved hg.references hr h.index
    rw [hmoved] at hindex
    rw [h.slot?_of_mem hr, hfound]
    dsimp only
    rw [hremove]
    dsimp only
    cases hplace : (SlotGraph.vertices slots)[g.references.idxOf r]? with
    | none =>
      rw [hplace] at hindex
      exact ⟨rfl, hmirrors _ hindex⟩
    | some moved =>
      rw [hplace] at hindex
      exact ⟨rfl, hmirrors _ hindex⟩
  · rw [h.slot?_of_not_mem hr]
    exact ⟨(Graph.vertex?_of_not_mem hr).symm, h.of_eraseVertex hg hr⟩

def perform (x : IndexedGraph σ) : GraphChange → GraphChange.Answer × IndexedGraph σ
  | .putVertex v => (.ok none, x.putVertex v)
  | .eraseVertex r => (.ok (x.eraseVertex r).1, (x.eraseVertex r).2)
  | .putEdge source target label =>
    match x.putEdge source target label with
    | .ok x' => (.ok none, x')
    | .error error => (.error error, x)

variable (σ) in
def run (changes : List GraphChange) : List GraphChange.Answer × IndexedGraph σ :=
  GraphChange.run perform empty changes

def view (x : IndexedGraph σ) : GraphView where
  vertices := x.vertices
  edges := x.edges
  vertex? := x.vertex?
  contains := x.contains
  edge? := x.edge?
  vertexCount := x.vertexCount
  edgeCount := x.edgeCount
  inDegree := x.inDegree
  successors := x.successors
  predecessors := x.predecessors

/-- No slot is asked for that is not taken. -/
structure InBounds (x : IndexedGraph σ) : Prop where
  built : SlotGraph.Built x.slots
  index : ∀ r slot, x.slot? r = some slot → slot < x.vertexCount
  arcs : ∀ a ∈ SlotGraph.arcs x.slots, a.source < x.vertexCount ∧ a.target < x.vertexCount

theorem Mirrors.perform (h : x.Mirrors g) (hg : g.Consistent) (change : GraphChange) :
    (x.perform change).1 = (g.perform change).1 ∧
      (x.perform change).2.Mirrors (g.perform change).2 := by
  cases change with
  | putVertex v => exact ⟨rfl, h.putVertex hg v⟩
  | eraseVertex r =>
    obtain ⟨hanswer, hmirrors⟩ := h.eraseVertex hg r
    exact ⟨congrArg Except.ok hanswer, hmirrors⟩
  | putEdge u w label =>
    rw [IndexedGraph.perform, Graph.perform]
    rcases h.putEdge hg u w label with ⟨error, hx, hg'⟩ | ⟨x', g', hx, hg', hmirrors⟩
    · rw [hx, hg']
      exact ⟨rfl, h⟩
    · rw [hx, hg']
      exact ⟨rfl, hmirrors⟩

theorem Mirrors.run (h : x.Mirrors g) (hg : g.Consistent) (changes : List GraphChange) :
    (GraphChange.run IndexedGraph.perform x changes).1 =
        (GraphChange.run Graph.perform g changes).1 ∧
      (GraphChange.run IndexedGraph.perform x changes).2.Mirrors
        (GraphChange.run Graph.perform g changes).2 := by
  induction changes generalizing x g with
  | nil => exact ⟨rfl, h⟩
  | cons change rest ih =>
    obtain ⟨hanswer, hmirrors⟩ := h.perform hg change
    obtain ⟨hanswers, hmirrors'⟩ := ih hmirrors (Graph.perform_maps hg change).2.2
    exact ⟨congrArg₂ List.cons hanswer hanswers, hmirrors'⟩

/-- The order of the edges apart, both graphs answer everything alike. -/
theorem Mirrors.view_eq (h : x.Mirrors g) (hg : g.Consistent) :
    x.view = { g.view with edges := x.edges } := by
  have hvertices : x.vertexCount = g.vertexCount := congrArg List.length h.vertices
  have hedges : x.edgeCount = g.edgeCount := by
    rw [edgeCount, h.arcs.length_eq, List.length_map]
    rfl
  rw [view, h.vertices, funext (h.vertex?_eq hg), funext h.contains_eq,
    funext fun u => funext (h.edge?_eq hg u), hvertices, hedges, funext (h.inDegree_eq hg),
    funext (h.successors_eq hg), funext (h.predecessors_eq hg)]
  rfl

omit [LawfulSlotGraph σ] in
theorem Mirrors.inBounds (h : x.Mirrors g) (hg : g.Consistent) : x.InBounds where
  built := h.built
  index r slot hslot := by
    rw [h.index] at hslot
    split at hslot
    · next hr =>
      obtain rfl := Option.some.inj hslot
      exact h.idxOf_lt hr
    · cases hslot
  arcs := h.arc_bound hg

variable (σ) in
/-- **Graphs by name are two maps.** Whatever changes are made to a graph that keeps its vertices in
numbered slots, each gives the answer that the maps give, and so does each question afterwards. No
change leads to a slot that is not taken. Unless a vertex is taken out, the vertices are listed in
the order in which they first came. -/
theorem run_implements_maps (changes : List GraphChange) :
    (run σ changes).1 = (GraphMaps.run changes).1 ∧
      (run σ changes).2.view.Agrees (GraphMaps.run changes).2 ∧
      (run σ changes).2.InBounds ∧
      ((∀ v, .ok (some v) ∉ (run σ changes).1) → (run σ changes).2.view.references =
        (changes.filterMap GraphChange.reference?).eraseDups) := by
  have hempty : (IndexedGraph.empty : IndexedGraph σ).Mirrors Graph.empty := Mirrors.empty
  obtain ⟨hanswers, hmirrors⟩ := hempty.run Graph.Consistent.empty changes
  obtain ⟨hanswers', hmaps, hconsistent⟩ := Graph.run_maps Graph.Consistent.empty changes
  refine ⟨hanswers.trans hanswers', ?_, hmirrors.inBounds hconsistent, fun hkept => ?_⟩
  · have hagrees := hconsistent.view_agrees.of_edges_perm (hmirrors.edges_perm hconsistent)
    rw [← hmirrors.view_eq hconsistent, hmaps] at hagrees
    exact hagrees
  · rw [run, hanswers] at hkept
    calc (run σ changes).2.view.references
      _ = (GraphChange.run Graph.perform Graph.empty changes).2.references :=
        congrArg (List.map fun v : Vertex => v.reference) hmirrors.vertices
      _ = (changes.filterMap GraphChange.reference?).foldl recordRef [] :=
        Graph.references_run Graph.Consistent.empty hkept
      _ = (changes.filterMap GraphChange.reference?).eraseDups := foldl_recordRef _

end IndexedGraph

namespace Sample

def bareVertex (reference : String) : Vertex where
  task := .ofRef reference (.worker .simple)
  parent := .root
  position := none
  results := []
  status := none
  tally := none
  standsFor := none

/-- A vertex with an edge to itself is taken out, and then the last one, which moved to its slot. -/
def movingChanges : List GraphChange :=
  [.putVertex (bareVertex "a"), .putVertex (bareVertex "b"), .putVertex (bareVertex "c"),
    .putEdge "a" "a" ⟨false, none⟩, .putEdge "a" "c" ⟨false, none⟩, .putEdge "c" "b" ⟨false, none⟩,
    .putEdge "b" "b" ⟨false, none⟩, .putEdge "b" "d" ⟨false, none⟩, .eraseVertex "a",
    .putEdge "c" "b" ⟨true, none⟩, .putVertex (bareVertex "d"), .eraseVertex "c"]

end Sample

theorem IndexedGraph.run_implements_maps_of_moves :
    (run Slots Sample.movingChanges).1 = (GraphMaps.run Sample.movingChanges).1 ∧
      (run Slots Sample.movingChanges).2.view.Agrees (GraphMaps.run Sample.movingChanges).2 ∧
      (run Slots Sample.movingChanges).2.InBounds ∧
      (run Slots Sample.movingChanges).2.view.references = ["d", "b"] ∧
      (run Slots Sample.movingChanges).2.view.edges = [("b", "b", ⟨false, none⟩)] := by
  obtain ⟨hanswers, hagrees, hbounds, -⟩ := run_implements_maps Slots Sample.movingChanges
  exact ⟨hanswers, hagrees, hbounds, by decide +kernel, by decide +kernel⟩

end Flowchart
