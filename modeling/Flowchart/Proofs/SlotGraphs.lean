import Flowchart.Graph.Slots
import Flowchart.Proofs.SwapErasure

/-!
# Laws of slot graphs

What is relied on in a graph with numbered slots: new vertices come last, the last vertex moves into
a slot that is freed, and an arc is kept with the vertices that it joins. In which order arcs are
listed once some were taken out is left open. Slots in lists keep these laws.
-/

namespace Flowchart

def Arc.touches (a : Arc) (slot : Nat) : Bool := a.source == slot || a.target == slot

namespace SlotGraph

variable {σ : Type} [SlotGraph σ]

/-- The graphs that the operations make where they are given slots that are taken. -/
inductive Built : σ → Prop
  | empty : Built empty
  | append {s : σ} (h : Built s) (v : Vertex) : Built (append s v).1
  | replace {s : σ} (h : Built s) {slot : Nat} (hslot : slot < (vertices s).length) (v : Vertex) :
    Built (replace s slot v)
  | remove {s s' : σ} (h : Built s) {slot : Nat} (hslot : slot < (vertices s).length) {v : Vertex}
    (hremove : remove? s slot = some (v, s')) : Built s'
  | link {s : σ} (h : Built s) {source target : Nat} (hsource : source < (vertices s).length)
    (htarget : target < (vertices s).length) (label : EdgeLabel) :
    Built (link s source target label)

/-- The arcs `after` are the arcs `before` with an arc of this label between two slots, which takes
the place of one that joined them already. -/
def Linked (source target : Nat) (label : EdgeLabel) (before after : List Arc) : Prop :=
  (∀ a ∈ before, a.joins source target = false) ∧ after = before ++ [⟨source, target, label⟩] ∨
    ∃ front a back, before = front ++ a :: back ∧ a.joins source target = true ∧
      after = front ++ { a with label := label } :: back

end SlotGraph

open SlotGraph in
class LawfulSlotGraph (σ : Type) [SlotGraph σ] : Prop where
  vertices_empty : vertices (empty : σ) = []
  arcs_empty : arcs (empty : σ) = []
  append_snd {s : σ} (h : Built s) (v : Vertex) : (append s v).2 = (vertices s).length
  vertices_append {s : σ} (h : Built s) (v : Vertex) :
    vertices (append s v).1 = vertices s ++ [v]
  arcs_append {s : σ} (h : Built s) (v : Vertex) : arcs (append s v).1 = arcs s
  vertices_replace {s : σ} (h : Built s) {slot : Nat} (hslot : slot < (vertices s).length)
    (v : Vertex) : vertices (replace s slot v) = (vertices s).set slot v
  arcs_replace {s : σ} (h : Built s) {slot : Nat} (hslot : slot < (vertices s).length)
    (v : Vertex) : arcs (replace s slot v) = arcs s
  exists_remove {s : σ} (h : Built s) {slot : Nat} (hslot : slot < (vertices s).length) :
    ∃ s', remove? s slot = some ((vertices s)[slot], s') ∧
      vertices s' = swapErase (vertices s) slot ∧
      (arcs s').Perm (((arcs s).filter fun a => !a.touches slot).map
        (Arc.move ((vertices s).length - 1) slot))
  vertices_link {s : σ} (h : Built s) {source target : Nat} (hsource : source < (vertices s).length)
    (htarget : target < (vertices s).length) (label : EdgeLabel) :
    vertices (link s source target label) = vertices s
  arcs_link {s : σ} (h : Built s) {source target : Nat} (hsource : source < (vertices s).length)
    (htarget : target < (vertices s).length) (label : EdgeLabel) :
    Linked source target label (arcs s) (arcs (link s source target label))
  label?_of_some {s : σ} (h : Built s) {source target : Nat} {label : EdgeLabel}
    (hlabel : label? s source target = some label) :
    ∃ a ∈ arcs s, a.joins source target = true ∧ a.label = label
  label?_of_none {s : σ} (h : Built s) {source target : Nat}
    (hlabel : label? s source target = none) : ∀ a ∈ arcs s, a.joins source target = false
  leaving_perm {s : σ} (h : Built s) (slot : Nat) :
    (leaving s slot).Perm ((arcs s).filter (·.source == slot))
  entering_perm {s : σ} (h : Built s) (slot : Nat) :
    (entering s slot).Perm ((arcs s).filter (·.target == slot))

namespace Slots

variable {s s' : Slots} {slot : Nat} {v : Vertex}

/-- The links are numbered in the order in which they were made. -/
structure Numbered (s : Slots) : Prop where
  nodup : (s.links.map (·.serial)).Nodup
  bound : ∀ l ∈ s.links, l.serial < s.linked

theorem unlink_perm (h : s.Numbered) (p : Link → Bool) :
    (s.unlink p).Perm (s.links.filter fun l => !p l) := foldl_range_perm p h.nodup h.bound

theorem Numbered.unlink (h : s.Numbered) (p : Link → Bool) :
    Numbered { s with links := s.unlink p } where
  nodup := ((unlink_perm h p).map _).nodup_iff.mpr ((List.filter_sublist.map _).nodup h.nodup)
  bound l hl := h.bound l (List.mem_of_mem_filter ((unlink_perm h p).mem_iff.mp hl))

/-- The link with its arc where the last vertex has moved. -/
def move (s : Slots) (slot : Nat) (l : Link) : Link :=
  { l with toArc := l.move (s.vertices.length - 1) slot }

theorem remove?_eq_some (h : s.Numbered) (hremove : s.remove? slot = some (v, s')) :
    s.vertices[slot]? = some v ∧ s'.vertices = swapErase s.vertices slot ∧
      s'.linked = s.linked ∧
        s'.links.Perm ((s.links.filter fun l => !l.touches slot).map (s.move slot)) := by
  obtain ⟨v', hv', heq⟩ := Option.map_eq_some_iff.mp hremove
  obtain ⟨rfl, rfl⟩ := Prod.mk.inj heq
  refine ⟨hv', rfl, rfl, List.Perm.map _ ?_⟩
  refine (unlink_perm (h.unlink _) _).trans (((unlink_perm h _).filter _).trans ?_)
  rw [List.filter_filter]
  refine List.Perm.of_eq (List.filter_congr fun l _ => ?_)
  rw [Arc.touches, Bool.not_or, Bool.and_comm]

theorem modify_middle {α : Type} (front back : List α) (a : α) (f : α → α) :
    (front ++ a :: back).modify front.length f = front ++ f a :: back := by
  induction front with
  | nil => rfl
  | cons b front ih => exact congrArg (b :: ·) ih

theorem link_cases (s : Slots) (source target : Nat) (label : EdgeLabel) :
    (∀ l ∈ s.links, l.joins source target = false) ∧ s.link source target label =
        { s with
          links := s.links ++ [⟨⟨source, target, label⟩, s.linked⟩]
          linked := s.linked + 1 } ∨
      ∃ front l back, s.links = front ++ l :: back ∧ l.joins source target = true ∧
        s.link source target label =
          { s with links := front ++ { l with label := label } :: back } := by
  unfold link
  split
  · next i hi =>
    obtain ⟨hlt, hjoins, -⟩ := List.findIdx?_eq_some_iff_getElem.mp hi
    obtain ⟨front, back, heq, rfl, -⟩ := split_of_getElem? (List.getElem?_eq_getElem hlt)
    refine Or.inr ⟨front, _, back, heq, hjoins, ?_⟩
    generalize s.links[front.length] = l at heq
    rw [heq, modify_middle]
  · next hnone => exact Or.inl ⟨List.findIdx?_eq_none_iff.mp hnone, rfl⟩

/-- Each operation keeps the numbers apart. -/
theorem numbered_of_built (h : SlotGraph.Built s) : s.Numbered := by
  induction h with
  | empty => exact ⟨List.nodup_nil, nofun⟩
  | append _ _ ih => exact ⟨ih.nodup, ih.bound⟩
  | replace _ _ _ ih => exact ⟨ih.nodup, ih.bound⟩
  | @remove s s' _ slot _ v hremove ih =>
    obtain ⟨-, -, hlinked, hlinks⟩ := remove?_eq_some ih hremove
    have hserials : ((s.links.filter fun l => !l.touches slot).map (s.move slot)).map (·.serial) =
        (s.links.filter fun l => !l.touches slot).map (·.serial) := List.map_map
    refine ⟨(hlinks.map _).nodup_iff.mpr ?_, fun l hl => ?_⟩
    · rw [hserials]
      exact (List.filter_sublist.map _).nodup ih.nodup
    · obtain ⟨l', hl', rfl⟩ := List.mem_map.mp (hlinks.mem_iff.mp hl)
      rw [hlinked]
      exact ih.bound l' (List.mem_of_mem_filter hl')
  | @link s _ source target _ _ label ih =>
    change Numbered (s.link source target label)
    rcases link_cases s source target label with ⟨-, heq⟩ | ⟨front, l, back, hlinks, -, heq⟩
    · have hnew : s.linked ∉ s.links.map (·.serial) := by
        intro hmem
        obtain ⟨l, hl, hserial⟩ := List.mem_map.mp hmem
        exact absurd (ih.bound l hl) (by omega)
      rw [heq]
      refine ⟨?_, fun l hl => ?_⟩
      · rw [List.map_append, List.map_singleton, ← List.concat_eq_append, List.nodup_concat]
        exact ⟨hnew, ih.nodup⟩
      · rcases List.mem_append.mp hl with hl | hl
        · exact Nat.lt_succ_of_lt (ih.bound l hl)
        · rw [List.mem_singleton.mp hl]
          exact Nat.lt_succ_self s.linked
    · have hnodup := ih.nodup
      have hbound := ih.bound
      rw [hlinks] at hnodup hbound
      rw [heq]
      refine ⟨?_, fun l' hl' => ?_⟩
      · rw [List.map_append, List.map_cons] at hnodup ⊢
        exact hnodup
      · rcases List.mem_append.mp hl' with hl' | hl'
        · exact hbound l' (List.mem_append_left _ hl')
        · rcases List.mem_cons.mp hl' with rfl | hl'
          · exact hbound l (List.mem_append_right _ List.mem_cons_self)
          · exact hbound l' (List.mem_append_right _ (List.mem_cons_of_mem _ hl'))

instance : LawfulSlotGraph Slots where
  vertices_empty := rfl
  arcs_empty := rfl
  append_snd _ _ := rfl
  vertices_append _ _ := rfl
  arcs_append _ _ := rfl
  vertices_replace _ _ _ _ := rfl
  arcs_replace _ _ _ _ := rfl
  exists_remove {s} h slot hslot := by
    change slot < s.vertices.length at hslot
    obtain ⟨s', hremove⟩ : ∃ s', s.remove? slot = some (s.vertices[slot], s') := by
      rw [remove?, List.getElem?_eq_getElem hslot]
      exact ⟨_, rfl⟩
    obtain ⟨-, hvertices, -, hlinks⟩ := remove?_eq_some (numbered_of_built h) hremove
    have harcs : ((s.links.map (·.toArc)).filter fun a => !a.touches slot).map
        (Arc.move (s.vertices.length - 1) slot) =
          ((s.links.filter fun l => !l.touches slot).map (s.move slot)).map (·.toArc) := by
      rw [List.filter_map, List.map_map, List.map_map]
      rfl
    refine ⟨s', hremove, hvertices, ?_⟩
    exact harcs ▸ hlinks.map (·.toArc)
  vertices_link {s} _ source target _ _ label := by
    change (s.link source target label).vertices = s.vertices
    rcases link_cases s source target label with ⟨-, heq⟩ | ⟨front, l, back, -, -, heq⟩ <;> rw [heq]
  arcs_link {s} _ source target _ _ label := by
    change SlotGraph.Linked source target label (s.links.map (·.toArc))
      ((s.link source target label).links.map (·.toArc))
    rcases link_cases s source target label with
      ⟨hnone, heq⟩ | ⟨front, l, back, hlinks, hjoins, heq⟩
    · refine Or.inl ⟨List.forall_mem_map.mpr hnone, ?_⟩
      rw [heq, List.map_append]
      rfl
    · refine Or.inr ⟨front.map (·.toArc), l.toArc, back.map (·.toArc), ?_, hjoins, ?_⟩
      · rw [hlinks, List.map_append]
        rfl
      · rw [heq, List.map_append]
        rfl
  label?_of_some {s} _ source target label hlabel := by
    obtain ⟨l, hfound, rfl⟩ := Option.map_eq_some_iff.mp hlabel
    have hjoins := List.find?_some (p := fun l : Link => l.joins source target) hfound
    exact ⟨l.toArc, List.mem_map_of_mem (List.mem_of_find?_eq_some hfound), hjoins, rfl⟩
  label?_of_none {s} _ source target hlabel := by
    have hnone := List.find?_eq_none.mp (Option.map_eq_none_iff.mp hlabel)
    exact List.forall_mem_map.mpr fun l hl => Bool.not_eq_true _ ▸ hnone l hl
  leaving_perm _ _ := List.Perm.refl _
  entering_perm _ _ := List.Perm.refl _

end Slots

end Flowchart
