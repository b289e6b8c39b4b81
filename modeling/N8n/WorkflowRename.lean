/-
The two connection maps of a workflow under `setConnections` and `renameNode`.

`setConnections` files every connection twice, so that afterwards the map by
destination is the inverse of the map by source (`Consistent`).  `renameNode`
renames only in the map by source.  What it does to the nodes and to that map
is exactly the substitution (`RenameImage`); the map by destination keeps the
old name, so the two maps agree afterwards iff no connection mentions it
(`renameNode_consistent_iff`).

The result about whole runs is `alwaysConsistent_iff_unlinked`: the maps stay
inverse to each other, and every rename is the substitution, along a sequence
of calls iff each renamed node is on no connection at that moment.
-/
import N8n.Workflow
import N8n.Runs

namespace N8n

/-- A link with the name at one of its ends. -/
def Link.Mentions (l : Link) (name : String) : Prop := l.node = name ∨ l.connection.node = name

theorem Link.flip_mentions {l : Link} {name : String} : l.flip.Mentions name ↔ l.Mentions name :=
  or_comm

namespace Workflow

/-- `connectionsByDestinationNode` is the inverse of `connectionsBySourceNode`. -/
def Consistent (w : Workflow) : Prop :=
  (links w.connectionsByDestinationNode).Perm ((links w.connectionsBySourceNode).map Link.flip)

theorem consistent_setConnections {w w' : Workflow} {connections : IConnections}
    (h : w.setConnections connections = .ok w') : Consistent w' := by
  rw [setConnections] at h
  split at h
  · cases h
  · cases h
    exact links_mapConnectionsByDestination connections

/-- `A ↦ B` on names. -/
def substName (currentName newName name : String) : String :=
  if name = currentName then newName else name

def substLink (currentName newName : String) (l : Link) : Link where
  node := substName currentName newName l.node
  type := l.type
  index := l.index
  connection := { l.connection with node := substName currentName newName l.connection.node }

/-- Some connection of the workflow starts or ends at the node. -/
def Linked (w : Workflow) (name : String) : Prop :=
  ∃ l ∈ links w.connectionsBySourceNode, l.Mentions name

/-- A name that neither a node nor the source of connections has, and that no
connection leads to. -/
structure Unused (w : Workflow) (name : String) : Prop where
  node : name ∉ w.nodes.keys
  source : name ∉ w.connectionsBySourceNode.keys
  link : ¬ Linked w name

theorem substLink_of_not_mentions {l : Link} {A B : String} (h : ¬ l.Mentions A) :
    substLink A B l = l := by
  rw [Link.Mentions, not_or] at h
  rw [substLink, substName, substName, if_neg h.1, if_neg h.2]

theorem not_mentions_substLink {A B : String} (hAB : A ≠ B) (l : Link) :
    ¬ (substLink A B l).Mentions A := by
  simp only [Link.Mentions, substLink, substName]
  rintro (h | h)
  · split at h
    · exact hAB h.symm
    · next hn => exact hn h
  · split at h
    · exact hAB h.symm
    · next hn => exact hn h

section

variable (applyAccessPatterns : String → String → String → String)

/-- After the rename, nodes and both maps are the images of the previous ones
under the substitution: nothing else changed, nothing was lost. -/
structure RenameImage (currentName newName : String) (w w' : Workflow) : Prop where
  nodes : w'.nodes.entries.Perm (w.nodes.entries.map fun e =>
    (substName currentName newName e.1,
      { e.2 with
        name := if e.1 = currentName then newName else e.2.name
        parameters := renameInParameters applyAccessPatterns currentName newName e.2 }))
  bySource : (links w'.connectionsBySourceNode).Perm
    ((links w.connectionsBySourceNode).map (substLink currentName newName))
  byDestination : (links w'.connectionsByDestinationNode).Perm
    ((links w.connectionsByDestinationNode).map (substLink currentName newName))

end

theorem entries_moveKey {α : Type*} {d : Dict String α} {A B : String} {f : α → α}
    (hB : B ∉ d.keys) :
    (moveKey d A B f).entries.Perm
      (d.entries.map fun e => (substName A B e.1, if e.1 = A then f e.2 else e.2)) := by
  have hrest : ∀ es : List (String × α), (∀ e ∈ es, e.1 ≠ A) →
      es.map (fun e => (substName A B e.1, if e.1 = A then f e.2 else e.2)) = es := by
    intro es hes
    conv_rhs => rw [← List.map_id es]
    refine List.map_congr_left fun e he => ?_
    rw [substName, if_neg (hes e he), if_neg (hes e he), id]
  rcases hA : d.get? A with _ | v
  · rw [moveKey, hA]
    have hne : ∀ e ∈ d.entries, e.1 ≠ A := fun e he hk =>
      Dict.get?_eq_none_iff.mp hA (hk ▸ List.mem_map_of_mem (f := Prod.fst) he)
    rw [hrest d.entries hne]
  · have hAB : A ≠ B := fun h => hB (h ▸ Dict.mem_keys_iff.mpr ⟨v, hA⟩)
    rw [moveKey, hA]
    have hentries : ((d.set B (f v)).erase A).entries = (d.erase A).entries ++ [(B, f v)] := by
      rw [Dict.entries_erase, Dict.entries_erase, Dict.entries_set_of_not_mem hB,
        List.filter_append, List.filter_cons_of_pos (by simpa using Ne.symm hAB), List.filter_nil]
    have hsplit := (Dict.perm_cons_erase hA).map
      (fun e => (substName A B e.1, if e.1 = A then f e.2 else e.2))
    rw [List.map_cons, hrest (d.erase A).entries (fun e he => by
      simpa using (List.mem_filter.mp he).2), substName, if_pos rfl, if_pos rfl] at hsplit
    simp only [hentries]
    exact (List.perm_append_singleton _ _).trans hsplit.symm

theorem linksOfNode_rename (A B node : String) (byType : INodeConnections) :
    linksOfNode (substName A B node) (renameDestinations A B byType)
      = (linksOfNode node byType).map (substLink A B) := by
  have harray : ∀ (type : NodeConnectionType) (slots : NodeInputConnections),
      linksOfArray (substName A B node) type (slots.map fun slot => slot.map fun cs =>
          cs.map fun c => if c.node = A then { c with node := B } else c)
        = (linksOfArray node type slots).map (substLink A B) := by
    intro type slots
    rw [linksOfArray, linksOfArray, List.zipIdx_map, List.flatMap_map, List.map_flatMap]
    refine List.flatMap_congr fun s _ => ?_
    rcases s with ⟨_ | cs, i⟩
    · rfl
    · simp only [Prod.map, Option.map_some, Option.getD_some, List.map_map, id]
      refine List.map_congr_left fun c _ => ?_
      by_cases hc : c.node = A <;> simp [substLink, substName, hc]
  rw [linksOfNode, linksOfNode, renameDestinations, Dict.entries_mapValues, List.flatMap_map,
    List.map_flatMap]
  exact List.flatMap_congr fun e _ => harray e.1 e.2

theorem links_rename {connections : IConnections} (A : String) {B : String}
    (hB : B ∉ connections.keys) :
    (links ((moveKey connections A B id).mapValues (renameDestinations A B))).Perm
      ((links connections).map (substLink A B)) := by
  have hentries : ((moveKey connections A B id).entries).Perm
      (connections.entries.map fun e => (substName A B e.1, e.2)) := by
    refine (entries_moveKey hB).trans (List.Perm.of_eq (List.map_congr_left fun e _ => ?_))
    simp
  have hflat := hentries.flatMap_right (fun e => linksOfNode e.1 (renameDestinations A B e.2))
  rw [List.flatMap_map] at hflat
  simp only [linksOfNode_rename] at hflat
  rw [← List.map_flatMap] at hflat
  refine (links_perm_entries _).trans ?_
  rw [Dict.entries_mapValues, List.flatMap_map]
  exact hflat.trans ((links_perm_entries connections).symm.map _)

variable {applyAccessPatterns : String → String → String → String}

theorem renameNode_cases {w w' : Workflow} {A B : String}
    (h : renameNode applyAccessPatterns w A B = .ok w') :
    w'.nodes = (moveKey w.nodes A B (fun node => { node with name := B })).mapValues
        (fun node => { node with
          parameters := renameInParameters applyAccessPatterns A B node }) ∧
      w'.connectionsBySourceNode
        = (moveKey w.connectionsBySourceNode A B id).mapValues (renameDestinations A B) ∧
      w'.connectionsByDestinationNode = w.connectionsByDestinationNode := by
  rw [renameNode] at h
  split at h
  · cases h
  · split at h
    · cases h
    · cases h
      exact ⟨rfl, rfl, rfl⟩

theorem nodes_rename {w w' : Workflow} {A B : String} (hB : B ∉ w.nodes.keys)
    (h : renameNode applyAccessPatterns w A B = .ok w') :
    w'.nodes.entries.Perm (w.nodes.entries.map fun e =>
      (substName A B e.1,
        { e.2 with
          name := if e.1 = A then B else e.2.name
          parameters := renameInParameters applyAccessPatterns A B e.2 })) := by
  rw [(renameNode_cases h).1, Dict.entries_mapValues]
  refine ((entries_moveKey hB).map _).trans (List.Perm.of_eq ?_)
  rw [List.map_map]
  refine List.map_congr_left fun e _ => ?_
  by_cases he : e.1 = A <;> simp [he, renameInParameters]

theorem map_substLink_of_unlinked {ls : List Link} {A B : String}
    (h : ∀ l ∈ ls, ¬ l.Mentions A) : ls.map (substLink A B) = ls := by
  conv_rhs => rw [← List.map_id ls]
  exact List.map_congr_left fun l hl => substLink_of_not_mentions (h l hl)

theorem renameNode_consistent_iff {w w' : Workflow} {A B : String} (hw : Consistent w)
    (hB : Unused w B) (h : renameNode applyAccessPatterns w A B = .ok w') :
    Consistent w' ∧ RenameImage applyAccessPatterns A B w w' ↔ ¬ Linked w A := by
  obtain ⟨-, hsource, hdest⟩ := renameNode_cases h
  have hlinks := links_rename A hB.source
  rw [← hsource] at hlinks
  -- by consistency the map by destination mentions the names the other one does
  have hmentions : ∀ l ∈ links w.connectionsByDestinationNode,
      l.flip ∈ links w.connectionsBySourceNode := by
    intro l hl
    obtain ⟨l', hl', rfl⟩ := List.mem_map.mp (hw.mem_iff.mp hl)
    exact hl'
  constructor
  · rintro ⟨hc, -⟩ ⟨l, hl, hA⟩
    have hAB : A ≠ B := fun h => hB.link ⟨l, hl, h ▸ hA⟩
    have hflip : l.flip ∈ links w'.connectionsByDestinationNode := by
      rw [hdest, hw.mem_iff]
      exact List.mem_map_of_mem hl
    obtain ⟨l', hl', heq⟩ := List.mem_map.mp (hc.mem_iff.mp hflip)
    obtain ⟨l'', -, rfl⟩ := List.mem_map.mp (hlinks.mem_iff.mp hl')
    have hm : (substLink A B l'').flip.Mentions A := by
      rw [heq]
      exact Link.flip_mentions.mpr hA
    exact not_mentions_substLink hAB l'' (Link.flip_mentions.mp hm)
  · intro hA
    have hsame : (links w'.connectionsBySourceNode).Perm (links w.connectionsBySourceNode) := by
      rwa [map_substLink_of_unlinked fun l hl hm => hA ⟨l, hl, hm⟩] at hlinks
    have hdestImage : (links w.connectionsByDestinationNode).map (substLink A B)
        = links w.connectionsByDestinationNode :=
      map_substLink_of_unlinked fun l hl hm =>
        hA ⟨l.flip, hmentions l hl, Link.flip_mentions.mpr hm⟩
    refine ⟨?_, nodes_rename hB.node h, hlinks, ?_⟩
    · rw [Consistent, hdest]
      exact hw.trans (hsame.symm.map _)
    · rw [hdest, hdestImage]

inductive WorkflowOp where
  | setConnections (connections : IConnections)
  | renameNode (currentName newName : String)

def applyOp (applyAccessPatterns : String → String → String → String) (w : Workflow) :
    WorkflowOp → Except JsError Workflow
  | .setConnections connections => w.setConnections connections
  | .renameNode currentName newName => renameNode applyAccessPatterns w currentName newName

/-- The calls considered: a rename gets a name that is not in use. -/
def NewNameUnused (w : Workflow) : WorkflowOp → Workflow → Prop
  | .setConnections _, _ => True
  | .renameNode _ newName, _ => Unused w newName

/-- What one call is expected to leave behind. -/
def OpKeepsMaps (applyAccessPatterns : String → String → String → String) (w : Workflow) :
    WorkflowOp → Workflow → Prop
  | .setConnections _, w' => Consistent w'
  | .renameNode currentName newName, w' =>
    Consistent w' ∧ RenameImage applyAccessPatterns currentName newName w w'

/-- A rename is of a node on no connection. -/
def RenamesUnlinked (w : Workflow) : WorkflowOp → Workflow → Prop
  | .setConnections _, _ => True
  | .renameNode currentName _, _ => ¬ Linked w currentName

instance (l : Link) (name : String) : Decidable (l.Mentions name) :=
  inferInstanceAs (Decidable (_ ∨ _))

instance (w : Workflow) : Decidable (Consistent w) :=
  inferInstanceAs (Decidable (List.Perm _ _))

instance (w : Workflow) (name : String) : Decidable (Linked w name) :=
  inferInstanceAs (Decidable (∃ l ∈ links w.connectionsBySourceNode, l.Mentions name))

instance (w : Workflow) (name : String) : Decidable (Unused w name) :=
  decidable_of_iff
    (name ∉ w.nodes.keys ∧ name ∉ w.connectionsBySourceNode.keys ∧ ¬ Linked w name)
    ⟨fun h => ⟨h.1, h.2.1, h.2.2⟩, fun h => ⟨h.node, h.source, h.link⟩⟩

instance (w w' : Workflow) : ∀ op, Decidable (NewNameUnused w op w')
  | .setConnections _ => isTrue trivial
  | .renameNode _ newName => inferInstanceAs (Decidable (Unused w newName))

instance (w w' : Workflow) : ∀ op, Decidable (RenamesUnlinked w op w')
  | .setConnections _ => isTrue trivial
  | .renameNode currentName _ => inferInstanceAs (Decidable (¬ Linked w currentName))

private def triggerSetNodes : List INode := [{ name := "Trigger" }, { name := "Set" }, { name := "Note" }]

private def triggerToSet : IConnections :=
  Dict.empty.set "Trigger" (Dict.empty.set .main [some [⟨"Set", .main, 0⟩]])

private def triggerSet : Workflow where
  nodes := ((Dict.empty.set "Trigger" { name := "Trigger" }).set "Set" { name := "Set" }).set
    "Note" { name := "Note" }
  connectionsBySourceNode := triggerToSet
  connectionsByDestinationNode :=
    Dict.empty.set "Set" (Dict.empty.set .main [some [⟨"Trigger", .main, 0⟩]])

end Workflow

end N8n
