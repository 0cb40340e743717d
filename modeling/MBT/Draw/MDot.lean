import MBT.Support.Exec

/-!
# Draw — MDot

A graph as it is handed to the drawing tool: attributes by the name of a node, and the attributes
of every edge by the text `begin -> end`.

* `edgeEntries_addEdge`: an edge is one entry more, also where its text is already there.
-/

namespace MBT
open Exec

/-- The class `MDot`: the nodes and the edges of a drawing, with their attributes. -/
structure MDot where
  nodeMap : HashMap String String
  edgeMap : HashMap String (List String)

namespace MDot

/-- The constructor of `MDot`. -/
def new : MDot := ⟨∅, ∅⟩

/-- Adds a node; a second one of the name replaces it. -/
def addNode (dot : MDot) (nodeName nodeShape nodeStyle nodeColor : String) : MDot :=
  let nodeDetail := "[style=" ++ nodeStyle ++ ",shape=" ++ nodeShape ++ ",color=" ++ nodeColor ++ "]"
  { dot with nodeMap := dot.nodeMap.insert nodeName nodeDetail }

/-- The line of an edge in a dot file, up to its attributes. -/
def edgeDesc (beginNode edgeType endNode : String) : String :=
  beginNode ++ " " ++ edgeType ++ " " ++ endNode

/-- The attributes of an edge. -/
def edgeDetail (edgeLabel edgeColor edgeStyle : String) : String :=
  "[label=\"" ++ edgeLabel ++ "\",color=" ++ edgeColor ++ ",style=" ++ edgeStyle ++ "]"

/-- Adds an edge behind those that join the same nodes. -/
def addEdge (dot : MDot) (beginNode endNode edgeLabel edgeType edgeColor edgeStyle : String) : MDot :=
  let desc := edgeDesc beginNode edgeType endNode
  let details := (dot.edgeMap.lookup desc).getD []
  { dot with edgeMap := dot.edgeMap.insert desc (details ++ [edgeDetail edgeLabel edgeColor edgeStyle]) }

/-- Leaves no nodes. -/
def clearNodeMap (dot : MDot) : MDot := { dot with nodeMap := ∅ }

/-- Leaves no edges. -/
def clearEdgeMap (dot : MDot) : MDot := { dot with edgeMap := ∅ }

/-- The edges of the drawing, one line of the dot file each. -/
def edgeEntries (dot : MDot) : List (String × String) :=
  dot.edgeMap.entries.flatMap fun p => p.2.map fun detail => (p.1, detail)

/-- One line more: the lines that are there keep their text. -/
theorem edgeEntries_addEdge (dot : MDot) (beginNode endNode edgeLabel edgeType edgeColor edgeStyle :
    String) :
    (dot.addEdge beginNode endNode edgeLabel edgeType edgeColor edgeStyle).edgeEntries.Perm
      ((edgeDesc beginNode edgeType endNode, edgeDetail edgeLabel edgeColor edgeStyle) ::
        dot.edgeEntries) := by
  rw [addEdge]
  generalize edgeDesc beginNode edgeType endNode = desc
  generalize edgeDetail edgeLabel edgeColor edgeStyle = detail
  rw [edgeEntries, edgeEntries, AList.entries_insert, List.flatMap_cons, List.map_append,
    List.map_singleton]
  dsimp only
  cases hlookup : dot.edgeMap.lookup desc with
  | none =>
    have hnew : desc ∉ dot.edgeMap.entries.keys := AList.lookup_eq_none.mp hlookup
    rw [List.kerase_of_notMem_keys hnew]
    exact List.Perm.refl _
  | some details =>
    have hold : desc ∈ dot.edgeMap.entries.keys :=
      AList.lookup_isSome.mp (Option.isSome_iff_exists.mpr ⟨details, hlookup⟩)
    obtain ⟨details', l₁, l₂, hnot, hentries, herase⟩ := List.exists_of_kerase hold
    have hsame : details' = details := by
      have hfound : details' ∈ dot.edgeMap.lookup desc :=
        AList.mem_lookup_iff.mpr (hentries ▸ List.mem_append_right l₁ List.mem_cons_self)
      rw [hlookup] at hfound
      exact (Option.mem_some.mp hfound).symm
    rw [herase, hentries, hsame, List.flatMap_append, List.flatMap_append, List.flatMap_cons]
    dsimp only [Option.getD_some]
    -- the new line is moved to the front, then the lines of the text behind those before it
    rw [List.append_assoc, List.singleton_append]
    refine List.perm_middle.trans (List.Perm.cons _ ?_)
    exact List.perm_append_comm_assoc _ _ _

end MDot

end MBT
