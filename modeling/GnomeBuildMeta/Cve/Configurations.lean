import GnomeBuildMeta.Containers.Nested
import GnomeBuildMeta.Control.Except
import GnomeBuildMeta.Cve.Feed

/-!
# Configurations

The configuration of a vulnerability is a tree, whose nodes hold entries of
products, further nodes, or both.  extract_product_vulns_sub looks at the nodes
below a node only if the node has no list of entries, be it an empty one.
-/

namespace GnomeBuildMeta.Cve

open Containers Control

/-- An entry of a `cpe_match` list. -/
structure CpeMatch where
  vulnerable : Bool
  cpe23Uri : Text

abbrev Configuration := Nested CpeMatch

/-- The row for an entry that is marked vulnerable and names vendor, product and version. -/
def CpeMatch.product (cveId : Json) (cpe : CpeMatch) : Option ProductVuln :=
  if cpe.vulnerable then
    match cpe.cpe23Uri.splitOn ':' with
    | _ :: _ :: _ :: vendor :: name :: version :: _ => some ⟨cveId, vendor, name, version⟩
    | _ => none
  else none

/-- How an entry stands in a feed. -/
inductive CpeMatch.Written (cpe : CpeMatch) : Json → Prop where
  | object {entries : List (Text × Json)} {vulnerable : Json}
      (marked : entries.lookup "vulnerable".toList = some vulnerable)
      (truth : vulnerable.truthy = cpe.vulnerable)
      (uri : entries.lookup "cpe23Uri".toList = some (.string cpe.cpe23Uri)) :
      Written cpe (.object entries)

/-- How a node stands in a feed, with either list, both or none, among other entries. -/
inductive NodeWritten : Configuration → Json → Prop where
  | object {own : Option (List (CpeMatch × Json))} {children : Option (List (Configuration × Json))}
      {entries : List (Text × Json)}
      (cpeMatch : entries.lookup "cpe_match".toList = own.map fun pairs => .array (pairs.map Prod.snd))
      (below : entries.lookup "children".toList =
        children.map fun pairs => .array (pairs.map Prod.snd))
      (matches' : ∀ pair ∈ own.getD [], pair.1.Written pair.2)
      (nodes : ∀ pair ∈ children.getD [], NodeWritten pair.1 pair.2) :
      NodeWritten (.node (own.map (List.map Prod.fst)) ((children.getD []).map Prod.fst))
        (.object entries)

variable {cveId : Json}

theorem row_of_fields (fields : List Text) :
    (match (fields.drop 3).take 3 with
      | [vendor, name, version] => return [⟨cveId, vendor, name, version⟩]
      | _ => return [] : Except Error (List ProductVuln)) =
    .ok (match fields with
      | _ :: _ :: _ :: vendor :: name :: version :: _ => some (⟨cveId, vendor, name, version⟩ : ProductVuln)
      | _ => none).toList := by
  rcases fields with _ | ⟨a, _ | ⟨b, _ | ⟨c, _ | ⟨vendor, _ | ⟨name, _ | ⟨version, rest⟩⟩⟩⟩⟩⟩ <;> rfl

theorem extractCpeMatch_of_written {cpe : CpeMatch} {json : Json} (written : cpe.Written json) :
    extractCpeMatch cveId json = .ok (cpe.product cveId).toList := by
  cases written with
  | @object entries vulnerable marked truth uri =>
      have first : Json.item "vulnerable".toList (.object entries) = .ok vulnerable := by
        rw [Json.item, marked]
      have second : Json.item "cpe23Uri".toList (.object entries) = .ok (.string cpe.cpe23Uri) := by
        rw [Json.item, uri]
      rw [extractCpeMatch, first, CpeMatch.product, ← truth]
      change (if vulnerable.truthy = true then _ else _) = _
      cases vulnerable.truthy with
      | false => rfl
      | true =>
          rw [second]
          exact row_of_fields (cpe.cpe23Uri.splitOn ':')

theorem extractCpeMatches_of_written {pairs : List (CpeMatch × Json)}
    (written : ∀ pair ∈ pairs, pair.1.Written pair.2) :
    extractCpeMatches cveId (.array (pairs.map Prod.snd)) =
      .ok ((pairs.map Prod.fst).filterMap (CpeMatch.product cveId)) := by
  have rows : (pairs.map Prod.snd).mapM (extractCpeMatch cveId) =
      .ok (pairs.map fun pair => (pair.1.product cveId).toList) := by
    refine mapM_ok_iff.mpr ?_
    rw [List.forall₂_map_left_iff, List.forall₂_map_right_iff, List.forall₂_same]
    exact fun pair inside => extractCpeMatch_of_written (written pair inside)
  change ((pairs.map Prod.snd).mapM (extractCpeMatch cveId) >>= fun found => .ok found.flatten) = _
  rw [rows]
  change Except.ok _ = _
  rw [List.filterMap_map, List.filterMap_eq_flatMap_toList, List.flatMap_def]
  rfl

theorem extractChildren_of_none {entries : List (Text × Json)}
    (absent : entries.lookup "children".toList = none) : extractChildren cveId entries = .ok [] := by
  induction entries with
  | nil => rw [extractChildren]
  | cons entry rest ih =>
      obtain ⟨key, value⟩ := entry
      by_cases here : key = "children".toList
      · rw [here, List.lookup_cons_self] at absent
        cases absent
      · rw [List.lookup_cons, beq_eq_false_iff_ne.mpr (Ne.symm here)] at absent
        unfold extractChildren
        rw [if_neg here]
        exact ih absent

theorem extractChildren_of_some {entries : List (Text × Json)} {nodes : List Json}
    (there : entries.lookup "children".toList = some (.array nodes)) :
    extractChildren cveId entries = extractNodes cveId nodes := by
  induction entries with
  | nil => cases there
  | cons entry rest ih =>
      obtain ⟨key, value⟩ := entry
      by_cases here : key = "children".toList
      · rw [here, List.lookup_cons_self] at there
        cases there
        unfold extractChildren
        rw [if_pos here]
      · rw [List.lookup_cons, beq_eq_false_iff_ne.mpr (Ne.symm here)] at there
        unfold extractChildren
        rw [if_neg here]
        exact ih there

theorem extractNodes_eq (nodes : List Json) :
    extractNodes cveId nodes =
      nodes.mapM (extractProductVulnsSub cveId) >>= fun found => .ok found.flatten := by
  induction nodes with
  | nil => rw [extractNodes]; rfl
  | cons node rest ih =>
      rw [extractNodes, ih, List.mapM_cons]
      cases extractProductVulnsSub cveId node with
      | error _ => rfl
      | ok found => cases rest.mapM (extractProductVulnsSub cveId) <;> rfl

/-- The script goes over the front of a tree. -/
theorem extractProductVulnsSub_eq {node : Configuration} {json : Json} (written : NodeWritten node json) :
    extractProductVulnsSub cveId json = .ok (node.front.filterMap (CpeMatch.product cveId)) := by
  induction written with
  | @object own children entries cpeMatch below matches' nodes ih =>
      rw [extractProductVulnsSub, cpeMatch, Nested.front_eq]
      cases own with
      | some pairs => exact extractCpeMatches_of_written matches'
      | none =>
          simp only [Option.map_none]
          cases children with
          | none => exact extractChildren_of_none below
          | some pairs =>
              have rows : (pairs.map Prod.snd).mapM (extractProductVulnsSub cveId) =
                  .ok (pairs.map fun pair => pair.1.front.filterMap (CpeMatch.product cveId)) := by
                refine mapM_ok_iff.mpr ?_
                rw [List.forall₂_map_left_iff, List.forall₂_map_right_iff, List.forall₂_same]
                exact ih
              rw [extractChildren_of_some below, extractNodes_eq, rows]
              change Except.ok _ = Except.ok _
              rw [Nested.own, Nested.children, Option.getD_none, Option.getD_some,
                List.filterMap_flatMap, List.flatMap_map, List.flatMap_def]

/--
Every vulnerable entry of a tree gets its row, and nothing else does, if and only
if no node with a list of entries has one with a row below it.
-/
theorem extractProductVulnsSub_perm_iff {node : Configuration} {json : Json}
    (written : NodeWritten node json) (cveId : Json) :
    ∃ found, extractProductVulnsSub cveId json = .ok found ∧
      (found.Perm (node.all.filterMap (CpeMatch.product cveId)) ↔
        node.NothingBelow (CpeMatch.product cveId)) :=
  ⟨_, extractProductVulnsSub_eq written, Nested.filterMap_front_perm_iff _ node⟩

/-! ## A node with both lists -/

def glibUri : Text := "cpe:2.3:a:gnome:glib:2.0".toList

def glibEntry : Json :=
  .object [("vulnerable".toList, .bool true), ("cpe23Uri".toList, .string glibUri)]

def glib : CpeMatch := ⟨true, glibUri⟩

/-- A node with the entry. -/
def glibNode : Json := .object [("cpe_match".toList, .array [glibEntry])]

/-- A node over it that has an empty list of its own. -/
def bothLists : Json :=
  .object [("children".toList, .array [glibNode]), ("cpe_match".toList, .array [])]

def childrenOnly : Json := .object [("children".toList, .array [glibNode])]

theorem glibNode_written : NodeWritten (.node (some [glib]) []) glibNode :=
  @NodeWritten.object (some [(glib, glibEntry)]) none _ rfl rfl
    (List.forall_mem_singleton.mpr (.object rfl rfl rfl)) (List.forall_mem_nil _)

theorem bothLists_written : NodeWritten (.node (some []) [.node (some [glib]) []]) bothLists :=
  @NodeWritten.object (some []) (some [(.node (some [glib]) [], glibNode)]) _ rfl rfl
    (List.forall_mem_nil _) (List.forall_mem_singleton.mpr glibNode_written)

theorem childrenOnly_written : NodeWritten (.node none [.node (some [glib]) []]) childrenOnly :=
  @NodeWritten.object none (some [(.node (some [glib]) [], glibNode)]) _ rfl rfl
    (List.forall_mem_nil _) (List.forall_mem_singleton.mpr glibNode_written)

theorem childrenOnly_found : ∃ found, extractProductVulnsSub .null childrenOnly = .ok found ∧
    found.Perm [⟨.null, "gnome".toList, "glib".toList, "2.0".toList⟩] := by
  obtain ⟨found, run, complete⟩ := extractProductVulnsSub_perm_iff childrenOnly_written .null
  refine ⟨found, run, complete.mpr (Nested.nothingBelow_iff.mpr ⟨fun own => absurd rfl own, ?_⟩)⟩
  refine List.forall_mem_singleton.mpr (Nested.nothingBelow_iff.mpr ⟨fun _ => ?_, ?_⟩)
  · exact List.forall_mem_nil _
  · exact List.forall_mem_nil _

/-- The empty list of the upper node hides the entry. -/
theorem bothLists_hidden :
    NodeWritten (.node (some []) [.node (some [glib]) []]) bothLists ∧
      extractProductVulnsSub .null bothLists = .ok [] ∧
      ¬ List.Perm [] ((Nested.node (some []) [.node (some [glib]) []]).all.filterMap
        (CpeMatch.product .null)) := by
  refine ⟨bothLists_written, rfl, fun perm => ?_⟩
  cases perm.nil_eq

end GnomeBuildMeta.Cve
