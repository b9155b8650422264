import ProcessorSymmetry.Proofs.Architecture.Sessions
import ProcessorSymmetry.Proofs.Group.ProductRanges

/-!
# Parts of clusters

The automorphism group of a cluster is the direct product of the groups of its parts.
Hence an automorphism maps the processors of each part onto themselves.  This is also
true of the parts of inner clusters, since these may be listed in place of the inner
clusters without any effect on the group.
-/

namespace ProcessorSymmetry

namespace Architecture

open PermGroup

variable {a part : Architecture} {parts spliced : List Architecture} {cached : Option PermGroup}
  {finder : AutomorphismFinder} {n : Nat} {p : Perm n}

/-- Inner clusters in a list of parts are replaced by their own parts, any number of times. -/
inductive Splices (parts : List Architecture) : List Architecture → Prop
  | refl : Splices parts parts
  | splice {front inner back : List Architecture} {cached : Option PermGroup}
      (before : Splices parts (front ++ .cluster inner cached :: back)) :
      Splices parts (front ++ inner ++ back)

theorem totalDegree_map_afresh (h : ∀ a ∈ parts, (a.afresh finder).degree = a.processorCount) :
    totalDegree (parts.map (afresh finder)) = processorCountAll parts := by
  induction parts with
  | nil => rfl
  | cons a rest ih =>
      obtain ⟨hfirst, hrest⟩ := List.forall_mem_cons.mp h
      rw [List.map_cons, totalDegree, processorCountAll, hfirst, ih hrest]

/-- The points of an automorphism group are the processors. -/
theorem UpToDate.degree_afresh (ha : a.UpToDate) (finder : AutomorphismFinder) :
    (a.afresh finder).degree = a.processorCount := by
  induction ha with
  | @graph g _ => exact g.size_coloredGraph
  | @uniform s _ _ _ =>
      exact congrArg₂ (· * ·) s.clusters.size_coloredGraph s.proto.size_coloredGraph
  | cluster _ _ ih =>
      rw [afresh, afreshAll_eq, processorCount]
      exact totalDegree_map_afresh ih
  | group G => rfl

theorem afresh_cluster (finder : AutomorphismFinder) (parts : List Architecture)
    (cached : Option PermGroup) :
    afresh finder (.cluster parts cached) = directProduct (parts.map (afresh finder)) := by
  rw [afresh, afreshAll_eq]

/-- A member of the group of a cluster maps the processors of each part onto themselves. -/
theorem keepsRange_of_contains (hparts : ∀ a ∈ parts, a.UpToDate)
    (hp : (afresh finder (ofParts parts)).contains p = true) {i : Nat}
    (hpart : parts[i]? = some part) :
    p.KeepsRange (processorCountAll (parts.take i)) part.processorCount := by
  rw [ofParts, afresh_cluster, contains_directProduct_iff_restriction] at hp
  have hgroup : (parts.map (afresh finder))[i]? = some (part.afresh finder) := by
    rw [List.getElem?_map, hpart, Option.map_some]
  obtain ⟨hkeeps, -⟩ := hp.2 i _ hgroup
  have hbefore : totalDegree ((parts.map (afresh finder)).take i) =
      processorCountAll (parts.take i) := by
    rw [← List.map_take]
    exact totalDegree_map_afresh fun a ha =>
      (hparts a (List.mem_of_mem_take ha)).degree_afresh finder
  rwa [hbefore, (hparts part (List.mem_of_getElem? hpart)).degree_afresh] at hkeeps

/-! ## Spliced clusters -/

theorem Splices.upToDate (h : Splices parts spliced) (hparts : ∀ a ∈ parts, a.UpToDate) :
    ∀ a ∈ spliced, a.UpToDate := by
  induction h with
  | refl => exact hparts
  | @splice front inner back cached _ ih =>
      intro a ha
      rw [List.append_assoc, List.mem_append, List.mem_append] at ha
      rcases ha with hfront | hinner | hback
      · exact ih a (by simp [hfront])
      · cases ih (.cluster inner cached) (by simp) with
        | cluster hall _ => exact hall a hinner
      · exact ih a (by simp [hback])

theorem Splices.same_afresh (h : Splices parts spliced) (finder : AutomorphismFinder) :
    (afresh finder (ofParts parts)).same (afresh finder (ofParts spliced)) = true := by
  induction h with
  | refl => exact same_self _
  | @splice front inner back cached _ ih =>
      refine same_trans ih ?_
      rw [ofParts, ofParts, afresh_cluster, afresh_cluster, List.map_append, List.map_cons,
        afresh_cluster, List.map_append, List.map_append]
      exact same_directProduct_splice _ _ _

/-- The answer of a cluster is the group of the cluster in which inner clusters are replaced by
their parts. -/
theorem Splices.same_ask (h : Splices parts spliced) (ha : (cluster parts cached).UpToDate)
    (finder other : AutomorphismFinder) :
    ((cluster parts cached).ask finder).1.same (afresh other (ofParts spliced)) = true := by
  have hfresh : afresh other (.cluster parts cached) = afresh other (ofParts parts) := by
    rw [ofParts, afresh_cluster, afresh_cluster]
  exact same_trans (hfresh ▸ (ha.answers_ask finder).same other) (h.same_afresh other)

end Architecture

namespace Session

open Architecture

/-- A permutation belongs to a direct product of groups exactly if it maps the range of each
group onto itself and its restriction to this range belongs to the group, and the order
of the product is the product of the orders.  Hence the group of a cluster, as nested as
it may be and whatever has been done in a session, has the processors as its points and
moves none of them to another part.  It is the group of the cluster that lists the parts
of inner clusters in their place. -/
theorem cluster_directProduct :
    (∀ groups : List PermGroup,
      (∀ (n : Nat) (p : Perm n), (PermGroup.directProduct groups).contains p = true ↔
        n = PermGroup.totalDegree groups ∧
          ∀ (i : Nat) (G : PermGroup), groups[i]? = some G →
            ∃ h : p.KeepsRange (PermGroup.totalDegree (groups.take i)) G.degree,
              G.contains (p.restriction (PermGroup.totalDegree (groups.take i)) G.degree h) =
                true) ∧
      (PermGroup.directProduct groups).order = (groups.map PermGroup.order).prod) ∧
    ∀ (requests : List Request) (i : Nat) (path : List Nat) (parts : List Architecture)
      (cached : Option PermGroup),
      (start.run requests).partAt? i path = some (.cluster parts cached) →
      ∀ finder : AutomorphismFinder,
        let G := ((cluster parts cached).ask finder).1
        G.degree = (cluster parts cached).processorCount ∧
        ∀ spliced, Splices parts spliced →
          (∀ other, G.same ((ofParts spliced).ask other).1 = true) ∧
          ∀ (n : Nat) (p : Perm n), G.contains p = true →
            ∀ (j : Nat) (part : Architecture), spliced[j]? = some part →
              p.KeepsRange (processorCountAll (spliced.take j)) part.processorCount := by
  constructor
  · intro groups
    exact ⟨fun n p => PermGroup.contains_directProduct_iff_restriction,
      PermGroup.order_directProduct groups⟩
  · intro requests i path parts cached hpart finder G
    have hcluster : (cluster parts cached).UpToDate :=
      UpToDate.partAt? (upToDate_start.run requests) hpart
    have hparts : ∀ a ∈ parts, a.UpToDate := by
      cases hcluster with
      | cluster hparts _ => exact hparts
    refine ⟨?_, fun spliced hspliced => ⟨fun other => ?_, fun n p hp j part hj => ?_⟩⟩
    · rw [← hcluster.degree_afresh finder]
      exact PermGroup.degree_eq_of_same ((hcluster.answers_ask finder).same finder)
    · have hother : (ofParts spliced).UpToDate :=
        .cluster (hspliced.upToDate hparts) (by simp)
      exact PermGroup.same_trans (hspliced.same_ask hcluster finder other)
        (PermGroup.same_symm ((hother.answers_ask other).same other))
    · have hsame := hspliced.same_ask hcluster finder finder
      exact keepsRange_of_contains (hspliced.upToDate hparts)
        ((PermGroup.same_iff_contains.mp hsame p).mp hp) hj

/-- Three rotations and an exchange, twice each, with two of the four groups in an inner
cluster.  Its exchange acts on the two processors from the fifth one on. -/
theorem cluster_directProduct_nested :
    let G := PermGroup.generatedBy [Perm.rotation 3 0]
    let H := PermGroup.generatedBy [Perm.swap 2 0 1]
    let requests : List Request := [.present G, .present H, .gather [0, 1], .gather [1, 2, 0]]
    let parts : List Architecture := [.group H, .cluster [.group G, .group H] none, .group G]
    let product := ((cluster parts none).ask .search).1
    (start.run requests).partAt? 3 [] = some (.cluster parts none) ∧ product.degree = 10 ∧
      (∀ other, product.same
        ((ofParts [.group H, .group G, .group H, .group G]).ask other).1 = true) ∧
      ∀ p : Perm 10, product.contains p = true → p.KeepsRange 5 2 := by
  intro G H requests parts product
  have hpart : (start.run requests).partAt? 3 [] = some (.cluster parts none) := rfl
  obtain ⟨hdegree, hspliced⟩ := cluster_directProduct.2 requests 3 [] parts none hpart .search
  have hsplices : Splices parts [.group H, .group G, .group H, .group G] :=
    @Splices.splice parts [.group H] [.group G, .group H] [.group G] none .refl
  obtain ⟨hsame, hkeeps⟩ := hspliced _ hsplices
  exact ⟨hpart, hdegree, hsame, fun p hp => hkeeps 10 p hp 2 (.group H) rfl⟩

end Session
end ProcessorSymmetry
