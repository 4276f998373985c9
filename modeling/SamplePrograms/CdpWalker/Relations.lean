import SamplePrograms.Library.FirstOfKey
import Mathlib.Data.Sym.Sym2

/-!
# Merging the neighbour relations of `hpcdpdisco.py`

Every host reports its links as seen from its own side, so a link between two
hosts that were both asked is reported twice, once mirrored. The main program
merges the reports of all hosts.

## Implementation notes

A link without a direction is an unordered pair of ends. The two membership
tests of the source are one test for the link, which makes the merge a list with
one entry for each key.
-/

namespace SamplePrograms.CdpWalker
open FirstOfKey

/-- `(host1, host1_if, host2, host2_if)`. -/
structure Relation (N : Type*) where
  host1 : N
  host1If : N
  host2 : N
  host2If : N
  deriving DecidableEq

variable {N : Type*}

/-- The relation as the other host reports it, `relation_var2` in the source. -/
def Relation.mirror (r : Relation N) : Relation N := ⟨r.host2, r.host2If, r.host1, r.host1If⟩

/-- The link without its direction. -/
def Relation.link (r : Relation N) : Sym2 (N × N) := s((r.host1, r.host1If), (r.host2, r.host2If))

theorem Relation.link_eq_iff (r s : Relation N) : s.link = r.link ↔ s = r ∨ s = r.mirror := by
  obtain ⟨a, b, c, d⟩ := r
  obtain ⟨a', b', c', d'⟩ := s
  simp only [link, mirror, Sym2.eq_iff, Prod.mk.injEq, Relation.mk.injEq, and_assoc]

/-- The undirected links of a list of relations. -/
def undirected (relations : List (Relation N)) : Set (Sym2 (N × N)) :=
  {l | ∃ r ∈ relations, r.link = l}

theorem mem_undirected (relations : List (Relation N)) (l : Sym2 (N × N)) :
    l ∈ undirected relations ↔ l ∈ relations.map Relation.link := by
  simp [undirected]

theorem link_mem_map_iff (relations : List (Relation N)) (r : Relation N) :
    r.link ∈ relations.map Relation.link ↔ r ∈ relations ∨ r.mirror ∈ relations := by
  simp only [List.mem_map, Relation.link_eq_iff]
  constructor
  · rintro ⟨s, hs, rfl | rfl⟩
    · exact Or.inl hs
    · exact Or.inr hs
  · rintro (h | h)
    · exact ⟨r, h, Or.inl rfl⟩
    · exact ⟨r.mirror, h, Or.inr rfl⟩

variable [DecidableEq N]

/-- The body of the loop of `merge_relations`, which is also how a walk collects relations. -/
def appendRelation (relations : List (Relation N)) (relation : Relation N) : List (Relation N) :=
  if relation ∉ relations ∧ relation.mirror ∉ relations then relations ++ [relation]
  else relations

def mergeRelations (relations relations2 : List (Relation N)) : List (Relation N) :=
  relations2.foldl appendRelation relations

/-- The loop of the main program over the relations of each host. -/
def mergeHosts (hosts : List (List (Relation N))) : List (Relation N) :=
  hosts.foldl mergeRelations []

theorem appendRelation_eq (relations : List (Relation N)) (r : Relation N) :
    appendRelation relations r = add Relation.link relations r := by
  simp only [appendRelation, add, ← not_or, ← link_mem_map_iff, ite_not]

theorem mergeRelations_eq (relations relations2 : List (Relation N)) :
    mergeRelations relations relations2 = addAll Relation.link relations relations2 := by
  have step : (appendRelation : List (Relation N) → _) = add Relation.link := by
    funext rs r
    exact appendRelation_eq rs r
  rw [mergeRelations, addAll, step]

theorem mergeHosts_eq (hosts : List (List (Relation N))) :
    mergeHosts hosts = addAll Relation.link [] hosts.flatten := by
  have step : (mergeRelations : List (Relation N) → _) = addAll Relation.link := by
    funext rs rs'
    exact mergeRelations_eq rs rs'
  rw [mergeHosts, step, foldl_addAll]

/-- A list has every link of the input once, as given or mirrored, and nothing else. -/
structure IsLinkList (input out : List (Relation N)) : Prop where
  once : ∀ r ∈ input, out.countP (fun x => x = r ∨ x = r.mirror) = 1
  distinct : out.Pairwise fun x y => x ≠ y ∧ x ≠ y.mirror
  fromInput : ∀ x ∈ out, x ∈ input

theorem isLinkList_of_keys {input out : List (Relation N)} (nodup : (out.map Relation.link).Nodup)
    (present : ∀ r ∈ input, r.link ∈ out.map Relation.link) (fromInput : ∀ x ∈ out, x ∈ input) :
    IsLinkList input out where
  once r hr := by
    simpa only [Relation.link_eq_iff] using countP_eq_one nodup (present r hr)
  distinct := by
    rw [List.Nodup, List.pairwise_map] at nodup
    apply nodup.imp
    intro x y hxy
    rw [← not_or, ← Relation.link_eq_iff]
    exact hxy
  fromInput := fromInput

theorem isLinkList_addAll (input : List (Relation N)) :
    IsLinkList input (addAll Relation.link [] input) := by
  apply isLinkList_of_keys
  · have empty : (([] : List (Relation N)).map Relation.link).Nodup := List.nodup_nil
    exact nodup_addAll empty input
  · intro r hr
    exact (keys_addAll [] input r.link).mpr (Or.inr (List.mem_map_of_mem hr))
  · intro x hx
    exact (mem_addAll hx).resolve_left List.not_mem_nil

theorem undirected_mergeHosts (hosts : List (List (Relation N))) :
    undirected (mergeHosts hosts) = undirected hosts.flatten := by
  ext l
  rw [mem_undirected, mem_undirected, mergeHosts_eq, keys_addAll]
  simp

/-- Relations whose links are all merged already change nothing. -/
theorem mergeRelations_of_subset {relations relations2 : List (Relation N)}
    (h : ∀ r ∈ relations2, r.link ∈ undirected relations) :
    mergeRelations relations relations2 = relations := by
  rw [mergeRelations_eq]
  apply addAll_of_mem
  intro r hr
  exact (mem_undirected relations r.link).mp (h r hr)

/-- The merged list has every reported link once. The order of the hosts does not
change the set of links, and a report that was merged changes nothing. -/
theorem mergeHosts_links (hosts : List (List (Relation N))) :
    IsLinkList hosts.flatten (mergeHosts hosts) ∧
      (∀ hosts' : List (List (Relation N)), hosts'.Perm hosts →
        undirected (mergeHosts hosts') = undirected (mergeHosts hosts)) ∧
      (∀ rel ∈ hosts, mergeRelations (mergeHosts hosts) rel = mergeHosts hosts) ∧
      mergeRelations (mergeHosts hosts) (mergeHosts hosts) = mergeHosts hosts := by
  refine ⟨?_, ?_, ?_, ?_⟩
  · rw [mergeHosts_eq]
    exact isLinkList_addAll hosts.flatten
  · intro hosts' perm
    rw [undirected_mergeHosts, undirected_mergeHosts]
    ext l
    rw [mem_undirected, mem_undirected]
    exact (perm.flatten.map Relation.link).mem_iff
  · intro rel hrel
    apply mergeRelations_of_subset
    intro r hr
    rw [undirected_mergeHosts]
    exact ⟨r, List.mem_flatten_of_mem hrel hr, rfl⟩
  · apply mergeRelations_of_subset
    intro r hr
    exact ⟨r, hr, rfl⟩

end SamplePrograms.CdpWalker
