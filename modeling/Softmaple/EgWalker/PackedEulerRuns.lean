import Mathlib.Data.List.Nodup
import Mathlib.Data.List.Perm.Subperm
import Mathlib.Data.List.Range
import Softmaple.EgWalker.PackedEulerTree

/-!
A packed Euler index refines the list of its markers: every call is refused without a change, or inserts
in the index what it inserts in the list.
-/
namespace Softmaple.PackedEuler

open List StateMethod
open Codec (JsNumber)
open PackedEulerBoundary PackedEulerError TreeNode

section Index

variable {index next : PackedEulerRankIndex} {markers run left right : List Nat} {id slot marker extra : Nat}
  {pre new post : List (Nat × List Nat)} {locations : Nat → Nat}

theorem updateLeaf_spec {visitDelta : Nat} {change : LeafNode → TreeNode × Option TreeNode}
    (h : ∃ depth, index.root.Formed depth) (hleaves : index.root.leaves = pre ++ (id, markers) :: post)
    (hid : id ∉ pre.map (·.1)) (hnew : weigh new = visitWeight markers + visitDelta)
    (hchange : ∀ childIndex, Grown 0 (change ⟨id, markers, childIndex, visitWeight markers⟩) childIndex new) :
    (∃ depth, (index.updateLeaf id change visitDelta).Formed depth) ∧
      (index.updateLeaf id change visitDelta).leaves = pre ++ new ++ post := by
  obtain ⟨depth, hformed⟩ := h
  obtain ⟨childIndex, parents, hfound, -, hgrows⟩ := leafForId_spec hformed hleaves hid
  have hgrown := hgrows (hchange childIndex) hnew
  rw [PackedEulerRankIndex.updateLeaf, PackedEulerRankIndex.leavesById, hfound]
  dsimp only
  generalize parents.foldl _ _ = grown at hgrown ⊢
  obtain ⟨root, _ | sibling⟩ := grown
  · exact ⟨⟨depth, hgrown.formed⟩, by simpa using hgrown.leaves⟩
  · have hboth : ∀ child ∈ [root, sibling], Formed depth child := by
      rintro child (_ | ⟨_, _ | ⟨_, ⟨⟩⟩⟩)
      · exact hgrown.formed
      · exact hgrown.sibling sibling rfl
    obtain ⟨hformed, hroot⟩ := createInternalNode_formed (by simp [BRANCH_FACTOR]) hboth
    exact ⟨⟨depth + 1, hformed⟩, by simp [hroot, ← hgrown.leaves]⟩

theorem setLocations_of_notMem (h : marker ∉ markers) :
    setLocations id slot markers locations marker = locations marker := by
  induction markers generalizing slot locations with
  | nil => rfl
  | cons first markers ih =>
    rw [mem_cons, not_or] at h
    rw [setLocations, ih h.2, Function.update_of_ne h.1]

theorem setLocations_getElem? (hunique : markers.Nodup) {place : Nat} (h : markers[place]? = some marker) :
    setLocations id slot markers locations marker = id * LOCATION_SLOT_STRIDE + (slot + place) := by
  induction markers generalizing slot locations place with
  | nil => cases h
  | cons first markers ih =>
    rw [nodup_cons] at hunique
    rw [setLocations]
    cases place with
    | zero =>
      cases h
      rw [setLocations_of_notMem hunique.1, Function.update_self, Nat.add_zero]
    | succ place => rw [ih hunique.2 h, Nat.add_assoc slot, Nat.add_comm 1]

/-- Every marker of the leaf has its place there as its location. -/
def Located (locations : Nat → Nat) (leaf : Nat × List Nat) : Prop :=
  ∀ (slot marker : Nat), leaf.2[slot]? = some marker → locations marker = leaf.1 * LOCATION_SLOT_STRIDE + slot

theorem Located.of_append (h : Located locations (id, left ++ right)) : Located locations (id, left) :=
  fun slot marker hslot =>
    h slot marker ((getElem?_append_left (List.getElem?_eq_some_iff.mp hslot).1).trans hslot)

/-- Of a leaf's markers those from a slot on get their locations. -/
theorem located_setLocations (hunique : (left ++ right).Nodup) (h : Located locations (id, left)) :
    Located (setLocations id left.length right locations) (id, left ++ right) := by
  intro place marker hplace
  obtain ⟨-, hright, hapart⟩ := nodup_append.mp hunique
  dsimp only at hplace
  by_cases hbefore : place < left.length
  · rw [getElem?_append_left hbefore] at hplace
    rw [setLocations_of_notMem fun hin => hapart marker (mem_of_getElem? hplace) marker hin rfl]
    exact h place marker hplace
  · have hle := Nat.le_of_not_lt hbefore
    rw [getElem?_append_right hle] at hplace
    rw [setLocations_getElem? hright hplace, Nat.add_sub_cancel' hle]

theorem createLeaf_run (h : index.nextLeafId ≤ MAX_MARKER_ID) :
    createLeaf index = .ok index.nextLeafId { index with nextLeafId := index.nextLeafId + 1 } := by
  rw [createLeaf, bind_of_ok get_run, bind_of_ok (modify_run _), if_neg (Nat.not_lt_of_le h)]
  rfl

/-- What holds of the index between calls. -/
structure Sound (index : PackedEulerRankIndex) : Prop where
  formed : ∃ depth, index.root.Formed depth
  capacity : ∀ leaf ∈ index.root.leaves, leaf.2.length ≤ LEAF_CAPACITY
  ids : (index.root.leaves.map (·.1)).Nodup
  idBounds : ∀ id ∈ index.root.leaves.map (·.1), 0 < id ∧ id < index.nextLeafId
  leafIds : index.nextLeafId ≤ index.getMarkerOrder.length
  unique : index.getMarkerOrder.Nodup
  located : ∀ leaf ∈ index.root.leaves, Located index.locations leaf
  unlocated : ∀ marker, marker ∉ index.getMarkerOrder → index.locations marker = 0
  allocated : ∀ marker ∈ index.getMarkerOrder, marker < MARKERS_PER_NODE * index.nextNodeHandle
  handles : index.nextNodeHandle ≤ MAX_NODE_HANDLE + 1

theorem Sound.id_notMem (h : Sound index) (hleaves : index.root.leaves = pre ++ (id, markers) :: post) :
    id ∉ pre.map (·.1) := by
  have hids := h.ids
  rw [hleaves, map_append, map_cons, nodup_middle, nodup_cons, mem_append, not_or] at hids
  exact hids.1.1

/-- Markers below the handles fit in the IDs that leaves may have. -/
theorem length_le {order : List Nat} (hunique : order.Nodup) (hhandles : index.nextNodeHandle ≤ MAX_NODE_HANDLE + 1)
    (h : ∀ marker ∈ order, marker < MARKERS_PER_NODE * index.nextNodeHandle) : order.length ≤ MAX_MARKER_ID := by
  have hrange : order ⊆ range (MARKERS_PER_NODE * (MAX_NODE_HANDLE + 1)) := fun marker hmarker =>
    mem_range.mpr (Nat.lt_of_lt_of_le (h marker hmarker) (Nat.mul_le_mul_left _ hhandles))
  have hlength := (subperm_of_subset hunique hrange).length_le
  rwa [length_range] at hlength

section Changes

variable (h : Sound index) (hleaves : index.root.leaves = pre ++ (id, left ++ right) :: post)
include hleaves

theorem order_eq : index.getMarkerOrder = pre.flatMap (·.2) ++ left ++ (right ++ post.flatMap (·.2)) := by
  rw [PackedEulerRankIndex.getMarkerOrder, hleaves]
  simp

include h

/-- A run of new markers leaves the order without repetitions and below the handles. -/
theorem order_insert (hrunique : run.Nodup)
    (hrun : ∀ marker ∈ run, marker ∉ index.getMarkerOrder ∧ marker < MARKERS_PER_NODE * index.nextNodeHandle) :
    (pre.flatMap (·.2) ++ left ++ run ++ (right ++ post.flatMap (·.2))).Nodup ∧
      ∀ marker ∈ pre.flatMap (·.2) ++ left ++ run ++ (right ++ post.flatMap (·.2)),
        marker < MARKERS_PER_NODE * index.nextNodeHandle := by
  have horder := order_eq hleaves
  have hperm := perm_append_comm_assoc (pre.flatMap (·.2) ++ left) run (right ++ post.flatMap (·.2))
  rw [← append_assoc, ← horder] at hperm
  refine ⟨hperm.nodup_iff.mpr (nodup_append.mpr ⟨hrunique, h.unique, ?_⟩), fun marker hmarker => ?_⟩
  · rintro marker hmarker _ hother rfl
    exact (hrun marker hmarker).1 hother
  · obtain hadded | hkept := mem_append.mp (hperm.mem_iff.mp hmarker)
    · exact (hrun marker hadded).2
    · exact h.allocated marker hkept

/-- A leaf becomes one leaf or more, with a run of new markers. -/
theorem Sound.replace (hnext : next.root.leaves = pre ++ new ++ post) (hformed : ∃ depth, next.root.Formed depth)
    (hmarkers : new.flatMap (·.2) = left ++ run ++ right) (hrunique : run.Nodup)
    (hrun : ∀ marker ∈ run, marker ∉ index.getMarkerOrder ∧ marker < MARKERS_PER_NODE * index.nextNodeHandle)
    (hcapacity : ∀ leaf ∈ new, leaf.2.length ≤ LEAF_CAPACITY)
    (hids : new.map (·.1) = id :: range' index.nextLeafId extra) (hextra : extra ≤ run.length)
    (hnextLeaf : next.nextLeafId = index.nextLeafId + extra) (hlocated : ∀ leaf ∈ new, Located next.locations leaf)
    (hkept : ∀ marker, marker ∉ left ++ run ++ right → next.locations marker = index.locations marker)
    (hhandles : next.nextNodeHandle = index.nextNodeHandle) : Sound next ∧
      next.getMarkerOrder = pre.flatMap (·.2) ++ left ++ run ++ (right ++ post.flatMap (·.2)) := by
  have hnew : next.getMarkerOrder = pre.flatMap (·.2) ++ new.flatMap (·.2) ++ post.flatMap (·.2) := by
    rw [PackedEulerRankIndex.getMarkerOrder, hnext, flatMap_append, flatMap_append]
  have horder : next.getMarkerOrder = pre.flatMap (·.2) ++ left ++ run ++ (right ++ post.flatMap (·.2)) := by
    rw [hnew, hmarkers]
    simp
  have hold := order_eq hleaves
  obtain ⟨hunique, hallocated⟩ := order_insert h hleaves hrunique hrun
  have hperm : (next.root.leaves.map (·.1)).Perm (range' index.nextLeafId extra ++ index.root.leaves.map (·.1)) := by
    rw [hnext, hleaves, map_append, map_append, hids, map_append, map_cons, append_assoc, cons_append]
    exact (perm_middle.symm.append_left _).trans (perm_append_comm_assoc _ _ _)
  have hbounds := h.idBounds id (by simp [hleaves])
  have houter (leaf) (hleaf : leaf ∈ next.root.leaves) :
      leaf ∈ new ∨ leaf ∈ index.root.leaves ∧ (leaf ∈ pre ∨ leaf ∈ post) := by
    rw [hnext] at hleaf
    rw [hleaves]
    simp only [mem_append, mem_cons] at hleaf ⊢
    tauto
  refine ⟨⟨hformed, fun leaf hleaf => ?_, hperm.nodup_iff.mpr (nodup_append.mpr ⟨nodup_range', h.ids, ?_⟩),
    fun other hother => ?_, ?_, horder ▸ hunique, fun leaf hleaf => ?_, fun marker hmarker => ?_,
    by rwa [horder, hhandles], hhandles ▸ h.handles⟩, horder⟩
  · obtain hin | ⟨hin, -⟩ := houter leaf hleaf
    · exact hcapacity leaf hin
    · exact h.capacity leaf hin
  · rintro other hother _ hin rfl
    exact absurd (h.idBounds other hin).2 (Nat.not_lt_of_le (mem_range'_1.mp hother).1)
  · obtain hin | hin := mem_append.mp (hperm.mem_iff.mp hother)
    · have := mem_range'_1.mp hin
      omega
    · have := h.idBounds other hin
      omega
  · have hleafIds := h.leafIds
    rw [hold] at hleafIds
    rw [horder, hnextLeaf]
    simp only [length_append] at hleafIds ⊢
    omega
  · obtain hin | ⟨hin, hplace⟩ := houter leaf hleaf
    · exact hlocated leaf hin
    · intro place marker hmarker
      have hmem := mem_of_getElem? hmarker
      rw [hkept marker, h.located leaf hin place marker hmarker]
      intro hboth
      rw [← horder, hnew, hmarkers, nodup_append, nodup_append] at hunique
      obtain hpre | hpost := hplace
      · exact hunique.1.2.2 marker (mem_flatMap_of_mem hpre hmem) marker hboth rfl
      · exact hunique.2.2 marker (mem_append_right _ hboth) marker (mem_flatMap_of_mem hpost hmem) rfl
  · rw [horder] at hmarker
    rw [hkept marker, h.unlocated marker]
    · rw [hold]
      simp only [mem_append, not_or] at hmarker ⊢
      tauto
    · simp only [mem_append, not_or] at hmarker ⊢
      tauto

end Changes

theorem insertRun_spec {node : LeafNode} {firstMarker count : Nat} (h : Sound index)
    (hleaves : index.root.leaves = pre ++ (node.id, node.markers) :: post) (hmarkers : node.markers = left ++ right)
    (hcount : 0 < count) (hmax : count ≤ MAX_INSERT_RUN)
    (hrun : ∀ marker ∈ range' firstMarker count, marker ∉ index.getMarkerOrder ∧
      marker < MARKERS_PER_NODE * index.nextNodeHandle) :
    ∃ next, insertRun node left.length firstMarker count index = .ok ⟨⟩ next ∧ Sound next ∧
      next.nextNodeHandle = index.nextNodeHandle ∧ next.getMarkerOrder =
        pre.flatMap (·.2) ++ left ++ range' firstMarker count ++ (right ++ post.flatMap (·.2)) := by
  let run := range' firstMarker count
  let markers := left ++ run ++ right
  let middle : PackedEulerRankIndex := { index with
    root := index.updateLeaf node.id (setMarkers markers (visitWeight run)) (visitWeight run)
    locations := setLocations node.id left.length (run ++ right) index.locations }
  have hslot : ¬ node.markers.length < left.length := by simp [hmarkers]
  have hbounds := h.idBounds node.id (by simp [hleaves])
  have hcapacity := h.capacity (node.id, node.markers) (by simp [hleaves])
  have hid := h.id_notMem hleaves
  have hvisits : visitWeight markers = visitWeight node.markers + visitWeight run := by
    simp only [hmarkers, markers, visitWeight_append]
    omega
  obtain ⟨hformed, hmiddle⟩ : (∃ depth, middle.root.Formed depth) ∧
      middle.root.leaves = pre ++ [(node.id, markers)] ++ post :=
    updateLeaf_spec h.formed hleaves hid (by simpa [weigh] using hvisits) fun childIndex =>
      ⟨rfl, hvisits.symm, by rintro _ ⟨⟩, append_nil _⟩
  have hstep : insertRun node left.length firstMarker count index =
      (if LEAF_CAPACITY < markers.length then splitLeaf node.id markers else pure ⟨⟩) middle := by
    rw [insertRun, if_neg hslot, if_neg (by omega), bind_of_ok (modify_run _)]
    simp only [hmarkers, take_left, drop_left, append_assoc, markers, middle, run]
  obtain ⟨hunique, hallocated⟩ := order_insert h (hmarkers ▸ hleaves) nodup_range' hrun
  have hlength := length_le hunique h.handles hallocated
  have hmarkersUnique : markers.Nodup := by
    refine hunique.sublist (IsInfix.sublist ⟨pre.flatMap (·.2), post.flatMap (·.2), ?_⟩)
    simp [markers, run]
  have hlocated : Located middle.locations (node.id, markers) := by
    have hleft : Located index.locations (node.id, left) :=
      .of_append (hmarkers ▸ h.located (node.id, node.markers) (by simp [hleaves]))
    simp only [markers, append_assoc] at hmarkersUnique ⊢
    exact located_setLocations hmarkersUnique hleft
  have hkept (marker) (hmarker : marker ∉ markers) : middle.locations marker = index.locations marker := by
    refine setLocations_of_notMem fun hin => hmarker ?_
    simp only [markers, append_assoc]
    exact mem_append_right _ hin
  rw [hstep]
  by_cases hfits : LEAF_CAPACITY < markers.length
  · let half := (markers.length + 1) / 2
    let sibling := index.nextLeafId
    have hroom : middle.nextLeafId ≤ MAX_MARKER_ID := by
      have hleafIds : middle.nextLeafId ≤ _ := h.leafIds
      rw [order_eq (hmarkers ▸ hleaves)] at hleafIds
      simp only [length_append] at hleafIds hlength
      omega
    have hparts : (markers.take half ++ markers.drop half).Nodup := by rwa [take_append_drop]
    have hsum : visitWeight (markers.take half) + visitWeight (markers.drop half) = visitWeight markers := by
      rw [← visitWeight_append, take_append_drop]
    have hmore : markers.length ≤ LEAF_CAPACITY + MAX_INSERT_RUN := by
      simp only [hmarkers, markers, run, length_append, length_range'] at hcapacity ⊢
      omega
    let next : PackedEulerRankIndex := { middle with
      root := middle.updateLeaf node.id (TreeNode.splitLeaf sibling) 0
      locations := setLocations sibling 0 (markers.drop half) middle.locations
      nextLeafId := sibling + 1 }
    obtain ⟨hsplitFormed, hsplit⟩ : (∃ depth, next.root.Formed depth) ∧ next.root.leaves =
        pre ++ [(node.id, markers.take half), (sibling, markers.drop half)] ++ post :=
      updateLeaf_spec hformed (hmiddle.trans (append_assoc _ _ _)) hid (by simp [weigh]) fun childIndex =>
        ⟨rfl, Nat.sub_eq_of_eq_add hsum.symm, fun _ hsome => Option.some.inj hsome ▸ rfl, rfl⟩
    have hsplitRun : splitLeaf node.id markers middle = .ok ⟨⟩ next :=
      (bind_of_ok (createLeaf_run hroom)).trans rfl
    have hboth : [(node.id, markers.take half), (sibling, markers.drop half)].flatMap (·.2) = markers := by simp
    have hids : [(node.id, markers.take half), (sibling, markers.drop half)].map (·.1) =
      node.id :: range' index.nextLeafId 1 := rfl
    have hfits' : ∀ leaf ∈ [(node.id, markers.take half), (sibling, markers.drop half)],
        leaf.2.length ≤ LEAF_CAPACITY := by
      dsimp only [LEAF_CAPACITY, MAX_INSERT_RUN, MARKERS_PER_NODE, half] at hmore ⊢
      refine forall_mem_cons.mpr ⟨?_, forall_mem_singleton.mpr ?_⟩
      · rw [length_take]
        omega
      · rw [length_drop]
        omega
    have hlocated' : ∀ leaf ∈ [(node.id, markers.take half), (sibling, markers.drop half)],
        Located next.locations leaf := by
      have hmoved : Located next.locations (sibling, [] ++ markers.drop half) :=
        located_setLocations hparts.of_append_right fun _ _ hnone => by cases hnone
      have htaken : Located middle.locations (node.id, markers.take half) :=
        .of_append (by rwa [take_append_drop])
      refine forall_mem_cons.mpr ⟨fun place marker hplace => ?_, forall_mem_singleton.mpr hmoved⟩
      have hapart := (nodup_append.mp hparts).2.2 marker (mem_of_getElem? hplace)
      exact (setLocations_of_notMem fun hin => hapart marker hin rfl).trans (htaken place marker hplace)
    have hkept' (marker) (hmarker : marker ∉ markers) : next.locations marker = index.locations marker :=
      (setLocations_of_notMem fun hin => hmarker (mem_of_mem_drop hin)).trans (hkept marker hmarker)
    obtain ⟨hnext, horder⟩ := h.replace (hmarkers ▸ hleaves) hsplit hsplitFormed hboth nodup_range' hrun hfits' hids
      (by rw [length_range']; exact hcount) rfl hlocated' hkept' rfl
    exact ⟨next, if_pos hfits ▸ hsplitRun, hnext, rfl, horder⟩
  · have hids : [(node.id, markers)].map (·.1) = node.id :: range' index.nextLeafId 0 := rfl
    have hfits' : ∀ leaf ∈ [(node.id, markers)], leaf.2.length ≤ LEAF_CAPACITY :=
      forall_mem_singleton.mpr (Nat.le_of_not_lt hfits)
    obtain ⟨hnext, horder⟩ := h.replace (hmarkers ▸ hleaves) hmiddle hformed (append_nil _) nodup_range' hrun hfits'
      hids (Nat.zero_le _) rfl (forall_mem_singleton.mpr hlocated) hkept rfl
    exact ⟨middle, if_neg hfits ▸ rfl, hnext, rfl, horder⟩

end Index

section Queries

variable {index : PackedEulerRankIndex} {marker : Nat} {before after : List Nat}

theorem assertAllocatedNode_settles (node : JsNumber) : Settles (assertAllocatedNode node) index fun handle next =>
    next = index ∧ handle = handleOf node ∧ handle < index.nextNodeHandle := by
  have hstep : assertAllocatedNode node index =
      if isAllocated index node then .ok (handleOf node) index else .error (nodeUnavailable node) index := by
    rw [assertAllocatedNode, bind_of_ok get_run]
    split <;> rfl
  cases hallocated : isAllocated index node with
  | false => exact .of_error (hstep.trans (if_neg (by simp [hallocated])))
  | true =>
    refine .of_ok (hstep.trans (if_pos hallocated)) ⟨rfl, rfl, ?_⟩
    cases node with
    | finite node =>
      simp only [isAllocated, decide_eq_true_eq] at hallocated
      simp only [handleOf]
      omega
    | nan => cases hallocated
    | infinity => cases hallocated

namespace Sound

variable (h : Sound index)
include h

theorem requireLocation_refused (hmarker : marker ∉ index.getMarkerOrder) :
    requireLocation marker index = .error (markerUnavailable marker) index := by
  rw [requireLocation, bind_of_ok get_run, h.unlocated marker hmarker, if_pos (.inl rfl)]
  rfl

section Held

variable (horder : index.getMarkerOrder = before ++ marker :: after)
include horder

/-- A marker's location leads to the leaf and the slot that hold it. -/
theorem locate : ∃ pre leaf first last post, index.root.leaves = pre ++ (leaf.1.id, leaf.1.markers) :: post ∧
    leaf.1.markers = first ++ marker :: last ∧ before = pre.flatMap (·.2) ++ first ∧
    after = last ++ post.flatMap (·.2) ∧ slotForLocation (index.locations marker) = first.length ∧
    index.locations marker / LOCATION_SLOT_STRIDE ≠ 0 ∧
    index.leavesById (index.locations marker / LOCATION_SLOT_STRIDE) = some leaf ∧
    ∀ rank, (leaf.2.foldl rankAbove (.leaf leaf.1, rank)).2 = rank + weigh pre := by
  obtain ⟨pre, ⟨id, held⟩, post, first, last, hleaves, rfl, hbefore, hafter⟩ := split_flatMap horder
  have hin : (id, first ++ marker :: last) ∈ index.root.leaves := by simp [hleaves]
  have hlocation := h.located _ hin first.length marker (by simp)
  have hcapacity := h.capacity _ hin
  have hid := (h.idBounds id (mem_map.mpr ⟨_, hin, rfl⟩)).1
  obtain ⟨depth, hformed⟩ := h.formed
  obtain ⟨childIndex, parents, hfound, hrank, -⟩ := leafForId_spec hformed hleaves (h.id_notMem hleaves)
  have hplace : index.locations marker / LOCATION_SLOT_STRIDE = id ∧
      slotForLocation (index.locations marker) = first.length := by
    simp only [length_append, length_cons, LEAF_CAPACITY, LOCATION_SLOT_STRIDE, slotForLocation]
      at hcapacity hlocation ⊢
    omega
  rw [hplace.1, hplace.2]
  exact ⟨pre, _, first, last, post, hleaves, rfl, hbefore, hafter, rfl, Nat.ne_of_gt hid, hfound,
    fun rank => congrArg Prod.snd (hrank rank)⟩

theorem requireLocation_run : requireLocation marker index = .ok (index.locations marker) index := by
  obtain ⟨_, leaf, first, last, _, -, hmarkers, -, -, hslot, hid, hfound, -⟩ := h.locate horder
  have hheld : leaf.1.markers[first.length]? = some marker := by simp [hmarkers]
  rw [requireLocation, bind_of_ok get_run, hfound, hslot, Option.bind_some, hheld,
    if_neg (not_or_intro hid (not_not_intro rfl))]
  rfl

theorem visitRankBefore_run : visitRankBefore (index.locations marker) index = .ok (visitWeight before) index := by
  obtain ⟨pre, leaf, first, last, _, -, hmarkers, rfl, -, hslot, -, hfound, hrank⟩ := h.locate horder
  have hleaf : leafForLocation (index.locations marker) index = .ok leaf index := by
    rw [leafForLocation, bind_of_ok get_run, hfound]
    rfl
  rw [visitRankBefore, bind_of_ok hleaf, hrank, hslot, hmarkers, take_left, visitWeight_append, Nat.add_comm]
  rfl

/-- A run goes before the marker or after it. -/
theorem insertRun_located {firstMarker count : Nat} (hcount : 0 < count) (hmax : count ≤ MAX_INSERT_RUN)
    (hrun : ∀ added ∈ range' firstMarker count, added ∉ index.getMarkerOrder ∧
      added < MARKERS_PER_NODE * index.nextNodeHandle) :
    ∃ leaf, leafForLocation (index.locations marker) index = .ok leaf index ∧
      (∃ next, insertRun leaf.1 (slotForLocation (index.locations marker)) firstMarker count index = .ok ⟨⟩ next ∧
        Sound next ∧ next.nextNodeHandle = index.nextNodeHandle ∧
        next.getMarkerOrder = before ++ range' firstMarker count ++ marker :: after) ∧
      ∃ next, insertRun leaf.1 (slotForLocation (index.locations marker) + 1) firstMarker count index = .ok ⟨⟩ next ∧
        Sound next ∧ next.nextNodeHandle = index.nextNodeHandle ∧
        next.getMarkerOrder = before ++ marker :: (range' firstMarker count ++ after) := by
  obtain ⟨pre, leaf, first, last, post, hleaves, hmarkers, rfl, rfl, hslot, -, hfound, -⟩ := h.locate horder
  rw [hslot]
  refine ⟨leaf, ?_, ?_, ?_⟩
  · rw [leafForLocation, bind_of_ok get_run, hfound]
    rfl
  · simpa using insertRun_spec h hleaves hmarkers hcount hmax hrun
  · simpa using insertRun_spec h hleaves (hmarkers.trans (append_cons _ _ _)) hcount hmax hrun

end Held

theorem requireLocation_settles : Settles (requireLocation marker) index fun location next => next = index ∧
    location = index.locations marker ∧ marker ∈ index.getMarkerOrder := by
  by_cases hin : marker ∈ index.getMarkerOrder
  · obtain ⟨before, after, horder⟩ := append_of_mem hin
    exact .of_ok (h.requireLocation_run horder) ⟨rfl, rfl, hin⟩
  · exact .of_error (h.requireLocation_refused hin)

theorem assertMarkerRunAvailable_settles (firstMarker count : Nat) :
    Settles (assertMarkerRunAvailable firstMarker count) index fun _ next => next = index ∧
      ∀ marker ∈ range' firstMarker count, marker ∉ index.getMarkerOrder := by
  rw [Settles, assertMarkerRunAvailable, bind_of_ok get_run]
  cases hfind : (range' firstMarker count).find? fun marker => leafIdFor index marker ≠ 0 with
  | none =>
    refine ⟨rfl, fun marker hmarker hin => ?_⟩
    obtain ⟨before, after, horder⟩ := append_of_mem hin
    obtain ⟨_, _, _, _, _, -, -, -, -, -, hid, -⟩ := h.locate horder
    exact find?_eq_none.mp hfind marker hmarker (decide_eq_true hid)
  | some marker => rfl

end Sound

end Queries

section Nesting

variable {node other : Nat} {boundary otherBoundary : PackedEulerBoundary} {before after order more : List Nat}

theorem markerId_inj : markerId node boundary = markerId other otherBoundary ↔
    node = other ∧ boundary = otherBoundary := by
  cases boundary <;> cases otherBoundary <;> simp [markerId, MARKERS_PER_NODE] <;> omega

/-- The markers of trees: a node's left children are between its START and its VISIT, its right children
between its VISIT and its END. -/
inductive Nested : List Nat → Prop
  | nil : Nested []
  | node (node : Nat) {left right rest : List Nat} : Nested left → Nested right → Nested rest →
    Nested (markerId node Start :: (left ++ markerId node Visit :: (right ++ markerId node End :: rest)))

namespace Nested

theorem append (h : Nested order) (hmore : Nested more) : Nested (order ++ more) := by
  induction h with
  | nil => exact hmore
  | node node hleft hright _ _ _ ih => simpa using Nested.node node hleft hright ih

theorem single (node : Nat) : Nested [markerId node Start, markerId node Visit, markerId node End] :=
  Nested.node node .nil .nil .nil

theorem split_cons {first last : List Nat} {marker : Nat} (h : first ++ marker :: last = before ++ after) :
    (∃ middle, first = before ++ middle ∧ after = middle ++ marker :: last) ∨
      ∃ middle, before = first ++ marker :: middle ∧ last = middle ++ after := by
  obtain ⟨middle, hbefore, hlast⟩ | ⟨middle, hfirst, hafter⟩ := append_eq_append_iff.mp h
  · cases middle with
    | nil => exact .inl ⟨[], by simp [hbefore], hlast.symm⟩
    | cons next middle =>
      obtain ⟨rfl, rfl⟩ := cons.inj hlast
      exact .inr ⟨middle, hbefore, rfl⟩
  · exact .inl ⟨middle, hfirst, hafter⟩

/-- Trees may be put anywhere. -/
theorem insert (h : Nested order) (hmore : Nested more) (horder : order = before ++ after) :
    Nested (before ++ more ++ after) := by
  induction h generalizing before after with
  | nil =>
    obtain ⟨rfl, rfl⟩ := append_eq_nil_iff.mp horder.symm
    simpa using hmore
  | node node hleft hright hrest ihLeft ihRight ihRest =>
    cases before with
    | nil =>
      rw [nil_append] at horder
      exact horder ▸ hmore.append (.node node hleft hright hrest)
    | cons first before =>
      obtain ⟨rfl, hinner⟩ := cons.inj horder
      obtain ⟨middle, hsplit, rfl⟩ | ⟨middle, rfl, houter⟩ := split_cons hinner
      · simpa using Nested.node node (ihLeft hsplit) hright hrest
      · obtain ⟨middle, hsplit, rfl⟩ | ⟨middle, rfl, hlast⟩ := split_cons houter
        · simpa using Nested.node node hleft (ihRight hsplit) hrest
        · simpa using Nested.node node hleft hright (ihRest hlast)

/-- Between a node's VISIT and its END are trees, for which there may be others. -/
theorem rightChildren (h : Nested order) (hnode : markerId node Visit ∈ order) : ∃ before between after,
    order = before ++ markerId node Visit :: (between ++ markerId node End :: after) ∧ Nested between ∧
      ∀ {more}, Nested more → Nested (before ++ markerId node Visit :: (more ++ markerId node End :: after)) := by
  induction h with
  | nil => cases hnode
  | @node other left right rest hleft hright hrest ihLeft ihRight ihRest =>
    simp only [mem_cons, mem_append, markerId_inj] at hnode
    by_cases hsame : node = other
    · subst hsame
      exact ⟨markerId node Start :: left, right, rest, by simp, hright, fun hmore => by
        simpa using Nested.node node hleft hmore hrest⟩
    · have hin : markerId node Visit ∈ left ∨ markerId node Visit ∈ right ∨ markerId node Visit ∈ rest := by
        simp [hsame] at hnode
        tauto
      obtain hin | hin | hin := hin
      · obtain ⟨before, between, after, rfl, hbetween, hnested⟩ := ihLeft hin
        exact ⟨markerId other Start :: before, between,
          after ++ markerId other Visit :: (right ++ markerId other End :: rest), by simp, hbetween, fun hmore => by
            simpa using Nested.node other (hnested hmore) hright hrest⟩
      · obtain ⟨before, between, after, rfl, hbetween, hnested⟩ := ihRight hin
        exact ⟨markerId other Start :: (left ++ markerId other Visit :: before), between,
          after ++ markerId other End :: rest, by simp, hbetween, fun hmore => by
            simpa using Nested.node other hleft (hnested hmore) hrest⟩
      · obtain ⟨before, between, after, rfl, hbetween, hnested⟩ := ihRest hin
        exact ⟨markerId other Start :: (left ++ markerId other Visit :: (right ++ markerId other End :: before)),
          between, after, by simp, hbetween, fun hmore => by
            simpa using Nested.node other hleft hright (hnested hmore)⟩

end Nested

end Nesting

section Calls

variable {index : PackedEulerRankIndex} {marker : Nat} {before after markers : List Nat}

inductive Call
  | allocateNode
  | insertNodeBefore (targetNode : JsNumber) (targetBoundary : PackedEulerBoundary) (node : JsNumber)
  | insertNodeBeforeUnranked (targetNode : JsNumber) (targetBoundary : PackedEulerBoundary) (node : JsNumber)
  | insertSplitContinuation (leftNode rightNode : JsNumber)

namespace Call

/-- A call, with the number it returns if it returns one. -/
def perform : Call → Method (Option Nat)
  | allocateNode => do
    let node ← PackedEuler.allocateNode
    return some node
  | insertNodeBefore targetNode targetBoundary node => insertNodeBeforeInternal targetNode targetBoundary node true
  | insertNodeBeforeUnranked targetNode targetBoundary node =>
    insertNodeBeforeInternal targetNode targetBoundary node false
  | insertSplitContinuation leftNode rightNode => do
    PackedEuler.insertSplitContinuation leftNode rightNode
    return none

end Call

def insertBefore (target : Nat) (markers order : List Nat) : List Nat :=
  order.take (order.idxOf target) ++ markers ++ order.drop (order.idxOf target)

def insertAfter (target : Nat) (markers order : List Nat) : List Nat :=
  order.take (order.idxOf target + 1) ++ markers ++ order.drop (order.idxOf target + 1)

def nodeMarkers (node : Nat) : List Nat := [markerId node Start, markerId node Visit, markerId node End]

namespace Call

/-- The insertions of a call in a plain list. -/
def apply (order : List Nat) : Call → List Nat
  | allocateNode => order
  | insertNodeBefore targetNode targetBoundary node
  | insertNodeBeforeUnranked targetNode targetBoundary node =>
    insertBefore (markerId (handleOf targetNode) targetBoundary) (nodeMarkers (handleOf node)) order
  | insertSplitContinuation leftNode rightNode =>
    insertBefore (markerId (handleOf leftNode) End) [markerId (handleOf rightNode) End]
      (insertAfter (markerId (handleOf leftNode) Visit)
        [markerId (handleOf rightNode) Start, markerId (handleOf rightNode) Visit] order)

/-- A call on the index and, if it is accepted, on the list. -/
def step (state : PackedEulerRankIndex × List Nat) (call : Call) : PackedEulerRankIndex × List Nat :=
  match call.perform state.1 with
  | .ok _ index => (index, call.apply state.2)
  | .error _ index => (index, state.2)

/-- The rank that an accepted call returns, and what a split encloses. -/
def Accepted (result : Option Nat) (order : List Nat) : Call → Prop
  | insertNodeBefore targetNode targetBoundary _ => ∃ before after,
    order = before ++ markerId (handleOf targetNode) targetBoundary :: after ∧ result = some (visitWeight before)
  | insertSplitContinuation leftNode rightNode => ∃ before between after, Nested between ∧
    order = before ++ markerId (handleOf leftNode) Visit :: (between ++ markerId (handleOf leftNode) End :: after) ∧
      (insertSplitContinuation leftNode rightNode).apply order = before ++ markerId (handleOf leftNode) Visit ::
        (markerId (handleOf rightNode) Start :: markerId (handleOf rightNode) Visit ::
          (between ++ [markerId (handleOf rightNode) End]) ++ markerId (handleOf leftNode) End :: after)
  | _ => True

end Call

def run (calls : List Call) : PackedEulerRankIndex × List Nat :=
  calls.foldl Call.step (.reset, [0, 1, 2])

theorem insertBefore_eq (h : (before ++ marker :: after).Nodup) :
    insertBefore marker markers (before ++ marker :: after) = before ++ markers ++ marker :: after := by
  have hmarker : marker ∉ before := fun hin => (nodup_append.mp h).2.2 marker hin marker mem_cons_self rfl
  rw [insertBefore, idxOf_append_of_notMem hmarker, idxOf_cons_self, Nat.add_zero, take_left, drop_left]

theorem insertAfter_eq (h : (before ++ marker :: after).Nodup) :
    insertAfter marker markers (before ++ marker :: after) = before ++ marker :: (markers ++ after) := by
  have hmarker : marker ∉ before := fun hin => (nodup_append.mp h).2.2 marker hin marker mem_cons_self rfl
  rw [insertAfter, idxOf_append_of_notMem hmarker, idxOf_cons_self, Nat.add_zero]
  simp [take_length_add_append, drop_length_add_append]

/-- The markers of an allocated node that is not in the order may be added. -/
theorem addable {node : Nat} (hnode : node < index.nextNodeHandle)
    (hfree : ∀ marker ∈ range' (markerId node Start) MARKERS_PER_NODE, marker ∉ index.getMarkerOrder) :
    ∀ added ∈ nodeMarkers node, added ∉ index.getMarkerOrder ∧ added < MARKERS_PER_NODE * index.nextNodeHandle := by
  intro added hadded
  refine ⟨hfree added hadded, ?_⟩
  simp only [nodeMarkers, markerId, MARKERS_PER_NODE, mem_cons, not_mem_nil, or_false] at hadded ⊢
  omega

namespace Sound

variable (h : Sound index)
include h

theorem insertNodeBeforeInternal_settles (targetNode : JsNumber) (targetBoundary : PackedEulerBoundary)
    (node : JsNumber) (collectRank : Bool) :
    Settles (insertNodeBeforeInternal targetNode targetBoundary node collectRank) index fun result next =>
      Sound next ∧ ∃ before after,
        index.getMarkerOrder = before ++ markerId (handleOf targetNode) targetBoundary :: after ∧
        next.getMarkerOrder =
          before ++ nodeMarkers (handleOf node) ++ markerId (handleOf targetNode) targetBoundary :: after ∧
        result = if collectRank then some (visitWeight before) else none := by
  refine (assertAllocatedNode_settles targetNode).bind ?_
  rintro _ ⟨rfl, -⟩
  refine (assertAllocatedNode_settles node).bind ?_
  rintro _ ⟨rfl, hnode⟩
  refine (h.assertMarkerRunAvailable_settles _ _).bind fun _ hfree => h.requireLocation_settles.bind ?_
  rintro _ ⟨rfl, hin⟩
  obtain ⟨before, after, horder⟩ := append_of_mem hin
  obtain ⟨leaf, hleaf, ⟨next, hinsert, hnext, -, hmore⟩, -⟩ :=
    h.insertRun_located horder (by decide : 0 < MARKERS_PER_NODE) (by decide) (addable hnode hfree)
  have hrest {rank : Option Nat} : (do
      let leaf ← leafForLocation (index.locations (markerId (handleOf targetNode) targetBoundary))
      insertRun leaf.1 (slotForLocation (index.locations (markerId (handleOf targetNode) targetBoundary)))
        (markerId (handleOf node) Start) MARKERS_PER_NODE
      return rank : Method (Option Nat)) index = .ok rank next := by
    rw [bind_of_ok hleaf, bind_of_ok hinsert]
    rfl
  cases collectRank with
  | false => exact .of_ok hrest ⟨hnext, before, after, horder, hmore, rfl⟩
  | true =>
    have hrank : (some <$> visitRankBefore (index.locations (markerId (handleOf targetNode) targetBoundary)))
        index = .ok (some (visitWeight before)) index := bind_of_ok (h.visitRankBefore_run horder)
    exact .of_ok ((bind_of_ok hrank).trans hrest) ⟨hnext, before, after, horder, hmore, rfl⟩

theorem allocateNode_settles : Settles allocateNode index fun _ next =>
    Sound next ∧ next.getMarkerOrder = index.getMarkerOrder := by
  rw [Settles, allocateNode, bind_of_ok get_run]
  by_cases hfull : MAX_NODE_HANDLE < index.nextNodeHandle
  · rw [if_pos hfull]
    rfl
  · rw [if_neg hfull]
    refine ⟨{ h with allocated := fun marker hmarker => ?_, handles := ?_ }, rfl⟩
    · exact Nat.lt_of_lt_of_le (h.allocated marker hmarker) (Nat.mul_le_mul_left _ (Nat.le_succ _))
    · exact Nat.succ_le_succ (Nat.le_of_not_lt hfull)

variable (hnested : Nested index.getMarkerOrder)
include hnested

theorem insertSplitContinuation_settles (leftNode rightNode : JsNumber) :
    Settles (insertSplitContinuation leftNode rightNode) index fun _ next =>
      Sound next ∧ Nested next.getMarkerOrder ∧
        next.getMarkerOrder = (Call.insertSplitContinuation leftNode rightNode).apply index.getMarkerOrder ∧
        (Call.insertSplitContinuation leftNode rightNode).Accepted none index.getMarkerOrder := by
  refine (assertAllocatedNode_settles leftNode).bind ?_
  rintro _ ⟨rfl, -⟩
  refine (assertAllocatedNode_settles rightNode).bind ?_
  rintro _ ⟨rfl, hright⟩
  rw [Call.Accepted, Call.apply]
  generalize handleOf leftNode = l
  generalize handleOf rightNode = r at hright ⊢
  by_cases hroot : l = 0
  · rw [if_pos hroot]
    exact .of_error rfl
  rw [if_neg hroot]
  refine (h.assertMarkerRunAvailable_settles _ _).bind fun _ hfree => h.requireLocation_settles.bind ?_
  rintro _ ⟨rfl, hvisit⟩
  have hadd := addable hright hfree
  obtain ⟨before, between, after, horder, hbetween, hput⟩ := hnested.rightChildren hvisit
  obtain ⟨leaf, hleaf, -, middle, hinsert, hmiddle, hhandles, hmore⟩ :=
    h.insertRun_located horder (by decide : 0 < 2) (by decide) fun added hadded =>
      hadd added (mem_append_left [markerId r End] hadded)
  have hsplit : middle.getMarkerOrder = (before ++ markerId l Visit :: markerId r Start :: markerId r Visit ::
      between) ++ markerId l End :: after := by
    rw [hmore]
    simp [range', markerId, MARKERS_PER_NODE]
  have hend : ∀ added ∈ range' (markerId r End) 1, added ∉ middle.getMarkerOrder ∧
      added < MARKERS_PER_NODE * middle.nextNodeHandle := by
    intro added hadded
    obtain rfl : added = markerId r End := by simpa using hadded
    obtain ⟨hout, hbound⟩ := hadd (markerId r End) (by simp [nodeMarkers])
    rw [horder] at hout
    rw [hsplit, hhandles]
    refine ⟨?_, hbound⟩
    simp only [mem_append, mem_cons, markerId_inj, not_or] at hout ⊢
    simp [hout]
  obtain ⟨last, hlast, ⟨next, hinsertEnd, hnext, -, hnextOrder⟩, -⟩ :=
    hmiddle.insertRun_located hsplit Nat.one_pos (by decide) hend
  have hfinal : next.getMarkerOrder = before ++ markerId l Visit ::
      (markerId r Start :: markerId r Visit :: (between ++ [markerId r End]) ++ markerId l End :: after) := by
    rw [hnextOrder]
    simp
  have happly : insertBefore (markerId l End) [markerId r End]
      (insertAfter (markerId l Visit) [markerId r Start, markerId r Visit] index.getMarkerOrder) =
        next.getMarkerOrder := by
    have hunique := hmiddle.unique
    rw [hsplit] at hunique
    rw [horder, insertAfter_eq (horder ▸ h.unique), hnextOrder]
    refine Eq.trans ?_ (insertBefore_eq hunique)
    simp
  refine .of_ok ((bind_of_ok hleaf).trans ((bind_of_ok hinsert).trans ((bind_of_ok
    (hmiddle.requireLocation_run hsplit)).trans ((bind_of_ok hlast).trans hinsertEnd)))) ⟨hnext, ?_, happly.symm,
      before, between, after, hbetween, horder, happly.trans hfinal⟩
  rw [hfinal]
  exact hput (by simpa using Nested.node r .nil hbetween .nil)

/-- A call changes nothing, or the list takes the same insertions. -/
theorem perform_settles (call : Call) : Settles call.perform index fun result next =>
    Sound next ∧ Nested next.getMarkerOrder ∧ next.getMarkerOrder = call.apply index.getMarkerOrder ∧
      call.Accepted result index.getMarkerOrder := by
  have hinsert {next : PackedEulerRankIndex} {before after : List Nat} {marker node : Nat}
      (horder : index.getMarkerOrder = before ++ marker :: after)
      (hmore : next.getMarkerOrder = before ++ nodeMarkers node ++ marker :: after) : Nested next.getMarkerOrder ∧
        next.getMarkerOrder = insertBefore marker (nodeMarkers node) index.getMarkerOrder := by
    rw [hmore]
    refine ⟨hnested.insert (.single node) horder, ?_⟩
    rw [horder, insertBefore_eq (horder ▸ h.unique)]
  cases call with
  | allocateNode =>
    refine .map (h.allocateNode_settles.mono ?_)
    rintro _ next ⟨hnext, hsame⟩
    exact ⟨hnext, hsame ▸ hnested, hsame, trivial⟩
  | insertNodeBefore targetNode targetBoundary node =>
    refine (h.insertNodeBeforeInternal_settles targetNode targetBoundary node true).mono ?_
    rintro result next ⟨hnext, before, after, horder, hmore, hresult⟩
    obtain ⟨hnested, happly⟩ := hinsert horder hmore
    exact ⟨hnext, hnested, happly, before, after, horder, hresult⟩
  | insertNodeBeforeUnranked targetNode targetBoundary node =>
    refine (h.insertNodeBeforeInternal_settles targetNode targetBoundary node false).mono ?_
    rintro result next ⟨hnext, before, after, horder, hmore, -⟩
    obtain ⟨hnested, happly⟩ := hinsert horder hmore
    exact ⟨hnext, hnested, happly, trivial⟩
  | insertSplitContinuation leftNode rightNode =>
    exact .map (h.insertSplitContinuation_settles hnested leftNode rightNode)

end Sound

theorem reset_sound : Sound .reset := by
  have hlocated : Located PackedEulerRankIndex.reset.locations (1, [] ++ [0, 1, 2]) :=
    located_setLocations (by decide) fun _ _ hplace => by cases hplace
  exact ⟨⟨0, rfl⟩, by decide, by decide, by decide, by decide, by decide, forall_mem_singleton.mpr hlocated,
    fun _ => setLocations_of_notMem, by decide, by decide⟩

/-- The index stands for the plain list of the markers. -/
structure Refines (index : PackedEulerRankIndex) (order : List Nat) : Prop where
  markerOrder : index.getMarkerOrder = order
  unique : order.Nodup
  nested : Nested order
  stored : ∀ marker ∈ order, ∃ leaf,
    index.leavesById (index.locations marker / LOCATION_SLOT_STRIDE) = some leaf ∧
      leaf.1.markers[slotForLocation (index.locations marker)]? = some marker
  ranked : ∀ (node : Nat) (before after : List Nat), order = before ++ markerId node Visit :: after →
    rankOfVisit (.ofInt node) index = .ok (visitWeight before) index
  capacity : ∀ leaf ∈ index.root.leaves, leaf.2.length ≤ LEAF_CAPACITY
  formed : ∃ depth, index.root.Formed depth

theorem Sound.refines (h : Sound index) (hnested : Nested index.getMarkerOrder) :
    Refines index index.getMarkerOrder := by
  refine ⟨rfl, h.unique, hnested, fun marker hmarker => ?_, fun node before after horder => ?_, h.capacity, h.formed⟩
  · obtain ⟨before, after, horder⟩ := append_of_mem hmarker
    obtain ⟨_, leaf, first, last, _, -, hmarkers, -, -, hslot, -, hfound, -⟩ := h.locate horder
    exact ⟨leaf, hfound, by simp [hslot, hmarkers]⟩
  · have hbound := h.allocated (markerId node Visit) (by simp [horder])
    have hallocated : isAllocated index (.ofInt node) = true := by
      simp only [markerId, MARKERS_PER_NODE] at hbound
      simp [isAllocated, JsNumber.ofInt]
      omega
    have hassert : assertAllocatedNode (.ofInt node) index = .ok node index := by
      rw [assertAllocatedNode, bind_of_ok get_run, if_pos hallocated]
      rfl
    exact (bind_of_ok hassert).trans ((bind_of_ok (h.requireLocation_run horder)).trans (h.visitRankBefore_run horder))

theorem run_sound (calls : List Call) : Sound (run calls).1 ∧ Nested (run calls).1.getMarkerOrder ∧
    (run calls).1.getMarkerOrder = (run calls).2 := by
  refine foldlRecOn (motive := fun state => Sound state.1 ∧ Nested state.1.getMarkerOrder ∧
    state.1.getMarkerOrder = state.2) calls Call.step ?_ ?_
  · exact ⟨reset_sound, .single 0, rfl⟩
  rintro ⟨index, order⟩ ⟨h, hnested, heq⟩ call -
  dsimp only at h hnested heq
  subst heq
  have hsettles := h.perform_settles hnested call
  rw [Settles] at hsettles
  rw [Call.step]
  cases hcall : call.perform index with
  | ok result next =>
    rw [hcall] at hsettles
    exact ⟨hsettles.1, hsettles.2.1, hsettles.2.2.1⟩
  | error error next =>
    rw [hcall] at hsettles
    rw [hsettles]
    exact ⟨h, hnested, rfl⟩

/-- In a run every state refines the list of its accepted insertions, and every call is refused without a
change or does its insertions. -/
theorem run_refines (calls : List Call) : Refines (run calls).1 (run calls).2 ∧ ∀ call : Call,
    Settles call.perform (run calls).1 fun result next =>
      Refines next (call.apply (run calls).2) ∧ call.Accepted result (run calls).2 := by
  obtain ⟨h, hnested, horder⟩ := run_sound calls
  rw [← horder]
  refine ⟨h.refines hnested, fun call => (h.perform_settles hnested call).mono ?_⟩
  rintro result next ⟨hnext, hnested', happly, haccepted⟩
  rw [← happly]
  exact ⟨hnext.refines hnested', haccepted⟩

end Calls
end Softmaple.PackedEuler
