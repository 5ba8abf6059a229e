import Mathlib

/-!
The order-maintenance list: items linked in a ring after a sentinel, each with
an integer label of a circular arena, so that two items are compared by the
labels' distances from the sentinel. An insertion that finds no room spreads the
labels of a region evenly. The ring of `orderNext` links is the list of its
nodes clockwise from the sentinel; the counters that only statistics read are
left out.
-/
namespace Softmaple.OrderMaintenance

def labelArenaSize : Nat := 2 ^ 52

/-- A node of the ring; `none` is the sentinel. -/
abbrev Node (ι : Type) := Option ι

structure OrderMaintenanceList (ι : Type) where
  /-- The sentinel and the nodes its `orderNext` links lead to. -/
  ring : List (Node ι) := [none]
  orderLabel : Node ι → Nat := fun _ => 0
  /-- An item that was never linked has generation 0. -/
  orderGeneration : ι → Nat := fun _ => 0
  generation : Nat := 0

variable {ι : Type} [DecidableEq ι]

def clockwiseDistance (label : Node ι → Nat) (source target : Node ι) : Nat :=
  if source = target then labelArenaSize
  else if label source < label target then label target - label source
  else labelArenaSize - label source + label target

def addLabel (label distance : Nat) : Nat :=
  let distanceToEnd := labelArenaSize - label
  if distanceToEnd ≤ distance then distance - distanceToEnd else label + distance

/-- A label as seen from another one, as `relativeToSentinel` computes it. -/
def relativeTo (start label : Nat) : Nat :=
  if start ≤ label then label - start else labelArenaSize - start + label

/-- The scan of `insertAfterNode` over the nodes that `orderNext` leads to from
`predecessor`, the last of which is `predecessor` again. -/
def scan (label : Node ι → Nat) (predecessor : Node ι) (itemCount : Nat) :
    Nat → List (Node ι) → Except String (Nat × Nat)
  | _, [] => throw "Order-maintenance labels exhausted"
  | coveredNodes, successor :: successors =>
    let distance := clockwiseDistance label predecessor successor
    if distance ≤ coveredNodes * coveredNodes then
      if itemCount + 1 < coveredNodes + 1 then
        throw "Order-maintenance labels exhausted"
      else scan label predecessor itemCount (coveredNodes + 1) successors
    else pure (coveredNodes, distance)

/-- The relabelling loop of `insertAfterNode`; the first `widerGapCount` gaps
are one wider. -/
def relabel (predecessor : Node ι) (baseGap widerGapCount : Nat) :
    Nat → Nat → List (Node ι) → (Node ι → Nat) → Node ι → Nat
  | _, _, [], label => label
  | index, cumulativeDistance, node :: nodes, label =>
    let cumulativeDistance :=
      cumulativeDistance + (baseGap + if index ≤ widerGapCount then 1 else 0)
    relabel predecessor baseGap widerGapCount (index + 1) cumulativeDistance nodes
      (Function.update label node (addLabel (label predecessor) cumulativeDistance))

namespace OrderMaintenanceList

variable (l : OrderMaintenanceList ι)

def itemCount : Nat := l.ring.length - 1

def toArray : List ι := l.ring.tail.filterMap id

def contains (item : ι) : Bool := l.orderGeneration item == l.generation

def relativeToSentinel (label : Nat) : Nat := relativeTo (l.orderLabel none) label

def before (node : Node ι) : List (Node ι) := l.ring.takeWhile (· ≠ node)

def after (node : Node ι) : List (Node ι) := (l.ring.dropWhile (· ≠ node)).tail

def orderPrevious (node : Node ι) : Node ι :=
  (l.after node ++ l.before node).getLast?.getD node

def assertCapacity (itemCount : Nat) : Except String Unit :=
  let totalNodeCount := itemCount + 1
  if labelArenaSize ≤ totalNodeCount * totalNodeCount then
    throw "Order-maintenance capacity exceeded"
  else pure ()

def resetFromItems (items : List ι) : Except String (OrderMaintenanceList ι) := do
  assertCapacity items.length
  if ¬ items.Nodup then throw "Order-maintenance item is duplicated"
  let gap := labelArenaSize / (items.length + 1)
  pure {
    ring := none :: items.map some
    orderLabel := fun
      | none => 0
      | some item =>
        if item ∈ items then gap * (items.idxOf item + 1) else l.orderLabel (some item)
    orderGeneration := fun item =>
      if item ∈ items then l.generation + 1 else l.orderGeneration item
    generation := l.generation + 1 }

def canInsert (items : List ι) : Except String Bool :=
  if items.Nodup ∧ ∀ item ∈ items, ¬ l.contains item then do
    assertCapacity (l.itemCount + items.length)
    pure true
  else pure false

def canInsertOne (item : ι) : Except String Bool :=
  if l.contains item then pure false
  else do
    assertCapacity (l.itemCount + 1)
    pure true

def insertAfterNode (predecessor : Node ι) (item : ι) :
    Except String (OrderMaintenanceList ι) := do
  let successors := l.after predecessor ++ l.before predecessor
  let (coveredNodes, distance) ←
    scan l.orderLabel predecessor l.itemCount 1 (successors ++ [predecessor])
  let baseGap := distance / coveredNodes
  let widerGapCount := distance - baseGap * coveredNodes
  let label := relabel predecessor baseGap widerGapCount 1 0
    (successors.take (coveredNodes - 1)) l.orderLabel
  let firstGap := baseGap + if 0 < widerGapCount then 1 else 0
  pure { l with
    ring := l.before predecessor ++ predecessor :: some item :: l.after predecessor
    orderLabel := Function.update label (some item)
      (addLabel (label predecessor) (firstGap / 2))
    orderGeneration := Function.update l.orderGeneration item l.generation }

def insertRunAfter (l : OrderMaintenanceList ι) :
    Node ι → List ι → Except String (OrderMaintenanceList ι)
  | _, [] => pure l
  | predecessor, item :: items => do
    let l ← l.insertAfterNode predecessor item
    insertRunAfter l (some item) items

def compare (left right : ι) : Except String Int :=
  if ¬ l.contains left ∨ ¬ l.contains right then
    throw "Order-maintenance item is unavailable"
  else if left = right then pure 0
  else if l.relativeToSentinel (l.orderLabel (some left)) <
      l.relativeToSentinel (l.orderLabel (some right)) then pure (-1)
  else pure 1

end OrderMaintenanceList

open OrderMaintenanceList

/-- The calls that change the list. -/
inductive Operation (ι : Type) where
  | resetFromItems (items : List ι)
  | insertManyBefore (anchor : ι) (items : List ι)
  | insertBefore (anchor item : ι)
  | insertManyAtStart (items : List ι)
  | insertAtStart (item : ι)
  | insertManyAtEnd (items : List ι)
  | insertAtEnd (item : ι)
  | insertManyAfter (anchor : ι) (items : List ι)
  | insertAfter (anchor item : ι)

def insertRun (l : OrderMaintenanceList ι) (predecessor : Node ι) (items : List ι)
    (allowed : Except String Bool) : Except String (Bool × OrderMaintenanceList ι) := do
  if ← allowed then
    let l ← l.insertRunAfter predecessor items
    pure (true, l)
  else pure (false, l)

def anchored (l : OrderMaintenanceList ι) (anchor : ι) (allowed : Except String Bool) :
    Except String Bool :=
  if l.contains anchor then allowed else pure false

/-- A single insertion is a run of one item: `insertAfterNode` once. -/
def perform (l : OrderMaintenanceList ι) :
    Operation ι → Except String (Bool × OrderMaintenanceList ι)
  | .resetFromItems items => do pure (true, ← l.resetFromItems items)
  | .insertManyBefore anchor items =>
    insertRun l (l.orderPrevious (some anchor)) items (anchored l anchor (l.canInsert items))
  | .insertBefore anchor item =>
    insertRun l (l.orderPrevious (some anchor)) [item] (anchored l anchor (l.canInsertOne item))
  | .insertManyAtStart items => insertRun l none items (l.canInsert items)
  | .insertAtStart item => insertRun l none [item] (l.canInsertOne item)
  | .insertManyAtEnd items => insertRun l (l.orderPrevious none) items (l.canInsert items)
  | .insertAtEnd item => insertRun l (l.orderPrevious none) [item] (l.canInsertOne item)
  | .insertManyAfter anchor items =>
    insertRun l (some anchor) items (anchored l anchor (l.canInsert items))
  | .insertAfter anchor item =>
    insertRun l (some anchor) [item] (anchored l anchor (l.canInsertOne item))

/-- A call that throws leaves the list as it was: all throws but the scan's come
before the first write, and the scan's is never reached. -/
def step (l : OrderMaintenanceList ι) (operation : Operation ι) : OrderMaintenanceList ι :=
  match perform l operation with
  | .ok (_, l') => l'
  | .error _ => l

/-- The list a constructor call and a sequence of calls lead to. -/
def run (items : List ι) (operations : List (Operation ι)) :
    Except String (OrderMaintenanceList ι) := do
  let l ← ({} : OrderMaintenanceList ι).resetFromItems items
  pure (operations.foldl step l)

section Arena

variable {label : Node ι → Nat}

theorem relativeTo_self (start : Nat) : relativeTo start start = 0 := by
  simp [relativeTo]

theorem relativeTo_of_le {start x : Nat} (h : start ≤ x) : relativeTo start x = x - start :=
  if_pos h

theorem relativeTo_of_lt {start x : Nat} (h : x < start) :
    relativeTo start x = labelArenaSize - start + x :=
  if_neg (Nat.not_le.2 h)

theorem relativeTo_lt {start x : Nat} (hs : start < labelArenaSize) (hx : x < labelArenaSize) :
    relativeTo start x < labelArenaSize := by
  unfold relativeTo
  split <;> omega

theorem relativeTo_relativeTo {start x y : Nat} (hs : start < labelArenaSize)
    (hx : x < labelArenaSize) (hy : y < labelArenaSize) :
    relativeTo (relativeTo start x) (relativeTo start y) = relativeTo x y := by
  unfold relativeTo
  split_ifs <;> omega

theorem relativeTo_addLabel {start distance : Nat} (hs : start < labelArenaSize)
    (hd : distance < labelArenaSize) :
    relativeTo start (addLabel start distance) = distance ∧
      addLabel start distance < labelArenaSize := by
  simp only [addLabel, relativeTo]
  split_ifs <;> omega

theorem clockwiseDistance_eq {source target : Node ι}
    (h : 0 < relativeTo (label source) (label target)) :
    clockwiseDistance label source target = relativeTo (label source) (label target) := by
  have hne : source ≠ target := by
    rintro rfl
    simp [relativeTo_self] at h
  simp only [clockwiseDistance, relativeTo, hne, if_false] at h ⊢
  split_ifs at h ⊢ <;> omega

def Circle (label : Node ι → Nat) : List (Node ι) → Prop
  | [] => True
  | node :: nodes =>
    (∀ m ∈ node :: nodes, label m < labelArenaSize) ∧
      (node :: nodes).Pairwise fun a b =>
        relativeTo (label node) (label a) < relativeTo (label node) (label b)

omit [DecidableEq ι] in
theorem Circle.rotate {xs ys : List (Node ι)} (h : Circle label (xs ++ ys)) :
    Circle label (ys ++ xs) := by
  cases xs with
  | nil => simpa using h
  | cons p xs =>
    cases ys with
    | nil => simpa using h
    | cons q ys =>
      have hsm : ∀ m ∈ q :: ys ++ p :: xs, label m < labelArenaSize := fun m hm =>
        h.1 m (List.mem_append.2 (List.mem_append.1 hm).symm)
      refine ⟨hsm, ?_⟩
      have hp : label p < labelArenaSize := hsm p (by simp)
      -- every distance from `q` is one from `p`, turned by the distance of `q`
      have hturn : ∀ m ∈ q :: ys ++ p :: xs, relativeTo (label q) (label m) =
          relativeTo (relativeTo (label p) (label q)) (relativeTo (label p) (label m)) :=
        fun m hm => (relativeTo_relativeTo hp (hsm q (by simp)) (hsm m hm)).symm
      have hpair : (p :: xs ++ q :: ys).Pairwise fun a b =>
          relativeTo (label p) (label a) < relativeTo (label p) (label b) := h.2
      obtain ⟨hleft, hright, hcross⟩ := List.pairwise_append.1 hpair
      have hafter : ∀ a ∈ q :: ys,
          relativeTo (label p) (label q) ≤ relativeTo (label p) (label a) := by
        intro a ha
        rcases List.mem_cons.1 ha with rfl | ha
        · exact le_rfl
        · exact ((List.pairwise_cons.1 hright).1 a ha).le
      change (q :: ys ++ p :: xs).Pairwise fun a b =>
        relativeTo (label q) (label a) < relativeTo (label q) (label b)
      refine List.pairwise_append.2 ⟨?_, ?_, fun a ha b hb => ?_⟩
      · refine hright.imp_of_mem fun {a b} ha hb hab => ?_
        have hqa := hafter a ha
        rw [hturn a (List.mem_append_left _ ha), hturn b (List.mem_append_left _ hb),
          relativeTo_of_le hqa, relativeTo_of_le (hqa.trans hab.le)]
        exact Nat.sub_lt_sub_right hqa hab
      · refine hleft.imp_of_mem fun {a b} ha hb hab => ?_
        rw [hturn a (List.mem_append_right _ ha), hturn b (List.mem_append_right _ hb),
          relativeTo_of_lt (hcross a ha q (by simp)),
          relativeTo_of_lt (hcross b hb q (by simp))]
        exact Nat.add_lt_add_left hab _
      · have hqa := hafter a ha
        have ha' := relativeTo_lt hp (hsm a (List.mem_append_left _ ha))
        rw [hturn a (List.mem_append_left _ ha), hturn b (List.mem_append_right _ hb),
          relativeTo_of_le hqa, relativeTo_of_lt (hcross b hb q (by simp))]
        omega

end Arena

section Insertion

variable {label : Node ι → Nat} {p : Node ι} {count : Nat}

theorem scan_found (hroom : (count + 1) * (count + 1) < labelArenaSize) {nodes : List (Node ι)}
    (hsmall : label p < labelArenaSize ∧ ∀ n ∈ nodes, label n < labelArenaSize)
    (hnodes : (p :: nodes).Pairwise fun a b =>
      relativeTo (label p) (label a) < relativeTo (label p) (label b)) {c : Nat}
    (hc : c + nodes.length = count + 1) :
    ∃ k d, k ≤ nodes.length ∧ scan label p count c (nodes ++ [p]) = .ok (c + k, d) ∧
      (c + k) * (c + k) < d ∧ d ≤ labelArenaSize ∧
      ∀ n ∈ nodes.drop k, d ≤ relativeTo (label p) (label n) := by
  induction nodes generalizing c with
  | nil =>
    have hc' : c = count + 1 := hc
    subst hc'
    refine ⟨0, labelArenaSize, le_rfl, ?_, hroom, le_rfl, by simp⟩
    simp [scan, clockwiseDistance, Nat.not_le.2 hroom, pure, Except.pure]
  | cons n nodes ih =>
    have hpos : 0 < relativeTo (label p) (label n) := by
      simpa [relativeTo_self] using (List.pairwise_cons.1 hnodes).1 n (by simp)
    have hlater := (List.pairwise_cons.1 (List.pairwise_cons.1 hnodes).2).1
    simp only [List.cons_append, scan, clockwiseDistance_eq hpos]
    split
    · have hmore : ¬ count + 1 < c + 1 := by simp at hc; omega
      obtain ⟨k, d, hk, hscan, hd⟩ := ih (c := c + 1)
        ⟨hsmall.1, fun m hm => hsmall.2 m (List.mem_cons_of_mem _ hm)⟩ (hnodes.sublist (by simp)) (by simp at hc; omega)
      refine ⟨k + 1, d, by simpa using hk, ?_, ?_⟩
      · rw [if_neg hmore, hscan, Nat.add_assoc, Nat.add_comm 1]
      · simpa [Nat.add_assoc, Nat.add_comm 1] using hd
    · rename_i hfar
      refine ⟨0, _, Nat.zero_le _, rfl, Nat.not_le.1 hfar,
        (relativeTo_lt hsmall.1 (hsmall.2 n (by simp))).le, fun m hm => ?_⟩
      · rcases List.mem_cons.1 hm with rfl | hm
        · exact le_rfl
        · exact (hlater m hm).le

theorem relabel_spec {baseGap wider distance : Nat} (hp : label p < labelArenaSize)
    (hbase : 0 < baseGap) (hdist : distance ≤ labelArenaSize) {nodes : List (Node ι)}
    (hnodes : (p :: nodes).Nodup) {index cumulative : Nat}
    (hroom : cumulative + (nodes.length + 1) * baseGap + (wider + 1 - index) ≤ distance) :
    let label' := relabel p baseGap wider index cumulative nodes label
    (∀ m ∉ nodes, label' m = label m) ∧
      (∀ n ∈ nodes, label' n < labelArenaSize ∧
        cumulative + baseGap + (if index ≤ wider then 1 else 0) ≤
          relativeTo (label p) (label' n) ∧ relativeTo (label p) (label' n) < distance) ∧
      nodes.Pairwise fun a b =>
        relativeTo (label p) (label' a) < relativeTo (label p) (label' b) := by
  induction nodes generalizing index cumulative label with
  | nil => simp [relabel]
  | cons n nodes ih =>
    simp only [List.nodup_cons, List.mem_cons, not_or] at hnodes
    obtain ⟨⟨hpn, hpns⟩, hn, hnd⟩ := hnodes
    rw [List.length_cons, Nat.succ_mul, Nat.succ_mul] at hroom
    simp only [relabel]
    set gap := baseGap + (if index ≤ wider then 1 else 0) with hgap
    set label₁ := Function.update label n (addLabel (label p) (cumulative + gap)) with hlabel
    have hp₁ : label₁ p = label p := Function.update_of_ne hpn _ _
    have hstep : cumulative + gap + nodes.length * baseGap + baseGap + (wider + 1 - (index + 1)) ≤
        distance := by
      split_ifs at hgap <;> omega
    have hn₁ : relativeTo (label p) (addLabel (label p) (cumulative + gap)) = cumulative + gap ∧
        addLabel (label p) (cumulative + gap) < labelArenaSize :=
      relativeTo_addLabel hp (by omega)
    obtain ⟨hframe, hbounds, hpair⟩ := @ih label₁ (by rwa [hp₁]) (by simp [hpns, hnd])
      (index + 1) (cumulative + gap) (by rw [Nat.succ_mul]; omega)
    rw [hp₁] at hbounds hpair
    have hlast := hframe n hn
    rw [hlabel, Function.update_self, ← hlabel] at hlast
    refine ⟨fun m hm => ?_, fun m hm => ?_, ?_⟩
    · rw [List.mem_cons, not_or] at hm
      rw [hframe m hm.2, hlabel, Function.update_of_ne hm.1]
    · rcases List.mem_cons.1 hm with rfl | hm
      · rw [hlast, hn₁.1]
        exact ⟨hn₁.2, by omega, by omega⟩
      · have := hbounds m hm
        exact ⟨this.1, by omega, this.2.2⟩
    · refine List.pairwise_cons.2 ⟨fun m hm => ?_, hpair⟩
      rw [hlast, hn₁.1]
      have := (hbounds m hm).2.1
      omega

omit [DecidableEq ι] in
theorem Circle.nodup {nodes : List (Node ι)} (h : Circle label nodes) : nodes.Nodup := by
  cases nodes with
  | nil => exact List.nodup_nil
  | cons p nodes => exact h.2.imp fun hab heq => by simp [heq] at hab

theorem Circle.insert {nodes : List (Node ι)} (h : Circle label (p :: nodes))
    (hroom : (nodes.length + 1) * (nodes.length + 1) < labelArenaSize) {n : Node ι}
    (hn : n ∉ p :: nodes) :
    ∃ c d, scan label p nodes.length 1 (nodes ++ [p]) = .ok (c, d) ∧
      let label' := relabel p (d / c) (d - d / c * c) 1 0 (nodes.take (c - 1)) label
      Circle (Function.update label' n (addLabel (label' p)
        ((d / c + if 0 < d - d / c * c then 1 else 0) / 2))) (p :: n :: nodes) := by
  have hnd := h.nodup
  obtain ⟨hsmall, hpair⟩ := h
  have hps := hsmall p (by simp)
  obtain ⟨k, d, hk, hscan, hfar, hd, hrest⟩ := scan_found hroom
    ⟨hps, fun m hm => hsmall m (List.mem_cons_of_mem _ hm)⟩ hpair (Nat.add_comm _ _)
  rw [Nat.add_comm 1 k] at hscan hfar
  refine ⟨k + 1, d, hscan, ?_⟩
  rw [Nat.add_sub_cancel]
  -- the scan stopped with room for a first gap of two
  have hc : k + 1 ≤ d / (k + 1) := (Nat.le_div_iff_mul_le (by omega)).2 hfar.le
  have hmul : d / (k + 1) * (k + 1) ≤ d := Nat.div_mul_le_self _ _
  have htwo : 2 ≤ d / (k + 1) := by
    rcases Nat.eq_zero_or_pos k with rfl | hk0
    · simpa using Nat.succ_le_of_lt hfar
    · omega
  generalize d / (k + 1) = base at *
  generalize hwider : d - base * (k + 1) = wider
  have hlen : (nodes.take k).length = k := by simpa using hk
  have hspec := @relabel_spec _ _ label p base wider d hps (by omega) hd (nodes.take k)
    (hnd.sublist ((List.take_sublist k nodes).cons_cons p)) 1 0
    (by rw [hlen, Nat.mul_comm]; omega)
  intro label'
  obtain ⟨hframe, hbounds, hinc⟩ : _ ∧ _ ∧ _ := hspec
  have hp' : label' p = label p := hframe p fun hm =>
    (List.nodup_cons.1 hnd).1 (List.mem_of_mem_take hm)
  generalize hhalf : (base + if 0 < wider then 1 else 0) / 2 = half
  have hhalf' : 1 ≤ half ∧ half < base + (if 1 ≤ wider then 1 else 0) ∧ half < d := by
    have hle : base ≤ d := (Nat.le_mul_of_pos_right _ k.succ_pos).trans hmul
    split_ifs at hhalf ⊢ <;> omega
  have hnew := relativeTo_addLabel hps (hhalf'.2.2.trans_le hd)
  rw [hp']
  set f := Function.update label' n (addLabel (label p) half) with hf
  have hfn : f n = addLabel (label p) half := Function.update_self ..
  have hf' : ∀ m ∈ p :: nodes, f m = label' m := fun m hm =>
    Function.update_of_ne (ne_of_mem_of_not_mem hm hn) ..
  have hfp : f p = label p := (hf' p (by simp)).trans hp'
  obtain ⟨-, hdrop, hdisj⟩ := List.nodup_append.1
    ((List.take_append_drop k nodes).symm ▸ (List.nodup_cons.1 hnd).2)
  have hnear : ∀ m ∈ nodes.take k, f m < labelArenaSize ∧
      half < relativeTo (label p) (f m) ∧ relativeTo (label p) (f m) < d := by
    intro m hm
    rw [hf' m (List.mem_cons_of_mem _ (List.mem_of_mem_take hm))]
    obtain ⟨hsm, hge, hlt⟩ := hbounds m hm
    rw [Nat.zero_add] at hge
    exact ⟨hsm, hhalf'.2.1.trans_le hge, hlt⟩
  have hkept : ∀ m ∈ nodes.drop k, f m = label m := fun m hm =>
    (hf' m (List.mem_cons_of_mem _ (List.mem_of_mem_drop hm))).trans
      (hframe m fun ht => hdisj m ht m hm rfl)
  have hsplit : ∀ m ∈ nodes, m ∈ nodes.take k ∨ m ∈ nodes.drop k := fun m hm =>
    List.mem_append.1 ((List.take_append_drop k nodes).symm ▸ hm)
  have hnodes : nodes.Pairwise fun a b =>
      relativeTo (label p) (f a) < relativeTo (label p) (f b) := by
    rw [← List.take_append_drop k nodes]
    refine List.pairwise_append.2 ⟨?_, ?_, fun a ha b hb => ?_⟩
    · refine hinc.imp_of_mem fun {a b} ha hb hab => ?_
      rwa [hf' a (List.mem_cons_of_mem _ (List.mem_of_mem_take ha)),
        hf' b (List.mem_cons_of_mem _ (List.mem_of_mem_take hb))]
    · refine ((List.pairwise_cons.1 hpair).2.drop).imp_of_mem fun {a b} ha hb hab => ?_
      rwa [hkept a ha, hkept b hb]
    · rw [hkept b hb]
      exact (hnear a ha).2.2.trans_le (hrest b hb)
  have hbehind : ∀ m ∈ nodes, half < relativeTo (label p) (f m) := by
    intro m hm
    rcases hsplit m hm with hm | hm
    · exact (hnear m hm).2.1
    · rw [hkept m hm]
      exact hhalf'.2.2.trans_le (hrest m hm)
  refine ⟨fun m hm => ?_, ?_⟩
  · rcases List.mem_cons.1 hm with rfl | hm
    · rwa [hfp]
    rcases List.mem_cons.1 hm with rfl | hm
    · rw [hfn]; exact hnew.2
    rcases hsplit m hm with hm' | hm'
    · exact (hnear m hm').1
    · rw [hkept m hm']; exact hsmall m (List.mem_cons_of_mem _ hm)
  · rw [hfp]
    refine List.pairwise_cons.2 ⟨fun m hm => ?_, List.pairwise_cons.2 ⟨fun m hm => ?_, hnodes⟩⟩
    · rw [hfp, relativeTo_self]
      rcases List.mem_cons.1 hm with rfl | hm
      · rw [hfn, hnew.1]; exact hhalf'.1
      · exact Nat.zero_lt_of_lt (hbehind m hm)
    · rw [hfn, hnew.1]; exact hbehind m hm

end Insertion

namespace OrderMaintenanceList

variable {l : OrderMaintenanceList ι}

structure Ordered (l : OrderMaintenanceList ι) : Prop where
  start : ∃ nodes, l.ring = none :: nodes
  circle : Circle l.orderLabel l.ring
  capacity : l.ring.length * l.ring.length < labelArenaSize
  contains_iff : ∀ item, l.contains item ↔ some item ∈ l.ring
  generations : ∀ item, l.orderGeneration item ≤ l.generation

omit [DecidableEq ι] in
theorem Ordered.length (h : Ordered l) : l.ring.length = l.itemCount + 1 := by
  obtain ⟨nodes, hring⟩ := h.start
  simp [itemCount, hring]

theorem ring_split {node : Node ι} (h : node ∈ l.ring) :
    l.before node ++ node :: l.after node = l.ring := by
  unfold before after
  generalize l.ring = nodes at h ⊢
  induction nodes with
  | nil => simp at h
  | cons n nodes ih =>
    by_cases hn : n = node
    · simp [hn]
    · simpa [hn] using ih (by simpa [Ne.symm hn] using h)

theorem orderPrevious_mem {node : Node ι} (h : node ∈ l.ring) : l.orderPrevious node ∈ l.ring := by
  rw [← ring_split h]
  unfold orderPrevious
  cases hlast : (l.after node ++ l.before node).getLast? with
  | none => simp
  | some m =>
    have hm := List.mem_of_getLast? hlast
    simp only [Option.getD_some, List.mem_append, List.mem_cons] at hm ⊢
    tauto

theorem Ordered.insertAfterNode {p : Node ι} {item : ι} (h : Ordered l) (hp : p ∈ l.ring)
    (hitem : some item ∉ l.ring)
    (hroom : (l.ring.length + 1) * (l.ring.length + 1) < labelArenaSize) :
    ∃ l', l.insertAfterNode p item = .ok l' ∧ Ordered l' ∧
      l'.ring.length = l.ring.length + 1 ∧ ∀ n, n ∈ l'.ring ↔ n = some item ∨ n ∈ l.ring := by
  have hsplit := ring_split hp
  have hring : Circle l.orderLabel (l.before p ++ p :: l.after p) := hsplit.symm ▸ h.circle
  have hcircle : Circle l.orderLabel (p :: (l.after p ++ l.before p)) := hring.rotate
  have hlen : (l.after p ++ l.before p).length = l.itemCount := by
    have := congrArg List.length hsplit
    rw [h.length] at this
    simp at this ⊢
    omega
  have hmem : ∀ n, n ∈ p :: (l.after p ++ l.before p) ↔ n ∈ l.ring := fun n => by
    rw [← hsplit]
    simp only [List.mem_append, List.mem_cons]
    tauto
  have hcap := h.capacity
  rw [h.length, ← hlen] at hcap
  obtain ⟨c, d, hscan, hnew⟩ := hcircle.insert hcap (mt (hmem _).1 hitem)
  rw [hlen] at hscan
  have hgrown : ∀ n, n ∈ l.before p ++ p :: some item :: l.after p ↔
      n = some item ∨ n ∈ l.ring := fun n => by
    rw [← hmem n]
    simp only [List.mem_append, List.mem_cons]
    tauto
  have hlength : (l.before p ++ p :: some item :: l.after p).length = l.ring.length + 1 := by
    simp only [← hsplit, List.length_append, List.length_cons]
    omega
  refine ⟨_, by simp only [OrderMaintenanceList.insertAfterNode, hscan, bind, Except.bind]; rfl,
    ⟨?_, ?_, ?_, fun j => ?_, fun j => ?_⟩, hlength, hgrown⟩
  · obtain ⟨nodes, hnodes⟩ := h.start
    by_cases hnone : p = none
    · subst hnone
      exact ⟨some item :: l.after none, by simp [before, hnodes]⟩
    · exact ⟨_, by simp [before, hnodes, Ne.symm hnone]; rfl⟩
  · have hfirst : Circle _ ((p :: some item :: l.after p) ++ l.before p) := hnew
    exact hfirst.rotate
  · rw [hlength]
    exact hroom
  · rw [hgrown, Option.some_inj]
    by_cases hj : j = item
    · simp [contains, hj]
    · simpa [contains, hj] using h.contains_iff j
  · by_cases hj : j = item
    · simp [hj]
    · simpa [hj] using h.generations j

theorem Ordered.insertRunAfter {items : List ι} (hnd : items.Nodup) {p : Node ι} (h : Ordered l)
    (hp : p ∈ l.ring) (hitems : ∀ item ∈ items, some item ∉ l.ring)
    (hroom : (l.ring.length + items.length) * (l.ring.length + items.length) < labelArenaSize) :
    ∃ l', l.insertRunAfter p items = .ok l' ∧ Ordered l' := by
  induction items generalizing l p with
  | nil => exact ⟨l, rfl, h⟩
  | cons item items ih =>
    obtain ⟨hnew, hnd⟩ := List.nodup_cons.1 hnd
    rw [List.length_cons, ← Nat.add_assoc, Nat.add_right_comm] at hroom
    have hle : l.ring.length + 1 ≤ l.ring.length + 1 + items.length := Nat.le_add_right ..
    obtain ⟨l', hl', hord, hlen, hmem⟩ := h.insertAfterNode hp (hitems item (by simp))
      ((Nat.mul_le_mul hle hle).trans_lt hroom)
    obtain ⟨l'', hl'', hord'⟩ := ih hnd hord ((hmem _).2 (.inl rfl))
      (fun j hj hin => by
        rcases (hmem _).1 hin with heq | hin
        · exact hnew (Option.some_inj.1 heq ▸ hj)
        · exact hitems j (List.mem_cons_of_mem _ hj) hin)
      (by rwa [hlen])
    exact ⟨l'', by simp [OrderMaintenanceList.insertRunAfter, hl', hl'', bind, Except.bind], hord'⟩

theorem assertCapacity_cases (count : Nat) :
    (assertCapacity count = .ok () ∧ (count + 1) * (count + 1) < labelArenaSize) ∨
      assertCapacity count = .error "Order-maintenance capacity exceeded" := by
  unfold assertCapacity
  by_cases hcap : labelArenaSize ≤ (count + 1) * (count + 1)
  · exact .inr (if_pos hcap)
  · exact .inl ⟨if_neg hcap, Nat.not_le.1 hcap⟩

theorem resetFromItems_ordered {items : List ι} {l' : OrderMaintenanceList ι}
    (hgen : ∀ item, l.orderGeneration item ≤ l.generation)
    (h : l.resetFromItems items = .ok l') : Ordered l' := by
  unfold resetFromItems at h
  obtain ⟨hok, hcap⟩ | hbad := assertCapacity_cases items.length
  swap
  · simp [hbad, bind, Except.bind] at h
  by_cases hnd : items.Nodup
  swap
  · simp [hok, hnd, bind, Except.bind, throw, throwThe, MonadExceptOf.throw] at h
  simp only [hok, hnd, if_false, not_true, bind, Except.bind, pure, Except.pure,
    Except.ok.injEq] at h
  subst h
  have hgap : 0 < labelArenaSize / (items.length + 1) :=
    Nat.div_pos (by nlinarith) (Nat.succ_pos _)
  have hmul := Nat.div_mul_le_self labelArenaSize (items.length + 1)
  generalize labelArenaSize / (items.length + 1) = gap at *
  have hsmall : ∀ item ∈ items, gap * (items.idxOf item + 1) < labelArenaSize := by
    intro item hitem
    have hidx := Nat.mul_le_mul_left gap (Nat.succ_le_of_lt (List.idxOf_lt_length_of_mem hitem))
    rw [Nat.mul_succ] at hmul
    exact hidx.trans_lt (by omega)
  refine ⟨⟨_, rfl⟩, ⟨fun m hm => ?_, ?_⟩, ?_, fun j => ?_, fun j => ?_⟩
  · rcases List.mem_cons.1 hm with rfl | hm
    · exact Nat.two_pow_pos 52
    · obtain ⟨item, hitem, rfl⟩ := List.mem_map.1 hm
      simpa only [if_pos hitem] using hsmall item hitem
  · simp only [relativeTo_of_le (Nat.zero_le _), Nat.sub_zero]
    refine List.pairwise_cons.2 ⟨fun m hm => ?_, List.pairwise_map.2 ?_⟩
    · obtain ⟨item, hitem, rfl⟩ := List.mem_map.1 hm
      simpa only [if_pos hitem] using Nat.mul_pos hgap (Nat.succ_pos _)
    · refine List.pairwise_iff_getElem.2 fun i j hi hj hij => ?_
      simp only [if_pos (List.getElem_mem _), hnd.idxOf_getElem]
      exact Nat.mul_lt_mul_of_pos_left (Nat.succ_lt_succ hij) hgap
  · simpa using hcap
  · by_cases hj : j ∈ items
    · simp [contains, hj]
    · simpa [contains, hj] using (Nat.lt_succ_of_le (hgen j)).ne
  · by_cases hj : j ∈ items
    · simp [hj]
    · simpa [hj] using (hgen j).trans (Nat.le_succ _)

/-- What a check lets through. -/
def Allows (l : OrderMaintenanceList ι) (items : List ι) (allowed : Except String Bool) : Prop :=
  (∀ e, allowed = .error e → e = "Order-maintenance capacity exceeded") ∧
    (allowed = .ok true → items.Nodup ∧ (∀ item ∈ items, l.contains item = false) ∧
      (l.itemCount + items.length + 1) * (l.itemCount + items.length + 1) < labelArenaSize)

theorem canInsert_allows (l : OrderMaintenanceList ι) (items : List ι) :
    Allows l items (l.canInsert items) := by
  unfold canInsert
  split_ifs with hitems
  · obtain ⟨hok, hcap⟩ | hbad := assertCapacity_cases (l.itemCount + items.length)
    · simpa [Allows, hok, hcap, bind, Except.bind, pure, Except.pure] using hitems
    · simp [Allows, hbad, bind, Except.bind]
  · simp [Allows, pure, Except.pure]

omit [DecidableEq ι] in
theorem canInsertOne_allows (l : OrderMaintenanceList ι) (item : ι) :
    Allows l [item] (l.canInsertOne item) := by
  unfold canInsertOne
  split_ifs with hitem
  · simp [Allows, pure, Except.pure]
  · obtain ⟨hok, hcap⟩ | hbad := assertCapacity_cases (l.itemCount + 1)
    · simpa [Allows, hok, hcap, bind, Except.bind, pure, Except.pure] using hitem
    · simp [Allows, hbad, bind, Except.bind]

end OrderMaintenanceList

open OrderMaintenanceList

variable {l : OrderMaintenanceList ι}

/-- A call's outcome: an ordered list, or an error other than the scan's. -/
def Sound (outcome : Except String (Bool × OrderMaintenanceList ι)) : Prop :=
  match outcome with
  | .ok (_, l') => Ordered l'
  | .error e => e ≠ "Order-maintenance labels exhausted"

theorem insertRun_sound {p : Node ι} {items : List ι} {allowed : Except String Bool}
    (h : Ordered l) (hallowed : Allows l items allowed)
    (hp : allowed = .ok true → p ∈ l.ring) : Sound (insertRun l p items allowed) := by
  match hcheck : allowed with
  | .error e =>
    rw [hallowed.1 e rfl]
    simp [Sound, insertRun, bind, Except.bind]
  | .ok false => simpa [Sound, insertRun, bind, Except.bind, pure, Except.pure] using h
  | .ok true =>
    obtain ⟨hnd, hnew, hroom⟩ := hallowed.2 rfl
    rw [Nat.add_right_comm, ← h.length] at hroom
    obtain ⟨l', hl', hord⟩ := h.insertRunAfter hnd (hp rfl)
      (fun item hitem hin => by simpa [hnew item hitem] using (h.contains_iff item).2 hin) hroom
    simpa [Sound, insertRun, hl', bind, Except.bind, pure, Except.pure] using hord

theorem insertRun_anchored {p : Node ι} {items : List ι} {anchor : ι}
    {allowed : Except String Bool} (h : Ordered l) (hallowed : Allows l items allowed)
    (hp : some anchor ∈ l.ring → p ∈ l.ring) :
    Sound (insertRun l p items (anchored l anchor allowed)) := by
  by_cases hanchor : l.contains anchor
  · rw [anchored, if_pos hanchor]
    exact insertRun_sound h hallowed fun _ => hp ((h.contains_iff anchor).1 hanchor)
  · simpa [anchored, hanchor, Sound, insertRun, bind, Except.bind, pure, Except.pure] using h

theorem perform_sound (h : Ordered l) (operation : Operation ι) :
    Sound (perform l operation) := by
  have hnone : none ∈ l.ring := by
    obtain ⟨nodes, hring⟩ := h.start
    simp [hring]
  cases operation with
  | resetFromItems items =>
    cases hreset : l.resetFromItems items with
    | ok l' =>
      simpa [Sound, perform, hreset, bind, Except.bind, pure, Except.pure] using
        resetFromItems_ordered h.generations hreset
    | error e =>
      have hne : e ≠ "Order-maintenance labels exhausted" := by
        rintro rfl
        unfold resetFromItems at hreset
        obtain ⟨hok, -⟩ | hbad := assertCapacity_cases items.length
        · split_ifs at hreset <;>
            simp [hok, bind, Except.bind, pure, Except.pure, throw, throwThe,
              MonadExceptOf.throw] at hreset
        · simp [hbad, bind, Except.bind] at hreset
      simpa [Sound, perform, hreset, bind, Except.bind] using hne
  | insertManyBefore anchor items =>
    exact insertRun_anchored h (canInsert_allows l items) orderPrevious_mem
  | insertBefore anchor item =>
    exact insertRun_anchored h (canInsertOne_allows l item) orderPrevious_mem
  | insertManyAtStart items => exact insertRun_sound h (canInsert_allows l items) fun _ => hnone
  | insertAtStart item => exact insertRun_sound h (canInsertOne_allows l item) fun _ => hnone
  | insertManyAtEnd items =>
    exact insertRun_sound h (canInsert_allows l items) fun _ => orderPrevious_mem hnone
  | insertAtEnd item =>
    exact insertRun_sound h (canInsertOne_allows l item) fun _ => orderPrevious_mem hnone
  | insertManyAfter anchor items => exact insertRun_anchored h (canInsert_allows l items) id
  | insertAfter anchor item => exact insertRun_anchored h (canInsertOne_allows l item) id

theorem run_ordered {items : List ι} {operations : List (Operation ι)}
    (h : run items operations = .ok l) : Ordered l := by
  obtain ⟨l₀, hreset, hl⟩ : ∃ l₀, ({} : OrderMaintenanceList ι).resetFromItems items = .ok l₀ ∧
      operations.foldl step l₀ = l := by
    unfold run at h
    cases hreset : ({} : OrderMaintenanceList ι).resetFromItems items with
    | error e => simp [hreset, bind, Except.bind] at h
    | ok l₀ => exact ⟨l₀, rfl, by simpa [hreset, bind, Except.bind, pure, Except.pure] using h⟩
  have hord := resetFromItems_ordered (fun _ => le_rfl) hreset
  rw [← hl]
  clear h hl hreset
  induction operations generalizing l₀ with
  | nil => exact hord
  | cons operation operations ih =>
    refine ih _ ?_
    have hsound := perform_sound hord operation
    unfold step
    cases hperform : perform l₀ operation with
    | ok out => simpa [Sound, hperform] using hsound
    | error e => exact hord

/-- After any sequence of calls no call runs out of labels, the labels seen from
the sentinel increase along the list, and `compare` tells the order of any two
items of it. -/
theorem run_order {items : List ι} {operations : List (Operation ι)}
    (h : run items operations = .ok l) :
    (∀ operation, perform l operation ≠ .error "Order-maintenance labels exhausted") ∧
    (l.toArray.map fun item => l.relativeToSentinel (l.orderLabel (some item))).Pairwise
      (· < ·) ∧
    ∀ left ∈ l.toArray, ∀ right ∈ l.toArray, l.compare left right = .ok
      (if left = right then 0
        else if l.toArray.idxOf left < l.toArray.idxOf right then -1 else 1) := by
  have hord := run_ordered h
  obtain ⟨nodes, hring⟩ := hord.start
  have hcircle := hord.circle
  have hnd := hcircle.nodup
  rw [hring] at hcircle hnd
  have hnodes : l.toArray.map some = nodes := by
    have hsome : ∀ n ∈ nodes, some n ≠ some none := fun n hn heq =>
      (List.nodup_cons.1 hnd).1 (Option.some_inj.1 heq ▸ hn)
    rw [toArray, hring, List.tail_cons, List.map_filterMap]
    refine (List.filterMap_congr fun n hn => ?_).trans (List.filterMap_some ..)
    cases n with
    | none => exact absurd rfl (hsome _ hn)
    | some item => rfl
  have hinc : l.toArray.Pairwise fun a b =>
      l.relativeToSentinel (l.orderLabel (some a)) <
        l.relativeToSentinel (l.orderLabel (some b)) :=
    List.Pairwise.of_map some (fun _ _ => id)
      (hnodes.symm ▸ (List.pairwise_cons.1 hcircle.2).2)
  have hlt : ∀ {a b}, a ∈ l.toArray → b ∈ l.toArray →
      l.toArray.idxOf a < l.toArray.idxOf b →
      l.relativeToSentinel (l.orderLabel (some a)) <
        l.relativeToSentinel (l.orderLabel (some b)) := by
    intro a b ha hb hab
    simpa using List.pairwise_iff_getElem.1 hinc _ _ (List.idxOf_lt_length_of_mem ha)
      (List.idxOf_lt_length_of_mem hb) hab
  have hcontains : ∀ {a}, a ∈ l.toArray → l.contains a = true := fun {a} ha => by
    rw [hord.contains_iff, hring, ← hnodes]
    exact List.mem_cons_of_mem _ (List.mem_map_of_mem ha)
  refine ⟨fun operation hperform => ?_, List.pairwise_map.2 hinc, fun a ha b hb => ?_⟩
  · have hsound := perform_sound hord operation
    rw [hperform] at hsound
    exact hsound rfl
  · rw [OrderMaintenanceList.compare, hcontains ha, hcontains hb]
    by_cases hab : a = b
    · simp [hab, pure, Except.pure]
    rcases Nat.lt_trichotomy (l.toArray.idxOf a) (l.toArray.idxOf b) with hidx | hidx | hidx
    · simp [hab, hidx, hlt ha hb hidx, pure, Except.pure]
    · exact absurd ((List.idxOf_inj ha).1 hidx) hab
    · simp [hab, hidx.not_gt, (hlt hb ha hidx).not_gt, pure, Except.pure]

/-- An item put between two others comes before the second. -/
theorem run_order_between : ∃ l, run [0, 1] [.insertAfter 0 2] = .ok l ∧
    l.toArray = [0, 2, 1] ∧ l.compare 2 1 = .ok (-1) := by
  obtain ⟨l, h⟩ : ∃ l, run [0, 1] [.insertAfter 0 2] = .ok l := ⟨_, rfl⟩
  have hl : l.toArray = [0, 2, 1] := by cases h; rfl
  refine ⟨l, h, hl, ?_⟩
  have hcompare := (run_order h).2.2 2 (by simp [hl]) 1 (by simp [hl])
  rw [hl] at hcompare
  exact hcompare

end Softmaple.OrderMaintenance
