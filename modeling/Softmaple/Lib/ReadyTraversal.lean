import Mathlib.Data.List.Nodup
import Mathlib.Data.List.Perm.Subperm

/-!
Depth-first topological traversal of a finite acyclic graph. A vertex is pushed
once the counter of its unvisited parents reaches zero; the vertices that one
visit makes ready are arranged and go on top of the stack.
-/
universe u v

namespace ReadyTraversal

open List

section Definitions

variable {α : Type u} [DecidableEq α]

/-- Lower each child's counter; the children that reach zero, in order. -/
def release (remaining : α → Nat) : List α → (α → Nat) × List α
  | [] => (remaining, [])
  | child :: rest =>
    let left := remaining child - 1
    let released := release (Function.update remaining child left) rest
    (released.1, if left = 0 then child :: released.2 else released.2)

def visit (children : α → List α) (arrange : α → List α → List α) :
    Nat → List α → (α → Nat) → List α
  | 0, _, _ => []
  | _ + 1, [], _ => []
  | fuel + 1, vertex :: stack, remaining =>
    let released := release remaining (children vertex)
    vertex :: visit children arrange fuel (arrange vertex released.2 ++ stack) released.1

theorem release_eq {remaining : α → Nat} {children : List α} (hnodup : children.Nodup) :
    release remaining children =
      (fun vertex => if vertex ∈ children then remaining vertex - 1 else remaining vertex,
        children.filter fun child => remaining child ≤ 1) := by
  induction children generalizing remaining with
  | nil => simp [release]
  | cons child rest ih =>
    obtain ⟨hnot, hrest⟩ := nodup_cons.mp hnodup
    have hother : ∀ other ∈ rest, other ≠ child := fun other hother heq => hnot (heq ▸ hother)
    have hfilter : (rest.filter fun other =>
        decide (Function.update remaining child (remaining child - 1) other ≤ 1)) =
        rest.filter fun other => decide (remaining other ≤ 1) := by
      apply filter_congr
      intro other hmem
      rw [Function.update_of_ne (hother other hmem)]
    rw [release, ih hrest]
    simp only [hfilter]
    rw [filter_cons]
    congr 1
    · funext vertex
      by_cases hsame : vertex = child
      · rw [hsame]
        simp [hnot]
      · simp [hsame]
    · by_cases hone : remaining child ≤ 1
      · rw [if_pos (by omega), if_pos (decide_eq_true hone)]
      · rw [if_neg (by omega), if_neg (by simp [hone])]

end Definitions

section Complete

variable {α : Type u} [DecidableEq α] {vertices : List α} {parents children : α → List α}
  {arrange : α → List α → List α}

structure Graph (vertices : List α) (parents children : α → List α) : Prop where
  nodup : vertices.Nodup
  parents_mem : ∀ vertex ∈ vertices, ∀ parent ∈ parents vertex, parent ∈ vertices
  parents_nodup : ∀ vertex ∈ vertices, (parents vertex).Nodup
  children_nodup : ∀ vertex ∈ vertices, (children vertex).Nodup
  mem_children : ∀ vertex ∈ vertices, ∀ child,
    child ∈ children vertex ↔ child ∈ vertices ∧ vertex ∈ parents child
  acyclic : ∃ rank : α → Nat, ∀ vertex ∈ vertices, ∀ parent ∈ parents vertex,
    rank parent < rank vertex

def ParentsFirst (parents : α → List α) (order : List α) : Prop :=
  ∀ before vertex after, order = before ++ vertex :: after →
    ∀ parent ∈ parents vertex, parent ∈ before

structure Visiting (vertices : List α) (parents : α → List α) (visited stack : List α)
    (remaining : α → Nat) : Prop where
  nodup : (visited ++ stack).Nodup
  subset : ∀ vertex ∈ visited ++ stack, vertex ∈ vertices
  ready : ∀ vertex ∈ vertices,
    (vertex ∈ visited ++ stack ↔ ∀ parent ∈ parents vertex, parent ∈ visited)
  remaining : ∀ vertex ∈ vertices, remaining vertex = ((parents vertex).filter (· ∉ visited)).length
  parentsFirst : ParentsFirst parents visited

omit [DecidableEq α] in
theorem ParentsFirst.concat {order : List α} {vertex : α} (h : ParentsFirst parents order)
    (hparents : ∀ parent ∈ parents vertex, parent ∈ order) :
    ParentsFirst parents (order ++ [vertex]) := by
  intro before other after heq
  cases eq_nil_or_concat after with
  | inl hnil =>
    rw [hnil] at heq
    obtain ⟨rfl, hsame⟩ := append_inj' heq rfl
    rw [← (List.cons.inj hsame).1]
    exact hparents
  | inr hconcat =>
    obtain ⟨init, last, rfl⟩ := hconcat
    rw [concat_eq_append, ← cons_append, ← append_assoc] at heq
    exact h before other init (append_inj' heq rfl).1

variable {visited : List α}

theorem length_filter_concat {values : List α} {value : α} (hnodup : values.Nodup)
    (hmem : value ∈ values) (hnot : value ∉ visited) :
    (values.filter (· ∉ visited ++ [value])).length =
      (values.filter (· ∉ visited)).length - 1 := by
  have herase : values.filter (· ∉ visited ++ [value]) =
      (values.filter (· ∉ visited)).erase value := by
    rw [(hnodup.filter _).erase_eq_filter, filter_filter]
    apply filter_congr
    intro other _
    rw [Bool.eq_iff_iff]
    simp [mem_append, not_or, and_comm]
  rw [herase, length_erase_of_mem]
  rw [mem_filter]
  exact ⟨hmem, decide_eq_true hnot⟩

theorem filter_concat_of_not_mem {values : List α} {value : α} (hmem : value ∉ values) :
    values.filter (· ∉ visited ++ [value]) = values.filter (· ∉ visited) := by
  apply filter_congr
  intro other hother
  have hne : other ≠ value := fun heq => hmem (heq ▸ hother)
  simp [hne]

variable {remaining : α → Nat}

section

variable (hgraph : Graph vertices parents children)
include hgraph

theorem Visiting.step
    (harrange : ∀ vertex group, (arrange vertex group).Perm group) {stack : List α}
    {vertex : α}
    (h : Visiting vertices parents visited (vertex :: stack) remaining) :
    Visiting vertices parents (visited ++ [vertex])
      (arrange vertex (release remaining (children vertex)).2 ++ stack)
      (release remaining (children vertex)).1 := by
  have hvertex : vertex ∈ vertices := h.subset vertex (by simp)
  have hunvisited : vertex ∉ visited := by
    intro hmem
    have hnodup := h.nodup
    rw [nodup_append] at hnodup
    exact hnodup.2.2 vertex hmem vertex mem_cons_self rfl
  have hparents : ∀ parent ∈ parents vertex, parent ∈ visited :=
    (h.ready vertex hvertex).mp (by simp)
  have hreleased : release remaining (children vertex) = _ :=
    release_eq (hgraph.children_nodup vertex hvertex)
  have hcount : ∀ other ∈ vertices,
      (if other ∈ children vertex then remaining other - 1 else remaining other) =
        ((parents other).filter (· ∉ visited ++ [vertex])).length := by
    intro other hother
    rw [h.remaining other hother]
    by_cases hchild : vertex ∈ parents other
    · rw [if_pos ((hgraph.mem_children vertex hvertex other).mpr ⟨hother, hchild⟩),
        length_filter_concat (hgraph.parents_nodup other hother) hchild hunvisited]
    · rw [if_neg (fun hmem => hchild ((hgraph.mem_children vertex hvertex other).mp hmem).2),
        filter_concat_of_not_mem hchild]
  have hzero : ∀ other ∈ vertices, ((parents other).filter (· ∉ visited ++ [vertex])).length = 0 ↔
        ∀ parent ∈ parents other, parent ∈ visited ++ [vertex] := by
    intro other _
    rw [length_eq_zero_iff, filter_eq_nil_iff]
    simp only [decide_not, Bool.not_eq_true', decide_eq_false_iff_not, not_not]
  -- a vertex becomes ready when its last parent is visited
  have hmem : ∀ other, other ∈ arrange vertex (release remaining (children vertex)).2 ↔
      other ∈ vertices ∧ vertex ∈ parents other ∧
        ∀ parent ∈ parents other, parent ∈ visited ++ [vertex] := by
    intro other
    rw [(harrange vertex _).mem_iff, hreleased, mem_filter,
      hgraph.mem_children vertex hvertex, and_assoc]
    apply and_congr_right
    intro hother
    apply and_congr_right
    intro hchild
    have hnext := hcount other hother
    rw [if_pos ((hgraph.mem_children vertex hvertex other).mpr ⟨hother, hchild⟩)] at hnext
    rw [← hzero other hother, ← hnext, decide_eq_true_eq]
    omega
  have hfresh : ∀ other ∈ arrange vertex (release remaining (children vertex)).2,
      other ∉ visited ++ vertex :: stack := by
    intro other hother hold
    obtain ⟨hvertices, hchild, -⟩ := (hmem other).mp hother
    exact hunvisited ((h.ready other hvertices).mp hold vertex hchild)
  have hold : (visited ++ [vertex] ++ stack).Nodup := by
    rw [append_assoc]
    exact h.nodup
  refine ⟨?_, ?_, ?_, ?_, h.parentsFirst.concat hparents⟩
  · rw [← append_assoc]
    have hgroup : (arrange vertex (release remaining (children vertex)).2).Nodup := by
      rw [(harrange vertex _).nodup_iff, hreleased]
      exact (hgraph.children_nodup vertex hvertex).filter _
    obtain ⟨hfirst, hstack, hcross⟩ := nodup_append.mp hold
    apply nodup_append.mpr
    refine ⟨nodup_append.mpr ⟨hfirst, hgroup, ?_⟩, hstack, ?_⟩
    · intro other hother new hnew heq
      apply hfresh new hnew
      rw [← heq]
      simp only [mem_append, mem_singleton] at hother
      simp only [mem_append, mem_cons]
      exact hother.imp_right Or.inl
    · intro other hother later hlater heq
      cases mem_append.mp hother with
      | inl hearlier => exact hcross other hearlier later hlater heq
      | inr hnew =>
        apply hfresh other hnew
        rw [heq]
        simp [hlater]
  · intro other hother
    simp only [mem_append, mem_singleton] at hother
    cases hother with
    | inl hvisited =>
      apply h.subset other
      simp only [mem_append, mem_cons]
      exact hvisited.imp_right Or.inl
    | inr hstack =>
      cases hstack with
      | inl hnew => exact ((hmem other).mp hnew).1
      | inr hstack => exact h.subset other (by simp [hstack])
  · intro other hother
    have hbefore := h.ready other hother
    simp only [mem_append, mem_cons] at hbefore
    simp only [mem_append, mem_singleton, hmem other, hother, true_and]
    constructor
    · intro hany parent hparent
      cases hany with
      | inl hvisited =>
        exact .inl (hbefore.mp (hvisited.imp_right Or.inl) parent hparent)
      | inr hlater =>
        cases hlater with
        | inl hnew =>
          have hin := hnew.2 parent hparent
          simpa [mem_append] using hin
        | inr hstack => exact .inl (hbefore.mp (.inr (.inr hstack)) parent hparent)
    · intro hall
      by_cases hchild : vertex ∈ parents other
      · refine .inr (.inl ⟨hchild, ?_⟩)
        intro parent hparent
        simpa [mem_append] using hall parent hparent
      · have hready : ∀ parent ∈ parents other, parent ∈ visited := by
          intro parent hparent
          cases hall parent hparent with
          | inl hvisited => exact hvisited
          | inr hsame => exact absurd (hsame ▸ hparent) hchild
        cases hbefore.mpr hready with
        | inl hvisited => exact .inl (.inl hvisited)
        | inr hrest =>
          cases hrest with
          | inl hsame => exact .inl (.inr hsame)
          | inr hstack => exact .inr (.inr hstack)
  · intro other hother
    rw [hreleased]
    exact hcount other hother

theorem Visiting.mem_visited (h : Visiting vertices parents visited [] remaining) :
    ∀ vertex ∈ vertices, vertex ∈ visited := by
  obtain ⟨rank, hrank⟩ := hgraph.acyclic
  have hall : ∀ bound, ∀ vertex ∈ vertices, rank vertex < bound → vertex ∈ visited := by
    intro bound
    induction bound with
    | zero => exact fun vertex _ hlt => absurd hlt (Nat.not_lt_zero _)
    | succ bound ih =>
      intro vertex hvertex hlt
      have hready := h.ready vertex hvertex
      rw [append_nil] at hready
      apply hready.mpr
      intro parent hparent
      have hless := hrank vertex hvertex parent hparent
      exact ih parent (hgraph.parents_mem vertex hvertex parent hparent) (by omega)
  exact fun vertex hvertex => hall _ vertex hvertex (Nat.lt_succ_self _)

theorem Visiting.perm (h : Visiting vertices parents visited [] remaining) :
    visited.Perm vertices := by
  have hnodup := h.nodup
  have hsubset := h.subset
  rw [append_nil] at hnodup hsubset
  apply (perm_ext_iff_of_nodup hnodup hgraph.nodup).mpr
  exact fun vertex => ⟨hsubset vertex, h.mem_visited hgraph vertex⟩

theorem Visiting.visit (harrange : ∀ vertex group, (arrange vertex group).Perm group) {fuel : Nat}
    {stack : List α}
    (h : Visiting vertices parents visited stack remaining)
    (hfuel : vertices.length ≤ visited.length + fuel) :
    (visited ++ visit children arrange fuel stack remaining).Perm vertices ∧
      ParentsFirst parents (visited ++ visit children arrange fuel stack remaining) := by
  induction fuel generalizing visited stack remaining with
  | zero =>
    have hlength := (h.nodup.subperm h.subset).length_le
    rw [length_append] at hlength
    have hempty : stack = [] := length_eq_zero_iff.mp (by omega)
    rw [hempty] at h
    rw [ReadyTraversal.visit, append_nil]
    exact ⟨h.perm hgraph, h.parentsFirst⟩
  | succ fuel ih =>
    cases stack with
    | nil =>
      rw [ReadyTraversal.visit, append_nil]
      exact ⟨h.perm hgraph, h.parentsFirst⟩
    | cons vertex stack =>
      have hnext := ih (h.step hgraph harrange) (by
        rw [length_append, length_singleton]
        omega)
      rw [append_assoc] at hnext
      exact hnext

end

theorem visiting_roots {roots : List α} (hroots : roots.Nodup)
    (hmem : ∀ vertex, vertex ∈ roots ↔ vertex ∈ vertices ∧ parents vertex = [])
    (hremaining : ∀ vertex ∈ vertices, remaining vertex = (parents vertex).length) :
    Visiting vertices parents [] roots remaining where
  nodup := hroots
  subset vertex hvertex := ((hmem vertex).mp hvertex).1
  ready vertex hvertex := by
    rw [nil_append, hmem vertex]
    simp [hvertex, eq_nil_iff_forall_not_mem]
  remaining vertex hvertex := by
    rw [hremaining vertex hvertex]
    simp
  parentsFirst := by
    intro before vertex after heq
    simp at heq

end Complete

section Map

variable {α : Type u} {β : Type v} [DecidableEq α] [DecidableEq β] {f : α → β}

theorem visit_map {vertices : List α} {children : α → List α} {children' : β → List β}
    {arrange : α → List α → List α} {arrange' : β → List β → List β}
    (hinj : ∀ a ∈ vertices, ∀ b ∈ vertices, f a = f b → a = b)
    (hmem : ∀ vertex ∈ vertices, ∀ child ∈ children vertex, child ∈ vertices)
    (hnodup : ∀ vertex ∈ vertices, (children vertex).Nodup)
    (hchildren : ∀ vertex ∈ vertices, (children' (f vertex)).Perm ((children vertex).map f))
    (harrangeMem : ∀ vertex group, ∀ other ∈ arrange vertex group, other ∈ group)
    (harrange : ∀ vertex ∈ vertices, ∀ group group', (∀ other ∈ group, other ∈ vertices) →
      group.Nodup → group'.Perm (group.map f) →
      arrange' (f vertex) group' = (arrange vertex group).map f)
    {fuel : Nat} {stack : List α} (hstack : ∀ vertex ∈ stack, vertex ∈ vertices)
    {remaining : α → Nat} {remaining' : β → Nat}
    (hremaining : ∀ vertex ∈ vertices, remaining' (f vertex) = remaining vertex) :
    visit children' arrange' fuel (stack.map f) remaining' =
      (visit children arrange fuel stack remaining).map f := by
  induction fuel generalizing stack remaining remaining' with
  | zero => rfl
  | succ fuel ih =>
    cases stack with
    | nil => rfl
    | cons vertex stack =>
      obtain ⟨hvertex, hrest⟩ := forall_mem_cons.mp hstack
      have hperm := hchildren vertex hvertex
      have hchild := hmem vertex hvertex
      have hmapNodup : ((children vertex).map f).Nodup := by
        apply (hnodup vertex hvertex).map_on
        intro a ha b hb
        exact hinj a (hchild a ha) b (hchild b hb)
      have hreleased : release remaining (children vertex) = _ :=
        release_eq (hnodup vertex hvertex)
      have hreleased' : release remaining' (children' (f vertex)) = _ :=
        release_eq (hperm.nodup_iff.mpr hmapNodup)
      have hgroup : (release remaining' (children' (f vertex))).2.Perm
          ((release remaining (children vertex)).2.map f) := by
        rw [hreleased, hreleased']
        apply (hperm.filter _).trans
        rw [filter_map]
        apply List.Perm.of_eq
        congr 1
        apply filter_congr
        intro child hmemChild
        rw [Function.comp_apply, hremaining child (hchild child hmemChild)]
      have hinside : ∀ other ∈ (release remaining (children vertex)).2, other ∈ vertices := by
        rw [hreleased]
        intro other hother
        exact hchild other (mem_filter.mp hother).1
      have hdistinct : (release remaining (children vertex)).2.Nodup := by
        rw [hreleased]
        exact (hnodup vertex hvertex).filter _
      rw [map_cons, visit, visit, map_cons,
        harrange vertex hvertex _ _ hinside hdistinct hgroup, ← map_append]
      congr 1
      apply ih
      · intro other hother
        cases mem_append.mp hother with
        | inl hnew => exact hinside other (harrangeMem vertex _ other hnew)
        | inr hold => exact hrest other hold
      · intro other hother
        rw [hreleased, hreleased']
        have hiff : f other ∈ children' (f vertex) ↔ other ∈ children vertex := by
          rw [hperm.mem_iff, mem_map]
          constructor
          · intro hex
            obtain ⟨child, hmemChild, heq⟩ := hex
            rwa [← hinj child (hchild child hmemChild) other hother heq]
          · exact fun hmemChild => ⟨other, hmemChild, rfl⟩
        simp only [hiff, hremaining other hother]

end Map

section Chains

variable {ρ : Type u} {α : Type v} [DecidableEq ρ] [DecidableEq α]

theorem visit_chain {children : α → List α} {arrange : α → List α → List α}
    (hsingle : ∀ vertex child, arrange vertex [child] = [child]) {first : α} {rest : List α}
    (hchain : (first :: rest).IsChain fun vertex next => children vertex = [next])
    (hnodup : rest.Nodup) {remaining : α → Nat} (hrest : ∀ vertex ∈ rest, remaining vertex = 1)
    (fuel : Nat) (stack : List α) :
    visit children arrange (rest.length + 1 + fuel) (first :: stack) remaining =
      (first :: rest) ++ visit children arrange fuel
        (arrange (rest.getLastD first) (release (fun vertex =>
            if vertex ∈ rest then 0 else remaining vertex) (children (rest.getLastD first))).2 ++
          stack)
        (release (fun vertex => if vertex ∈ rest then 0 else remaining vertex)
          (children (rest.getLastD first))).1 := by
  induction rest generalizing first remaining with
  | nil =>
    rw [length_nil, Nat.zero_add, Nat.add_comm, visit]
    simp
  | cons next rest ih =>
    obtain ⟨hchild, htail⟩ := isChain_cons_cons.mp hchain
    obtain ⟨hnot, hnodup⟩ := nodup_cons.mp hnodup
    obtain ⟨hnext, hlater⟩ := forall_mem_cons.mp hrest
    have hrelease : release remaining (children first) =
        (Function.update remaining next 0, [next]) := by
      rw [hchild, release, release]
      simp [hnext]
    have hremaining : (fun vertex => if vertex ∈ rest then 0
        else Function.update remaining next 0 vertex) =
        fun vertex => if vertex ∈ next :: rest then 0 else remaining vertex := by
      funext vertex
      by_cases hsame : vertex = next
      · rw [hsame]
        simp [hnot]
      · simp [hsame]
    have hupdated : ∀ vertex ∈ rest, Function.update remaining next 0 vertex = 1 := by
      intro vertex hvertex
      have hne : vertex ≠ next := fun heq => hnot (heq ▸ hvertex)
      rw [Function.update_of_ne hne]
      exact hlater vertex hvertex
    have hinside := ih htail hnodup hupdated
    rw [hremaining] at hinside
    rw [length_cons, show rest.length + 1 + 1 + fuel = rest.length + 1 + fuel + 1 by omega,
      visit, hrelease]
    simp only [hsingle, singleton_append]
    rw [hinside]
    simp only [cons_append, getLastD_cons]

theorem mem_of_mem_visit {vertices : List ρ} {children : ρ → List ρ} {arrange : ρ → List ρ → List ρ}
    (hmem : ∀ vertex ∈ vertices, ∀ child ∈ children vertex, child ∈ vertices)
    (hnodup : ∀ vertex ∈ vertices, (children vertex).Nodup)
    (harrange : ∀ vertex group, ∀ other ∈ arrange vertex group, other ∈ group) {fuel : Nat}
    {stack : List ρ} (hstack : ∀ vertex ∈ stack, vertex ∈ vertices) {remaining : ρ → Nat} :
    ∀ vertex ∈ visit children arrange fuel stack remaining, vertex ∈ vertices := by
  induction fuel generalizing stack remaining with
  | zero => simp [visit]
  | succ fuel ih =>
    cases stack with
    | nil => simp [visit]
    | cons first stack =>
      obtain ⟨hfirst, hrest⟩ := forall_mem_cons.mp hstack
      rw [visit, forall_mem_cons]
      refine ⟨hfirst, ih ?_⟩
      intro other hother
      cases mem_append.mp hother with
      | inl hnew =>
        have hgroup := harrange first _ other hnew
        rw [release_eq (hnodup first hfirst)] at hgroup
        exact hmem first hfirst other (mem_filter.mp hgroup).1
      | inr hold => exact hrest other hold

/-- Chains that the vertices of a coarser graph stand for. -/
structure Chains (runs : List ρ) (first : ρ → α) (rest : ρ → List α) (coarse : ρ → List ρ)
    (children : α → List α) (coarseArrange : ρ → List ρ → List ρ)
    (arrange : α → List α → List α) : Prop where
  first_injective : ∀ run ∈ runs, ∀ other ∈ runs, first run = first other → run = other
  rest_nodup : ∀ run ∈ runs, (rest run).Nodup
  first_not_mem : ∀ run ∈ runs, ∀ other ∈ runs, first run ∉ rest other
  disjoint : ∀ run ∈ runs, ∀ other ∈ runs, ∀ vertex ∈ rest run, vertex ∈ rest other → run = other
  chain : ∀ run ∈ runs, (first run :: rest run).IsChain fun vertex next => children vertex = [next]
  last : ∀ run ∈ runs, children ((rest run).getLastD (first run)) = (coarse run).map first
  coarse_mem : ∀ run ∈ runs, ∀ child ∈ coarse run, child ∈ runs
  coarse_nodup : ∀ run ∈ runs, (coarse run).Nodup
  arrange_single : ∀ vertex child, arrange vertex [child] = [child]
  arrange_mem : ∀ run group, ∀ other ∈ coarseArrange run group, other ∈ group
  arrange_last : ∀ run ∈ runs, ∀ group, (∀ other ∈ group, other ∈ runs) →
    arrange ((rest run).getLastD (first run)) (group.map first) =
      (coarseArrange run group).map first

theorem Chains.visit_eq {runs : List ρ} {first : ρ → α} {rest : ρ → List α} {coarse : ρ → List ρ}
    {children : α → List α} {coarseArrange : ρ → List ρ → List ρ}
    {arrange : α → List α → List α}
    (h : Chains runs first rest coarse children coarseArrange arrange) {fuel : Nat}
    {stack : List ρ} (hstack : ∀ run ∈ stack, run ∈ runs) {counts : ρ → Nat}
    {remaining : α → Nat} (hfirst : ∀ run ∈ runs, remaining (first run) = counts run)
    (hnodup : (visit coarse coarseArrange fuel stack counts).Nodup)
    (hrest : ∀ run ∈ visit coarse coarseArrange fuel stack counts, ∀ vertex ∈ rest run,
      remaining vertex = 1) :
    visit children arrange ((visit coarse coarseArrange fuel stack counts).flatMap
        fun run => first run :: rest run).length (stack.map first) remaining =
      (visit coarse coarseArrange fuel stack counts).flatMap fun run => first run :: rest run := by
  induction fuel generalizing stack counts remaining with
  | zero => rfl
  | succ fuel ih =>
    cases stack with
    | nil => rfl
    | cons run stack =>
      obtain ⟨hrun, hothers⟩ := forall_mem_cons.mp hstack
      rw [visit] at hnodup hrest ⊢
      obtain ⟨hnot, hlaterNodup⟩ := nodup_cons.mp hnodup
      obtain ⟨hinner, hlater⟩ := forall_mem_cons.mp hrest
      -- the counters after the chain of this run
      obtain ⟨after, hafter⟩ : ∃ after : α → Nat, after =
          fun vertex => if vertex ∈ rest run then 0 else remaining vertex := ⟨_, rfl⟩
      have hafterFirst : ∀ other ∈ runs, after (first other) = counts other := by
        intro other hother
        rw [hafter, ← hfirst other hother]
        exact if_neg (h.first_not_mem other hother run hrun)
      have hchildren := h.last run hrun
      have hcoarse : release counts (coarse run) = _ := release_eq (h.coarse_nodup run hrun)
      have hmapNodup : ((coarse run).map first).Nodup := by
        apply (h.coarse_nodup run hrun).map_on
        intro a ha b hb
        exact h.first_injective a (h.coarse_mem run hrun a ha) b (h.coarse_mem run hrun b hb)
      have hfine : release after ((coarse run).map first) = _ := release_eq hmapNodup
      have hready : (release after ((coarse run).map first)).2 =
          (release counts (coarse run)).2.map first := by
        rw [hfine, hcoarse]
        simp only
        rw [filter_map]
        congr 1
        apply filter_congr
        intro child hchild
        rw [Function.comp_apply, hafterFirst child (h.coarse_mem run hrun child hchild)]
      have hgroup : ∀ other ∈ (release counts (coarse run)).2, other ∈ runs := by
        rw [hcoarse]
        intro other hother
        exact h.coarse_mem run hrun other (mem_filter.mp hother).1
      have hnextStack : ∀ other ∈ coarseArrange run (release counts (coarse run)).2 ++ stack,
          other ∈ runs := by
        intro other hother
        cases mem_append.mp hother with
        | inl hnew => exact hgroup other (h.arrange_mem run _ other hnew)
        | inr hold => exact hothers other hold
      have hfuture : ∀ other ∈ visit coarse coarseArrange fuel
          (coarseArrange run (release counts (coarse run)).2 ++ stack)
          (release counts (coarse run)).1, other ∈ runs :=
        mem_of_mem_visit h.coarse_mem h.coarse_nodup h.arrange_mem hnextStack
      have hcounts : ∀ other ∈ runs, (release after ((coarse run).map first)).1 (first other) =
          (release counts (coarse run)).1 other := by
        intro other hother
        rw [hfine, hcoarse]
        have hiff : first other ∈ (coarse run).map first ↔ other ∈ coarse run := by
          rw [mem_map]
          constructor
          · intro hex
            obtain ⟨child, hchild, heq⟩ := hex
            rwa [← h.first_injective child (h.coarse_mem run hrun child hchild) other hother
              heq]
          · exact fun hchild => ⟨other, hchild, rfl⟩
        simp only [hiff, hafterFirst other hother]
      have hones : ∀ other ∈ visit coarse coarseArrange fuel
          (coarseArrange run (release counts (coarse run)).2 ++ stack)
          (release counts (coarse run)).1, ∀ vertex ∈ rest other,
          (release after ((coarse run).map first)).1 vertex = 1 := by
        intro other hother vertex hvertex
        have hotherRun := hfuture other hother
        have hne : run ≠ other := fun heq => hnot (heq ▸ hother)
        rw [hfine]
        simp only
        rw [if_neg, hafter]
        · simp only
          rw [if_neg, hlater other hother vertex hvertex]
          intro hmem
          exact hne (h.disjoint run hrun other hotherRun vertex hmem hvertex)
        · intro hmem
          obtain ⟨child, hchild, heq⟩ := mem_map.mp hmem
          apply h.first_not_mem child (h.coarse_mem run hrun child hchild) other hotherRun
          rw [heq]
          exact hvertex
      rw [flatMap_cons, length_append, length_cons, map_cons,
        visit_chain h.arrange_single (h.chain run hrun) (h.rest_nodup run hrun) hinner,
        ← hafter, hchildren, hready, h.arrange_last run hrun _ hgroup, ← map_append,
        ih hnextStack hcounts hlaterNodup hones]

end Chains

end ReadyTraversal
