import Softmaple.BlockModel.ReplicaState
import Softmaple.Lib.MarkingSearch
import Mathlib.Algebra.Order.BigOperators.Group.List

/-!
The causal index of a replica state (`block-model/src/causal-index.ts`). Events are grouped into chains
in which each has the one before it as its only parent; ancestry inside a chain is by index, and a
search goes from chain to chain. The memo of earlier answers is left out: `isAncestor_iff` says that an
answer depends on the history of the later event only.
-/
namespace Softmaple.BlockModel

open MarkingSearch List

structure ChainNode where
  parents : List Text
  ids : List Text
  deriving DecidableEq, Repr

/-- `chain` is the place of the event's chain among all chains. -/
structure EventNode where
  lv : Nat
  chain : Nat
  index : Nat
  deriving DecidableEq, Repr

structure CausalIndex where
  nodes : InsertionMap Text EventNode
  chains : List ChainNode
  nextLv : Nat

namespace CausalIndex

def empty : CausalIndex := ⟨.empty, [], 0⟩

def has (state : CausalIndex) (eventId : Text) : Bool := state.nodes.has eventId

def chainAt (state : CausalIndex) (chain : Nat) : ChainNode := state.chains.getD chain ⟨[], []⟩

def extended (state : CausalIndex) (parents : List Text) : Option Nat :=
  match parents with
  | [parent] =>
    (state.nodes.get? parent).bind fun node =>
      if node.index = (state.chainAt node.chain).ids.length - 1 then some node.chain else none
  | _ => none

def append (state : CausalIndex) (eventId : Text) (parents : List Text) : CausalIndex :=
  match state.extended parents with
  | some chain =>
    { nodes := state.nodes.set eventId ⟨state.nextLv, chain, (state.chainAt chain).ids.length⟩
      chains := state.chains.modify chain fun node => { node with ids := node.ids ++ [eventId] }
      nextLv := state.nextLv + 1 }
  | none =>
    { nodes := state.nodes.set eventId ⟨state.nextLv, state.chains.length, 0⟩
      chains := state.chains ++ [⟨parents, [eventId]⟩]
      nextLv := state.nextLv + 1 }

def add (state : CausalIndex) (eventId : Text) (parents : List Text) :
    Except ReplicaError CausalIndex :=
  if state.has eventId then .error (.alreadyIntegrated eventId)
  else
    match parents.find? fun parent => !state.has parent with
    | some parent => .error (.unknownParent eventId parent)
    | none => .ok (state.append eventId parents)

/-- The search of `searchAncestor`: chains are visited, events before the ancestor skipped. -/
def chainSearch (state : CausalIndex) (ancestor : EventNode) : Search (List Nat) Text Nat where
  skip eventId := !(state.nodes.get? eventId).any fun node => decide (ancestor.lv ≤ node.lv)
  found eventId := (state.nodes.get? eventId).any fun node => decide (node.chain = ancestor.chain)
  key eventId := ((state.nodes.get? eventId).map (·.chain)).getD 0
  next chain := (state.chainAt chain).parents
  marked visited chain := decide (chain ∈ visited)
  mark visited chain := visited ++ [chain]

def searchAncestor (state : CausalIndex) (ancestor descendant : EventNode) : Bool :=
  let stack := (state.chainAt descendant.chain).parents.reverse
  let fuel := stack.length + (state.chains.map fun chain => chain.parents.length).sum
  (run (state.chainSearch ancestor) fuel [descendant.chain] stack).isNone

/-- Strict ancestry. -/
def isAncestor (state : CausalIndex) (ancestorId descendantId : Text) : Bool :=
  if ancestorId = descendantId then false
  else
    match state.nodes.get? ancestorId, state.nodes.get? descendantId with
    | some ancestor, some descendant =>
      if descendant.lv ≤ ancestor.lv then false
      else if ancestor.chain = descendant.chain then true
      else state.searchAncestor ancestor descendant
    | _, _ => false

end CausalIndex

/-- Events in integration order, each with its parents. -/
abbrev History := List (Text × List Text)

namespace History

structure Causal (history : History) : Prop where
  nodup : (history.map Prod.fst).Nodup
  earlier : ∀ {lv eventId parents parent}, history[lv]? = some (eventId, parents) → parent ∈ parents →
    ∃ (before : Nat) (grandparents : List Text), before < lv ∧
      history[before]? = some (parent, grandparents)

def ParentOf (history : History) (parent child : Text) : Prop :=
  ∃ parents, (child, parents) ∈ history ∧ parent ∈ parents

def Ancestor (history : History) : Text → Text → Prop := Relation.TransGen (ParentOf history)

end History

namespace CausalIndex

structure Represents (state : CausalIndex) (history : History) : Prop where
  has_iff : ∀ eventId, state.has eventId = true ↔ eventId ∈ history.map Prod.fst
  nextLv : state.nextLv = history.length
  placed : ∀ {eventId node}, state.nodes.get? eventId = some node → ∃ parents chain,
    history[node.lv]? = some (eventId, parents) ∧ state.chains[node.chain]? = some chain ∧
      chain.ids[node.index]? = some eventId ∧ (node.index = 0 → parents = chain.parents) ∧
      ∀ before, node.index = before + 1 → ∃ previous, chain.ids[before]? = some previous ∧
        parents = [previous]
  listed : ∀ {place chain index eventId}, state.chains[place]? = some chain →
    chain.ids[index]? = some eventId → ∃ lv, state.nodes.get? eventId = some ⟨lv, place, index⟩

end CausalIndex

end Softmaple.BlockModel

namespace Softmaple.BlockModel

open MarkingSearch List

namespace History

theorem Causal.lv_unique {history : History} {eventId : Text} (hcausal : history.Causal) {first second : Nat} {given other : List Text}
    (hfirst : history[first]? = some (eventId, given)) (hsecond : history[second]? = some (eventId, other)) :
    first = second := by
  have hget : ∀ {lv : Nat} {entry}, history[lv]? = some entry →
      (history.map Prod.fst)[lv]? = some entry.1 := by
    intro lv entry hentry
    rw [getElem?_map, hentry]
    rfl
  have hlt := (List.getElem?_eq_some_iff.mp (hget hfirst)).1
  exact (getElem?_inj hlt hcausal.nodup).mp ((hget hfirst).trans (hget hsecond).symm)

end History

namespace CausalIndex

variable {state : CausalIndex} {history : History} {eventId : Text} {parents : List Text}

section Adding

theorem chainAt_eq {chain : Nat} {node : ChainNode} (h : state.chains[chain]? = some node) :
    state.chainAt chain = node := by
  rw [chainAt, getD_eq_getElem?_getD, h]
  rfl

theorem represents_empty : Represents empty [] where
  has_iff eventId := by simp [empty, has, InsertionMap.has]
  nextLv := rfl
  placed h := by cases h
  listed h := by cases h

theorem extended_eq_some {chain : Nat} (h : Represents state history)
    (hextended : state.extended parents = some chain) : ∃ parent lv node,
      parents = [parent] ∧ state.chains[chain]? = some node ∧
      state.nodes.get? parent = some ⟨lv, chain, node.ids.length - 1⟩ ∧
      node.ids[node.ids.length - 1]? = some parent := by
  rw [extended.eq_def] at hextended
  split at hextended
  · next parent =>
      rw [Option.bind_eq_some_iff] at hextended
      obtain ⟨node, hnode, hplace⟩ := hextended
      obtain ⟨_, chainNode, -, hchain, hids, -, -⟩ := h.placed hnode
      rw [chainAt_eq hchain] at hplace
      split at hplace
      · next hlast =>
          obtain rfl := Option.some.inj hplace
          refine ⟨parent, node.lv, chainNode, rfl, hchain, ?_, hlast ▸ hids⟩
          rw [hnode, ← hlast]
      · cases hplace
  · cases hextended

theorem Represents.get?_of_new (h : Represents state history) (hnew : state.has eventId = false)
    {place index : Nat} {chain : ChainNode} {other : Text} (hchain : state.chains[place]? = some chain)
    (hother : chain.ids[index]? = some other) : other ≠ eventId := by
  obtain ⟨lv, hnode⟩ := h.listed hchain hother
  rintro rfl
  rw [has, InsertionMap.has_eq_false, hnode] at hnew
  cases hnew

theorem Represents.append (h : Represents state history) (hnew : state.has eventId = false) :
    Represents (state.append eventId parents) (history ++ [(eventId, parents)]) := by
  have hhas : ∀ (node : EventNode) other, (state.nodes.set eventId node).has other = true ↔
        other ∈ (history ++ [(eventId, parents)]).map Prod.fst := by
    intro node other
    rw [InsertionMap.has_set, Bool.or_eq_true, decide_eq_true_eq, map_append, mem_append,
      ← h.has_iff other, or_comm]
    exact or_congr_right mem_singleton.symm
  have hat : (history ++ [(eventId, parents)])[state.nextLv]? = some (eventId, parents) := by
    rw [h.nextLv, getElem?_concat_length]
  have hlater : ∀ {lv : Nat} {entry}, history[lv]? = some entry →
      (history ++ [(eventId, parents)])[lv]? = some entry := fun hentry =>
    getElem?_concat_eq_some.mpr (.inl hentry)
  have hlisted : ∀ (node : EventNode) {place chain index other},
      state.chains[place]? = some chain → chain.ids[index]? = some other →
      ∃ lv, (state.nodes.set eventId node).get? other = some ⟨lv, place, index⟩ := by
    intro node place chain index other hplace hindex
    obtain ⟨lv, hlv⟩ := h.listed hplace hindex
    exact ⟨lv, by rw [InsertionMap.get?_set_of_ne (h.get?_of_new hnew hplace hindex), hlv]⟩
  rw [CausalIndex.append]
  split
  · next chain hextended =>
      obtain ⟨parent, parentLv, node, rfl, hchain, hparent, hlast⟩ := extended_eq_some h hextended
      have hlength := (List.getElem?_eq_some_iff.mp hlast).1
      have hgrown : (state.chains.modify chain fun node =>
          { node with ids := node.ids ++ [eventId] })[chain]? =
          some ⟨node.parents, node.ids ++ [eventId]⟩ := by
        rw [getElem?_modify_eq, hchain]
        rfl
      rw [chainAt_eq hchain]
      refine ⟨hhas _, by rw [h.nextLv, length_append]; rfl, ?_, ?_⟩
      · intro other found hfound
        rw [InsertionMap.get?_set] at hfound
        split at hfound
        · next hsame =>
            obtain rfl := Option.some.inj hfound
            subst hsame
            refine ⟨_, _, hat, hgrown, ?_, fun (hzero : node.ids.length = 0) => by omega,
              fun before (hbefore : node.ids.length = before + 1) => ?_⟩
            · exact getElem?_concat_length
            · obtain rfl : before = node.ids.length - 1 := by omega
              exact ⟨parent, by rw [getElem?_append_left hlength, hlast], rfl⟩
        · next hother =>
            obtain ⟨given, place, hentry, hplace, hids, hfirst, hnext⟩ := h.placed hfound
            by_cases hsame : found.chain = chain
            · rw [hsame] at hplace
              obtain rfl := Option.some.inj (hchain.symm.trans hplace)
              refine ⟨given, ⟨node.parents, node.ids ++ [eventId]⟩, hlater hentry, by rw [hsame]; exact hgrown,
                ?_, hfirst, fun before hbefore => ?_⟩
              · exact getElem?_concat_eq_some.mpr (.inl hids)
              · obtain ⟨previous, hprevious, hgiven⟩ := hnext before hbefore
                exact ⟨previous, getElem?_concat_eq_some.mpr (.inl hprevious), hgiven⟩
            · refine ⟨given, place, hlater hentry, ?_, hids, hfirst, hnext⟩
              rw [getElem?_modify_ne _ _ (Ne.symm hsame), hplace]
      · intro place found index other hplace hindex
        by_cases hsame : place = chain
        · subst hsame
          obtain rfl := Option.some.inj (hgrown.symm.trans hplace)
          obtain hindex | ⟨rfl, rfl⟩ := getElem?_concat_eq_some.mp hindex
          · exact hlisted _ hchain hindex
          · exact ⟨state.nextLv, InsertionMap.get?_set_self⟩
        · rw [getElem?_modify_ne _ _ (Ne.symm hsame)] at hplace
          exact hlisted _ hplace hindex
  · next hnone =>
      refine ⟨hhas _, by rw [h.nextLv, length_append]; rfl, ?_, ?_⟩
      · intro other found hfound
        rw [InsertionMap.get?_set] at hfound
        split at hfound
        · next hsame =>
            obtain rfl := Option.some.inj hfound
            subst hsame
            exact ⟨_, ⟨parents, [other]⟩, hat, getElem?_concat_length, rfl, fun _ => rfl, (by rintro _ ⟨⟩)⟩
        · obtain ⟨given, place, hentry, hplace, hids, hfirst, hnext⟩ := h.placed hfound
          exact ⟨given, place, hlater hentry, getElem?_concat_eq_some.mpr (.inl hplace), hids, hfirst,
            hnext⟩
      · intro place found index other hplace hindex
        obtain hplace | ⟨rfl, rfl⟩ := getElem?_concat_eq_some.mp hplace
        · exact hlisted _ hplace hindex
        · have hfirst : index = 0 := Nat.lt_one_iff.mp (List.getElem?_eq_some_iff.mp hindex).1
          subst hfirst
          obtain rfl := Option.some.inj hindex
          exact ⟨state.nextLv, InsertionMap.get?_set_self⟩

end Adding

section Ancestry

open Relation

variable {ancestor descendant : EventNode} {ancestorId descendantId : Text}

section

variable (h : Represents state history)
include h

theorem Represents.lv_lt_of_parent (hcausal : history.Causal)
    (hparent : history.ParentOf ancestorId descendantId) :
    ∃ ancestor descendant, state.nodes.get? ancestorId = some ancestor ∧
      state.nodes.get? descendantId = some descendant ∧ ancestor.lv < descendant.lv := by
  obtain ⟨given, hmem, hgiven⟩ := hparent
  obtain ⟨lv, hlv⟩ := getElem?_of_mem hmem
  obtain ⟨before, grandparents, hlt, hbefore⟩ := hcausal.earlier hlv hgiven
  have hnode : ∀ {place : Nat} {id : Text} {entry : List Text}, history[place]? = some (id, entry) →
      ∃ node, state.nodes.get? id = some node ∧ node.lv = place := by
    intro place id entry hentry
    have hhas := (h.has_iff id).mpr (mem_map.mpr ⟨_, mem_of_getElem? hentry, rfl⟩)
    obtain ⟨node, hnode⟩ := InsertionMap.has_iff.mp hhas
    obtain ⟨other, _, hother, _⟩ := h.placed hnode
    exact ⟨node, hnode, hcausal.lv_unique hother hentry⟩
  obtain ⟨first, hfirst, rfl⟩ := hnode hbefore
  obtain ⟨second, hsecond, rfl⟩ := hnode hlv
  exact ⟨first, second, hfirst, hsecond, hlt⟩

theorem Represents.lv_lt_of_ancestor (hcausal : history.Causal)
    (hancestor : history.Ancestor ancestorId descendantId) :
    ∃ ancestor descendant, state.nodes.get? ancestorId = some ancestor ∧
      state.nodes.get? descendantId = some descendant ∧ ancestor.lv < descendant.lv := by
  induction hancestor with
  | single hparent => exact h.lv_lt_of_parent hcausal hparent
  | tail _ hparent ih =>
    obtain ⟨first, middle, hfirst, hmiddle, hlt⟩ := ih
    obtain ⟨other, last, hother, hlast, hlater⟩ := h.lv_lt_of_parent hcausal hparent
    obtain rfl := Option.some.inj (hmiddle.symm.trans hother)
    exact ⟨first, last, hfirst, hlast, Nat.lt_trans hlt hlater⟩

theorem Represents.ancestor_of_chain {place first second : Nat}
    {chain : ChainNode} (hchain : state.chains[place]? = some chain)
    (hfirst : chain.ids[first]? = some ancestorId) (hsecond : chain.ids[second]? = some descendantId)
    (hlt : first < second) : history.Ancestor ancestorId descendantId := by
  induction second generalizing descendantId with
  | zero => cases hlt
  | succ second ih =>
    obtain ⟨lv, hnode⟩ := h.listed hchain hsecond
    obtain ⟨given, found, hentry, hfound, -, -, hnext⟩ := h.placed hnode
    obtain rfl := Option.some.inj (hchain.symm.trans hfound)
    obtain ⟨previous, hprevious, hgiven⟩ := hnext second rfl
    have hparent : history.ParentOf previous descendantId :=
      ⟨given, mem_of_getElem? hentry, hgiven ▸ mem_singleton_self previous⟩
    by_cases hsame : first = second
    · subst hsame
      obtain rfl := Option.some.inj (hfirst.symm.trans hprevious)
      exact .single hparent
    · exact (ih hprevious (by omega)).tail hparent

theorem Represents.ancestor_of_parents
    (hdescendant : state.nodes.get? descendantId = some descendant)
    (hparent : ancestorId ∈ (state.chainAt descendant.chain).parents) :
    history.Ancestor ancestorId descendantId := by
  obtain ⟨given, chain, hentry, hchain, hids, hfirst, -⟩ := h.placed hdescendant
  rw [chainAt_eq hchain] at hparent
  by_cases hzero : descendant.index = 0
  · exact .single ⟨given, mem_of_getElem? hentry, by rwa [hfirst hzero]⟩
  · have hlength : 0 < chain.ids.length :=
      Nat.lt_of_le_of_lt (Nat.zero_le _) (List.getElem?_eq_some_iff.mp hids).1
    have hhead : chain.ids[0]? = some chain.ids[0] := getElem?_eq_getElem hlength
    obtain ⟨lv, hnode⟩ := h.listed hchain hhead
    obtain ⟨other, found, hother, hfound, -, hstart, -⟩ := h.placed hnode
    obtain rfl := Option.some.inj (hchain.symm.trans hfound)
    have hparentOf : history.ParentOf ancestorId chain.ids[0] :=
      ⟨other, mem_of_getElem? hother, by rwa [hstart rfl]⟩
    exact .head hparentOf (h.ancestor_of_chain hchain hhead hids (Nat.pos_of_ne_zero hzero))

theorem Represents.ancestor_of_lv (hcausal : history.Causal)
    (hancestor : state.nodes.get? ancestorId = some ancestor)
    (hdescendant : state.nodes.get? descendantId = some descendant)
    (hchain : ancestor.chain = descendant.chain) (hlt : ancestor.lv < descendant.lv) :
    history.Ancestor ancestorId descendantId := by
  obtain ⟨_, chain, _, hplace, hids, -, -⟩ := h.placed hancestor
  obtain ⟨_, found, _, hfound, hother, -, -⟩ := h.placed hdescendant
  rw [← hchain] at hfound
  obtain rfl := Option.some.inj (hplace.symm.trans hfound)
  rcases Nat.lt_trichotomy ancestor.index descendant.index with hbefore | hsame | hafter
  · exact h.ancestor_of_chain hplace hids hother hbefore
  · rw [hsame] at hids
    obtain rfl := Option.some.inj (hids.symm.trans hother)
    obtain rfl := Option.some.inj (hancestor.symm.trans hdescendant)
    exact absurd hlt (Nat.lt_irrefl _)
  · obtain ⟨first, second, hfirst, hsecond, hless⟩ :=
      h.lv_lt_of_ancestor hcausal (h.ancestor_of_chain hplace hother hids hafter)
    obtain rfl := Option.some.inj (hdescendant.symm.trans hfirst)
    obtain rfl := Option.some.inj (hancestor.symm.trans hsecond)
    exact absurd hless (Nat.lt_asymm hlt)

theorem Represents.ancestor_cases (hcausal : history.Causal)
    (hancestor : state.nodes.get? ancestorId = some ancestor)
    (hdescendant : state.nodes.get? descendantId = some descendant)
    (hchain : ancestor.chain ≠ descendant.chain) (hless : history.Ancestor ancestorId descendantId) :
    ∃ parent ∈ (state.chainAt descendant.chain).parents,
      ReflTransGen history.ParentOf ancestorId parent := by
  obtain ⟨parent, hrest, given, hmem, hgiven⟩ := TransGen.tail'_iff.mp hless
  induction hindex : descendant.index generalizing descendantId descendant parent given with
  | zero =>
    obtain ⟨entry, chain, hentry, hplace, -, hfirst, -⟩ := h.placed hdescendant
    obtain ⟨lv, hlv⟩ := getElem?_of_mem hmem
    have hlvs := hcausal.lv_unique hlv hentry
    rw [hlvs] at hlv
    obtain ⟨-, rfl⟩ := Prod.mk.inj (Option.some.inj (hlv.symm.trans hentry))
    rw [chainAt_eq hplace, ← hfirst hindex]
    exact ⟨parent, hgiven, hrest⟩
  | succ before ih =>
    obtain ⟨entry, chain, hentry, hplace, hids, -, hnext⟩ := h.placed hdescendant
    obtain ⟨lv, hlv⟩ := getElem?_of_mem hmem
    have hlvs := hcausal.lv_unique hlv hentry
    rw [hlvs] at hlv
    obtain ⟨-, rfl⟩ := Prod.mk.inj (Option.some.inj (hlv.symm.trans hentry))
    obtain ⟨previous, hprevious, rfl⟩ := hnext before hindex
    obtain rfl := mem_singleton.mp hgiven
    obtain ⟨place, hnode⟩ := h.listed hplace hprevious
    rcases hrest.cases_tail with rfl | ⟨grandparent, hrest, given, hmem, hgiven⟩
    · obtain rfl := Option.some.inj (hancestor.symm.trans hnode)
      exact absurd rfl hchain
    · have hearlier : history.Ancestor ancestorId parent := .tail' hrest ⟨given, hmem, hgiven⟩
      exact @ih ⟨place, descendant.chain, before⟩ parent hnode hchain hearlier grandparent hrest given hmem
        hgiven rfl

theorem Represents.finds_iff (hcausal : history.Causal)
    (hancestor : state.nodes.get? ancestorId = some ancestor)
    (hdescendant : state.nodes.get? descendantId = some descendant) :
    Finds (state.chainSearch ancestor) descendantId ↔
      ReflTransGen history.ParentOf ancestorId descendantId := by
  have hskip : ∀ {id : Text} {node : EventNode}, state.nodes.get? id = some node →
      ((state.chainSearch ancestor).skip id = false ↔ ancestor.lv ≤ node.lv) := by
    intro id node hnode
    simp [chainSearch, hnode]
  have hfound : ∀ {id : Text} {node : EventNode}, state.nodes.get? id = some node →
      ((state.chainSearch ancestor).found id = true ↔ node.chain = ancestor.chain) := by
    intro id node hnode
    simp [chainSearch, hnode]
  have hnext : ∀ {id : Text} {node : EventNode}, state.nodes.get? id = some node →
      (state.chainSearch ancestor).next ((state.chainSearch ancestor).key id) =
        (state.chainAt node.chain).parents := by
    intro id node hnode
    simp [chainSearch, hnode]
  constructor
  · intro hfinds
    induction hfinds generalizing descendant with
    | @here id skip found =>
      have hle := (hskip hdescendant).mp skip
      have hchain := (hfound hdescendant).mp found
      rcases Nat.lt_or_eq_of_le hle with hlt | hsame
      · exact (h.ancestor_of_lv hcausal hancestor hdescendant hchain.symm hlt).to_reflTransGen
      · obtain ⟨given, _, hentry, -⟩ := h.placed hancestor
        obtain ⟨other, _, hother, -⟩ := h.placed hdescendant
        rw [hsame] at hentry
        obtain ⟨rfl, -⟩ := Prod.mk.inj (Option.some.inj (hentry.symm.trans hother))
        exact .refl
    | @later id next skip step rest ih =>
      rw [hnext hdescendant] at step
      have hparent := h.ancestor_of_parents hdescendant step
      obtain ⟨node, _, hnode, -⟩ := h.lv_lt_of_ancestor hcausal hparent
      exact (ih hnode).trans hparent.to_reflTransGen
  · intro hrest
    induction hlv : descendant.lv using Nat.strong_induction_on generalizing descendant descendantId with
    | h lv ih =>
      have hle : ancestor.lv ≤ descendant.lv := by
        rcases reflTransGen_iff_eq_or_transGen.mp hrest with rfl | hless
        · exact Nat.le_of_eq (congrArg EventNode.lv (Option.some.inj (hancestor.symm.trans hdescendant)))
        · obtain ⟨first, second, hfirst, hsecond, hlt⟩ := h.lv_lt_of_ancestor hcausal hless
          obtain rfl := Option.some.inj (hancestor.symm.trans hfirst)
          obtain rfl := Option.some.inj (hdescendant.symm.trans hsecond)
          exact Nat.le_of_lt hlt
      have hkept := (hskip hdescendant).mpr hle
      by_cases hchain : descendant.chain = ancestor.chain
      · exact .here hkept ((hfound hdescendant).mpr hchain)
      · have hless : history.Ancestor ancestorId descendantId := by
          rcases reflTransGen_iff_eq_or_transGen.mp hrest with rfl | hless
          · rw [Option.some.inj (hancestor.symm.trans hdescendant)] at hchain
            exact absurd rfl hchain
          · exact hless
        obtain ⟨parent, hparent, hbefore⟩ :=
          h.ancestor_cases hcausal hancestor hdescendant (Ne.symm hchain) hless
        obtain ⟨node, last, hnode, hlast, hlt⟩ :=
          h.lv_lt_of_ancestor hcausal (h.ancestor_of_parents hdescendant hparent)
        obtain rfl := Option.some.inj (hdescendant.symm.trans hlast)
        refine .later hkept ?_ (ih node.lv (hlv ▸ hlt) hnode hbefore rfl)
        rw [hnext hdescendant]
        exact hparent

omit h in
theorem lawful_chainSearch (state : CausalIndex) (ancestor : EventNode) :
    Lawful (state.chainSearch ancestor) (List.range state.chains.length) where
  marked_mark visited chain other := by
    simp [chainSearch, or_comm]
  nodup := nodup_range
  leads chain hleads := by
    rw [mem_range]
    by_contra hpast
    refine hleads ?_
    show (state.chainAt chain).parents = []
    rw [chainAt, getD_eq_getElem?_getD, getElem?_eq_none (Nat.le_of_not_lt hpast)]
    rfl

omit h in
theorem work_le_fuel (state : CausalIndex) (ancestor : EventNode) (visited : List Nat)
    (stack : List Text) :
    work (state.chainSearch ancestor) (List.range state.chains.length) visited stack ≤
      stack.length + (state.chains.map fun chain => chain.parents.length).sum := by
  have hall : (state.chains.map fun chain => chain.parents.length) =
      (List.range state.chains.length).map fun chain => (state.chainAt chain).parents.length := by
    apply ext_getElem
    · simp
    · intro place hfirst hsecond
      rw [length_map] at hfirst
      simp [chainAt, hfirst]
  rw [work, hall]
  refine Nat.add_le_add_left ?_ _
  exact (filter_sublist.map _).sum_le_sum fun _ _ => Nat.zero_le _

theorem Represents.isAncestor_iff (hcausal : history.Causal) :
    state.isAncestor ancestorId descendantId = true ↔ history.Ancestor ancestorId descendantId := by
  rw [isAncestor]
  by_cases hself : ancestorId = descendantId
  · rw [if_pos hself]
    refine ⟨nofun, fun hancestor => ?_⟩
    subst hself
    obtain ⟨first, second, hfirst, hsecond, hlt⟩ := h.lv_lt_of_ancestor hcausal hancestor
    obtain rfl := Option.some.inj (hfirst.symm.trans hsecond)
    exact absurd hlt (Nat.lt_irrefl _)
  rw [if_neg hself]
  split
  · next ancestor descendant hancestor hdescendant =>
      by_cases hle : descendant.lv ≤ ancestor.lv
      · rw [if_pos hle]
        refine ⟨nofun, fun hless => ?_⟩
        obtain ⟨first, second, hfirst, hsecond, hlt⟩ := h.lv_lt_of_ancestor hcausal hless
        obtain rfl := Option.some.inj (hancestor.symm.trans hfirst)
        obtain rfl := Option.some.inj (hdescendant.symm.trans hsecond)
        exact absurd hlt (Nat.not_lt.mpr hle)
      rw [if_neg hle]
      by_cases hchain : ancestor.chain = descendant.chain
      · rw [if_pos hchain]
        exact ⟨fun _ => h.ancestor_of_lv hcausal hancestor hdescendant hchain (Nat.lt_of_not_le hle),
          fun _ => rfl⟩
      rw [if_neg hchain, searchAncestor, Option.isNone_iff_eq_none,
        (lawful_chainSearch state ancestor).run_eq_none_iff (work_le_fuel state ancestor _ _) ?_]
      · constructor
        · intro ⟨parent, hparent, hfinds⟩
          rw [mem_reverse] at hparent
          have hlast := h.ancestor_of_parents hdescendant hparent
          obtain ⟨node, _, hnode, -⟩ := h.lv_lt_of_ancestor hcausal hlast
          exact .trans_right ((h.finds_iff hcausal hancestor hnode).mp hfinds) hlast
        · intro hless
          obtain ⟨parent, hparent, hrest⟩ :=
            h.ancestor_cases hcausal hancestor hdescendant hchain hless
          obtain ⟨node, _, hnode, -⟩ :=
            h.lv_lt_of_ancestor hcausal (h.ancestor_of_parents hdescendant hparent)
          exact ⟨parent, mem_reverse.mpr hparent, (h.finds_iff hcausal hancestor hnode).mpr hrest⟩
      · intro chain hvisited node hnode
        obtain rfl := mem_singleton.mp (of_decide_eq_true hvisited)
        exact .inl (mem_reverse.mpr hnode)
  · next hmissing =>
      refine ⟨nofun, fun hless => ?_⟩
      obtain ⟨first, second, hfirst, hsecond, -⟩ := h.lv_lt_of_ancestor hcausal hless
      exact absurd hsecond (hmissing first second hfirst)

end

end Ancestry

end CausalIndex
end Softmaple.BlockModel
