import Mathlib.Data.Set.Finite.List

/-!
Items held back until the events they build on are there. Each item has parent
events and produces events; an item is released when some causal order of held
items ends with it. An order that leaves no item ready lists the released ones.
-/
universe u v

namespace CausalRelease

open List

variable {ι : Type u} {ε : Type v} (parents produces : ι → List ε)

def CausalOrder (available : ε → Prop) : List ι → Prop
  | [] => True
  | item :: rest =>
    (∀ parent ∈ parents item, available parent) ∧
      CausalOrder (fun event => available event ∨ event ∈ produces item) rest

def After (available : ε → Prop) (order : List ι) (event : ε) : Prop :=
  available event ∨ ∃ item ∈ order, event ∈ produces item

def Released (available : ε → Prop) (held : ι → Prop) (item : ι) : Prop :=
  ∃ order : List ι, CausalOrder parents produces available order ∧
    (∀ other ∈ order, held other) ∧ item ∈ order

variable {parents produces} {available more : ε → Prop} {order rest : List ι} {item : ι}

theorem CausalOrder.mono (h : CausalOrder parents produces available order)
    (hmore : ∀ event, available event → more event) :
    CausalOrder parents produces more order := by
  induction order generalizing available more with
  | nil => exact h
  | cons first rest ih =>
    refine ⟨fun parent hparent => hmore parent (h.1 parent hparent), ih h.2 ?_⟩
    intro event hevent
    exact hevent.imp (hmore event) id

theorem After.cons {event : ε} : After produces available (item :: rest) event ↔
      After produces (fun event => available event ∨ event ∈ produces item) rest event := by
  unfold After
  simp only [mem_cons, exists_eq_or_imp, or_assoc]

theorem causalOrder_append : CausalOrder parents produces available (order ++ rest) ↔
    CausalOrder parents produces available order ∧
      CausalOrder parents produces (After produces available order) rest := by
  induction order generalizing available with
  | nil =>
    constructor
    · intro h
      exact ⟨trivial, h.mono fun event => Or.inl⟩
    · intro h
      apply h.2.mono
      intro event hevent
      exact hevent.resolve_right fun hsome => by simp at hsome
  | cons first order ih =>
    rw [cons_append, CausalOrder, CausalOrder, ih, and_assoc]
    apply and_congr_right
    intro _
    apply and_congr_right
    intro _
    constructor
    · exact fun h => h.mono fun event => After.cons.mpr
    · exact fun h => h.mono fun event => After.cons.mp

theorem causalOrder_concat : CausalOrder parents produces available (order ++ [item]) ↔
    CausalOrder parents produces available order ∧
      ∀ parent ∈ parents item, After produces available order parent := by
  rw [causalOrder_append, CausalOrder, CausalOrder, and_true]

theorem mem_of_released {held : ι → Prop} (hstuck : ∀ other, held other → other ∉ order →
      ∃ parent ∈ parents other, ¬ After produces available order parent)
    (h : Released parents produces available held item) : item ∈ order := by
  obtain ⟨causal, hcausal, hheld, hmem⟩ := h
  have hall : ∀ (causal : List ι) (reached : ε → Prop),
      CausalOrder parents produces reached causal → (∀ other ∈ causal, held other) →
      (∀ event, reached event → After produces available order event) →
      ∀ other ∈ causal, other ∈ order := by
    intro causal
    induction causal with
    | nil => intro _ _ _ _ other hother; cases hother
    | cons first rest ih =>
      intro reached hcausal hheld hreached other hother
      have hfirst : first ∈ order := by
        by_contra hout
        obtain ⟨parent, hparent, hmissing⟩ :=
          hstuck first (hheld first mem_cons_self) hout
        exact hmissing (hreached parent (hcausal.1 parent hparent))
      cases mem_cons.mp hother with
      | inl heq => rw [heq]; exact hfirst
      | inr hrest =>
        apply ih _ hcausal.2 (fun item hitem => hheld item (mem_cons_of_mem _ hitem)) _
          other hrest
        intro event hevent
        cases hevent with
        | inl hold => exact hreached event hold
        | inr hnew => exact Or.inr ⟨first, hfirst, hnew⟩
  exact hall causal available hcausal hheld (fun event => Or.inl) item hmem

theorem mem_iff_released {held : ι → Prop} (hcausal : CausalOrder parents produces available order)
    (hheld : ∀ other ∈ order, held other)
    (hstuck : ∀ other, held other → other ∉ order →
      ∃ parent ∈ parents other, ¬ After produces available order parent) :
    item ∈ order ↔ Released parents produces available held item :=
  ⟨fun hmem => ⟨order, hcausal, hheld, hmem⟩, mem_of_released hstuck⟩

theorem nodup_produced {held : List ι} {events : List ε} (horder : order.Nodup)
    (hsub : ∀ other ∈ order, other ∈ held) (h : (events ++ held.flatMap produces).Nodup) :
    (events ++ order.flatMap produces).Nodup := by
  have hsubperm : order.Subperm held := subperm_of_subset horder hsub
  obtain ⟨middle, hperm, hsublist⟩ := hsubperm
  have hflat : (middle.flatMap produces).Sublist (held.flatMap produces) :=
    hsublist.flatMap produces
  apply ((hperm.flatMap_right produces).append_left events).nodup_iff.mp
  exact (hflat.append_left events).nodup h

theorem length_produced_le {held : List ι} (horder : order.Nodup)
    (hsub : ∀ other ∈ order, other ∈ held) :
    (order.flatMap produces).length ≤ (held.flatMap produces).length := by
  obtain ⟨middle, hperm, hsublist⟩ := subperm_of_subset horder hsub
  rw [← (hperm.flatMap_right produces).length_eq]
  exact (hsublist.flatMap produces).length_le

theorem exists_cycle {precedes : ι → ι → Prop} {items : List ι} (hsome : items ≠ [])
    (h : ∀ item ∈ items, ∃ before ∈ items, precedes before item) :
    ∃ item ∈ items, Relation.TransGen precedes item item := by
  by_contra hnone
  push Not at hnone
  let earlier : {item // item ∈ items} → {item // item ∈ items} → Prop :=
    fun left right => Relation.TransGen precedes left.1 right.1
  have htrans : IsTrans _ earlier := ⟨fun _ _ _ hleft hright => hleft.trans hright⟩
  have hirrefl : Std.Irrefl earlier := ⟨fun item => hnone item.1 item.2⟩
  have hfinite : Finite {item // item ∈ items} := finite_toSet items
  have hwell : WellFounded earlier := Finite.wellFounded_of_trans_of_irrefl earlier
  obtain ⟨item, hitem⟩ := exists_mem_of_ne_nil items hsome
  obtain ⟨first, -, hfirst⟩ := hwell.has_min Set.univ ⟨⟨item, hitem⟩, trivial⟩
  obtain ⟨before, hbefore, hprecedes⟩ := h first.1 first.2
  exact hfirst ⟨before, hbefore⟩ trivial (.single hprecedes)

section Ancestry

variable (parents produces)

def Precedes (known : List ι) (before item : ι) : Prop :=
  before ∈ known ∧ ∃ event ∈ produces before, event ∈ parents item

/-- Everything that leads to `item` is known, and nothing of it leads to itself. -/
structure Grounded (known : List ι) (item : ι) : Prop where
  complete : ∀ before, Relation.ReflTransGen (Precedes parents produces known) before item →
    ∀ parent ∈ parents before, ∃ other ∈ known, parent ∈ produces other
  acyclic : ∀ before, Relation.ReflTransGen (Precedes parents produces known) before item →
    ¬ Relation.TransGen (Precedes parents produces known) before before

variable {parents produces} {known : List ι}

theorem mem_of_transGen {pre post : List ι} {before : ι}
    (hcausal : CausalOrder parents produces (fun _ => False) (pre ++ item :: post))
    (hsub : ∀ other ∈ pre, other ∈ known)
    (hunique : ∀ left ∈ known, ∀ right ∈ known, ∀ event, event ∈ produces left →
      event ∈ produces right → left = right)
    (h : Relation.TransGen (Precedes parents produces known) before item) : before ∈ pre := by
  have hstep : ∀ {pre post : List ι} {item before : ι},
      CausalOrder parents produces (fun _ => False) (pre ++ item :: post) →
      (∀ other ∈ pre, other ∈ known) → Precedes parents produces known before item →
      before ∈ pre := by
    intro pre post item before hcausal hsub hprecedes
    obtain ⟨hbefore, event, hevent, hparent⟩ := hprecedes
    cases (causalOrder_append.mp hcausal).2.1 event hparent with
    | inl hfalse => exact hfalse.elim
    | inr hproduced =>
      obtain ⟨other, hother, hmem⟩ := hproduced
      rw [hunique before hbefore other (hsub other hother) event hevent hmem]
      exact hother
  induction h using Relation.TransGen.head_induction_on with
  | single hprecedes => exact hstep hcausal hsub hprecedes
  | head hprecedes _ ih =>
    obtain ⟨earlier, later, rfl⟩ := append_of_mem ih
    rw [append_assoc, cons_append] at hcausal
    have hearlier := hstep hcausal
      (fun other hother => hsub other (mem_append_left _ hother)) hprecedes
    exact mem_append_left _ hearlier

theorem mem_iff_grounded (hcausal : CausalOrder parents produces (fun _ => False) order)
    (hnodup : order.Nodup) (hsub : ∀ other ∈ order, other ∈ known)
    (hunique : ∀ left ∈ known, ∀ right ∈ known, ∀ event, event ∈ produces left →
      event ∈ produces right → left = right)
    (hstuck : ∀ other ∈ known, other ∉ order →
      ∃ parent ∈ parents other, ∀ before ∈ order, parent ∉ produces before)
    (hitem : item ∈ known) : item ∈ order ↔ Grounded parents produces known item := by
  constructor
  · intro hmem
    have hbefore : ∀ before, Relation.ReflTransGen (Precedes parents produces known) before item →
        before ∈ order := by
      intro before hleads
      cases Relation.reflTransGen_iff_eq_or_transGen.mp hleads with
      | inl heq => exact heq ▸ hmem
      | inr htrans =>
        obtain ⟨pre, post, rfl⟩ := append_of_mem hmem
        exact mem_append_left _ (mem_of_transGen hcausal
          (fun other hother => hsub other (mem_append_left _ hother)) hunique htrans)
    constructor
    · intro before hleads parent hparent
      obtain ⟨pre, post, rfl⟩ := append_of_mem (hbefore before hleads)
      cases (causalOrder_append.mp hcausal).2.1 parent hparent with
      | inl hfalse => exact hfalse.elim
      | inr hproduced =>
        obtain ⟨other, hother, hevent⟩ := hproduced
        exact ⟨other, hsub other (mem_append_left _ hother), hevent⟩
    · intro before hleads hcycle
      obtain ⟨pre, post, rfl⟩ := append_of_mem (hbefore before hleads)
      have hagain := mem_of_transGen hcausal
        (fun other hother => hsub other (mem_append_left _ hother)) hunique hcycle
      exact (nodup_append.mp hnodup).2.2 before hagain before mem_cons_self rfl
  · intro hgrounded
    by_contra hout
    -- The items that lead here and were left out each wait for another one of them.
    classical
    let left := known.filter fun other => decide
      (other ∉ order ∧ Relation.ReflTransGen (Precedes parents produces known) other item)
    have hleft : ∀ other, other ∈ left ↔ other ∈ known ∧ other ∉ order ∧
        Relation.ReflTransGen (Precedes parents produces known) other item := by
      intro other
      rw [mem_filter, decide_eq_true_iff]
    have hsome : left ≠ [] := ne_nil_of_mem ((hleft item).mpr ⟨hitem, hout, .refl⟩)
    obtain ⟨cyclic, hcyclic, hcycle⟩ := @exists_cycle _ (Precedes parents produces known) left
      hsome (by
        intro other hother
        obtain ⟨hknown, hnot, hleads⟩ := (hleft other).mp hother
        obtain ⟨parent, hparent, hmissing⟩ := hstuck other hknown hnot
        obtain ⟨before, hbefore, hevent⟩ := hgrounded.complete other hleads parent hparent
        have hprecedes : Precedes parents produces known before other :=
          ⟨hbefore, parent, hevent, hparent⟩
        refine ⟨before, (hleft before).mpr ⟨hbefore, ?_, .head hprecedes hleads⟩, hprecedes⟩
        intro hin
        exact hmissing before hin hevent)
    exact hgrounded.acyclic cyclic ((hleft cyclic).mp hcyclic).2.2 hcycle

theorem Grounded.of_same {more : List ι} (hsame : ∀ other, other ∈ known ↔ other ∈ more)
    (h : Grounded parents produces known item) : Grounded parents produces more item := by
  have hprecedes : Precedes parents produces more = Precedes parents produces known := by
    funext before other
    rw [Precedes, Precedes, hsame]
  constructor
  · rw [hprecedes]
    simpa only [hsame] using h.complete
  · rw [hprecedes]
    exact h.acyclic

end Ancestry

end CausalRelease
