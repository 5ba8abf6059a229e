import Mathlib.Algebra.BigOperators.Group.List.Basic
import Mathlib.Algebra.GroupWithZero.Nat

/-!
Depth-first search with a stack: nodes are skipped, found, or marked by their key and followed by the
nodes the key leads to. A search that ends without a find has marked everything it can get to.
-/
namespace MarkingSearch

open List

universe u v w
variable {σ : Type u} {β : Type v} {κ : Type w}

structure Search (σ : Type u) (β : Type v) (κ : Type w) where
  skip : β → Bool
  found : β → Bool
  key : β → κ
  next : κ → List β
  marked : σ → κ → Bool
  mark : σ → κ → σ

variable (search : Search σ β κ)

/-- The loop; the last pushed node is the next one taken. `none` where a node is found. -/
def run : Nat → σ → List β → Option σ
  | 0, state, _ => some state
  | _ + 1, state, [] => some state
  | fuel + 1, state, node :: stack =>
    if search.skip node then run fuel state stack
    else if search.found node then none
    else if search.marked state (search.key node) then run fuel state stack
    else run fuel (search.mark state (search.key node))
      ((search.next (search.key node)).reverse ++ stack)

inductive Finds : β → Prop where
  | here {node : β} (skip : search.skip node = false) (found : search.found node = true) : Finds node
  | later {node next : β} (skip : search.skip node = false)
      (step : next ∈ search.next (search.key node)) (rest : Finds next) : Finds node

inductive Reaches : β → κ → Prop where
  | here {node : β} (skip : search.skip node = false) : Reaches node (search.key node)
  | later {node next : β} {key : κ} (skip : search.skip node = false)
      (step : next ∈ search.next (search.key node)) (rest : Reaches next key) : Reaches node key

def Passed (state : σ) (node : β) : Prop :=
  search.skip node = true ∨ search.found node = false ∧ search.marked state (search.key node) = true

structure Lawful [DecidableEq κ] (keys : List κ) : Prop where
  marked_mark : ∀ state key other,
    search.marked (search.mark state key) other = (decide (other = key) || search.marked state other)
  nodup : keys.Nodup
  leads : ∀ key, search.next key ≠ [] → key ∈ keys

/-- The rounds that are left at most. -/
def work (keys : List κ) (state : σ) (stack : List β) : Nat :=
  stack.length + ((keys.filter fun key => !search.marked state key).map
    fun key => (search.next key).length).sum

/-- Everything a marked key leads to has been passed or waits on the stack. -/
def Settled (state : σ) (stack : List β) : Prop :=
  ∀ key, search.marked state key = true → ∀ node ∈ search.next key, node ∈ stack ∨ Passed search state node

variable {search} {fuel : Nat} {state last : σ} {stack : List β} {node : β}

theorem finds_of_run (h : run search fuel state stack = none) : ∃ node ∈ stack, Finds search node := by
  induction fuel generalizing state stack with
  | zero => cases h
  | succ fuel ih =>
    cases stack with
    | nil => cases h
    | cons node stack =>
      rw [run] at h
      have hrest : (∃ later ∈ stack, Finds search later) →
          ∃ later ∈ node :: stack, Finds search later := by
        intro ⟨later, hlater, hfinds⟩
        exact ⟨later, mem_cons_of_mem node hlater, hfinds⟩
      split at h
      · exact hrest (ih h)
      next hskip =>
      rw [Bool.not_eq_true] at hskip
      split at h
      · next hfound => exact ⟨node, mem_cons_self, .here hskip hfound⟩
      split at h
      · exact hrest (ih h)
      · obtain ⟨later, hlater, hfinds⟩ := ih h
        rw [mem_append, mem_reverse] at hlater
        cases hlater with
        | inl hnext => exact ⟨node, mem_cons_self, .later hskip hnext hfinds⟩
        | inr hstack => exact hrest ⟨later, hstack, hfinds⟩

theorem Settled.not_finds (h : Settled search state []) (hpassed : Passed search state node) :
    ¬ Finds search node := by
  intro hfinds
  induction hfinds with
  | here hskip hfound =>
    rcases hpassed with hpassed | ⟨hpassed, -⟩
    · exact Bool.false_ne_true (hskip.symm.trans hpassed)
    · exact Bool.false_ne_true (hpassed.symm.trans hfound)
  | later hskip step rest ih =>
    rcases hpassed with hpassed | ⟨-, hmarked⟩
    · exact Bool.false_ne_true (hskip.symm.trans hpassed)
    · exact ih ((h _ hmarked _ step).resolve_left not_mem_nil)

theorem run_keeps {motive : σ → Prop} (h : run search fuel state stack = some last)
    (hmark : ∀ state key, motive state → motive (search.mark state key)) (hstate : motive state) :
    motive last := by
  induction fuel generalizing state stack with
  | zero => exact Option.some.inj h ▸ hstate
  | succ fuel ih =>
    cases stack with
    | nil => exact Option.some.inj h ▸ hstate
    | cons node stack =>
      rw [run] at h
      split at h
      · exact ih h hstate
      split at h
      · cases h
      split at h
      · exact ih h hstate
      · exact ih h (hmark _ _ hstate)

section Marks

variable [DecidableEq κ] {keys : List κ}

section

variable (hlawful : Lawful search keys)
include hlawful

theorem Lawful.marked_mono {key other : κ}
    (h : search.marked state other = true) : search.marked (search.mark state key) other = true := by
  rw [hlawful.marked_mark, h, Bool.or_true]

theorem Lawful.passed_mono {key : κ} (h : Passed search state node) :
    Passed search (search.mark state key) node :=
  h.imp_right fun hmarked => ⟨hmarked.1, hlawful.marked_mono hmarked.2⟩

theorem Lawful.work_mark {key : κ} (hnew : search.marked state key = false) :
    work search keys (search.mark state key) ((search.next key).reverse ++ stack) =
      work search keys state stack := by
  have hsum : ∀ {values : List κ}, values.Nodup →
      ((values.filter fun other => !search.marked (search.mark state key) other).map
        fun other => (search.next other).length).sum +
        (if key ∈ values then (search.next key).length else 0) =
      ((values.filter fun other => !search.marked state other).map
        fun other => (search.next other).length).sum := by
    intro values hvalues
    induction values with
    | nil => rfl
    | cons value values ih =>
      obtain ⟨hvalue, hvalues⟩ := nodup_cons.mp hvalues
      have hrest := ih hvalues
      rw [filter_cons, filter_cons, hlawful.marked_mark]
      by_cases hsame : value = key
      · subst hsame
        rw [if_neg hvalue] at hrest
        rw [decide_eq_true rfl, hnew, if_pos mem_cons_self]
        simp only [Bool.true_or, Bool.not_true, Bool.false_eq_true, if_false, Bool.not_false, if_true,
          map_cons, sum_cons]
        omega
      · have hmem : key ∈ value :: values ↔ key ∈ values := by
          rw [mem_cons, or_iff_right fun h => hsame h.symm]
        rw [decide_eq_false hsame, Bool.false_or, if_congr hmem rfl rfl]
        split
        · rw [map_cons, sum_cons, map_cons, sum_cons, ← hrest, Nat.add_assoc]
        · exact hrest
  have hkeys := hsum hlawful.nodup
  rw [work, work, length_append, length_reverse]
  by_cases hmem : key ∈ keys
  · rw [if_pos hmem] at hkeys
    omega
  · have hnone : search.next key = [] := by
      by_contra hsome
      exact hmem (hlawful.leads key hsome)
    rw [if_neg hmem] at hkeys
    rw [hnone, length_nil]
    omega

theorem Lawful.run_some (hfuel : work search keys state stack ≤ fuel)
    (h : run search fuel state stack = some last) (hsettled : Settled search state stack) :
    (∀ key, search.marked state key = true → search.marked last key = true) ∧
      (∀ node ∈ stack, Passed search last node) ∧ Settled search last [] ∧
      ∀ key, search.marked last key = true → search.marked state key = true ∨
        ∃ node ∈ stack, Reaches search node key := by
  induction fuel generalizing state stack with
  | zero =>
    obtain rfl := Option.some.inj h
    have hnil : stack = [] := by
      rw [work] at hfuel
      exact eq_nil_of_length_eq_zero (by omega)
    subst hnil
    exact ⟨fun _ hkey => hkey, nofun, hsettled, fun _ hkey => .inl hkey⟩
  | succ fuel ih =>
    cases stack with
    | nil =>
      obtain rfl := Option.some.inj h
      exact ⟨fun _ hkey => hkey, nofun, hsettled, fun _ hkey => .inl hkey⟩
    | cons node stack =>
      rw [run] at h
      have hless : work search keys state stack ≤ fuel := by
        rw [work, length_cons] at hfuel
        rw [work]
        omega
      -- a node that is passed leaves the stack settled
      have hpop : Passed search state node → run search fuel state stack = some last →
          (∀ key, search.marked state key = true → search.marked last key = true) ∧
          (∀ other ∈ node :: stack, Passed search last other) ∧ Settled search last [] ∧
          ∀ key, search.marked last key = true → search.marked state key = true ∨
            ∃ other ∈ node :: stack, Reaches search other key := by
        intro hpassed hrun
        have hstack : Settled search state stack := by
          intro key hkey other hother
          rcases hsettled key hkey other hother with hmem | hother
          · rcases mem_cons.mp hmem with rfl | hmem
            · exact .inr hpassed
            · exact .inl hmem
          · exact .inr hother
        obtain ⟨hmono, hall, hdone, hreach⟩ := ih hless hrun hstack
        refine ⟨hmono, forall_mem_cons.mpr ⟨?_, hall⟩, hdone, fun key hkey => ?_⟩
        · exact hpassed.imp_right fun hmarked => ⟨hmarked.1, hmono _ hmarked.2⟩
        · exact (hreach key hkey).imp_right fun ⟨other, hother, hreaches⟩ =>
            ⟨other, mem_cons_of_mem node hother, hreaches⟩
      split at h
      · next hskip => exact hpop (.inl hskip) h
      next hskip =>
      rw [Bool.not_eq_true] at hskip
      split at h
      · cases h
      next hfound =>
      rw [Bool.not_eq_true] at hfound
      split at h
      · next hmarked => exact hpop (.inr ⟨hfound, hmarked⟩) h
      next hmarked =>
      rw [Bool.not_eq_true] at hmarked
      have hwork : work search keys (search.mark state (search.key node))
          ((search.next (search.key node)).reverse ++ stack) ≤ fuel := by
        rw [hlawful.work_mark hmarked]
        exact hless
      have hnext : Settled search (search.mark state (search.key node))
          ((search.next (search.key node)).reverse ++ stack) := by
        intro key hkey other hother
        rw [hlawful.marked_mark, Bool.or_eq_true, decide_eq_true_eq] at hkey
        rw [mem_append, mem_reverse]
        rcases hkey with rfl | hkey
        · exact .inl (.inl hother)
        rcases hsettled key hkey other hother with hmem | hpassed
        · rcases mem_cons.mp hmem with rfl | hmem
          · refine .inr (.inr ⟨hfound, ?_⟩)
            rw [hlawful.marked_mark, decide_eq_true rfl, Bool.true_or]
          · exact .inl (.inr hmem)
        · exact .inr (hlawful.passed_mono hpassed)
      obtain ⟨hmono, hall, hdone, hreach⟩ := ih hwork h hnext
      have hhere : search.marked last (search.key node) = true :=
        hmono _ (by rw [hlawful.marked_mark, decide_eq_true rfl, Bool.true_or])
      refine ⟨fun key hkey => hmono key (hlawful.marked_mono hkey), ?_, hdone, fun key hkey => ?_⟩
      · refine forall_mem_cons.mpr ⟨.inr ⟨hfound, hhere⟩, fun other hother => ?_⟩
        exact hall other (mem_append_right _ hother)
      · rcases hreach key hkey with hbefore | ⟨other, hother, hreaches⟩
        · rw [hlawful.marked_mark, Bool.or_eq_true, decide_eq_true_eq] at hbefore
          rcases hbefore with rfl | hbefore
          · exact .inr ⟨node, mem_cons_self, .here hskip⟩
          · exact .inl hbefore
        · rw [mem_append, mem_reverse] at hother
          rcases hother with hother | hother
          · exact .inr ⟨node, mem_cons_self, .later hskip hother hreaches⟩
          · exact .inr ⟨other, mem_cons_of_mem node hother, hreaches⟩

theorem Lawful.run_eq_none_iff
    (hfuel : work search keys state stack ≤ fuel) (hsettled : Settled search state stack) :
    run search fuel state stack = none ↔ ∃ node ∈ stack, Finds search node := by
  constructor
  · exact finds_of_run
  · intro ⟨node, hnode, hfinds⟩
    cases hrun : run search fuel state stack with
    | none => rfl
    | some last =>
      obtain ⟨-, hall, hdone, -⟩ := hlawful.run_some hfuel hrun hsettled
      exact absurd hfinds (hdone.not_finds (hall node hnode))

end

end Marks

end MarkingSearch
