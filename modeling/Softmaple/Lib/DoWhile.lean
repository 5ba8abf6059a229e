import Mathlib.Data.Finset.Card

/-!
Loops that run rounds until one reports no change. A loop ends where every other round gains one of
finitely many items.
-/
namespace DoWhile

universe u v
variable {σ : Type u} {ι : Type v}

def loop (round : σ → σ × Bool) : Nat → σ → σ
  | 0, state => state
  | fuel + 1, state => if (round state).2 then loop round fuel (round state).1 else (round state).1

variable {round : σ → σ × Bool} {motive : σ → Prop} {has : σ → ι → Prop} {items : Finset ι}
  {fuel : Nat} {state : σ}

theorem loop_ends (hkeep : ∀ state, motive state → motive (round state).1)
    (hmono : ∀ state, motive state → ∀ item, has state item → has (round state).1 item)
    (hgain : ∀ state, motive state → (round state).2 = true →
      ∃ item ∈ items, ¬ has state item ∧ has (round state).1 item)
    (hstate : motive state) (hfuel : items.card < fuel) :
    ∃ last, motive last ∧ (round last).2 = false ∧ loop round fuel state = (round last).1 := by
  classical
  -- what is missing shrinks with every round that changes something
  have hmissing : ∀ fuel state, motive state → (items.filter fun item => ¬ has state item).card < fuel →
      ∃ last, motive last ∧ (round last).2 = false ∧ loop round fuel state = (round last).1 := by
    intro fuel
    induction fuel with
    | zero => exact fun state _ hless => absurd hless (Nat.not_lt_zero _)
    | succ fuel ih =>
      intro state hstate hless
      rw [loop]
      split
      · next hchanged =>
          refine ih _ (hkeep state hstate) (Nat.lt_of_lt_of_le ?_ (Nat.le_of_lt_succ hless))
          obtain ⟨item, hitem, hbefore, hafter⟩ := hgain state hstate hchanged
          refine Finset.card_lt_card (Finset.ssubset_iff_subset_ne.mpr ⟨?_, fun hsame => ?_⟩)
          · intro other hother
            rw [Finset.mem_filter] at hother ⊢
            exact ⟨hother.1, fun hhas => hother.2 (hmono state hstate other hhas)⟩
          · have hmem : item ∈ items.filter fun item => ¬ has state item :=
              Finset.mem_filter.mpr ⟨hitem, hbefore⟩
            rw [← hsame, Finset.mem_filter] at hmem
            exact hmem.2 hafter
      · next hsame => exact ⟨state, hstate, Bool.eq_false_iff.mpr hsame, rfl⟩
  exact hmissing fuel state hstate (Nat.lt_of_le_of_lt (Finset.card_filter_le _ _) hfuel)

end DoWhile
