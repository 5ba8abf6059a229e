import Mathlib.Data.List.Basic

/-!
Fallible programs that agree: both return, with related values, or both fail, with related
errors.
-/
namespace ExceptAgreement

universe u v

variable {ε ζ ι : Type*} {α γ : Type u} {β δ : Type v} {E : ε → ζ → Prop} {R : α → β → Prop} {S : γ → δ → Prop}

inductive Agree (E : ε → ζ → Prop) (R : α → β → Prop) : Except ε α → Except ζ β → Prop where
  | ok {value : α} {other : β} (h : R value other) : Agree E R (.ok value) (.ok other)
  | error {failure : ε} {other : ζ} (h : E failure other) : Agree E R (.error failure) (.error other)

variable {first : Except ε α}

variable {second : Except ζ β}

theorem Agree.bind {next : α → Except ε γ} {other : β → Except ζ δ} (h : Agree E R first second)
    (hnext : ∀ value mirror, R value mirror → Agree E S (next value) (other mirror)) :
    Agree E S (first >>= next) (second >>= other) := by
  cases h with
  | ok hvalue => exact hnext _ _ hvalue
  | error herror => exact .error herror

theorem Agree.map {f : α → γ} {g : β → δ}
    (h : Agree E R first second) (hmap : ∀ value mirror, R value mirror → S (f value) (g mirror)) :
    Agree E S (f <$> first) (g <$> second) := by
  cases h with
  | ok hvalue => exact .ok (hmap _ _ hvalue)
  | error herror => exact .error herror

theorem Agree.map_ok {mirror : β} {f : α → γ} {other : δ}
    (h : Agree E R first (.ok mirror)) (hmap : ∀ value, R value mirror → S (f value) other) :
    Agree E S (f <$> first) (.ok other) := by
  cases h with
  | ok hvalue => exact .ok (hmap _ hvalue)

theorem Agree.lift_ok {η θ : Type*} {F : η → θ → Prop} {mirror : β} {f : α → γ}
    {g : ε → η} {other : δ} (h : Agree E R first (.ok mirror))
    (hmap : ∀ value, R value mirror → S (f value) other) :
    Agree F S ((first.mapError g).map f) (.ok other) := by
  cases h with
  | ok hvalue => exact .ok (hmap _ hvalue)

/-- A program after one that does not fail. -/
theorem Agree.bind_ok {mirror : β} {next : α → Except ε γ} {second : Except ζ δ}
    (h : Agree E R first (.ok mirror)) (hnext : ∀ value, R value mirror → Agree E S (next value) second) :
    Agree E S (first >>= next) second := by
  cases h with
  | ok hvalue => exact hnext _ hvalue

theorem Agree.mono {T : α → β → Prop}
    (h : Agree E R first second) (hmono : ∀ value mirror, R value mirror → T value mirror) :
    Agree E T first second := by
  cases h with
  | ok hvalue => exact .ok (hmono _ _ hvalue)
  | error herror => exact .error herror

theorem Agree.foldlM {step : α → ι → Except ε α} {other : β → ι → Except ζ β} (items : List ι)
    (hstep : ∀ item ∈ items, ∀ value mirror, R value mirror →
      Agree E R (step value item) (other mirror item)) :
    ∀ {value mirror}, R value mirror →
      Agree E R (items.foldlM step value) (items.foldlM other mirror) := by
  induction items with
  | nil => exact fun h => .ok h
  | cons item items ih =>
    obtain ⟨hitem, hitems⟩ := List.forall_mem_cons.mp hstep
    intro value mirror h
    rw [List.foldlM_cons, List.foldlM_cons]
    exact (hitem value mirror h).bind fun _ _ hnext => ih hitems hnext

theorem Agree.join {η : Type*} {F : η → ζ → Prop} {G : ε → η → Prop} {T : γ → β → Prop}
    {U : α → γ → Prop} {third : Except η γ}
    (h : Agree E R first second) (k : Agree F T third second)
    (herror : ∀ failure other mirror, E failure mirror → F other mirror → G failure other)
    (hvalue : ∀ value other mirror, R value mirror → T other mirror → U value other) :
    Agree G U first third := by
  cases h with
  | ok hfirst =>
    cases k with
    | ok hthird => exact .ok (hvalue _ _ _ hfirst hthird)
  | error hfirst =>
    cases k with
    | error hthird => exact .error (herror _ _ _ hfirst hthird)

end ExceptAgreement
