import Mathlib.Data.List.Basic

/-!
Readers of a token list. A reader `Reads` a stretch of tokens as a value when it
takes exactly those tokens, whatever follows; the rules follow the structure of
the reader.
-/

structure ListReader (τ ε α : Type) where
  run : List τ → Except ε (α × List τ)

namespace ListReader

variable {τ ε α β : Type}

def pure (a : α) : ListReader τ ε α := ⟨fun input => .ok (a, input)⟩

def bind (reader : ListReader τ ε α) (next : α → ListReader τ ε β) : ListReader τ ε β where
  run input :=
    match reader.run input with
    | .error error => .error error
    | .ok (a, rest) => (next a).run rest

instance : Monad (ListReader τ ε) where
  pure := pure
  bind := bind

def fail (error : ε) : ListReader τ ε α := ⟨fun _ => .error error⟩

/-- A step that reads nothing and may fail. -/
def lift (result : Except ε α) : ListReader τ ε α where
  run input :=
    match result with
    | .ok a => .ok (a, input)
    | .error error => .error error

def require (condition : Bool) (error : ε) : ListReader τ ε Unit where
  run input := if condition then .ok ((), input) else .error error

/-- The tokens not read yet. -/
def remaining : ListReader τ ε (List τ) := ⟨fun input => .ok (input, input)⟩

/-- Go on from `input`. -/
def rewind (input : List τ) : ListReader τ ε Unit := ⟨fun _ => .ok ((), input)⟩

def take (length : Nat) (error : ε) : ListReader τ ε (List τ) where
  run input :=
    if length ≤ input.length then .ok (input.take length, input.drop length) else .error error

theorem run_bind (reader : ListReader τ ε α) (next : α → ListReader τ ε β) (input : List τ) :
    (reader >>= next).run input = match reader.run input with
      | .error error => .error error
      | .ok (a, rest) => (next a).run rest := rfl

variable {next : α → ListReader τ ε β} {reader : ListReader τ ε α}

variable {input : List τ}

theorem run_bind_of_ok {rest : List τ} {a : α} (h : reader.run input = .ok (a, rest)) :
    (reader >>= next).run input = (next a).run rest := by
  rw [run_bind, h]

theorem run_bind_eq_ok {rest : List τ} {b : β} : (reader >>= next).run input = .ok (b, rest) ↔
      ∃ a middle, reader.run input = .ok (a, middle) ∧ (next a).run middle = .ok (b, rest) := by
  rw [run_bind]
  constructor
  · intro h
    cases hread : reader.run input with
    | error error =>
      rw [hread] at h
      cases h
    | ok result =>
      rw [hread] at h
      exact ⟨result.1, result.2, rfl, h⟩
  · intro h
    obtain ⟨a, middle, hread, hnext⟩ := h
    rw [hread]
    exact hnext

theorem run_require_of {condition : Bool} {error : ε} (h : condition = true) :
    (require condition error).run input = .ok ((), input) := by
  rw [require, h]
  rfl

theorem run_require_eq_ok {condition : Bool} {error : ε} {rest : List τ} {u : Unit} :
    (require condition error).run input = .ok (u, rest) ↔ condition = true ∧ rest = input := by
  cases condition with
  | true => simp [require, eq_comm]
  | false => simp [require]

def Reads (reader : ListReader τ ε α) (tokens : List τ) (a : α) : Prop :=
  ∀ rest, reader.run (tokens ++ rest) = .ok (a, rest)

theorem reads_pure (a : α) : Reads (Pure.pure a : ListReader τ ε α) [] a := fun _ => rfl

variable {tokens : List τ}

theorem Reads.bind {a : α} {b : β}
    {more : List τ} (hreader : Reads reader tokens a) (hnext : Reads (next a) more b) :
    Reads (reader >>= next) (tokens ++ more) b := by
  intro rest
  rw [List.append_assoc, run_bind_of_ok (hreader (more ++ rest))]
  exact hnext rest

theorem Reads.bind_nil {a : α} {b : β} (hreader : Reads reader tokens a) (hnext : Reads (next a) [] b) :
    Reads (reader >>= next) tokens b := by
  have h := hreader.bind hnext
  rwa [List.append_nil] at h

theorem reads_lift {result : Except ε α} {a : α} (h : result = .ok a) :
    Reads (lift result : ListReader τ ε α) [] a := by
  intro rest
  rw [h]
  rfl

theorem Reads.require {next : Unit → ListReader τ ε β} {b : β}
    {condition : Bool} {error : ε} (h : condition = true) (hnext : Reads (next ()) tokens b) :
    Reads (ListReader.require condition error >>= next) tokens b := by
  intro rest
  rw [run_bind_of_ok (run_require_of h)]
  exact hnext rest

theorem Reads.lift {a : α} {b : β}
    {result : Except ε α} (h : result = .ok a) (hnext : Reads (next a) tokens b) :
    Reads (ListReader.lift result >>= next) tokens b := by
  intro rest
  rw [h]
  exact hnext rest

/-- A step that looks at what is left. -/
theorem Reads.of_remaining {next : List τ → ListReader τ ε β} {b : β}
    (h : ∀ rest, Reads (next (tokens ++ rest)) tokens b) : Reads (remaining >>= next) tokens b :=
  fun rest => h rest rest

theorem Reads.map {a : α} (f : α → β) (h : Reads reader tokens a) : Reads (f <$> reader) tokens (f a) := by
  intro rest
  exact run_bind_of_ok (h rest)

theorem reads_take (tokens : List τ) (error : ε) :
    Reads (take tokens.length error) tokens tokens := by
  intro rest
  rw [take]
  simp

def ReadsWithin (reader : ListReader τ ε (Option α)) (tokens : List τ) (fits : Prop) (a : α) :
    Prop :=
  ∀ rest, (fits → reader.run (tokens ++ rest) = .ok (some a, rest)) ∧
    (¬ fits → ∃ left, reader.run (tokens ++ rest) = .ok (none, left))

namespace ReadsWithin

variable {fits more : Prop} {a : α} {b : β} {tokens later : List τ}

variable {reader : ListReader τ ε (Option α)}

theorem of_reads (h : Reads reader tokens (some a)) (hfits : fits) : ReadsWithin reader tokens fits a :=
  fun rest => ⟨fun _ => h rest, fun hnot => absurd hfits hnot⟩

theorem reads (h : ReadsWithin reader tokens fits a)
    (hfits : fits) : Reads reader tokens (some a) := fun rest => (h rest).1 hfits

theorem lift {result : Except ε (Option α)} [Decidable fits]
    (h : result = .ok (if fits then some a else none)) :
    ReadsWithin (ListReader.lift result) ([] : List τ) fits a := by
  intro rest
  rw [h]
  constructor
  · intro hfits
    rw [if_pos hfits]
    rfl
  · intro hnot
    rw [if_neg hnot]
    exact ⟨rest, rfl⟩

theorem congr (h : ReadsWithin reader tokens fits a)
    (hiff : fits ↔ more) : ReadsWithin reader tokens more a :=
  fun rest => ⟨fun hfits => (h rest).1 (hiff.mpr hfits),
    fun hnot => (h rest).2 fun hfits => hnot (hiff.mp hfits)⟩

theorem bind {reader : ListReader τ ε β} {next : β → ListReader τ ε (Option α)}
    (hreader : Reads reader tokens b) (hnext : ReadsWithin (next b) later fits a) :
    ReadsWithin (reader >>= next) (tokens ++ later) fits a := by
  intro rest
  rw [List.append_assoc, run_bind_of_ok (hreader (later ++ rest))]
  exact hnext rest

theorem require {next : Unit → ListReader τ ε (Option α)} {condition : Bool} {error : ε}
    (h : condition = true) (hnext : ReadsWithin (next ()) tokens fits a) :
    ReadsWithin (ListReader.require condition error >>= next) tokens fits a := by
  intro rest
  rw [run_bind_of_ok (run_require_of h)]
  exact hnext rest

theorem of_remaining {next : List τ → ListReader τ ε (Option α)}
    (h : ∀ rest, ReadsWithin (next (tokens ++ rest)) tokens fits a) :
    ReadsWithin (remaining >>= next) tokens fits a := fun rest => h rest rest

/-- A part that may give up, then another. -/
theorem bind_option {reader : ListReader τ ε (Option β)}
    {next : Option β → ListReader τ ε (Option α)} (hreader : ReadsWithin reader tokens fits b)
    (hnone : next none = Pure.pure none) (hnext : ReadsWithin (next (some b)) later more a) :
    ReadsWithin (reader >>= next) (tokens ++ later) (fits ∧ more) a := by
  intro rest
  rw [List.append_assoc]
  obtain ⟨hread, hgive⟩ := hreader (later ++ rest)
  by_cases hfits : fits
  · rw [run_bind_of_ok (hread hfits)]
    obtain ⟨hsome, hless⟩ := hnext rest
    exact ⟨fun hboth => hsome hboth.2, fun hnot => hless fun hmore => hnot ⟨hfits, hmore⟩⟩
  · obtain ⟨left, hleft⟩ := hgive hfits
    refine ⟨fun hboth => absurd hboth.1 hfits, fun _ => ⟨left, ?_⟩⟩
    rw [run_bind_of_ok hleft, hnone]
    rfl

theorem map (f : α → β) (h : ReadsWithin reader tokens fits a) :
    ReadsWithin (reader >>= fun result => Pure.pure (result.map f)) tokens fits (f a) := by
  intro rest
  obtain ⟨hread, hgive⟩ := h rest
  constructor
  · intro hfits
    rw [run_bind_of_ok (hread hfits)]
    rfl
  · intro hnot
    obtain ⟨left, hleft⟩ := hgive hnot
    refine ⟨left, ?_⟩
    rw [run_bind_of_ok hleft]
    rfl

/-- A check that gives up where it fails. -/
theorem guard {next : ListReader τ ε (Option α)} {exceeds : Prop} [Decidable exceeds]
    (h : ReadsWithin next tokens fits a) :
    ReadsWithin (if exceeds then Pure.pure none else next) tokens (¬ exceeds ∧ fits) a := by
  intro rest
  by_cases hover : exceeds
  · rw [if_pos hover]
    exact ⟨fun hboth => absurd hover hboth.1, fun _ => ⟨tokens ++ rest, rfl⟩⟩
  · rw [if_neg hover]
    obtain ⟨hread, hgive⟩ := h rest
    exact ⟨fun hboth => hread hboth.2, fun hnot => hgive fun hfits => hnot ⟨hover, hfits⟩⟩

end ReadsWithin

structure Ensures (reader : ListReader τ ε α) (post : α → Prop) : Prop where
  of_run : ∀ input a rest, reader.run input = .ok (a, rest) → post a

/-- A value with the property, or giving up where that is allowed. -/
def SomeOr (gave : Prop) (post : α → Prop) : Option α → Prop
  | none => gave
  | some a => post a

namespace Ensures

variable {post : α → Prop} {later : β → Prop} {gave : Prop}

theorem pure {a : α} (h : post a) : Ensures (Pure.pure a : ListReader τ ε α) post := by
  constructor
  intro input b rest hrun
  cases hrun
  exact h

theorem trivial (reader : ListReader τ ε α) : Ensures reader fun _ => True :=
  ⟨fun _ _ _ _ => True.intro⟩

variable {reader : ListReader τ ε α}

theorem mono {weaker : α → Prop} (h : Ensures reader post)
    (himp : ∀ a, post a → weaker a) : Ensures reader weaker :=
  ⟨fun input a rest hrun => himp a (h.of_run input a rest hrun)⟩

theorem bind {next : α → ListReader τ ε β} (h : Ensures reader post)
    (hnext : ∀ a, post a → Ensures (next a) later) : Ensures (reader >>= next) later := by
  constructor
  intro input b rest hrun
  obtain ⟨a, middle, hread, hrest⟩ := run_bind_eq_ok.mp hrun
  exact (hnext a (h.of_run input a middle hread)).of_run middle b rest hrest

theorem require {next : Unit → ListReader τ ε β} {condition : Bool} {error : ε}
    (h : condition = true → Ensures (next ()) later) :
    Ensures (ListReader.require condition error >>= next) later := by
  constructor
  intro input b rest hrun
  obtain ⟨done, middle, hread, hrest⟩ := run_bind_eq_ok.mp hrun
  exact (h (run_require_eq_ok.mp hread).1).of_run middle b rest hrest

theorem lift {result : Except ε α} (h : ∀ a, result = .ok a → post a) :
    Ensures (ListReader.lift result : ListReader τ ε α) post := by
  constructor
  intro input a rest hrun
  cases result with
  | error error => cases hrun
  | ok b =>
    cases hrun
    exact h a rfl

theorem fail {error : ε} : Ensures (ListReader.fail error : ListReader τ ε α) post := by
  constructor
  intro input a rest hrun
  cases hrun

theorem map (f : α → β) (h : Ensures reader fun a => later (f a)) :
    Ensures (f <$> reader) later := by
  constructor
  intro input b rest hrun
  obtain ⟨a, middle, hread, hrest⟩ := run_bind_eq_ok.mp hrun
  cases hrest
  exact h.of_run input a rest hread

theorem bind_option {reader : ListReader τ ε (Option α)}
    {next : Option α → ListReader τ ε (Option β)} (h : Ensures reader (SomeOr gave post))
    (hnone : next none = Pure.pure none)
    (hnext : ∀ a, post a → Ensures (next (some a)) (SomeOr gave later)) :
    Ensures (reader >>= next) (SomeOr gave later) := by
  apply h.bind
  intro result hresult
  cases result with
  | none =>
    rw [hnone]
    exact pure hresult
  | some a => exact hnext a hresult

theorem map_option {reader : ListReader τ ε (Option α)} (f : α → β)
    (h : Ensures reader (SomeOr gave post)) (hmap : ∀ a, post a → later (f a)) :
    Ensures (reader >>= fun result => Pure.pure (result.map f)) (SomeOr gave later) := by
  apply h.bind
  intro result hresult
  apply pure
  cases result with
  | none => exact hresult
  | some a => exact hmap a hresult

end Ensures

end ListReader
