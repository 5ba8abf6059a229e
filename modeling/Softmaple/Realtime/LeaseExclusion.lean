import Softmaple.Realtime.LeaseStores

/-!
Leases are exclusive as long as a peer ID is leased again only when its earlier
lease objects are over: the store then never takes a call of one lease for
another. A lease that expired without a release keeps its object, and a
successor under the same peer ID revives it.
-/
namespace Softmaple.Realtime.LeaseWorld

open KeyedList List

variable {ρ : Type} {store : ConnectionLeaseStore ρ} {sound : ρ → Prop}
  {ids : Nat → ρ → List Text} {world : LeaseWorld ρ}

structure Guarded (sound : ρ → Prop) (world : LeaseWorld ρ) : Prop where
  sound : ∀ scope, sound (world.scopes scope)
  older : ∀ lease other object, lease < other → world.SamePeer lease other →
    world.leases[lease]? = some object → world.Over lease object

theorem sound_setScope {scope : Text} {leases : ρ} (h : ∀ scope, sound (world.scopes scope))
    (hleases : sound leases) : ∀ other, sound ((world.setScope scope leases).scopes other) := by
  intro other
  unfold setScope
  dsimp only
  split
  · exact hleases
  · exact h other

theorem ids_setScope {scope other : Text} {leases : ρ} {id : Text} {now : Nat}
    (hleases : ids now leases ⊆ ids now (world.scopes scope))
    (h : id ∈ ids now ((world.setScope scope leases).scopes other)) :
    id ∈ ids now (world.scopes other) := by
  unfold setScope at h
  dsimp only at h
  split at h
  · next hsame =>
      rw [hsame]
      exact hleases h
  · exact h

theorem acquire_cases (store : ConnectionLeaseStore ρ) (world : LeaseWorld ρ) (scope peerId : Text)
    (maxConnections ttlMs : Nat) :
    ((store.tryAcquire world.now peerId maxConnections ttlMs (world.scopes scope)).2 = .acquired ∧
      acquire store world scope peerId maxConnections ttlMs = { world.setScope scope
            (store.tryAcquire world.now peerId maxConnections ttlMs (world.scopes scope)).1 with
          leases := world.leases ++ [⟨scope, peerId, ttlMs, false⟩] }) ∨
    ((store.tryAcquire world.now peerId maxConnections ttlMs (world.scopes scope)).2 ≠ .acquired ∧
      acquire store world scope peerId maxConnections ttlMs = world.setScope scope
          (store.tryAcquire world.now peerId maxConnections ttlMs (world.scopes scope)).1) := by
  unfold acquire
  dsimp only
  split
  · next hacquired => exact .inl ⟨hacquired, rfl⟩
  · next hrejected => exact .inr ⟨hrejected, rfl⟩

theorem refresh_cases (world : LeaseWorld ρ) (lease : Nat) :
    world.refresh lease = world ∨ ∃ object, world.leases[lease]? = some object ∧
      object.released = false ∧
      world.refresh lease = { world with calls := world.calls ++ [⟨lease, .refresh⟩] } := by
  unfold refresh
  cases hobject : world.leases[lease]? with
  | none => exact .inl rfl
  | some object =>
    cases hreleased : object.released with
    | true => exact .inl (if_pos hreleased)
    | false =>
      refine .inr ⟨object, rfl, hreleased, if_neg ?_⟩
      rw [hreleased]
      exact Bool.false_ne_true

theorem release_cases (world : LeaseWorld ρ) (lease : Nat) :
    world.release lease = world ∨ ∃ object, world.leases[lease]? = some object ∧
      object.released = false ∧
      world.release lease = { world with
          leases := world.leases.set lease { object with released := true }
          calls := world.calls ++ [⟨lease, .release⟩] } := by
  unfold release
  cases hobject : world.leases[lease]? with
  | none => exact .inl rfl
  | some object =>
    cases hreleased : object.released with
    | true => exact .inl (if_pos hreleased)
    | false =>
      refine .inr ⟨object, rfl, hreleased, if_neg ?_⟩
      rw [hreleased]
      exact Bool.false_ne_true

variable {lease : Nat}

theorem Over.call {other : Nat} {object later : LeaseObject} {operation : LeaseOperation}
    (h : world.Over lease object) (hobject : world.leases[lease]? = some object)
    (hlater : world.leases[other]? = some later) (hlive : later.released = false) :
    ∀ call ∈ world.calls ++ [(⟨other, operation⟩ : LeaseCall)], call.lease ≠ lease := by
  intro call hcall
  cases mem_append.mp hcall with
  | inl hold => exact h.2 call hold
  | inr hnew =>
    rw [mem_singleton.mp hnew]
    intro hsame
    have heq : other = lease := hsame
    rw [heq, hobject] at hlater
    cases hlater
    rw [h.1] at hlive
    cases hlive

theorem guarded_refresh (h : Guarded sound world) (lease : Nat) :
    Guarded sound (world.refresh lease) := by
  cases refresh_cases world lease with
  | inl hsame =>
    rw [hsame]
    exact h
  | inr hcalled =>
    obtain ⟨object, hobject, hlive, hworld⟩ := hcalled
    rw [hworld]
    refine ⟨h.sound, fun first other older hlt hsame holder => ?_⟩
    have hover := h.older first other older hlt hsame holder
    exact ⟨hover.1, hover.call holder hobject hlive⟩

theorem guarded_release (h : Guarded sound world) (lease : Nat) :
    Guarded sound (world.release lease) := by
  cases release_cases world lease with
  | inl hsame =>
    rw [hsame]
    exact h
  | inr hcalled =>
    obtain ⟨object, hobject, hlive, hworld⟩ := hcalled
    rw [hworld]
    -- a released object keeps its scope and its peer ID
    have hset : ∀ place found, (world.leases.set lease { object with released := true })[place]? =
        some found → ∃ before, world.leases[place]? = some before ∧
          before.scope = found.scope ∧ before.peerId = found.peerId ∧
          (place ≠ lease → before = found) := by
      intro place found hfound
      rw [getElem?_set] at hfound
      split at hfound
      · next hplace =>
          split at hfound
          · cases hfound
            rw [← hplace]
            exact ⟨object, hobject, rfl, rfl, fun hne => absurd rfl hne⟩
          · cases hfound
      · exact ⟨found, hfound, rfl, rfl, fun _ => rfl⟩
    refine ⟨h.sound, fun first other older hlt hsame holder => ?_⟩
    obtain ⟨one, later, hone, hlater, hscope, hpeer⟩ := hsame
    obtain ⟨before, hbefore, hbeforeScope, hbeforePeer, hkept⟩ := hset first one hone
    obtain ⟨after, hafter, hafterScope, hafterPeer, -⟩ := hset other later hlater
    have hover := h.older first other before hlt ⟨before, after, hbefore, hafter,
      hbeforeScope.trans (hscope.trans hafterScope.symm),
      hbeforePeer.trans (hpeer.trans hafterPeer.symm)⟩ hbefore
    have hfirst : first ≠ lease := by
      intro hsame
      rw [hsame, hobject] at hbefore
      cases hbefore
      rw [hover.1] at hlive
      cases hlive
    rw [hone] at holder
    cases holder
    rw [hkept hfirst] at hover hbefore
    exact ⟨hover.1, hover.call hbefore hobject hlive⟩

theorem length_step (action : LeaseAction) :
    world.leases.length ≤ (step store world action).leases.length := by
  cases action with
  | elapse duration => exact Nat.le_refl _
  | acquire scope peerId maxConnections ttlMs =>
    dsimp only [step]
    cases acquire_cases store world scope peerId maxConnections ttlMs with
    | inl hacquired =>
      rw [hacquired.2]
      dsimp only
      rw [length_append]
      exact Nat.le_add_right _ _
    | inr hrejected =>
      exact Nat.le_of_eq (congrArg (·.leases.length) hrejected.2).symm
  | refresh lease =>
    dsimp only [step]
    cases refresh_cases world lease with
    | inl hsame =>
      exact Nat.le_of_eq (congrArg (·.leases.length) hsame).symm
    | inr hcalled =>
      obtain ⟨object, -, -, hworld⟩ := hcalled
      exact Nat.le_of_eq (congrArg (·.leases.length) hworld).symm
  | release lease =>
    dsimp only [step]
    cases release_cases world lease with
    | inl hsame =>
      exact Nat.le_of_eq (congrArg (·.leases.length) hsame).symm
    | inr hcalled =>
      obtain ⟨object, -, -, hworld⟩ := hcalled
      rw [hworld]
      exact Nat.le_of_eq length_set.symm
  | deliver place =>
    dsimp only [step, deliver]
    split
    · next call hcall =>
        split
        · next object hobject =>
            cases call.operation with
            | refresh => exact Nat.le_refl _
            | release => exact Nat.le_refl _
        · exact Nat.le_refl _
    · exact Nat.le_refl _

theorem SamePeer.symm {other : Nat} (h : world.SamePeer lease other) :
    world.SamePeer other lease := by
  obtain ⟨object, later, hobject, hlater, hscope, hpeer⟩ := h
  exact ⟨later, object, hlater, hobject, hscope.symm, hpeer.symm⟩

theorem released_of_older (h : Guarded sound world) {other : Nat} (hlt : lease < other)
    (hsame : world.SamePeer lease other) :
    ∃ object, world.leases[lease]? = some object ∧ world.Over lease object := by
  obtain ⟨object, later, hobject, hrest⟩ := hsame
  exact ⟨object, hobject, h.older lease other object hlt ⟨object, later, hobject, hrest⟩ hobject⟩

theorem inert_older (h : Guarded sound world) {later : Nat} (hlt : lease < later)
    (hsame : world.SamePeer lease later) :
    world.refresh lease = world ∧ world.release lease = world := by
  obtain ⟨object, hobject, hover⟩ := released_of_older h hlt hsame
  unfold refresh release
  rw [hobject]
  exact ⟨if_pos hover.1, if_pos hover.1⟩

section Stores

variable (hids : LeasesIds store sound ids)
include hids

theorem valid_iff (world : LeaseWorld ρ)
    (hsound : ∀ scope, sound (world.scopes scope)) {lease : Nat} :
    valid store world lease = true ↔ ∃ object, world.leases[lease]? = some object ∧
      object.released = false ∧ object.peerId ∈ ids world.now (world.scopes object.scope) := by
  unfold valid
  cases hobject : world.leases[lease]? with
  | none =>
    refine iff_of_false Bool.false_ne_true ?_
    rintro ⟨object, hnone, -⟩
    cases hnone
  | some object =>
    dsimp only
    rw [Bool.and_eq_true, Bool.not_eq_true',
      (hids.refreshed world.now object.peerId object.ttlMs (hsound object.scope)).2.2]
    constructor
    · intro h
      exact ⟨object, rfl, h⟩
    · rintro ⟨other, hsame, h⟩
      cases hsame
      exact h

section Acquire

variable {scope peerId : Text} {maxConnections ttlMs : Nat}

theorem over_of_acquired (h : Guarded sound world)
    (hmeets : Meets store world (.acquire scope peerId maxConnections ttlMs))
    (hacquired :
      (store.tryAcquire world.now peerId maxConnections ttlMs (world.scopes scope)).2 = .acquired)
    {lease : Nat} {object : LeaseObject} (hobject : world.leases[lease]? = some object)
    (hscope : object.scope = scope) (hpeer : object.peerId = peerId) : world.Over lease object := by
  cases hmeets with
  | inl hheld =>
    have hin := (hids.refreshed world.now peerId ttlMs (h.sound scope)).2.2.mp hheld
    exact absurd hin (hids.acquired (h.sound scope) hacquired).2.1
  | inr hover => exact hover lease object hobject hscope hpeer

theorem guarded_acquire (h : Guarded sound world)
    (hmeets : Meets store world (.acquire scope peerId maxConnections ttlMs)) :
    Guarded sound (acquire store world scope peerId maxConnections ttlMs) := by
  cases acquire_cases store world scope peerId maxConnections ttlMs with
  | inr hrejected =>
    rw [hrejected.2]
    exact ⟨sound_setScope h.sound (hids.rejected (h.sound scope) hrejected.1).1, h.older⟩
  | inl hacquired =>
    rw [hacquired.2]
    refine ⟨sound_setScope h.sound (hids.acquired (h.sound scope) hacquired.1).1, ?_⟩
    intro lease other object hlt hsame hobject
    obtain ⟨first, later, hfirst, hlater, hscope, hpeer⟩ := hsame
    have hbound := (List.getElem?_eq_some_iff.mp hlater).1
    rw [length_append, length_singleton] at hbound
    have hlease : lease < world.leases.length := by omega
    dsimp only at hobject hfirst hlater
    rw [getElem?_append_left hlease] at hobject hfirst
    by_cases hnew : other < world.leases.length
    · rw [getElem?_append_left hnew] at hlater
      exact h.older lease other object hlt ⟨first, later, hfirst, hlater, hscope, hpeer⟩ hobject
    · have hlast : other = world.leases.length := by omega
      rw [hlast, getElem?_concat_length] at hlater
      cases hlater
      rw [hfirst] at hobject
      cases hobject
      exact over_of_acquired hids h hmeets hacquired.1 hfirst hscope hpeer

theorem valid_acquire (h : Guarded sound world)
    (hmeets : Meets store world (.acquire scope peerId maxConnections ttlMs)) {lease : Nat}
    (hlease : lease < world.leases.length)
    (hvalid : valid store (acquire store world scope peerId maxConnections ttlMs) lease = true) :
    valid store world lease = true := by
  have hguarded := guarded_acquire hids h hmeets
  obtain ⟨object, hobject, hkept, hin⟩ := (valid_iff hids _ hguarded.sound).mp hvalid
  rw [valid_iff hids world h.sound]
  cases acquire_cases store world scope peerId maxConnections ttlMs with
  | inr hrejected =>
    rw [hrejected.2] at hobject hin
    exact ⟨object, hobject, hkept,
      ids_setScope (hids.rejected (h.sound scope) hrejected.1).2 hin⟩
  | inl hacquired =>
    rw [hacquired.2] at hobject hin
    dsimp only at hobject
    rw [getElem?_append_left hlease] at hobject
    refine ⟨object, hobject, hkept, ?_⟩
    dsimp only [setScope] at hin
    split at hin
    · next hscope =>
        cases mem_cons.mp ((hids.acquired (h.sound scope) hacquired.1).2.2.1 hin) with
        | inl hpeer =>
          have hreleased :=
            (over_of_acquired hids h hmeets hacquired.1 hobject hscope hpeer).1
          rw [hkept] at hreleased
          cases hreleased
        | inr hmem =>
          rw [hscope]
          exact hmem
    · exact hin

end Acquire

section Calls

theorem serve_spec (world : LeaseWorld ρ)
    (hsound : ∀ scope, sound (world.scopes scope)) (object : LeaseObject)
    (operation : LeaseOperation) :
    ∃ leases, serve store world object operation = world.setScope object.scope leases ∧
      sound leases ∧ ids world.now leases ⊆ ids world.now (world.scopes object.scope) := by
  cases operation with
  | refresh =>
    obtain ⟨hkept, hsub, -⟩ :=
      hids.refreshed world.now object.peerId object.ttlMs (hsound object.scope)
    exact ⟨_, rfl, hkept, hsub⟩
  | release =>
    obtain ⟨hkept, hsub⟩ := hids.released world.now object.peerId (hsound object.scope)
    exact ⟨_, rfl, hkept, hsub⟩

theorem deliver_cases (hsound : ∀ scope, sound (world.scopes scope)) (place : Nat) :
    deliver store world place = world ∨ ∃ scope leases, deliver store world place =
        { world.setScope scope leases with calls := world.calls.eraseIdx place } ∧
      sound leases ∧ ids world.now leases ⊆ ids world.now (world.scopes scope) := by
  unfold deliver
  split
  · next call hcall =>
      split
      · next object hobject =>
          obtain ⟨leases, hserved, hkept, hsub⟩ := serve_spec hids
            { world with calls := world.calls.eraseIdx place } hsound object call.operation
          exact .inr ⟨object.scope, leases, hserved, hkept, hsub⟩
      · exact .inl rfl
  · exact .inl rfl

theorem guarded_deliver (h : Guarded sound world) (place : Nat) :
    Guarded sound (deliver store world place) := by
  cases deliver_cases hids h.sound place with
  | inl hsame =>
    rw [hsame]
    exact h
  | inr hserved =>
    obtain ⟨scope, leases, hworld, hkept, -⟩ := hserved
    rw [hworld]
    refine ⟨sound_setScope h.sound hkept, fun lease other object hlt hsame hobject => ?_⟩
    have hover := h.older lease other object hlt hsame hobject
    exact ⟨hover.1, fun call hcall => hover.2 call (mem_of_mem_eraseIdx hcall)⟩

end Calls

theorem guarded_step (h : Guarded sound world)
    {action : LeaseAction} (hmeets : Meets store world action) :
    Guarded sound (step store world action) := by
  cases action with
  | elapse duration => exact ⟨h.sound, h.older⟩
  | acquire scope peerId maxConnections ttlMs => exact guarded_acquire hids h hmeets
  | refresh lease => exact guarded_refresh h lease
  | release lease => exact guarded_release h lease
  | deliver place => exact guarded_deliver hids h place

section Valid

variable {lease : Nat}

theorem valid_setScope (hsound : ∀ scope, sound (world.scopes scope)) {scope : Text} {leases : ρ}
    (hkept : sound leases) (hsub : ids world.now leases ⊆ ids world.now (world.scopes scope))
    {calls : List LeaseCall}
    (hvalid : valid store { world.setScope scope leases with calls := calls } lease = true) :
    valid store world lease = true := by
  have hafter : ∀ other,
      sound (({ world.setScope scope leases with calls := calls } : LeaseWorld ρ).scopes other) :=
    sound_setScope hsound hkept
  obtain ⟨object, hobject, hlive, hin⟩ := (valid_iff hids _ hafter).mp hvalid
  exact (valid_iff hids world hsound).mpr ⟨object, hobject, hlive, ids_setScope hsub hin⟩

theorem valid_elapse (hsound : ∀ scope, sound (world.scopes scope)) {duration : Nat}
    (hvalid : valid store { world with now := world.now + duration } lease = true) :
    valid store world lease = true := by
  obtain ⟨object, hobject, hlive, hin⟩ :=
    (valid_iff hids { world with now := world.now + duration } hsound).mp hvalid
  exact (valid_iff hids world hsound).mpr
    ⟨object, hobject, hlive, hids.later (Nat.le_add_right world.now duration) hin⟩

theorem valid_release (hsound : ∀ scope, sound (world.scopes scope)) {released : Nat}
    (hvalid : valid store (world.release released) lease = true) :
    valid store world lease = true := by
  cases release_cases world released with
  | inl hsame =>
    rw [hsame] at hvalid
    exact hvalid
  | inr hcalled =>
    obtain ⟨object, -, -, hworld⟩ := hcalled
    rw [hworld] at hvalid
    obtain ⟨found, hfound, hlive, hin⟩ := (valid_iff hids { world with
        leases := world.leases.set released { object with released := true }
        calls := world.calls ++ [⟨released, .release⟩] } hsound).mp hvalid
    have hkept : world.leases[lease]? = some found := by
      dsimp only at hfound
      rw [getElem?_set] at hfound
      split at hfound
      · split at hfound
        · cases hfound
          cases hlive
        · cases hfound
      · exact hfound
    exact (valid_iff hids world hsound).mpr ⟨found, hkept, hlive, hin⟩

theorem valid_step (h : Guarded sound world) {action : LeaseAction} (hmeets : Meets store world action)
    (hlease : lease < world.leases.length)
    (hvalid : valid store (step store world action) lease = true) :
    valid store world lease = true := by
  cases action with
  | elapse duration => exact valid_elapse hids h.sound hvalid
  | acquire scope peerId maxConnections ttlMs => exact valid_acquire hids h hmeets hlease hvalid
  | refresh refreshed =>
    cases refresh_cases world refreshed with
    | inl hsame =>
      dsimp only [step] at hvalid
      rw [hsame] at hvalid
      exact hvalid
    | inr hcalled =>
      obtain ⟨object, -, -, hworld⟩ := hcalled
      dsimp only [step] at hvalid
      rw [hworld] at hvalid
      exact hvalid
  | release released => exact valid_release hids h.sound hvalid
  | deliver place =>
    cases deliver_cases hids h.sound place with
    | inl hsame =>
      dsimp only [step] at hvalid
      rw [hsame] at hvalid
      exact hvalid
    | inr hserved =>
      obtain ⟨scope, leases, hworld, hkept, hsub⟩ := hserved
      dsimp only [step] at hvalid
      rw [hworld] at hvalid
      exact valid_setScope hids h.sound hkept hsub hvalid

end Valid

section Runs

theorem guarded_run (actions : List LeaseAction) :
    ∀ {world : LeaseWorld ρ}, Guarded sound world → RunMeets store world actions →
      Guarded sound (run store world actions) := by
  induction actions with
  | nil =>
    intro world h hmeets
    exact h
  | cons action actions ih =>
    intro world h hmeets
    exact ih (guarded_step hids h hmeets.1) hmeets.2

theorem valid_run (actions : List LeaseAction) :
    ∀ {world : LeaseWorld ρ}, Guarded sound world → RunMeets store world actions →
      ∀ lease < world.leases.length, valid store (run store world actions) lease = true →
        valid store world lease = true := by
  induction actions with
  | nil =>
    intro world h hmeets lease hlease hvalid
    exact hvalid
  | cons action actions ih =>
    intro world h hmeets lease hlease hvalid
    have hnext : valid store (step store world action) lease = true :=
      ih (guarded_step hids h hmeets.1) hmeets.2 lease
        (Nat.lt_of_lt_of_le hlease (length_step action)) hvalid
    exact valid_step hids h hmeets.1 hlease hnext

theorem guarded_start : Guarded sound (start store) := by
  refine ⟨fun scope => hids.sound_empty, ?_⟩
  intro lease other object hlt hsame hobject
  cases hobject

end Runs

section Exclusive

section

variable (h : Guarded sound world)
include h

theorem not_valid_of_older
    {lease other : Nat} (hlt : lease < other) (hsame : world.SamePeer lease other) :
    valid store world lease ≠ true := by
  intro hvalid
  obtain ⟨object, hobject, hover⟩ := released_of_older h hlt hsame
  obtain ⟨found, hfound, hlive, -⟩ := (valid_iff hids world h.sound).mp hvalid
  rw [hobject] at hfound
  cases hfound
  rw [hover.1] at hlive
  cases hlive

theorem exclusive_valid {lease other : Nat} (hlease : valid store world lease = true)
    (hother : valid store world other = true) (hsame : world.SamePeer lease other) :
    lease = other := by
  cases Nat.lt_trichotomy lease other with
  | inl hlt => exact absurd hlease (not_valid_of_older hids h hlt hsame)
  | inr hrest =>
    cases hrest with
    | inl heq => exact heq
    | inr hlt => exact absurd hother (not_valid_of_older hids h hlt hsame.symm)

theorem length_validIn (scope : Text) :
    (validIn store world scope).length ≤ (ids world.now (world.scopes scope)).length := by
  let peerOf : Nat → Option Text := fun lease => world.leases[lease]?.map (·.peerId)
  have hfound : ∀ lease ∈ validIn store world scope, valid store world lease = true ∧
      ∃ object, world.leases[lease]? = some object ∧ object.scope = scope ∧
        object.peerId ∈ ids world.now (world.scopes scope) := by
    intro lease hlease
    obtain ⟨-, hkept⟩ := mem_filter.mp hlease
    obtain ⟨hvalid, hscope⟩ := (Bool.and_eq_true_iff).mp hkept
    obtain ⟨object, hobject, -, hin⟩ := (valid_iff hids world h.sound).mp hvalid
    rw [hobject] at hscope
    have hsame : object.scope = scope := of_decide_eq_true hscope
    rw [hsame] at hin
    exact ⟨hvalid, object, hobject, hsame, hin⟩
  have hnodup : ((validIn store world scope).map peerOf).Nodup := by
    refine List.Nodup.map_on ?_ (nodup_range.filter _)
    intro lease hlease other hother hpeer
    obtain ⟨hvalid, object, hobject, hscope, -⟩ := hfound lease hlease
    obtain ⟨hvalidOther, later, hlater, hscopeOther, -⟩ := hfound other hother
    dsimp only [peerOf] at hpeer
    rw [hobject, hlater] at hpeer
    exact exclusive_valid hids h hvalid hvalidOther
      ⟨object, later, hobject, hlater, hscope.trans hscopeOther.symm, Option.some.inj hpeer⟩
  have hsub : (validIn store world scope).map peerOf ⊆
      (ids world.now (world.scopes scope)).map some := by
    intro peer hpeer
    obtain ⟨lease, hlease, rfl⟩ := mem_map.mp hpeer
    obtain ⟨-, object, hobject, -, hin⟩ := hfound lease hlease
    dsimp only [peerOf]
    rw [hobject]
    exact mem_map_of_mem hin
  have hlength := (subperm_of_subset hnodup hsub).length_le
  rw [length_map, length_map] at hlength
  exact hlength

theorem capacity_acquire {scope peerId : Text} {maxConnections ttlMs : Nat}
    (hmeets : Meets store world (.acquire scope peerId maxConnections ttlMs))
    (hgrown : world.leases.length <
      (acquire store world scope peerId maxConnections ttlMs).leases.length) :
    (validIn store (acquire store world scope peerId maxConnections ttlMs) scope).length ≤
      maxConnections := by
  have hlength := length_validIn hids (guarded_acquire hids h hmeets) scope
  cases acquire_cases store world scope peerId maxConnections ttlMs with
  | inr hrejected =>
    rw [hrejected.2] at hgrown
    exact absurd hgrown (Nat.lt_irrefl _)
  | inl hacquired =>
    obtain ⟨-, -, -, hroom⟩ := hids.acquired (h.sound scope) hacquired.1
    have hscope : (acquire store world scope peerId maxConnections ttlMs).scopes scope =
        (store.tryAcquire world.now peerId maxConnections ttlMs (world.scopes scope)).1 := by
      rw [hacquired.2]
      exact if_pos rfl
    have hnow : (acquire store world scope peerId maxConnections ttlMs).now = world.now := by
      rw [hacquired.2]
      rfl
    rw [hscope, hnow] at hlength
    exact Nat.le_trans hlength hroom

theorem exclusiveLeases : ExclusiveLeases store world where
  exclusive := fun _ _ hlease hother hsame => exclusive_valid hids h hlease hother hsame
  lasting := fun actions hmeets => valid_run hids actions h hmeets
  undelivered := by
    intro call hcall later hlt hsame
    obtain ⟨object, -, hover⟩ := released_of_older h hlt hsame
    exact hover.2 call hcall rfl
  inert := fun _ _ hlt hsame => inert_older h hlt hsame
  capacity := fun _ _ _ _ hmeets hgrown => capacity_acquire hids h hmeets hgrown

end

theorem exclusive_run {actions : List LeaseAction} (hmeets : RunMeets store (start store) actions) :
    ExclusiveLeases store (run store (start store) actions) :=
  exclusiveLeases hids (guarded_run hids actions (guarded_start hids) hmeets)

end Exclusive

end Stores

/-- Released and delivered: the next acquire of the peer ID meets the condition. -/
def releasedRun : List LeaseAction :=
  [.acquire [115] [112] 1 10, .release 0, .deliver 0, .acquire [115] [112] 1 10]

/-- The first lease expires, and its peer ID is leased again before it is released. -/
def expiredRun : List LeaseAction :=
  [.acquire [115] [112] 1 10, .elapse 10, .acquire [115] [112] 1 10]

end Softmaple.Realtime.LeaseWorld
