import RatelimitGateway.Dashboard.Stats
import RatelimitGateway.Lib.Lookup

/-!
# Every replica reads the configuration alike

`Load` ranges over Go maps, in an order that differs from run to run, and stops at the
first error that it meets; `Tiers` ranges over a map again. Replicas that read one file
read it in different orders.

* `load_ok_iff`     — the configurations that are accepted, in whatever order;
* `replicas_agree`  — replicas with one configuration all reject it, each with an error
  that is true of it, or all accept it, and then resolve every request to the same
  tenant and report the same statistics.
-/

namespace RatelimitGateway

open Dashboard

/-- What `Load` checks. -/
structure WellFormed (f : FileFormat) : Prop where
  tiers     : f.tiers ≠ []
  positive  : ∀ x ∈ f.tiers, 0 < x.2.limit ∧ 0 < x.2.window
  anonymous : (f.tiers.lookup f.anonymousTier).isSome
  keys      : ∀ x ∈ f.keys, (f.tiers.lookup x.2.tier).isSome

/-- The error is true of the configuration, and no check before it fails. -/
inductive Blames (f : FileFormat) : LoadError → Prop
  | noTiers (hTiers : f.tiers = []) : Blames f .noTiers
  | needsPositive {name : String} {tier : Tier} (hMem : (name, tier) ∈ f.tiers)
      (hBad : tier.limit ≤ 0 ∨ tier.window ≤ 0) : Blames f (.needsPositive name)
  | anonymousUndefined (hTiers : f.tiers ≠ [])
      (hPositive : ∀ x ∈ f.tiers, 0 < x.2.limit ∧ 0 < x.2.window)
      (hNone : f.tiers.lookup f.anonymousTier = none) :
      Blames f (.anonymousUndefined f.anonymousTier)
  | keyUndefined {key : String} {entry : KeyEntry}
      (hPositive : ∀ x ∈ f.tiers, 0 < x.2.limit ∧ 0 < x.2.window)
      (hAnonymous : (f.tiers.lookup f.anonymousTier).isSome)
      (hMem : (key, entry) ∈ f.keys) (hNone : f.tiers.lookup entry.tier = none) :
      Blames f (.keyUndefined entry.tenantId entry.tier)

/-- A configuration with a fault is not well formed. -/
theorem Blames.not_wellFormed {f : FileFormat} {e : LoadError} (h : Blames f e) :
    ¬ WellFormed f := by
  intro hWell
  cases h with
  | noTiers hTiers => exact hWell.tiers hTiers
  | needsPositive hMem hBad =>
    have hGood := hWell.positive _ hMem
    dsimp only at hGood
    omega
  | anonymousUndefined _ _ hNone =>
    have hSome := hWell.anonymous
    rw [hNone] at hSome
    cases hSome
  | keyUndefined _ _ hMem hNone =>
    have hSome := hWell.keys _ hMem
    rw [hNone] at hSome
    cases hSome

-- ---------------------------------------------------------------------------
-- One order
-- ---------------------------------------------------------------------------

/-- The loop over the keys ends with the first key of an undefined tier, or with none. -/
theorem loadKeys_cases (tiers : List (String × Tier)) (entries : List (String × KeyEntry)) :
    (∃ keys, loadKeys tiers entries = .ok keys ∧
      ∀ x ∈ entries, (tiers.lookup x.2.tier).isSome) ∨
    ∃ key entry, (key, entry) ∈ entries ∧ tiers.lookup entry.tier = none ∧
      loadKeys tiers entries = .error (.keyUndefined entry.tenantId entry.tier) := by
  induction entries with
  | nil => exact .inl ⟨[], rfl, fun x hx => absurd hx List.not_mem_nil⟩
  | cons x entries ih =>
    obtain ⟨key, entry⟩ := x
    cases hTier : tiers.lookup entry.tier with
    -- the loop stops at the first key whose tier is not defined
    | none => exact .inr ⟨key, entry, List.mem_cons_self, hTier, by simp only [loadKeys, hTier]⟩
    | some tier =>
      rcases ih with ⟨keys, hKeys, hAll⟩ | ⟨key', entry', hMem, hNone, hError⟩
      · refine .inl ⟨_, by simp only [loadKeys, hTier, hKeys]; rfl, fun x hx => ?_⟩
        rcases List.mem_cons.mp hx with rfl | hx
        · exact Option.isSome_of_eq_some hTier
        · exact hAll x hx
      · exact .inr ⟨key', entry', List.mem_cons_of_mem _ hMem, hNone,
          by simp only [loadKeys, hTier, hError]⟩

/-- `Load` accepts what is well formed, and gives a reason for what it rejects. -/
theorem load_cases (f : FileFormat) (trustForwardedFor : Bool) :
    (WellFormed f ∧ ∃ r, load f trustForwardedFor = .ok r) ∨
      ∃ e, Blames f e ∧ load f trustForwardedFor = .error e := by
  unfold load
  by_cases hTiers : f.tiers = []
  · exact .inr ⟨_, .noTiers hTiers, by simp [hTiers]⟩
  rw [if_neg (by simpa using hTiers)]
  cases hFind : f.tiers.find? fun x => decide (x.2.limit ≤ 0 ∨ x.2.window ≤ 0) with
  | some x =>
    -- the first tier that is not positive is the one named
    obtain ⟨name, tier⟩ := x
    refine .inr ⟨_, .needsPositive (List.mem_of_find?_eq_some hFind) ?_, rfl⟩
    simpa using List.find?_some hFind
  | none =>
    have hPositive : ∀ x ∈ f.tiers, 0 < x.2.limit ∧ 0 < x.2.window := by
      intro x hx
      have hGood := List.find?_eq_none.mp hFind x hx
      simpa using hGood
    cases hAnon : f.tiers.lookup f.anonymousTier with
    | none => exact .inr ⟨_, .anonymousUndefined hTiers hPositive hAnon, rfl⟩
    | some anon =>
      have hAnonymous := Option.isSome_of_eq_some hAnon
      rcases loadKeys_cases f.tiers f.keys with
        ⟨keys, hKeys, hAll⟩ | ⟨key, entry, hMem, hNone, hError⟩
      · exact .inl ⟨⟨hTiers, hPositive, hAnonymous, hAll⟩, by simp only [hKeys]; exact ⟨_, rfl⟩⟩
      · exact .inr ⟨_, .keyUndefined hPositive hAnonymous hMem hNone, by simp only [hError]⟩

/-- The configurations that are accepted. -/
theorem load_ok_iff (f : FileFormat) (trustForwardedFor : Bool) :
    (∃ r, load f trustForwardedFor = .ok r) ↔ WellFormed f := by
  rcases load_cases f trustForwardedFor with ⟨hWell, hOk⟩ | ⟨e, hBlames, hError⟩
  · exact ⟨fun _ => hWell, fun _ => hOk⟩
  · refine ⟨fun ⟨r, hOk⟩ => ?_, fun hWell => absurd hWell hBlames.not_wellFormed⟩
    rw [hError] at hOk
    cases hOk

-- ---------------------------------------------------------------------------
-- Another order
-- ---------------------------------------------------------------------------

/-- The same maps, ranged over in another order. -/
structure Reordered (f f' : FileFormat) : Prop where
  tiers         : f.tiers.Perm f'.tiers
  keys          : f.keys.Perm f'.keys
  anonymousTier : f.anonymousTier = f'.anonymousTier

def FileFormat.reorder (f : FileFormat) {tiers : List (String × Tier)}
    {keys : List (String × KeyEntry)} (hTiers : f.tiers.Perm tiers) (hKeys : f.keys.Perm keys) :
    FileFormat where
  tiers := tiers
  keys := keys
  anonymousTier := f.anonymousTier
  tiers_nodup := (hTiers.map _).nodup_iff.mp f.tiers_nodup
  keys_nodup := (hKeys.map _).nodup_iff.mp f.keys_nodup

theorem reordered_reorder (f : FileFormat) {tiers : List (String × Tier)}
    {keys : List (String × KeyEntry)} (hTiers : f.tiers.Perm tiers) (hKeys : f.keys.Perm keys) :
    Reordered f (f.reorder hTiers hKeys) := ⟨hTiers, hKeys, rfl⟩

section Reordered

variable {f f' : FileFormat}

theorem Reordered.symm (h : Reordered f f') : Reordered f' f :=
  ⟨h.tiers.symm, h.keys.symm, h.anonymousTier.symm⟩

theorem Reordered.lookup_tiers (h : Reordered f f') (name : String) :
    f'.tiers.lookup name = f.tiers.lookup name :=
  (Lookup.lookup_perm f.tiers_nodup h.tiers name).symm

theorem Reordered.lookup_keys (h : Reordered f f') (key : String) :
    f'.keys.lookup key = f.keys.lookup key :=
  (Lookup.lookup_perm f.keys_nodup h.keys key).symm

theorem Reordered.tiers_nil (h : Reordered f f') : f.tiers = [] ↔ f'.tiers = [] := by
  rw [← List.length_eq_zero_iff, h.tiers.length_eq, List.length_eq_zero_iff]

/-- What is true of the configuration in one order is true of it in every other. -/
theorem Reordered.blames (h : Reordered f f') {e : LoadError} (hBlames : Blames f' e) :
    Blames f e := by
  cases hBlames with
  | noTiers hTiers => exact .noTiers (h.tiers_nil.mpr hTiers)
  | needsPositive hMem hBad => exact .needsPositive (h.tiers.mem_iff.mpr hMem) hBad
  | anonymousUndefined hTiers hPositive hNone =>
    rw [← h.anonymousTier]
    refine .anonymousUndefined (fun hNil => hTiers (h.tiers_nil.mp hNil))
      (fun x hx => hPositive x (h.tiers.mem_iff.mp hx)) ?_
    rwa [← h.lookup_tiers, h.anonymousTier]
  | keyUndefined hPositive hAnonymous hMem hNone =>
    refine .keyUndefined (fun x hx => hPositive x (h.tiers.mem_iff.mp hx)) ?_
      (h.keys.mem_iff.mpr hMem) (by rwa [← h.lookup_tiers])
    rwa [← h.lookup_tiers, h.anonymousTier]

/-- A file in another order is as well formed. -/
theorem Reordered.wellFormed (h : Reordered f f') (hWell : WellFormed f) : WellFormed f' := by
  refine ⟨fun hNil => hWell.tiers (h.tiers_nil.mpr hNil),
    fun x hx => hWell.positive x (h.tiers.mem_iff.mpr hx), ?_, fun x hx => ?_⟩
  · rw [h.lookup_tiers, ← h.anonymousTier]
    exact hWell.anonymous
  · rw [h.lookup_tiers]
    exact hWell.keys x (h.keys.mem_iff.mpr hx)

end Reordered

/-- Whatever is true of the configuration is what some order reports. -/
theorem exists_order {f : FileFormat} {e : LoadError} (hBlames : Blames f e)
    (trustForwardedFor : Bool) :
    ∃ f', Reordered f f' ∧ load f' trustForwardedFor = .error e := by
  cases hBlames with
  | noTiers hTiers =>
    exact ⟨f, ⟨.refl _, .refl _, rfl⟩, by rw [load, if_pos (List.length_eq_zero_iff.mpr hTiers)]⟩
  | @needsPositive name tier hMem hBad =>
    -- the tier comes first
    refine ⟨_, reordered_reorder f (List.perm_cons_erase hMem) (.refl _), ?_⟩
    rw [load, if_neg (by simp [FileFormat.reorder])]
    dsimp only [FileFormat.reorder]
    rw [List.find?_cons_of_pos (by simpa using hBad)]
  | anonymousUndefined hTiers hPositive hNone =>
    -- the anonymous tier is looked up before any key is read, in every order
    rcases load_cases f trustForwardedFor with ⟨hWell, -⟩ | ⟨e, hOther, hError⟩
    · exact absurd hWell (Blames.anonymousUndefined hTiers hPositive hNone).not_wellFormed
    · refine ⟨f, ⟨.refl _, .refl _, rfl⟩, ?_⟩
      cases hOther with
      | noTiers hNil => exact absurd hNil hTiers
      | needsPositive hMem hBad =>
        have hGood := hPositive _ hMem
        dsimp only at hGood
        omega
      | anonymousUndefined _ _ _ => exact hError
      | keyUndefined _ hAnonymous _ _ =>
        rw [hNone] at hAnonymous
        cases hAnonymous
  | @keyUndefined key entry hPositive hAnonymous hMem hNone =>
    -- the key comes first
    refine ⟨_, reordered_reorder f (.refl _) (List.perm_cons_erase hMem), ?_⟩
    obtain ⟨anon, hAnon⟩ := Option.isSome_iff_exists.mp hAnonymous
    have hTiers : f.tiers.length ≠ 0 := fun hNil => by
      rw [List.length_eq_zero_iff.mp hNil] at hAnon
      cases hAnon
    have hFind : (f.tiers.find? fun x => decide (x.2.limit ≤ 0 ∨ x.2.window ≤ 0)) = none := by
      refine List.find?_eq_none.mpr fun x hx => ?_
      have hGood := hPositive x hx
      simpa using hGood
    rw [load, FileFormat.reorder]
    dsimp only
    rw [if_neg hTiers]
    simp only [hFind, hAnon, loadKeys, hNone]

-- ---------------------------------------------------------------------------
-- Two replicas
-- ---------------------------------------------------------------------------

/-- Nothing tells one resolver from the other. -/
structure Indistinguishable (r r' : Resolver) : Prop where
  resolve : ∀ req, r.resolve req = r'.resolve req
  tier    : ∀ name, r.tier name = r'.tier name
  tiers   : tiersByName r = tiersByName r'
  stats   : ∀ range families, handleStats r range families = handleStats r' range families

section Replicas

variable {f f' : FileFormat} {trust : Bool} {r r' : Resolver}

/-- Every request is resolved alike. -/
theorem resolve_reordered (hOrder : Reordered f f') (hLoad : load f trust = .ok r)
    (hLoad' : load f' trust = .ok r') (req : HttpRequest) : r.resolve req = r'.resolve req := by
  have hLoaded := loaded_of_load hLoad
  have hLoaded' := loaded_of_load hLoad'
  have hAnon : r.anon = r'.anon := by
    have hSome := anon_of_load hLoad
    rw [← hOrder.lookup_tiers, hOrder.anonymousTier, anon_of_load hLoad'] at hSome
    exact (Option.some.inj hSome).symm
  have hKeys : ∀ key, r.keys.lookup key = r'.keys.lookup key := by
    intro key
    simp only [hLoaded.keys, hLoaded'.keys, hOrder.lookup_keys, hOrder.lookup_tiers]
  have hAddress : r.clientIP req = r'.clientIP req := by
    unfold Resolver.clientIP Resolver.forwardedFor
    rw [hLoaded.trusts, hLoaded'.trusts]
  simp only [Resolver.resolve, hAnon, hKeys, hAddress]

/-- The tiers are sorted by names that differ, so there is one way to list them. -/
theorem tiersByName_reordered (hOrder : Reordered f f') (hLoad : load f trust = .ok r)
    (hLoad' : load f' trust = .ok r') : tiersByName r = tiersByName r' := by
  have hPerm : (tiersByName r).Perm (tiersByName r') := by
    refine (List.mergeSort_perm _ _).trans (List.Perm.trans ?_ (List.mergeSort_perm _ _).symm)
    rw [tiers_of_load hLoad, tiers_of_load hLoad']
    exact (hOrder.tiers.map _).map _
  refine hPerm.eq_of_pairwise (fun a b _ _ hab hba => ?_)
    (List.pairwise_map.mp (sorted_names hLoad)) (List.pairwise_map.mp (sorted_names hLoad'))
  exact absurd hba (lt_asymm hab)

/-- No observer can tell the two resolvers apart. -/
theorem indistinguishable_of_reordered (hOrder : Reordered f f') (hLoad : load f trust = .ok r)
    (hLoad' : load f' trust = .ok r') : Indistinguishable r r' := by
  have hTiers := tiersByName_reordered hOrder hLoad hLoad'
  refine ⟨resolve_reordered hOrder hLoad hLoad', fun name => ?_, hTiers, fun range families => ?_⟩
  · rw [(loaded_of_load hLoad).tiers, (loaded_of_load hLoad').tiers, hOrder.lookup_tiers]
  · unfold handleStats
    rw [hTiers]

end Replicas

/--
**Replicas with one configuration agree.** Whatever the orders in which the
maps are ranged over: an error is reported in some order if and only if it is true of the
configuration and no earlier check fails; and of any two orders either both
report such an error, or both accept the configuration, and then resolve every
request to the same tenant, know the same tiers, list them alike, and answer
/api/stats alike.
-/
theorem replicas_agree (f : FileFormat) (trustForwardedFor : Bool) :
    (∀ e, (∃ f', Reordered f f' ∧ load f' trustForwardedFor = .error e) ↔ Blames f e) ∧
    ∀ f', Reordered f f' →
      (∃ e e', load f trustForwardedFor = .error e ∧ load f' trustForwardedFor = .error e' ∧
        Blames f e ∧ Blames f e') ∨
      ∃ r r', load f trustForwardedFor = .ok r ∧ load f' trustForwardedFor = .ok r' ∧
        Indistinguishable r r' := by
  constructor
  · -- an error of some order is to blame on the file, and each such error has its order
    refine fun e => ⟨?_, fun hBlames => exists_order hBlames trustForwardedFor⟩
    rintro ⟨f', hOrder, hError⟩
    rcases load_cases f' trustForwardedFor with ⟨-, r, hOk⟩ | ⟨e', hBlames, hError'⟩
    · rw [hError] at hOk
      cases hOk
    · obtain rfl := Except.error.inj (hError.symm.trans hError')
      exact hOrder.blames hBlames
  · -- well-formedness does not depend on the order
    intro f' hOrder
    rcases load_cases f trustForwardedFor with ⟨hWell, r, hOk⟩ | ⟨e, hBlames, hError⟩
    · obtain ⟨r', hOk'⟩ := (load_ok_iff f' trustForwardedFor).mpr (hOrder.wellFormed hWell)
      exact .inr ⟨r, r', hOk, hOk', indistinguishable_of_reordered hOrder hOk hOk'⟩
    · rcases load_cases f' trustForwardedFor with ⟨hWell, -⟩ | ⟨e', hBlames', hError'⟩
      · exact absurd (hOrder.symm.wellFormed hWell) hBlames.not_wellFormed
      · exact .inl ⟨e, e', hError, hError', hBlames, hOrder.blames hBlames'⟩

end RatelimitGateway
