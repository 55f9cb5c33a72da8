import LoomDB.Keys.Standing

/-!
# The keys that sign, one after the other

A promotion compares the key it promotes with the one that signs. When the signer was
retired or revoked before, there is nothing to compare with, so the next signer is newer
than the last one exactly if it happens to be.
-/

namespace LoomDB

namespace Keys

variable {curve : Curve} {register next : TrustRootRegister} {role : KeyRole} {keyId : Bytes}

/-- The root that signs for a role. -/
def signer (register : TrustRootRegister) (role : KeyRole) : Option TrustRoot :=
  (register.activeIn role).head?

/-- The generation of a key that signs now and did not before. -/
def newSigner (role : KeyRole) (register next : TrustRootRegister) : List U64 :=
  match signer next role with
  | some root =>
      if (signer register role).map TrustRoot.keyId = some root.keyId then [] else [root.generation]
  | none => []

/-- The generations of the keys that become the signer of a role, in the order of the
steps. A step that is refused leaves the register. -/
def newSigners (curve : Curve) (role : KeyRole) :
    TrustRootRegister → List RotationStep → List U64
  | _, [] => []
  | register, step :: steps =>
      match step.apply curve register with
      | .error _ => newSigners curve role register steps
      | .ok next => newSigner role register next ++ newSigners curve role next steps

/-- The generations of the keys that sign for a role, from the first to the last. -/
def signers (curve : Curve) (role : KeyRole) (register : TrustRootRegister)
    (steps : List RotationStep) : List U64 :=
  ((signer register role).map TrustRoot.generation).toList ++ newSigners curve role register steps

/-- A key that is promoted while no key signs is newer than the last one that did. -/
def Succeeds (role : KeyRole) (latest : Option U64) (register : TrustRootRegister) :
    RotationStep → Prop
  | .activate role' keyId => role' = role → signer register role = none →
      ∀ candidate, register.find role keyId = some candidate →
        ∀ last ∈ latest, last < candidate.generation
  | _ => True

/-- So it is with every step that goes through. -/
def AllSucceed (curve : Curve) (role : KeyRole) :
    Option U64 → TrustRootRegister → List RotationStep → Prop
  | _, _, [] => True
  | latest, register, step :: steps =>
      match step.apply curve register with
      | .error _ => AllSucceed curve role latest register steps
      | .ok next => Succeeds role latest register step ∧
          AllSucceed curve role (((signer next role).map TrustRoot.generation).or latest) next steps

/-! ## One step -/

/-- The signer of a valid register is its one active root. -/
theorem signer_eq_some (hvalid : register.validate curve = .ok ()) {root : TrustRoot} :
    signer register role = some root ↔
      root ∈ register.roots ∧ root.role = role ∧ root.status = .active := by
  rw [← TrustRootRegister.mem_activeIn]
  obtain ⟨-, -, -, hnodup, hsole⟩ := TrustRootRegister.validate_eq_ok.mp hvalid
  have hlength := (TrustRootRegister.soleSigners_iff (List.Nodup.of_map _ hnodup)).mp hsole role
  unfold signer
  cases hactive : register.activeIn role with
  | nil => simp
  | cons first rest =>
      rw [hactive] at hlength
      obtain rfl : rest = [] := List.length_eq_zero_iff.mp (by simpa using hlength)
      simp [eq_comm]

theorem newSigner_of_eq (hsame : signer next role = signer register role) :
    newSigner role register next = [] := by
  unfold newSigner
  rw [hsame]
  cases signer register role with
  | none => rfl
  | some root => simp

theorem newSigner_of_none (hnone : signer next role = none) :
    newSigner role register next = [] := by
  unfold newSigner
  rw [hnone]

/-- A root that stops signing takes its role's signer away, or another's is as it was. -/
theorem signer_of_restate (hvalid : register.validate curve = .ok ())
    {change : TrustRoot → TrustRoot} {role' : KeyRole}
    (hnext : ({ register with roots := register.roots.map (restate role' keyId change) } :
      TrustRootRegister).validate curve = .ok ())
    (hstops : ∀ root, (change root).status ≠ .active) :
    signer { register with roots := register.roots.map (restate role' keyId change) } role =
        signer register role ∨
      signer { register with roots := register.roots.map (restate role' keyId change) } role =
        none := by
  cases hsigner : signer { register with
    roots := register.roots.map (restate role' keyId change) } role with
  | none => exact Or.inr rfl
  | some root =>
      obtain ⟨hroot, hrole, hactive⟩ := (signer_eq_some hnext).mp hsigner
      obtain ⟨before, hbefore, rfl⟩ := List.mem_map.mp hroot
      unfold restate at hrole hactive ⊢
      split at hactive
      · exact absurd hactive (hstops before)
      · next hother =>
        rw [if_neg hother] at hrole ⊢
        exact Or.inl ((signer_eq_some hvalid).mpr ⟨hbefore, hrole, hactive⟩).symm

/-- What a step that goes through does to the signer of a role: nothing, or it takes it
away, or it puts a staged key in its place that is newer. -/
theorem signer_of_apply (role : KeyRole) (hvalid : register.validate curve = .ok ())
    {step : RotationStep} (happly : step.apply curve register = .ok next) :
    (signer next role = signer register role ∧ ∀ keyId, step ≠ .activate role keyId) ∨
    (signer next role = none ∧ ∀ keyId, step ≠ .activate role keyId) ∨
    ∃ keyId candidate, step = .activate role keyId ∧
      register.find role keyId = some candidate ∧ candidate.status = .pending ∧
      signer next role = some { candidate with status := .active } ∧
      ∀ root ∈ signer register role, root.generation < candidate.generation := by
  have hnext := valid_of_apply happly
  obtain ⟨hchecks, rfl, -⟩ := apply_eq_ok.mp happly
  cases step with
  | expand newRoot =>
      refine Or.inl ⟨Option.ext fun root => ?_, fun keyId heq => by cases heq⟩
      rw [signer_eq_some hnext, signer_eq_some hvalid]
      simp only [RotationStep.builds, List.mem_append, List.mem_singleton]
      refine and_congr_left fun hactive => or_iff_left ?_
      rintro rfl
      cases hactive.2
  | activate role' keyId =>
      obtain ⟨candidate, hfind, hpending, -, houtranks⟩ := hchecks
      obtain ⟨hcandidate, hname⟩ := (find_eq_some hvalid).mp hfind
      obtain ⟨hrole', hid⟩ := Prod.mk.inj hname
      by_cases hrole : role' = role
      · subst hrole
        refine Or.inr (Or.inr ⟨keyId, candidate, rfl, hfind, hpending, ?_, ?_⟩)
        · refine (signer_eq_some hnext).mpr ⟨List.mem_map.mpr ⟨candidate, hcandidate, ?_⟩,
            hrole', rfl⟩
          rw [promoted, if_neg (not_not.mpr hrole'), if_pos hid]
        · intro root hroot
          obtain ⟨hmem, hsame, hactive⟩ := (signer_eq_some hvalid).mp hroot
          refine lt_of_not_ge fun hle => houtranks root hmem ⟨hsame, fun hkey => ?_, hactive, hle⟩
          have hfound := (find_eq_some hvalid).mpr ⟨hmem, Prod.ext hsame hkey⟩
          obtain rfl := Option.some.inj (hfound.symm.trans hfind)
          cases hpending.symm.trans hactive
      · refine Or.inl ⟨Option.ext fun root => ?_, fun keyId' hstep => ?_⟩
        · rw [signer_eq_some hnext, signer_eq_some hvalid]
          constructor
          · rintro ⟨hroot, hsame, hactive⟩
            obtain ⟨before, hbefore, rfl⟩ := List.mem_map.mp hroot
            have hother : before.role ≠ role' := fun heq =>
              hrole (heq.symm.trans (((promoted_keepsNames role' keyId).role before).symm.trans
                hsame))
            rw [promoted, if_pos hother] at hsame hactive ⊢
            exact ⟨hbefore, hsame, hactive⟩
          · rintro ⟨hroot, hsame, hactive⟩
            refine ⟨List.mem_map.mpr ⟨root, hroot, ?_⟩, hsame, hactive⟩
            rw [promoted, if_pos fun heq => hrole (heq.symm.trans hsame)]
        · exact hrole (RotationStep.activate.inj hstep).1
  | retire role' keyId =>
      rcases signer_of_restate hvalid hnext (fun keyId heq => by cases heq) with hsame | hnone
      · exact Or.inl ⟨hsame, fun keyId heq => by cases heq⟩
      · exact Or.inr (Or.inl ⟨hnone, fun keyId heq => by cases heq⟩)
  | revoke role' keyId reason allowSeal =>
      rcases signer_of_restate hvalid hnext (fun keyId heq => by cases heq) with hsame | hnone
      · exact Or.inl ⟨hsame, fun keyId heq => by cases heq⟩
      · exact Or.inr (Or.inl ⟨hnone, fun keyId heq => by cases heq⟩)

/-- A step that promotes no key of the role meets the condition. -/
theorem succeeds_of_ne {latest : Option U64} {step : RotationStep}
    (hstep : ∀ keyId, step ≠ .activate role keyId) : Succeeds role latest register step := by
  cases step with
  | activate role' keyId =>
      rintro rfl
      exact absurd rfl (hstep keyId)
  | expand newRoot => trivial
  | retire role' keyId => trivial
  | revoke role' keyId reason allowSeal => trivial

/-! ## Runs -/

/-- From a register whose signer is the latest one: the generations of the latest signer
and of those to come increase exactly if every promotion succeeds the latest signer. -/
theorem newSigners_increase_iff {latest : Option U64} {steps : List RotationStep}
    (hvalid : register.validate curve = .ok ())
    (hlatest : ∀ root ∈ signer register role, latest = some root.generation) :
    (latest.toList ++ newSigners curve role register steps).IsChain (· < ·) ↔
      AllSucceed curve role latest register steps := by
  induction steps generalizing register latest with
  | nil => cases latest <;> simp [newSigners, AllSucceed]
  | cons step steps ih =>
      rw [newSigners, AllSucceed]
      cases happly : step.apply curve register with
      | error error => exact ih hvalid hlatest
      | ok next =>
          have hnext := valid_of_apply happly
          simp only
          rcases signer_of_apply role hvalid happly with
            ⟨hsame, hstep⟩ | ⟨hnone, hstep⟩ | ⟨keyId, candidate, rfl, hfind, hpending, hsigner, hlt⟩
          · have hstill : ((signer next role).map TrustRoot.generation).or latest = latest := by
              rw [hsame]
              cases hroot : signer register role with
              | none => rfl
              | some root => exact (hlatest root hroot).symm
            rw [newSigner_of_eq hsame, List.nil_append, and_iff_right (succeeds_of_ne hstep),
              hstill]
            exact ih hnext (hsame ▸ hlatest)
          · rw [newSigner_of_none hnone, List.nil_append, and_iff_right (succeeds_of_ne hstep),
              hnone]
            exact ih hnext (by rw [hnone]; nofun)
          · have hnew : newSigner role register next = [candidate.generation] := by
              unfold newSigner
              rw [hsigner]
              refine if_neg fun hid => ?_
              obtain ⟨root, hroot, hkey⟩ := Option.map_eq_some_iff.mp hid
              obtain ⟨hmem, hrole, hactive⟩ := (signer_eq_some hvalid).mp hroot
              have hname := ((find_eq_some hvalid).mp hfind).2
              obtain rfl := Option.some.inj (((find_eq_some hvalid).mpr ⟨hmem,
                Prod.ext hrole (hkey.trans (Prod.mk.inj hname).2)⟩).symm.trans hfind)
              exact nomatch hpending.symm.trans hactive
            have hrest := @ih _ (some candidate.generation) hnext (by rw [hsigner]; simp)
            have hsucceeds : Succeeds role latest register (.activate role keyId) ↔
                ∀ last ∈ latest, last < candidate.generation := by
              constructor
              · intro hsucceeds last hlast
                cases hroot : signer register role with
                | none => exact hsucceeds rfl hroot candidate hfind last hlast
                | some root =>
                    obtain rfl := Option.some.inj ((hlatest root hroot).symm.trans hlast)
                    exact hlt root hroot
              · intro hall _ _ other hother
                rwa [Option.some.inj (hother.symm.trans hfind)]
            rw [hnew, hsigner, hsucceeds, List.singleton_append]
            change _ ↔ _ ∧ AllSucceed curve role (some candidate.generation) next steps
            rw [← hrest]
            cases latest with
            | none => simp
            | some last => simp [List.isChain_cons_cons]

/-- From a valid register, whatever the steps: the keys that sign for a role, one after the
other, are of increasing generations exactly if every key that is promoted while none signs
is newer than the last that did. -/
theorem signers_increase_iff (role : KeyRole) (steps : List RotationStep)
    (hvalid : register.validate curve = .ok ()) :
    (signers curve role register steps).Pairwise (· < ·) ↔
      AllSucceed curve role ((signer register role).map TrustRoot.generation) register steps := by
  rw [← List.isChain_iff_pairwise]
  refine newSigners_increase_iff hvalid fun root hroot => ?_
  rw [hroot]
  rfl

/-- The key that signs retires, and a newer one takes its place. -/
def renewal : List RotationStep :=
  [.retire .release (ascii "release-1"),
    .expand (releaseKey (ascii "release-2") secondKey 2 .pending),
    .activate .release (ascii "release-2")]

theorem signers_increase_iff_renewal :
    AllSucceed releaseCurve .release
      ((signer releaseRegister .release).map TrustRoot.generation) releaseRegister renewal :=
  (signers_increase_iff .release renewal releaseRegister_valid).mp (by decide +kernel)

/-- Two keys are staged; the newer one is promoted, retires, and makes room for the older. -/
def fallingBack : List RotationStep :=
  [.expand (releaseKey (ascii "release-2") secondKey 2 .pending),
    .expand (releaseKey (ascii "release-3") thirdKey 3 .pending),
    .activate .release (ascii "release-3"), .retire .release (ascii "release-3"),
    .activate .release (ascii "release-2")]

/-- Every step goes through, and the third signer is older than the second. -/
theorem signers_fall_back : (rotate releaseCurve releaseRegister fallingBack).isOk = true ∧
    signers releaseCurve .release releaseRegister fallingBack = [1, 3, 2] ∧
    ¬ (signers releaseCurve .release releaseRegister fallingBack).Pairwise (· < ·) := by
  decide +kernel

end Keys

end LoomDB
