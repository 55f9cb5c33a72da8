import LoomDB.Keys.Revocation

/-!
# What a step does to the standing of the keys

The keys that a directory resolves are those of the register that verify. An expansion
and a retirement leave them, a promotion adds one, a revocation takes one away. The
checks a step makes before it builds its register are enough for that register to be
valid; only an expansion also depends on the root it is given.
-/

namespace LoomDB

namespace Keys

variable {curve : Curve} {register next : TrustRootRegister} {role : KeyRole} {keyId : Bytes}

/-! ## Validity -/

/-- What a valid register has of each of its roots. -/
structure Custodied (curve : Curve) (root : TrustRoot) : Prop where
  named : ¬ (trim root.keyId = [] ∨ root.keyId.length > 128)
  onCurve : ∃ bytes, root.verifyingKey curve = .ok bytes
  referenced : trim root.ceremony.reference ≠ []
  approved : root.status = .active ∨ root.status = .revoked → root.dualControlSatisfied = true
  explained : root.revocationReason.isSome ↔ root.status = .revoked

/-- No role has two roots that sign. -/
def SoleSigners (register : TrustRootRegister) : Prop :=
  ∀ root ∈ register.roots, ∀ other ∈ register.roots, root.status = .active →
    other.status = .active → root.role = other.role → root = other

namespace TrustRootRegister

theorem validateReason_eq_ok {root : TrustRoot} :
    validateReason curve root = .ok () ↔
      (root.revocationReason.isSome ↔ root.status = .revoked) := by
  unfold validateReason
  cases root.status <;> cases root.revocationReason <;> simp

theorem validateRoot_eq_ok {seen : List (KeyRole × Bytes)} {root : TrustRoot} :
    validateRoot curve seen root = .ok () ↔ Custodied curve root ∧ name root ∉ seen := by
  unfold validateRoot
  by_cases hnamed : trim root.keyId = [] ∨ root.keyId.length > 128
  · rw [if_pos hnamed]
    exact iff_of_false nofun fun hroot => hroot.1.named hnamed
  rw [if_neg hnamed]
  by_cases hseen : (root.role, root.keyId) ∈ seen
  · rw [if_pos hseen]
    exact iff_of_false nofun fun hroot => hroot.2 hseen
  rw [if_neg hseen]
  cases hkey : root.verifyingKey curve with
  | error error =>
      refine iff_of_false nofun fun hroot => ?_
      obtain ⟨bytes, hbytes⟩ := hroot.1.onCurve
      rw [hkey] at hbytes
      cases hbytes
  | ok bytes =>
  change (if _ then _ else _) = _ ↔ _
  by_cases hreference : trim root.ceremony.reference = []
  · rw [if_pos hreference]
    exact iff_of_false nofun fun hroot => hroot.1.referenced hreference
  rw [if_neg hreference]
  by_cases happroved : (root.status = .active ∨ root.status = .revoked) ∧
      ¬ root.dualControlSatisfied = true
  · rw [if_pos happroved]
    exact iff_of_false nofun fun hroot => happroved.2 (hroot.1.approved happroved.1)
  rw [if_neg happroved, validateReason_eq_ok]
  constructor
  · intro hexplained
    exact ⟨⟨hnamed, ⟨bytes, hkey⟩, hreference,
      fun hstatus => by_contra fun hdual => happroved ⟨hstatus, hdual⟩, hexplained⟩, hseen⟩
  · exact fun hroot => hroot.1.explained

theorem validateRoots_eq_ok {seen : List (KeyRole × Bytes)} {roots : List TrustRoot} :
    validateRoots curve seen roots = .ok () ↔ (∀ root ∈ roots, Custodied curve root) ∧
      (roots.map name).Nodup ∧ ∀ root ∈ roots, name root ∉ seen := by
  induction roots generalizing seen with
  | nil => simp [validateRoots]
  | cons root roots ih =>
      rw [validateRoots]
      cases hroot : validateRoot curve seen root with
      | error error =>
          refine iff_of_false (fun heq => by cases heq) fun hall => ?_
          rw [validateRoot_eq_ok.mpr ⟨hall.1 root List.mem_cons_self,
            hall.2.2 root List.mem_cons_self⟩] at hroot
          cases hroot
      | ok done =>
          obtain ⟨hcustodied, hseen⟩ := validateRoot_eq_ok.mp hroot
          change validateRoots curve ((root.role, root.keyId) :: seen) roots = .ok () ↔ _
          rw [ih, List.map_cons, List.nodup_cons, List.forall_mem_cons, List.forall_mem_cons]
          simp only [List.mem_cons, not_or, List.mem_map, not_exists, not_and]
          constructor
          · rintro ⟨hothers, hnodup, hnew⟩
            exact ⟨⟨hcustodied, hothers⟩, ⟨fun other hother => (hnew other hother).1, hnodup⟩,
              hseen, fun other hother => (hnew other hother).2⟩
          · rintro ⟨⟨-, hothers⟩, ⟨hapart, hnodup⟩, -, hnew⟩
            exact ⟨hothers, hnodup, fun other hother => ⟨hapart other hother, hnew other hother⟩⟩

theorem validateActive_eq_ok :
    register.validateActive role = .ok () ↔ (register.activeIn role).length ≤ 1 := by
  unfold validateActive
  by_cases hmany : (register.activeIn role).length > 1
  · simp [hmany]
  · simp [hmany, not_lt.mp hmany]

theorem mem_activeIn {root : TrustRoot} : root ∈ register.activeIn role ↔
    root ∈ register.roots ∧ root.role = role ∧ root.status = .active := by
  simp only [activeIn, inRole, List.mem_filter, decide_eq_true_eq, and_assoc]

/-- A list without repetitions is short if its elements are all the same. -/
theorem length_le_one_iff {α : Type} {items : List α} (hnodup : items.Nodup) :
    items.length ≤ 1 ↔ ∀ item ∈ items, ∀ other ∈ items, item = other := by
  rcases items with _ | ⟨first, _ | ⟨second, items⟩⟩
  · simp
  · simp
  · refine iff_of_false (by simp) fun hall => ?_
    have hsame := hall first (by simp) second (by simp)
    rw [List.nodup_cons] at hnodup
    exact hnodup.1 (hsame ▸ List.mem_cons_self)

theorem soleSigners_iff (hnodup : register.roots.Nodup) :
    SoleSigners register ↔ ∀ role, (register.activeIn role).length ≤ 1 := by
  have hactive : ∀ role, (register.activeIn role).Nodup :=
    fun role => (hnodup.filter _).filter _
  simp only [length_le_one_iff (hactive _), mem_activeIn]
  constructor
  · rintro hsole role root ⟨hroot, hrole, hstatus⟩ other ⟨hother, hrole', hstatus'⟩
    exact hsole root hroot other hother hstatus hstatus' (hrole.trans hrole'.symm)
  · intro hsole root hroot other hother hstatus hstatus' hrole
    exact hsole other.role root ⟨hroot, hrole, hstatus⟩ other ⟨hother, rfl, hstatus'⟩

theorem forM_validateActive_eq_ok :
    [KeyRole.actorGovernance, .release, .backupRoot].forM register.validateActive = .ok () ↔
      ∀ role, (register.activeIn role).length ≤ 1 := by
  have hbind : ∀ (first : Except KeyError Unit) (rest : Unit → Except KeyError Unit),
      (first >>= rest) = .ok () ↔ first = .ok () ∧ rest () = .ok () := by
    rintro (error | ⟨⟩) rest
    · exact iff_of_false nofun fun hboth => nomatch hboth.1
    · exact (and_iff_right rfl).symm
  simp only [List.forM_eq_forM, List.forM_cons, List.forM_nil, hbind, validateActive_eq_ok]
  constructor
  · rintro ⟨hgovernance, hrelease, hbackup, -⟩ role
    cases role
    · exact hgovernance
    · exact hrelease
    · exact hbackup
  · exact fun hall => ⟨hall _, hall _, hall _, rfl⟩

/-- A register is valid if it has the version, has a root, each root is custodied, no two
have one name, and no role has two signers. -/
theorem validate_eq_ok : register.validate curve = .ok () ↔
    register.schemaVersion = REGISTER_SCHEMA_VERSION ∧ register.roots ≠ [] ∧
      (∀ root ∈ register.roots, Custodied curve root) ∧ (register.roots.map name).Nodup ∧
      SoleSigners register := by
  unfold validate
  by_cases hversion : register.schemaVersion = REGISTER_SCHEMA_VERSION
  swap
  · simp [hversion]
  by_cases hempty : register.roots = []
  · simp [hversion, hempty]
  rw [if_neg (not_not.mpr hversion), if_neg hempty]
  cases hroots : validateRoots curve [] register.roots with
  | error error =>
      refine iff_of_false nofun fun hall => ?_
      rw [validateRoots_eq_ok.mpr ⟨hall.2.2.1, hall.2.2.2.1, by simp⟩] at hroots
      cases hroots
  | ok done =>
      obtain ⟨hcustodied, hnodup, -⟩ := validateRoots_eq_ok.mp hroots
      change [KeyRole.actorGovernance, .release, .backupRoot].forM register.validateActive =
        .ok () ↔ _
      rw [forM_validateActive_eq_ok, ← soleSigners_iff (List.Nodup.of_map _ hnodup)]
      constructor
      · exact fun hsole => ⟨hversion, hempty, hcustodied, hnodup, hsole⟩
      · exact fun hall => hall.2.2.2.2

end TrustRootRegister

open TrustRootRegister (name validate_eq_ok)

/-! ## What a directory resolves -/

/-- The roles and key ids that a directory of the register resolves. -/
def resolves (register : TrustRootRegister) : Set (KeyRole × Bytes) :=
  {named | ∃ root, (KeyDirectory.mk register named.1).resolve named.2 = .ok root}

/-- A root that is registered under a name, and verifies. -/
def Verifies (register : TrustRootRegister) (named : KeyRole × Bytes) : Prop :=
  ∃ root ∈ register.roots, name root = named ∧ root.status.verifies = true

/-- The root of a valid register under a name is the one that is found. -/
theorem find_eq_some (hvalid : register.validate curve = .ok ()) {root : TrustRoot} :
    register.find role keyId = some root ↔ root ∈ register.roots ∧ name root = (role, keyId) := by
  constructor
  · intro hfind
    obtain ⟨hroot, hrole, hid⟩ := TrustRootRegister.mem_of_find hfind
    exact ⟨hroot, Prod.ext hrole hid⟩
  · rintro ⟨hroot, hname⟩
    obtain ⟨hrole, hid⟩ := Prod.mk.inj hname
    obtain ⟨found, hfound⟩ : ∃ found, register.find role keyId = some found := by
      refine Option.isSome_iff_exists.mp (List.find?_isSome.mpr ⟨root, ?_, by simpa using hid⟩)
      exact List.mem_filter.mpr ⟨hroot, by simpa using hrole⟩
    obtain ⟨hmem, hrole', hid'⟩ := TrustRootRegister.mem_of_find hfound
    rw [hfound, TrustRootRegister.eq_of_name hvalid hmem hroot (hrole'.trans hrole.symm)
      (hid'.trans hid.symm)]

theorem mem_resolves (hvalid : register.validate curve = .ok ()) {named : KeyRole × Bytes} :
    named ∈ resolves register ↔ Verifies register named := by
  obtain ⟨role, keyId⟩ := named
  change (∃ root, (KeyDirectory.mk register role).resolve keyId = .ok root) ↔ _
  unfold KeyDirectory.resolve Verifies
  cases hfind : register.find role keyId with
  | none =>
      refine iff_of_false ?_ ?_
      · rintro ⟨root, hroot⟩
        simp only at hroot
        split at hroot <;> cases hroot
      · rintro ⟨root, hroot, hname, -⟩
        rw [(find_eq_some hvalid).mpr ⟨hroot, hname⟩] at hfind
        cases hfind
  | some found =>
      obtain ⟨hmem, hname⟩ := (find_eq_some hvalid).mp hfind
      have hunique : ∀ root ∈ register.roots, name root = (role, keyId) → root = found := by
        intro root hroot hsame
        exact Option.some.inj (((find_eq_some hvalid).mpr ⟨hroot, hsame⟩).symm.trans hfind)
      constructor
      · rintro ⟨root, hroot⟩
        refine ⟨found, hmem, hname, ?_⟩
        simp only at hroot
        cases hstatus : found.status <;> rw [hstatus] at hroot <;> first | rfl | cases hroot
      · rintro ⟨root, hroot, hsame, hverifies⟩
        obtain rfl := hunique root hroot hsame
        simp only
        cases hstatus : root.status <;> rw [hstatus] at hverifies <;>
          first | exact ⟨root, rfl⟩ | cases hverifies

/-! ## What the steps check -/

/-- What a step checks before it builds its register. -/
def RotationStep.Checks (register : TrustRootRegister) : RotationStep → Prop
  | .expand newRoot => register.find newRoot.role newRoot.keyId = none ∧
      highestIn register newRoot.role < newRoot.generation
  | .activate role keyId => ∃ candidate, register.find role keyId = some candidate ∧
      candidate.status = .pending ∧ candidate.dualControlSatisfied = true ∧
      ∀ root ∈ register.roots, ¬ Outranks role keyId candidate.generation root
  | .retire role keyId => ∃ candidate, register.find role keyId = some candidate ∧
      candidate.status = .active
  | .revoke role keyId reason allowSeal => trim reason ≠ [] ∧
      ∃ candidate, register.find role keyId = some candidate ∧ candidate.status ≠ .revoked ∧
        candidate.dualControlSatisfied = true ∧
        (survivors register role keyId = [] → allowSeal = true)

/-- The register that a step builds. -/
def RotationStep.builds (register : TrustRootRegister) : RotationStep → TrustRootRegister
  | .expand newRoot => { register with roots := register.roots ++ [staged newRoot] }
  | .activate role keyId => { register with roots := register.roots.map (promoted role keyId) }
  | .retire role keyId => { register with roots := register.roots.map (restate role keyId
      fun root => { root with status := .retired }) }
  | .revoke role keyId reason _ => { register with roots := register.roots.map (restate role keyId
      fun root => { root with status := .revoked, revocationReason := some reason }) }

/-- A step returns the register it builds, if its checks go through and that is valid. -/
theorem apply_eq_ok {step : RotationStep} : step.apply curve register = .ok next ↔
    step.Checks register ∧ next = step.builds register ∧ next.validate curve = .ok () := by
  cases step with
  | expand newRoot => exact expand_eq_ok.trans and_assoc.symm
  | activate role keyId =>
      refine activate_eq_ok.trans ?_
      simp only [RotationStep.Checks, RotationStep.builds, ← and_assoc, exists_and_right]
  | retire role keyId =>
      refine retire_eq_ok.trans ?_
      simp only [RotationStep.Checks, RotationStep.builds, ← and_assoc, exists_and_right]
  | revoke role keyId reason allowSeal =>
      refine revoke_eq_ok.trans ?_
      simp only [RotationStep.Checks, RotationStep.builds, ← and_assoc, exists_and_right]

theorem KeepsNames.name {change : TrustRoot → TrustRoot} (hkeeps : KeepsNames change)
    (root : TrustRoot) : name (change root) = name root :=
  Prod.ext (hkeeps.role root) (hkeeps.keyId root)

/-- Roots with their names are custodied again, and no role gets a second signer: then the
register with those roots is valid. -/
theorem valid_of_map (hvalid : register.validate curve = .ok ()) {change : TrustRoot → TrustRoot}
    (hkeeps : KeepsNames change)
    (hcustodied : ∀ root ∈ register.roots, Custodied curve root → Custodied curve (change root))
    (hsole : SoleSigners { register with roots := register.roots.map change }) :
    ({ register with roots := register.roots.map change } : TrustRootRegister).validate curve =
      .ok () := by
  obtain ⟨hversion, hroots, hall, hnodup, -⟩ := validate_eq_ok.mp hvalid
  refine validate_eq_ok.mpr ⟨hversion, ?_, ?_, ?_, hsole⟩
  · simpa using hroots
  · intro root hroot
    obtain ⟨before, hbefore, rfl⟩ := List.mem_map.mp hroot
    exact hcustodied before hbefore (hall before hbefore)
  · rw [List.map_map, show name ∘ change = name from funext hkeeps.name]
    exact hnodup

/-- A change after which no root signs that did not sign before gives no role a second
signer. -/
theorem soleSigners_of_map (hvalid : register.validate curve = .ok ())
    {change : TrustRoot → TrustRoot} (hkeeps : KeepsNames change)
    (hactive : ∀ root ∈ register.roots, (change root).status = .active → root.status = .active) :
    SoleSigners { register with roots := register.roots.map change } := by
  have hsole := (validate_eq_ok.mp hvalid).2.2.2.2
  intro root hroot other hother hstatus hstatus' hrole
  obtain ⟨before, hbefore, rfl⟩ := List.mem_map.mp hroot
  obtain ⟨before', hbefore', rfl⟩ := List.mem_map.mp hother
  refine congrArg change (hsole before hbefore before' hbefore' (hactive _ hbefore hstatus)
    (hactive _ hbefore' hstatus') ?_)
  have hsame := congrArg Prod.fst (hkeeps.name before)
  have hsame' := congrArg Prod.fst (hkeeps.name before')
  exact hsame.symm.trans (hrole.trans hsame')

/-- A root in custody that is not revoked may take any status but that one, and must be
approved to sign. -/
theorem Custodied.withStatus {root : TrustRoot} {status : KeyStatus}
    (hroot : Custodied curve root) (hbefore : root.status ≠ .revoked) (hafter : status ≠ .revoked)
    (happroved : status = .active → root.dualControlSatisfied = true) :
    Custodied curve { root with status := status } where
  named := hroot.named
  onCurve := hroot.onCurve
  referenced := hroot.referenced
  approved := fun hstatus => happroved (hstatus.resolve_right hafter)
  explained := iff_of_false (fun hreason => hbefore (hroot.explained.mp hreason)) hafter

/-- An approved root in custody may be revoked, with a reason. -/
theorem Custodied.revoked {root : TrustRoot} (hroot : Custodied curve root) (reason : Bytes)
    (happroved : root.dualControlSatisfied = true) :
    Custodied curve { root with status := .revoked, revocationReason := some reason } where
  named := hroot.named
  onCurve := hroot.onCurve
  referenced := hroot.referenced
  approved := fun _ => happroved
  explained := iff_of_true rfl rfl

theorem verifies_of_map {change : TrustRoot → TrustRoot}
    (hkeeps : KeepsNames change) {named : KeyRole × Bytes} :
    Verifies { register with roots := register.roots.map change } named ↔
      ∃ root ∈ register.roots, name root = named ∧ (change root).status.verifies = true := by
  simp only [Verifies, List.mem_map, exists_exists_and_eq_and, hkeeps.name]

section Checks

variable (hvalid : register.validate curve = .ok ())
include hvalid

theorem valid_of_activate (hchecks : (RotationStep.activate role keyId).Checks register) :
    ((RotationStep.activate role keyId).builds register).validate curve = .ok () := by
  obtain ⟨candidate, hfind, hpending, hdual, -⟩ := hchecks
  have hcandidate : ∀ root ∈ register.roots, root.role = role → root.keyId = keyId →
      root = candidate := by
    intro root hroot hrole hid
    have hfound := (find_eq_some hvalid).mpr ⟨hroot, Prod.ext hrole hid⟩
    exact Option.some.inj (hfound.symm.trans hfind)
  refine valid_of_map hvalid (promoted_keepsNames role keyId) (fun root hroot hcustodied => ?_) ?_
  · unfold promoted
    split
    · exact hcustodied
    · next hrole =>
      split
      · next hid =>
        obtain rfl := hcandidate root hroot (not_not.mp hrole) hid
        exact hcustodied.withStatus (by rw [hpending]; nofun) nofun fun _ => hdual
      · split
        · next hactive => exact hcustodied.withStatus (by rw [hactive]; nofun) nofun nofun
        · exact hcustodied
  · -- Only the promoted key signs for its role; the other roles are as they were.
    have hsigns : ∀ root ∈ register.roots, (promoted role keyId root).status = .active →
        root.role = role ∧ root.keyId = keyId ∨ root.role ≠ role ∧ root.status = .active := by
      intro root _ hstatus
      unfold promoted at hstatus
      split at hstatus
      · next hrole => exact Or.inr ⟨hrole, hstatus⟩
      · next hrole =>
        split at hstatus
        · next hid => exact Or.inl ⟨not_not.mp hrole, hid⟩
        · split at hstatus
          · cases hstatus
          · next hactive => exact absurd hstatus hactive
    have hsole := (validate_eq_ok.mp hvalid).2.2.2.2
    intro root hroot other hother hstatus hstatus' hrole
    obtain ⟨before, hbefore, rfl⟩ := List.mem_map.mp hroot
    obtain ⟨before', hbefore', rfl⟩ := List.mem_map.mp hother
    have hsame : before.role = before'.role :=
      ((promoted_keepsNames role keyId).role before).symm.trans
        (hrole.trans ((promoted_keepsNames role keyId).role before'))
    refine congrArg (promoted role keyId) ?_
    rcases hsigns before hbefore hstatus with ⟨hrole₁, hid₁⟩ | ⟨hrole₁, hactive₁⟩
    · rcases hsigns before' hbefore' hstatus' with ⟨hrole₂, hid₂⟩ | ⟨hrole₂, -⟩
      · exact TrustRootRegister.eq_of_name hvalid hbefore hbefore' hsame (hid₁.trans hid₂.symm)
      · exact absurd (hsame.symm.trans hrole₁) hrole₂
    · rcases hsigns before' hbefore' hstatus' with ⟨hrole₂, -⟩ | ⟨-, hactive₂⟩
      · exact absurd (hsame.trans hrole₂) hrole₁
      · exact hsole before hbefore before' hbefore' hactive₁ hactive₂ hsame

theorem valid_of_retire (hchecks : (RotationStep.retire role keyId).Checks register) :
    ((RotationStep.retire role keyId).builds register).validate curve = .ok () := by
  obtain ⟨candidate, hfind, hactive⟩ := hchecks
  refine valid_of_map hvalid (restate_keepsNames retired_keepsNames)
    (fun root hroot hcustodied => ?_)
    (soleSigners_of_map hvalid (restate_keepsNames retired_keepsNames) fun root _ hstatus => ?_)
  · unfold restate
    split
    · next hname =>
      have hfound := (find_eq_some hvalid).mpr ⟨hroot, Prod.ext hname.1 hname.2⟩
      obtain rfl := Option.some.inj (hfound.symm.trans hfind)
      exact hcustodied.withStatus (by rw [hactive]; nofun) nofun nofun
    · exact hcustodied
  · unfold restate at hstatus
    split at hstatus
    · cases hstatus
    · exact hstatus

theorem valid_of_revoke {reason : Bytes} {allowSeal : Bool}
    (hchecks : (RotationStep.revoke role keyId reason allowSeal).Checks register) :
    ((RotationStep.revoke role keyId reason allowSeal).builds register).validate curve =
      .ok () := by
  obtain ⟨-, candidate, hfind, -, hdual, -⟩ := hchecks
  refine valid_of_map hvalid (restate_keepsNames (revoked_keepsNames reason))
    (fun root hroot hcustodied => ?_)
    (soleSigners_of_map hvalid (restate_keepsNames (revoked_keepsNames reason)) fun root _ hstatus => ?_)
  · unfold restate
    split
    · next hname =>
      have hfound := (find_eq_some hvalid).mpr ⟨hroot, Prod.ext hname.1 hname.2⟩
      obtain rfl := Option.some.inj (hfound.symm.trans hfind)
      exact hcustodied.revoked reason hdual
    · exact hcustodied
  · unfold restate at hstatus
    split at hstatus
    · cases hstatus
    · exact hstatus

/-! ## What the steps do -/

/-- What verifies afterwards, according to the step. -/
def RotationStep.declares (register : TrustRootRegister) : RotationStep → Set (KeyRole × Bytes)
  | .expand _ => resolves register
  | .activate role keyId => insert (role, keyId) (resolves register)
  | .retire _ _ => resolves register
  | .revoke role keyId _ _ => resolves register \ {(role, keyId)}

theorem valid_of_checks {step : RotationStep} (hchecks : step.Checks register)
    (hstaged : ∀ newRoot, step ≠ .expand newRoot) :
    (step.builds register).validate curve = .ok () := by
  cases step with
  | expand newRoot => exact absurd rfl (hstaged newRoot)
  | activate role keyId => exact valid_of_activate hvalid hchecks
  | retire role keyId => exact valid_of_retire hvalid hchecks
  | revoke role keyId reason allowSeal => exact valid_of_revoke hvalid hchecks

theorem resolves_of_checks {step : RotationStep} (hchecks : step.Checks register)
    (hnext : (step.builds register).validate curve = .ok ()) :
    resolves (step.builds register) = step.declares register := by
  ext named
  rw [mem_resolves hnext]
  cases step with
  | expand newRoot =>
      rw [RotationStep.declares, mem_resolves hvalid]
      simp [Verifies, RotationStep.builds, staged, KeyStatus.verifies, or_and_right, exists_or]
  | activate role keyId =>
      obtain ⟨candidate, hfind, -⟩ := hchecks
      obtain ⟨hcandidate, hnamed⟩ := (find_eq_some hvalid).mp hfind
      rw [RotationStep.declares, Set.mem_insert_iff, mem_resolves hvalid, RotationStep.builds,
        verifies_of_map (promoted_keepsNames role keyId)]
      constructor
      · rintro ⟨root, hroot, hname, hverifies⟩
        unfold promoted at hverifies
        split at hverifies
        · exact Or.inr ⟨root, hroot, hname, hverifies⟩
        · next hrole =>
          split at hverifies
          · next hid => exact Or.inl (hname ▸ Prod.ext (not_not.mp hrole) hid)
          · split at hverifies
            · next hactive => exact Or.inr ⟨root, hroot, hname, by rw [hactive]; rfl⟩
            · exact Or.inr ⟨root, hroot, hname, hverifies⟩
      · rintro (rfl | ⟨root, hroot, hname, hverifies⟩)
        · refine ⟨candidate, hcandidate, hnamed, ?_⟩
          obtain ⟨hrole, hid⟩ := Prod.mk.inj hnamed
          rw [promoted, if_neg (not_not.mpr hrole), if_pos hid]
          rfl
        · refine ⟨root, hroot, hname, ?_⟩
          unfold promoted
          (repeat' split) <;> first | rfl | exact hverifies
  | retire role keyId =>
      obtain ⟨candidate, hfind, hactive⟩ := hchecks
      rw [RotationStep.declares, mem_resolves hvalid, RotationStep.builds,
        verifies_of_map (restate_keepsNames retired_keepsNames)]
      refine exists_congr fun root => and_congr_right fun hroot => and_congr_right fun _ => ?_
      unfold restate
      split
      · next hname =>
        have hfound := (find_eq_some hvalid).mpr ⟨hroot, Prod.ext hname.1 hname.2⟩
        obtain rfl := Option.some.inj (hfound.symm.trans hfind)
        simp [hactive, KeyStatus.verifies]
      · rfl
  | revoke role keyId reason allowSeal =>
      rw [RotationStep.declares, Set.mem_sdiff, Set.mem_singleton_iff, mem_resolves hvalid,
        RotationStep.builds, verifies_of_map (restate_keepsNames (revoked_keepsNames reason))]
      constructor
      · rintro ⟨root, hroot, rfl, hverifies⟩
        unfold restate at hverifies
        split at hverifies
        · cases hverifies
        · next hother =>
          refine ⟨⟨root, hroot, rfl, hverifies⟩, fun hname => hother (Prod.mk.inj hname)⟩
      · rintro ⟨⟨root, hroot, rfl, hverifies⟩, hother⟩
        refine ⟨root, hroot, rfl, ?_⟩
        rw [restate, if_neg fun hname => hother (Prod.ext hname.1 hname.2)]
        exact hverifies

/-- The key that a promotion lets verify did not verify before. -/
theorem notMem_resolves_of_activate
    (hchecks : (RotationStep.activate role keyId).Checks register) :
    (role, keyId) ∉ resolves register := by
  obtain ⟨candidate, hfind, hpending, -⟩ := hchecks
  rw [mem_resolves hvalid]
  rintro ⟨root, hroot, hname, hverifies⟩
  obtain rfl := Option.some.inj (((find_eq_some hvalid).mpr ⟨hroot, hname⟩).symm.trans hfind)
  rw [hpending] at hverifies
  cases hverifies

/-- The key that a revocation names verified if it signed or had retired. -/
theorem mem_resolves_of_revoke {reason : Bytes} {allowSeal : Bool}
    (hchecks : (RotationStep.revoke role keyId reason allowSeal).Checks register) :
    ∃ root, register.find role keyId = some root ∧
      ((role, keyId) ∈ resolves register ↔ root.status = .active ∨ root.status = .retired) := by
  obtain ⟨-, candidate, hfind, -⟩ := hchecks
  refine ⟨candidate, hfind, ?_⟩
  rw [mem_resolves hvalid]
  constructor
  · rintro ⟨root, hroot, hname, hverifies⟩
    obtain rfl := Option.some.inj (((find_eq_some hvalid).mpr ⟨hroot, hname⟩).symm.trans hfind)
    cases hstatus : root.status with
    | pending => rw [hstatus] at hverifies; cases hverifies
    | active => exact Or.inl rfl
    | retired => exact Or.inr rfl
    | revoked => rw [hstatus] at hverifies; cases hverifies
  · intro hstands
    obtain ⟨hroot, hname⟩ := (find_eq_some hvalid).mp hfind
    refine ⟨candidate, hroot, hname, ?_⟩
    rcases hstands with hstatus | hstatus <;> rw [hstatus] <;> rfl

/-- A role that has a verifying key keeps one, unless a revocation may seal it. -/
theorem exists_resolves_of_checks {step : RotationStep} (hchecks : step.Checks register)
    (hverifies : (role, keyId) ∈ resolves register) :
    (∃ kept, (role, kept) ∈ step.declares register) ∨
      ∃ revoked reason, step = .revoke role revoked reason true := by
  cases step with
  | expand newRoot => exact Or.inl ⟨keyId, hverifies⟩
  | activate role' keyId' => exact Or.inl ⟨keyId, Set.mem_insert_of_mem _ hverifies⟩
  | retire role' keyId' => exact Or.inl ⟨keyId, hverifies⟩
  | revoke role' revoked reason allowSeal =>
      obtain ⟨-, candidate, -, -, -, hseal⟩ := hchecks
      by_cases hother : (role, keyId) = (role', revoked)
      swap
      · exact Or.inl ⟨keyId, hverifies, hother⟩
      obtain ⟨rfl, rfl⟩ := Prod.mk.inj hother
      cases hsurvivors : survivors register role keyId with
      | nil => exact Or.inr ⟨keyId, reason, by rw [hseal hsurvivors]⟩
      | cons root roots =>
          have hroot : root ∈ survivors register role keyId := hsurvivors ▸ List.mem_cons_self
          obtain ⟨hinRole, hkept⟩ := List.mem_filter.mp hroot
          obtain ⟨hroot, hrole⟩ := List.mem_filter.mp hinRole
          obtain ⟨hid, hstands⟩ := of_decide_eq_true hkept
          refine Or.inl ⟨root.keyId, (mem_resolves hvalid).mpr ⟨root, hroot, ?_, hstands⟩, ?_⟩
          · exact Prod.ext (of_decide_eq_true hrole) rfl
          · exact fun hname => hid (congrArg Prod.snd hname)

end Checks

/-- What a step changes about who is trusted. -/
structure ChangesTrust (register : TrustRootRegister) (step : RotationStep)
    (next : TrustRootRegister) : Prop where
  declared : resolves next = step.declares register
  gained : ∀ {role : KeyRole} {keyId : Bytes}, step = .activate role keyId →
    (role, keyId) ∉ resolves register
  /-- A revocation takes a key that signs or has retired out; one that was staged was not in. -/
  lost : ∀ {role : KeyRole} {keyId reason : Bytes} {allowSeal : Bool},
    step = .revoke role keyId reason allowSeal → (role, keyId) ∉ resolves next ∧
      ∃ root, register.find role keyId = some root ∧
        ((role, keyId) ∈ resolves register ↔ root.status = .active ∨ root.status = .retired)
  oneSigner : ∀ role, (next.activeIn role).length ≤ 1
  kept : ∀ {role : KeyRole} {keyId : Bytes}, (role, keyId) ∈ resolves register →
    (∃ kept, (role, kept) ∈ resolves next) ∨
      ∃ revoked reason, step = .revoke role revoked reason true

/-- From a valid register every step changes trust only as it declares; and one other than
an expansion whose checks go through returns the register it builds. -/
theorem trust_changes_as_declared (hvalid : register.validate curve = .ok ()) :
    (∀ step next, RotationStep.apply curve register step = .ok next →
      ChangesTrust register step next) ∧
    ∀ step : RotationStep, (∀ newRoot, step ≠ .expand newRoot) → step.Checks register →
      step.apply curve register = .ok (step.builds register) := by
  constructor
  · intro step next happly
    obtain ⟨hchecks, rfl, hnext⟩ := apply_eq_ok.mp happly
    have hdeclared := resolves_of_checks hvalid hchecks hnext
    refine ⟨hdeclared, ?_, ?_, ?_, fun hverifies => ?_⟩
    · rintro role keyId rfl
      exact notMem_resolves_of_activate hvalid hchecks
    · rintro role keyId reason allowSeal rfl
      rw [hdeclared]
      exact ⟨fun hmem => hmem.2 rfl, mem_resolves_of_revoke hvalid hchecks⟩
    · obtain ⟨-, -, -, hnodup, hsole⟩ := validate_eq_ok.mp hnext
      exact (TrustRootRegister.soleSigners_iff (List.Nodup.of_map _ hnodup)).mp hsole
    · rw [hdeclared]
      exact exists_resolves_of_checks hvalid hchecks hverifies
  · intro step hstaged hchecks
    exact apply_eq_ok.mpr ⟨hchecks, rfl, valid_of_checks hvalid hchecks hstaged⟩

/-- The only key of the role retires and still verifies, or is revoked and does not. -/
theorem trust_changes_as_declared_retire :
    ChangesTrust releaseRegister (.retire .release (ascii "release-1"))
      { releaseRegister with roots := [releaseKey (ascii "release-1") firstKey 1 .retired] } ∧
    ChangesTrust releaseRegister
      (.revoke .release (ascii "release-1") (ascii "laptop stolen") true) sealedRegister := by
  constructor
  · refine (trust_changes_as_declared releaseRegister_valid).1 _ _ ?_
    decide +kernel
  · refine (trust_changes_as_declared releaseRegister_valid).1 _ _ ?_
    decide +kernel

end Keys

end LoomDB
