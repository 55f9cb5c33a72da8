import LoomDB.Keys.Directory
import LoomDB.Keys.RotationSpec

/-!
# Revocation

A revocation names a key id, and a verification tries key material. What is signed
with the material of a revoked key stays refused as long as no other key of the role
that verifies carries the same material.
-/

namespace LoomDB

namespace Keys

variable {curve : Curve} {register next : TrustRootRegister} {role : KeyRole}
  {material : Bytes}

/-! ## Material -/

/-- The bytes behind the hexadecimal. -/
def TrustRoot.keyBytes (root : TrustRoot) : Option Bytes :=
  decodeHex 32 root.publicKey

/-- A key of the role that verifies carries the material. -/
def Trusts (register : TrustRootRegister) (role : KeyRole) (material : Bytes) : Prop :=
  ∃ root ∈ register.roots, root.role = role ∧ root.status.verifies = true ∧
    root.keyBytes = some material

/-- A revoked key of the role carries the material. -/
def Revokes (register : TrustRootRegister) (role : KeyRole) (material : Bytes) : Prop :=
  ∃ root ∈ register.roots, root.role = role ∧ root.status = .revoked ∧
    root.keyBytes = some material

/-- No material is both trusted and revoked in a role. -/
def Apart (register : TrustRootRegister) : Prop :=
  ∀ role material, Revokes register role material → ¬ Trusts register role material

/-- The named key carries the material. -/
def Names (register : TrustRootRegister) (role : KeyRole) (keyId material : Bytes) : Prop :=
  ∃ root ∈ register.roots, root.role = role ∧ root.keyId = keyId ∧ root.keyBytes = some material

/-! ## What a step does to the material -/

/-- The step brings no revoked material back: it promotes no key that carries some, and
revokes no key whose material another key goes on verifying with. -/
def KeepsOut (register : TrustRootRegister) : RotationStep → Prop
  | .activate role keyId => ∀ material, Names register role keyId material →
      ¬ Revokes register role material
  | .revoke role keyId _ _ => ∀ material, Names register role keyId material →
      ∀ other ∈ register.roots, other.role = role → other.keyId ≠ keyId →
        other.status.verifies = true → other.keyBytes ≠ some material
  | .expand _ | .retire _ _ => True

/-- A change of roots that leaves their names and their material. -/
structure KeepsNames (change : TrustRoot → TrustRoot) : Prop where
  role : ∀ root, (change root).role = root.role
  keyId : ∀ root, (change root).keyId = root.keyId
  material : ∀ root, (change root).keyBytes = root.keyBytes

theorem promoted_keepsNames (role : KeyRole) (keyId : Bytes) :
    KeepsNames (promoted role keyId) := by
  constructor <;> intro root <;> unfold promoted <;> (repeat' split) <;> rfl

theorem restate_keepsNames {role : KeyRole} {keyId : Bytes} {change : TrustRoot → TrustRoot}
    (hchange : KeepsNames change) : KeepsNames (restate role keyId change) := by
  constructor <;> intro root <;> unfold restate <;> split
  · exact hchange.role root
  · rfl
  · exact hchange.keyId root
  · rfl
  · exact hchange.material root
  · rfl

theorem retired_keepsNames :
    KeepsNames (fun root : TrustRoot => { root with status := .retired }) :=
  ⟨fun _ => rfl, fun _ => rfl, fun _ => rfl⟩

theorem revoked_keepsNames (reason : Bytes) :
    KeepsNames (fun root : TrustRoot =>
      { root with status := .revoked, revocationReason := some reason }) :=
  ⟨fun _ => rfl, fun _ => rfl, fun _ => rfl⟩

section Map

variable {change : TrustRoot → TrustRoot} (hkeeps : KeepsNames change)
  (hnext : next = { register with roots := register.roots.map change })
include hkeeps hnext

theorem trusts_of_map : Trusts next role material ↔
    ∃ root ∈ register.roots, root.role = role ∧ (change root).status.verifies = true ∧
      root.keyBytes = some material := by
  subst hnext
  simp only [Trusts, List.mem_map, exists_exists_and_eq_and, hkeeps.role, hkeeps.material]

theorem revokes_of_map : Revokes next role material ↔
    ∃ root ∈ register.roots, root.role = role ∧ (change root).status = .revoked ∧
      root.keyBytes = some material := by
  subst hnext
  simp only [Revokes, List.mem_map, exists_exists_and_eq_and, hkeeps.role, hkeeps.material]

end Map

/-! ### One step -/

theorem trusts_expand {newRoot : TrustRoot}
    (hnext : next = { register with roots := register.roots ++ [staged newRoot] }) :
    Trusts next role material ↔ Trusts register role material := by
  subst hnext
  simp [Trusts, staged, KeyStatus.verifies, or_and_right, exists_or]

theorem revokes_expand {newRoot : TrustRoot}
    (hnext : next = { register with roots := register.roots ++ [staged newRoot] }) :
    Revokes next role material ↔ Revokes register role material := by
  subst hnext
  simp [Revokes, staged, or_and_right, exists_or]

theorem trusts_activate {role' : KeyRole} {keyId : Bytes}
    (hnext : next = { register with roots := register.roots.map (promoted role keyId) }) :
    Trusts next role' material ↔ Trusts register role' material ∨
      role' = role ∧ Names register role keyId material := by
  rw [trusts_of_map (promoted_keepsNames role keyId) hnext]
  constructor
  · rintro ⟨root, hroot, rfl, hverifies, hbytes⟩
    unfold promoted at hverifies
    split at hverifies
    · exact Or.inl ⟨root, hroot, rfl, hverifies, hbytes⟩
    · next hrole =>
      rw [not_not] at hrole
      split at hverifies
      · next hid => exact Or.inr ⟨hrole, root, hroot, hrole, hid, hbytes⟩
      · split at hverifies
        · next hactive =>
          exact Or.inl ⟨root, hroot, rfl, by rw [hactive]; rfl, hbytes⟩
        · exact Or.inl ⟨root, hroot, rfl, hverifies, hbytes⟩
  · rintro (⟨root, hroot, hrole, hverifies, hbytes⟩ | ⟨rfl, root, hroot, hrole, hid, hbytes⟩)
    · refine ⟨root, hroot, hrole, ?_, hbytes⟩
      unfold promoted
      (repeat' split) <;> first | rfl | exact hverifies
    · refine ⟨root, hroot, hrole, ?_, hbytes⟩
      rw [promoted, if_neg (not_not.mpr hrole), if_pos hid]
      rfl

section Valid

variable {role' : KeyRole} {keyId : Bytes} {candidate : TrustRoot}
  (hvalid : register.validate curve = .ok ())
  (hfind : register.find role keyId = some candidate)
include hvalid hfind

/-- The root with the name of the candidate is the candidate. -/
theorem eq_of_find {root : TrustRoot} (hroot : root ∈ register.roots) (hrole : root.role = role)
    (hid : root.keyId = keyId) : root = candidate := by
  obtain ⟨hcandidate, hrole', hid'⟩ := TrustRootRegister.mem_of_find hfind
  exact TrustRootRegister.eq_of_name hvalid hroot hcandidate (hrole.trans hrole'.symm)
    (hid.trans hid'.symm)

theorem revokes_activate (hpending : candidate.status = .pending)
    (hnext : next = { register with roots := register.roots.map (promoted role keyId) }) :
    Revokes next role' material ↔ Revokes register role' material := by
  rw [revokes_of_map (promoted_keepsNames role keyId) hnext]
  refine exists_congr fun root => and_congr_right fun hroot => and_congr_right fun _ =>
    and_congr_left fun _ => ?_
  unfold promoted
  split
  · rfl
  · next hrole =>
    split
    · next hid =>
      obtain rfl := eq_of_find hvalid hfind hroot (not_not.mp hrole) hid
      simp [hpending]
    · split
      · next hactive => simp [hactive]
      · rfl

theorem trusts_retire (hactive : candidate.status = .active)
    (hnext : next = { register with roots := register.roots.map (restate role keyId fun root =>
      { root with status := .retired }) }) :
    Trusts next role' material ↔ Trusts register role' material := by
  rw [trusts_of_map (restate_keepsNames retired_keepsNames) hnext]
  refine exists_congr fun root => and_congr_right fun hroot => and_congr_right fun _ =>
    and_congr_left fun _ => ?_
  unfold restate
  split
  · next hname =>
    obtain rfl := eq_of_find hvalid hfind hroot hname.1 hname.2
    simp [hactive, KeyStatus.verifies]
  · rfl

theorem revokes_retire (hactive : candidate.status = .active)
    (hnext : next = { register with roots := register.roots.map (restate role keyId fun root =>
      { root with status := .retired }) }) :
    Revokes next role' material ↔ Revokes register role' material := by
  rw [revokes_of_map (restate_keepsNames retired_keepsNames) hnext]
  refine exists_congr fun root => and_congr_right fun hroot => and_congr_right fun _ =>
    and_congr_left fun _ => ?_
  unfold restate
  split
  · next hname =>
    obtain rfl := eq_of_find hvalid hfind hroot hname.1 hname.2
    simp [hactive]
  · rfl

end Valid

section Revoke

variable {role' : KeyRole} {keyId reason : Bytes}
  (hnext : next = { register with roots := register.roots.map (restate role keyId fun root =>
    { root with status := .revoked, revocationReason := some reason }) })
include hnext

theorem trusts_revoke : Trusts next role' material ↔
    ∃ root ∈ register.roots, root.role = role' ∧ ¬ (root.role = role ∧ root.keyId = keyId) ∧
      root.status.verifies = true ∧ root.keyBytes = some material := by
  rw [trusts_of_map (restate_keepsNames (revoked_keepsNames reason)) hnext]
  refine exists_congr fun root => and_congr_right fun _ => and_congr_right fun _ => ?_
  rw [← and_assoc]
  refine and_congr_left fun _ => ?_
  unfold restate
  split
  · next hname => simp [hname, KeyStatus.verifies]
  · next hname => exact (and_iff_right hname).symm

theorem revokes_revoke : Revokes next role' material ↔ Revokes register role' material ∨
    role' = role ∧ Names register role keyId material := by
  rw [revokes_of_map (restate_keepsNames (revoked_keepsNames reason)) hnext]
  constructor
  · rintro ⟨root, hroot, rfl, hrevoked, hbytes⟩
    unfold restate at hrevoked
    split at hrevoked
    · next hname => exact Or.inr ⟨hname.1, root, hroot, hname.1, hname.2, hbytes⟩
    · exact Or.inl ⟨root, hroot, rfl, hrevoked, hbytes⟩
  · rintro (⟨root, hroot, hrole, hrevoked, hbytes⟩ | ⟨rfl, root, hroot, hrole, hid, hbytes⟩)
    · refine ⟨root, hroot, hrole, ?_, hbytes⟩
      unfold restate
      split
      · rfl
      · exact hrevoked
    · refine ⟨root, hroot, hrole, ?_, hbytes⟩
      rw [restate, if_pos ⟨hrole, hid⟩]

end Revoke

/-! ## Steps and runs -/

theorem valid_of_apply {step : RotationStep} (happly : step.apply curve register = .ok next) :
    next.validate curve = .ok () := by
  cases step with
  | expand newRoot => exact (expand_eq_ok.mp happly).2.2.2
  | activate role keyId =>
      obtain ⟨_, _, _, _, _, _, hvalid⟩ := activate_eq_ok.mp happly
      exact hvalid
  | retire role keyId =>
      obtain ⟨_, _, _, _, hvalid⟩ := retire_eq_ok.mp happly
      exact hvalid
  | revoke role keyId reason allowSeal =>
      obtain ⟨_, _, _, _, _, _, _, hvalid⟩ := revoke_eq_ok.mp happly
      exact hvalid

/-- Nothing that a step does takes a revocation back. -/
theorem revokes_of_apply {step : RotationStep} (hvalid : register.validate curve = .ok ())
    (happly : step.apply curve register = .ok next) (hrevokes : Revokes register role material) :
    Revokes next role material := by
  cases step with
  | expand newRoot => exact (revokes_expand (expand_eq_ok.mp happly).2.2.1).mpr hrevokes
  | activate role' keyId =>
      obtain ⟨_, hfind, hpending, _, _, hnext, _⟩ := activate_eq_ok.mp happly
      exact (revokes_activate hvalid hfind hpending hnext).mpr hrevokes
  | retire role' keyId =>
      obtain ⟨_, hfind, hactive, hnext, _⟩ := retire_eq_ok.mp happly
      exact (revokes_retire hvalid hfind hactive hnext).mpr hrevokes
  | revoke role' keyId reason allowSeal =>
      obtain ⟨_, _, _, _, _, _, hnext, _⟩ := revoke_eq_ok.mp happly
      exact (revokes_revoke hnext).mpr (Or.inl hrevokes)

/-- A step leaves trusted and revoked material apart exactly if it brings none back. -/
theorem apart_iff_of_apply {step : RotationStep} (hvalid : register.validate curve = .ok ())
    (happly : step.apply curve register = .ok next) (hapart : Apart register) :
    Apart next ↔ KeepsOut register step := by
  cases step with
  | expand newRoot =>
      have hnext := (expand_eq_ok.mp happly).2.2.1
      refine iff_of_true (fun role material hrevokes htrusts => ?_) trivial
      exact hapart role material ((revokes_expand hnext).mp hrevokes)
        ((trusts_expand hnext).mp htrusts)
  | activate role keyId =>
      obtain ⟨_, hfind, hpending, _, _, hnext, _⟩ := activate_eq_ok.mp happly
      simp only [Apart, revokes_activate hvalid hfind hpending hnext, trusts_activate hnext]
      constructor
      · intro hnone material hnames hrevokes
        exact hnone role material hrevokes (Or.inr ⟨rfl, hnames⟩)
      · rintro hkeeps role' material hrevokes (htrusts | ⟨rfl, hnames⟩)
        · exact hapart role' material hrevokes htrusts
        · exact hkeeps material hnames hrevokes
  | retire role keyId =>
      obtain ⟨_, hfind, hactive, hnext, _⟩ := retire_eq_ok.mp happly
      refine iff_of_true (fun role' material hrevokes htrusts => ?_) trivial
      exact hapart role' material ((revokes_retire hvalid hfind hactive hnext).mp hrevokes)
        ((trusts_retire hvalid hfind hactive hnext).mp htrusts)
  | revoke role keyId reason allowSeal =>
      obtain ⟨_, _, _, _, _, _, hnext, _⟩ := revoke_eq_ok.mp happly
      simp only [Apart, revokes_revoke hnext, trusts_revoke hnext]
      constructor
      · intro hnone material hnames other hother hrole hid hverifies hbytes
        exact hnone role material (Or.inr ⟨rfl, hnames⟩)
          ⟨other, hother, hrole, fun hname => hid hname.2, hverifies, hbytes⟩
      · rintro hkeeps role' material hrevokes ⟨root, hroot, hrole, hother, hverifies, hbytes⟩
        rcases hrevokes with hrevokes | ⟨rfl, hnames⟩
        · exact hapart role' material hrevokes ⟨root, hroot, hrole, hverifies, hbytes⟩
        · exact hkeeps material hnames root hroot hrole (fun hid => hother ⟨hrole, hid⟩)
            hverifies hbytes

/-- Steps one after the other, each on the register that the one before it returned. -/
def rotate (curve : Curve) (register : TrustRootRegister) (steps : List RotationStep) :
    Except KeyError TrustRootRegister :=
  steps.foldlM (RotationStep.apply curve) register

/-- Each step of the sequence that returns brings no revoked material back. -/
def AllKeepOut (curve : Curve) : TrustRootRegister → List RotationStep → Prop
  | _, [] => True
  | register, step :: steps => ∀ next, step.apply curve register = .ok next →
      KeepsOut register step ∧ AllKeepOut curve next steps

theorem rotate_cons {step : RotationStep} {steps : List RotationStep}
    {final : TrustRootRegister} :
    rotate curve register (step :: steps) = .ok final ↔
      ∃ next, step.apply curve register = .ok next ∧ rotate curve next steps = .ok final := by
  unfold rotate
  rw [List.foldlM_cons]
  cases step.apply curve register with
  | error error => exact iff_of_false (by rintro ⟨⟩) (by rintro ⟨_, ⟨⟩, _⟩)
  | ok next =>
      constructor
      · exact fun hfinal => ⟨next, rfl, hfinal⟩
      · rintro ⟨_, ⟨⟩, hfinal⟩
        exact hfinal

/-- What holds of a valid register and is kept by every step holds after every sequence. -/
theorem rotate_keeps (P : TrustRootRegister → Prop)
    (hstep : ∀ register step next, register.validate curve = .ok () → P register →
      RotationStep.apply curve register step = .ok next → P next)
    {steps : List RotationStep} (hvalid : register.validate curve = .ok ()) (hbase : P register)
    (hrotate : rotate curve register steps = .ok next) :
    next.validate curve = .ok () ∧ P next := by
  induction steps generalizing register with
  | nil =>
      cases hrotate
      exact ⟨hvalid, hbase⟩
  | cons step steps ih =>
      obtain ⟨between, happly, hrest⟩ := rotate_cons.mp hrotate
      exact ih (valid_of_apply happly) (hstep register step between hvalid hbase happly) hrest

theorem valid_of_rotate {steps : List RotationStep} (hvalid : register.validate curve = .ok ())
    (hrotate : rotate curve register steps = .ok next) : next.validate curve = .ok () :=
  (rotate_keeps (fun _ => True) (fun _ _ _ _ _ _ => trivial) hvalid trivial hrotate).1

theorem revokes_of_rotate {steps : List RotationStep} (hvalid : register.validate curve = .ok ())
    (hrotate : rotate curve register steps = .ok next) (hrevokes : Revokes register role material) :
    Revokes next role material :=
  (rotate_keeps (fun register => Revokes register role material)
    (fun _ _ _ hvalid hrevokes happly => revokes_of_apply hvalid happly hrevokes)
    hvalid hrevokes hrotate).2

/-- A key of the register, or one that a step stages, carries the material. -/
def Involves (register : TrustRootRegister) (steps : List RotationStep) (material : Bytes) : Prop :=
  ∃ root, (root ∈ register.roots ∨ .expand root ∈ steps) ∧ root.keyBytes = some material

/-- A step changes no material, and brings none but that of the key it stages. -/
theorem keyBytes_of_apply {step : RotationStep} {root : TrustRoot}
    (happly : step.apply curve register = .ok next) (hroot : root ∈ next.roots) :
    ∃ earlier, (earlier ∈ register.roots ∨ step = .expand earlier) ∧
      root.keyBytes = earlier.keyBytes := by
  have hmapped : ∀ {change : TrustRoot → TrustRoot}, KeepsNames change →
      next = { register with roots := register.roots.map change } →
      ∃ earlier, (earlier ∈ register.roots ∨ step = .expand earlier) ∧
        root.keyBytes = earlier.keyBytes := by
    rintro change hkeeps rfl
    obtain ⟨earlier, hearlier, rfl⟩ := List.mem_map.mp hroot
    exact ⟨earlier, Or.inl hearlier, hkeeps.material earlier⟩
  cases step with
  | expand newRoot =>
      obtain rfl := (expand_eq_ok.mp happly).2.2.1
      rcases List.mem_append.mp hroot with hold | hnew
      · exact ⟨root, Or.inl hold, rfl⟩
      · obtain rfl := List.mem_singleton.mp hnew
        exact ⟨newRoot, Or.inr rfl, rfl⟩
  | activate role keyId =>
      obtain ⟨_, _, _, _, _, hnext, _⟩ := activate_eq_ok.mp happly
      exact hmapped (promoted_keepsNames role keyId) hnext
  | retire role keyId =>
      obtain ⟨_, _, _, hnext, _⟩ := retire_eq_ok.mp happly
      exact hmapped (restate_keepsNames retired_keepsNames) hnext
  | revoke role keyId reason allowSeal =>
      obtain ⟨_, _, _, _, _, _, hnext, _⟩ := revoke_eq_ok.mp happly
      exact hmapped (restate_keepsNames (revoked_keepsNames reason)) hnext

theorem involves_of_rotate {steps : List RotationStep} {root : TrustRoot}
    (hrotate : rotate curve register steps = .ok next) (hroot : root ∈ next.roots)
    (hbytes : root.keyBytes = some material) : Involves register steps material := by
  induction steps generalizing register with
  | nil =>
      cases hrotate
      exact ⟨root, Or.inl hroot, hbytes⟩
  | cons step steps ih =>
      obtain ⟨between, happly, hrest⟩ := rotate_cons.mp hrotate
      obtain ⟨later, hlater | hstaged, hlaterBytes⟩ := ih hrest
      · obtain ⟨earlier, hearlier | hstep, hsame⟩ := keyBytes_of_apply happly hlater
        · exact ⟨earlier, Or.inl hearlier, hsame ▸ hlaterBytes⟩
        · exact ⟨earlier, Or.inr (hstep ▸ List.mem_cons_self), hsame ▸ hlaterBytes⟩
      · exact ⟨later, Or.inr (List.mem_cons_of_mem _ hstaged), hlaterBytes⟩

/-- Trusted and revoked material are apart all along a sequence exactly if they are at its
start and each step keeps revoked material out. -/
theorem apart_along_iff {steps : List RotationStep} (hvalid : register.validate curve = .ok ()) :
    (∀ earlier, earlier <+: steps → ∀ between, rotate curve register earlier = .ok between →
      Apart between) ↔ Apart register ∧ AllKeepOut curve register steps := by
  induction steps generalizing register with
  | nil =>
      constructor
      · exact fun hall => ⟨hall [] List.nil_prefix register rfl, trivial⟩
      · rintro ⟨hapart, -⟩ earlier hearlier between hbetween
        obtain rfl := List.prefix_nil.mp hearlier
        cases hbetween
        exact hapart
  | cons step steps ih =>
      constructor
      · intro hall
        have hapart := hall [] List.nil_prefix register rfl
        refine ⟨hapart, fun next happly => ?_⟩
        have hrest : ∀ earlier, earlier <+: steps → ∀ between,
            rotate curve next earlier = .ok between → Apart between :=
          fun earlier hearlier between hbetween =>
            hall (step :: earlier) (List.cons_prefix_cons.mpr ⟨rfl, hearlier⟩) between
              (rotate_cons.mpr ⟨next, happly, hbetween⟩)
        obtain ⟨hnext, hkeeps⟩ := (ih (valid_of_apply happly)).mp hrest
        exact ⟨(apart_iff_of_apply hvalid happly hapart).mp hnext, hkeeps⟩
      · rintro ⟨hapart, hkeeps⟩ earlier hearlier between hbetween
        cases earlier with
        | nil =>
            cases hbetween
            exact hapart
        | cons first earlier =>
            obtain ⟨rfl, hprefix⟩ := List.cons_prefix_cons.mp hearlier
            obtain ⟨next, happly, hbetween⟩ := rotate_cons.mp hbetween
            obtain ⟨hkeep, hrest⟩ := hkeeps next happly
            exact (ih (valid_of_apply happly)).mpr
              ⟨(apart_iff_of_apply hvalid happly hapart).mpr hkeep, hrest⟩
              earlier hprefix between hbetween

/-! ## Acceptance -/

/-- A signature that the key it was made with accepts, and no other key does. -/
def MadeWith (curve : Curve) (material message signature : Bytes) : Prop :=
  curve.verify material message signature = .ok () ∧
    ∀ other, curve.verify other message signature = .ok () → other = material

/-- The directory of the role accepts the signature, without being told whose it is. -/
def Accepts (curve : Curve) (register : TrustRootRegister) (role : KeyRole)
    (message signature : Bytes) : Prop :=
  ∃ directory root, KeyDirectory.new curve register role = .ok directory ∧
    directory.verifyAny curve message signature = .ok root

theorem verifyingKey_eq_ok {root : TrustRoot} {bytes : Bytes} :
    root.verifyingKey curve = .ok bytes ↔
      root.keyBytes = some bytes ∧ curve.fromBytes bytes = .ok () := by
  unfold TrustRoot.verifyingKey TrustRoot.keyBytes
  cases decodeHex 32 root.publicKey with
  | none => simp
  | some found =>
      cases hcurve : curve.fromBytes found with
      | error error =>
          simp only [hcurve, reduceCtorEq, Option.some.injEq, false_iff]
          rintro ⟨rfl, hbytes⟩
          rw [hcurve] at hbytes
          cases hbytes
      | ok done =>
          simp only [hcurve, Except.ok.injEq, Option.some.injEq]
          constructor
          · rintro rfl
            exact ⟨rfl, hcurve⟩
          · exact And.left

theorem verifyAgainst_isOk {root : TrustRoot} {message signature : Bytes} :
    (KeyDirectory.verifyAgainst curve root message signature).isOk = true ↔
      signature.length = 64 ∧ ∃ bytes, root.keyBytes = some bytes ∧
        curve.fromBytes bytes = .ok () ∧ curve.verify bytes message signature = .ok () := by
  unfold KeyDirectory.verifyAgainst
  by_cases hlength : signature.length = 64
  · cases hkey : root.verifyingKey curve with
    | error error =>
        refine iff_of_false (by simp [hlength, bind, Except.bind, Except.isOk, Except.toBool]) ?_
        rintro ⟨-, bytes, hbytes, hpoint, -⟩
        rw [verifyingKey_eq_ok.mpr ⟨hbytes, hpoint⟩] at hkey
        cases hkey
    | ok bytes =>
        obtain ⟨hbytes, hpoint⟩ := verifyingKey_eq_ok.mp hkey
        simp only [hlength, hbytes, ne_eq, not_true_eq_false, if_false, true_and,
          Option.some.injEq, exists_eq_left', hpoint]
        cases hverify : curve.verify bytes message signature with
        | error error => simp [bind, Except.bind, Except.mapError, Except.isOk, Except.toBool, hverify]
        | ok done => simp [bind, Except.bind, Except.mapError, Except.isOk, Except.toBool, hverify]
  · simp [hlength, Except.isOk, Except.toBool]

theorem mem_trusted {directory : KeyDirectory} {root : TrustRoot} :
    root ∈ directory.trusted ↔ root ∈ directory.register.roots ∧ root.role = directory.role ∧
      root.status.verifies = true := by
  simp only [KeyDirectory.trusted, TrustRootRegister.inRole, List.mem_insertionSort,
    List.mem_filter, decide_eq_true_eq, and_assoc]

/-- Verification goes by material. -/
theorem accepts_iff {message signature : Bytes} (hvalid : register.validate curve = .ok ()) :
    Accepts curve register role message signature ↔ signature.length = 64 ∧
      ∃ bytes, Trusts register role bytes ∧ curve.fromBytes bytes = .ok () ∧
        curve.verify bytes message signature = .ok () := by
  have hnew : KeyDirectory.new curve register role = .ok ⟨register, role⟩ := by
    rw [KeyDirectory.new, hvalid]
    rfl
  rw [Accepts, hnew]
  simp only [Except.ok.injEq, exists_and_left, exists_eq_left', KeyDirectory.verifyAny]
  constructor
  · rintro ⟨root, hverify⟩
    split at hverify
    · next found hfound =>
      obtain ⟨hlength, bytes, hbytes, hpoint, hsigned⟩ :=
        verifyAgainst_isOk.mp (by simpa using List.find?_some hfound)
      obtain ⟨hroot, hrole, hverifies⟩ := mem_trusted.mp (List.mem_of_find?_eq_some hfound)
      exact ⟨hlength, bytes, ⟨found, hroot, hrole, hverifies, hbytes⟩, hpoint, hsigned⟩
    · cases hverify
  · rintro ⟨hlength, bytes, ⟨root, hroot, hrole, hverifies, hbytes⟩, hpoint, hsigned⟩
    have hmem : root ∈ KeyDirectory.trusted ⟨register, role⟩ :=
      mem_trusted.mpr ⟨hroot, hrole, hverifies⟩
    have hok := verifyAgainst_isOk.mpr ⟨hlength, bytes, hbytes, hpoint, hsigned⟩
    cases hfind : (KeyDirectory.trusted ⟨register, role⟩).find? fun root =>
        (KeyDirectory.verifyAgainst curve root message signature).isOk with
    | some found => exact ⟨found, rfl⟩
    | none => exact absurd hok (List.find?_eq_none.mp hfind root hmem)

/-- The key makes a signature that the length check lets through. -/
def Signs (curve : Curve) (material : Bytes) : Prop :=
  ∃ message signature, signature.length = 64 ∧ MadeWith curve material message signature

theorem fromBytes_of_trusts (hvalid : register.validate curve = .ok ())
    (htrusts : Trusts register role material) : curve.fromBytes material = .ok () := by
  obtain ⟨root, hroot, -, -, hbytes⟩ := htrusts
  obtain ⟨bytes, hkey⟩ := TrustRootRegister.verifyingKey_of_validateRoots
    (TrustRootRegister.validateRoots_of_validate hvalid) root hroot
  obtain ⟨hbytes', hpoint⟩ := verifyingKey_eq_ok.mp hkey
  obtain rfl := Option.some.inj (hbytes.symm.trans hbytes')
  exact hpoint

/-- What a revocation is for: once a key is revoked in a role, no register later in the
sequence lets the role accept what was signed with that key's material. -/
def StaysRevoked (curve : Curve) (register : TrustRootRegister) (steps : List RotationStep) :
    Prop :=
  ∀ earlier later, earlier ++ later <+: steps → ∀ between, rotate curve register earlier = .ok between →
    ∀ final, rotate curve between later = .ok final → ∀ role material,
      Revokes between role material → ∀ message signature,
        MadeWith curve material message signature → ¬ Accepts curve final role message signature

/-- Where the keys of the register and of the steps can sign, revocations last exactly if no
revoked material is trusted to begin with, and no step brings any back. -/
theorem staysRevoked_iff {steps : List RotationStep}
    (hsigns : ∀ material, Involves register steps material → Signs curve material)
    (hvalid : register.validate curve = .ok ()) :
    StaysRevoked curve register steps ↔ Apart register ∧ AllKeepOut curve register steps := by
  rw [← apart_along_iff hvalid]
  constructor
  · intro hstays earlier hearlier between hbetween role material hrevokes htrusts
    have hvalid' := valid_of_rotate hvalid hbetween
    have hpoint := fromBytes_of_trusts hvalid' htrusts
    have hinvolved : Involves register steps material := by
      obtain ⟨root, hroot, -, -, hbytes⟩ := htrusts
      obtain ⟨kept, hkept, hmaterial⟩ := involves_of_rotate hbetween hroot hbytes
      exact ⟨kept, hkept.imp_right fun hstaged => hearlier.subset hstaged, hmaterial⟩
    obtain ⟨message, signature, hlength, hmade⟩ := hsigns material hinvolved
    refine hstays earlier [] (by rwa [List.append_nil]) between hbetween between rfl role
      material hrevokes message signature hmade ?_
    exact (accepts_iff hvalid').mpr ⟨hlength, material, htrusts, hpoint, hmade.1⟩
  · intro hall earlier later hprefix between hbetween final hfinal role material hrevokes
      message signature hmade haccepts
    have hrotate : rotate curve register (earlier ++ later) = .ok final := by
      rw [rotate, List.foldlM_append]
      exact (congrArg (· >>= _) hbetween).trans hfinal
    have hvalid' := valid_of_rotate hvalid hbetween
    have hrevokes' := revokes_of_rotate hvalid' hfinal hrevokes
    obtain ⟨-, bytes, htrusts, -, hverify⟩ := (accepts_iff (valid_of_rotate hvalid' hfinal)).mp haccepts
    obtain rfl := hmade.2 bytes hverify
    exact hall (earlier ++ later) hprefix final hrotate role bytes hrevokes' htrusts

/-! ## A key that comes back -/

/-- Three keys, and what the first signs of the empty message. -/
def firstKey : Bytes :=
  ascii "d75a980182b10ab7d54bfed3c964073a0ee172f3daa62325af021a68f707511a"

def secondKey : Bytes :=
  ascii "3d4017c3e843895a92b70aa74d1b7ebc9c982ccf2ec4968cc0cd55f12af4660c"

def thirdKey : Bytes :=
  ascii "fc51cd8e6218a1a38da47ed00230f0580816ed13ba3303ac5deb911548908025"

def firstMaterial : Bytes :=
  (decodeHex 32 firstKey).getD []

def firstSignature : Bytes :=
  spelled ("e5564300c360ac729086e2cc806e828a84877f1eb8e5d974d873e06522490155" ++
    "5fb8821590a33bacc61e39701cf9b46bd25bf5f0595bbe24655141438e7a100b")

/-- The curve, as far as these keys and the signature go. -/
def releaseCurve : Curve where
  fromBytes bytes :=
    if toHex bytes ∈ [firstKey, secondKey, thirdKey] then .ok ()
    else .error (ascii "signature error: Cannot decompress Edwards point")
  verify key message signature :=
    if key = firstMaterial ∧ message = [] ∧ signature = firstSignature then .ok ()
    else .error (ascii "signature error: Verification equation was not satisfied")
  showQuoted text := ascii "\"" ++ text ++ ascii "\""

theorem firstSignature_madeWith : MadeWith releaseCurve firstMaterial [] firstSignature := by
  refine ⟨by decide +kernel, fun other hother => ?_⟩
  by_contra hne
  simp [releaseCurve, hne] at hother

def releaseCeremony : Ceremony where
  reference := ascii "ceremony-1"
  approvals := [⟨ascii "ada", 1⟩, ⟨ascii "grace", 2⟩]

def releaseKey (keyId publicKey : Bytes) (generation : U64) (status : KeyStatus) : TrustRoot where
  keyId := keyId
  role := .release
  algorithm := .ed25519
  publicKey := publicKey
  backend := .software
  status := status
  generation := generation
  ceremony := releaseCeremony
  revocationReason := none

def releaseRegister : TrustRootRegister where
  schemaVersion := REGISTER_SCHEMA_VERSION
  roots := [releaseKey (ascii "release-1") firstKey 1 .active]

/-- Revoke the only key of the role. -/
def sealing : List RotationStep :=
  [.revoke .release (ascii "release-1") (ascii "laptop stolen") true]

/-- Stage the same material under another id, and promote it. -/
def restaging : List RotationStep :=
  [.expand (releaseKey (ascii "release-2") firstKey 2 .pending),
    .activate .release (ascii "release-2")]

theorem releaseRegister_valid : releaseRegister.validate releaseCurve = .ok () := by
  decide +kernel

theorem keyBytes_firstKey : decodeHex 32 firstKey = some firstMaterial := by
  decide +kernel

theorem sealing_staysRevoked : StaysRevoked releaseCurve releaseRegister sealing := by
  refine (staysRevoked_iff ?_ releaseRegister_valid).mpr ⟨?_, ?_⟩
  · rintro material ⟨root, hroot | hstaged, hbytes⟩
    · obtain rfl := List.mem_singleton.mp hroot
      obtain rfl := Option.some.inj (keyBytes_firstKey.symm.trans hbytes)
      exact ⟨[], firstSignature, by decide +kernel, firstSignature_madeWith⟩
    · cases List.mem_singleton.mp hstaged
  · rintro role material ⟨root, hroot, -, hrevoked, -⟩ -
    obtain rfl := List.mem_singleton.mp hroot
    cases hrevoked
  · intro next _
    refine ⟨fun material _ other hother _ hid => ?_, trivial⟩
    obtain rfl := List.mem_singleton.mp hother
    exact absurd rfl hid

def sealedKey : TrustRoot :=
  { releaseKey (ascii "release-1") firstKey 1 .revoked with
    revocationReason := some (ascii "laptop stolen") }

def sealedRegister : TrustRootRegister :=
  { releaseRegister with roots := [sealedKey] }

def restagedRegister : TrustRootRegister :=
  { releaseRegister with roots := [sealedKey, releaseKey (ascii "release-2") firstKey 2 .active] }

/-- The material of the revoked key is accepted again, under another id. -/
theorem restaging_not_staysRevoked :
    ¬ StaysRevoked releaseCurve releaseRegister (sealing ++ restaging) := by
  intro hstays
  have hsealed : rotate releaseCurve releaseRegister sealing = .ok sealedRegister := by
    decide +kernel
  have hrestaged : rotate releaseCurve sealedRegister restaging = .ok restagedRegister := by
    decide +kernel
  have hvalid : restagedRegister.validate releaseCurve = .ok () := by decide +kernel
  have hrevokes : Revokes sealedRegister .release firstMaterial :=
    ⟨sealedKey, List.mem_singleton_self _, rfl, rfl, keyBytes_firstKey⟩
  have htrusts : Trusts restagedRegister .release firstMaterial :=
    ⟨_, List.mem_cons_of_mem _ (List.mem_singleton_self _), rfl, rfl, keyBytes_firstKey⟩
  refine hstays sealing restaging List.prefix_rfl sealedRegister hsealed restagedRegister hrestaged
    .release _ hrevokes [] _ firstSignature_madeWith ?_
  exact (accepts_iff hvalid).mpr
    ⟨by decide +kernel, _, htrusts, by decide +kernel, firstSignature_madeWith.1⟩

end Keys

end LoomDB
