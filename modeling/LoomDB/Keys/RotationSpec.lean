import LoomDB.Keys.Rotation
import Mathlib.Data.List.Nodup

/-!
# What the steps of a rotation do

A register that a step returns has the roots of the one before it, each with the
status the step gives it, and after an expansion one more; and it is valid, so no two
of its roots have one id in one role.
-/

namespace LoomDB

namespace Keys

variable {curve : Curve} {register next : TrustRootRegister}

/-! ## Valid registers -/

namespace TrustRootRegister

/-- What names a root: its role and its id. -/
def name (root : TrustRoot) : KeyRole × Bytes :=
  (root.role, root.keyId)

theorem notMem_of_validateRoot {seen : List (KeyRole × Bytes)} {root : TrustRoot}
    (hvalid : validateRoot curve seen root = .ok ()) : name root ∉ seen := by
  unfold validateRoot at hvalid
  split at hvalid
  · cases hvalid
  · split at hvalid
    · cases hvalid
    · next hseen => exact hseen

theorem verifyingKey_of_validateRoot {seen : List (KeyRole × Bytes)} {root : TrustRoot}
    (hvalid : validateRoot curve seen root = .ok ()) :
    ∃ bytes, root.verifyingKey curve = .ok bytes := by
  unfold validateRoot at hvalid
  split at hvalid
  · cases hvalid
  · split at hvalid
    · cases hvalid
    · cases hkey : root.verifyingKey curve with
      | error error => rw [hkey] at hvalid; cases hvalid
      | ok bytes => exact ⟨bytes, rfl⟩

theorem verifyingKey_of_validateRoots {seen : List (KeyRole × Bytes)} {roots : List TrustRoot}
    (hvalid : validateRoots curve seen roots = .ok ()) :
    ∀ root ∈ roots, ∃ bytes, root.verifyingKey curve = .ok bytes := by
  induction roots generalizing seen with
  | nil => exact fun _ hroot => absurd hroot List.not_mem_nil
  | cons root roots ih =>
      rw [validateRoots] at hvalid
      cases hfirst : validateRoot curve seen root with
      | error error => rw [hfirst] at hvalid; cases hvalid
      | ok done =>
          rw [hfirst] at hvalid
          exact List.forall_mem_cons.mpr ⟨verifyingKey_of_validateRoot hfirst, ih hvalid⟩

theorem nodup_of_validateRoots {seen : List (KeyRole × Bytes)} {roots : List TrustRoot}
    (hvalid : validateRoots curve seen roots = .ok ()) :
    (roots.map name).Nodup ∧ ∀ root ∈ roots, name root ∉ seen := by
  induction roots generalizing seen with
  | nil => exact ⟨List.nodup_nil, fun _ hroot => absurd hroot List.not_mem_nil⟩
  | cons root roots ih =>
      rw [validateRoots] at hvalid
      cases hfirst : validateRoot curve seen root with
      | error error => rw [hfirst] at hvalid; cases hvalid
      | ok done =>
          rw [hfirst] at hvalid
          obtain ⟨hnodup, hfresh⟩ := ih hvalid
          have hroot := notMem_of_validateRoot hfirst
          refine ⟨List.nodup_cons.mpr ⟨fun hmem => ?_, hnodup⟩, fun other hother => ?_⟩
          · obtain ⟨other, hother, hname⟩ := List.mem_map.mp hmem
            exact hfresh other hother (hname ▸ List.mem_cons_self)
          · rcases List.mem_cons.mp hother with rfl | hother
            · exact hroot
            · exact fun hseen => hfresh other hother (List.mem_cons_of_mem _ hseen)

theorem validateRoots_of_validate (hvalid : register.validate curve = .ok ()) :
    validateRoots curve [] register.roots = .ok () := by
  unfold validate at hvalid
  split at hvalid
  · cases hvalid
  · split at hvalid
    · cases hvalid
    · cases hroots : validateRoots curve [] register.roots with
      | error error => rw [hroots] at hvalid; cases hvalid
      | ok done => rfl

/-- No two roots of a valid register have one name. -/
theorem eq_of_name (hvalid : register.validate curve = .ok ()) {root other : TrustRoot}
    (hroot : root ∈ register.roots) (hother : other ∈ register.roots)
    (hrole : root.role = other.role) (hid : root.keyId = other.keyId) : root = other :=
  List.inj_on_of_nodup_map (nodup_of_validateRoots (validateRoots_of_validate hvalid)).1
    hroot hother (Prod.ext hrole hid)

theorem mem_of_find {role : KeyRole} {keyId : Bytes} {root : TrustRoot}
    (hfind : register.find role keyId = some root) :
    root ∈ register.roots ∧ root.role = role ∧ root.keyId = keyId := by
  have hmem := List.mem_filter.mp (List.mem_of_find?_eq_some hfind)
  exact ⟨hmem.1, of_decide_eq_true hmem.2, by simpa using List.find?_some hfind⟩

theorem withRoots_eq_ok {roots : List TrustRoot} :
    register.withRoots curve roots = .ok next ↔
      next = { register with roots := roots } ∧ next.validate curve = .ok () := by
  unfold withRoots
  cases hvalid : ({ register with roots := roots } : TrustRootRegister).validate curve with
  | error error =>
      refine iff_of_false (by simp [hvalid, Except.map]) ?_
      rintro ⟨rfl, hnext⟩
      rw [hvalid] at hnext
      cases hnext
  | ok done =>
      simp only [hvalid, Except.map, Except.ok.injEq]
      constructor
      · rintro rfl
        exact ⟨rfl, hvalid⟩
      · rintro ⟨rfl, -⟩
        rfl

end TrustRootRegister

open TrustRootRegister (withRoots_eq_ok)

/-! ## Steps that return -/

/-- What an expansion adds. -/
def staged (newRoot : TrustRoot) : TrustRoot :=
  { newRoot with status := .pending, revocationReason := none }

/-- What a promotion makes of a root, if it goes through. -/
def promoted (role : KeyRole) (keyId : Bytes) (root : TrustRoot) : TrustRoot :=
  if root.role ≠ role then root
  else if root.keyId = keyId then { root with status := .active }
  else if root.status = .active then { root with status := .retired }
  else root

/-- What stops a promotion: another key that signs, and is not older. -/
def Outranks (role : KeyRole) (keyId : Bytes) (generation : U64) (root : TrustRoot) : Prop :=
  root.role = role ∧ root.keyId ≠ keyId ∧ root.status = .active ∧ generation ≤ root.generation

theorem promote_eq_ok {role : KeyRole} {keyId : Bytes} {generation : U64}
    {root after : TrustRoot} :
    promote curve role keyId generation root = .ok after ↔
      after = promoted role keyId root ∧ ¬ Outranks role keyId generation root := by
  unfold promote promoted Outranks
  by_cases hrole : root.role = role
  · by_cases hid : root.keyId = keyId
    · simp [hrole, hid, eq_comm]
    · by_cases hactive : root.status = .active
      · by_cases hgeneration : generation ≤ root.generation
        · simp [hrole, hid, hactive, hgeneration]
        · simp [hrole, hid, hactive, hgeneration, eq_comm]
      · simp [hrole, hid, hactive, eq_comm]
  · simp [hrole, eq_comm]

theorem mapM_promote_eq_ok {role : KeyRole} {keyId : Bytes} {generation : U64}
    {roots after : List TrustRoot} :
    roots.mapM (promote curve role keyId generation) = .ok after ↔
      after = roots.map (promoted role keyId) ∧
        ∀ root ∈ roots, ¬ Outranks role keyId generation root := by
  induction roots generalizing after with
  | nil =>
      rw [List.mapM_nil]
      constructor
      · rintro ⟨⟩
        exact ⟨rfl, fun _ hroot => absurd hroot List.not_mem_nil⟩
      · rintro ⟨rfl, -⟩
        rfl
  | cons root roots ih =>
      rw [List.mapM_cons, List.map_cons, List.forall_mem_cons]
      cases hfirst : promote curve role keyId generation root with
      | error error =>
          refine iff_of_false (by rintro ⟨⟩) fun hall => ?_
          rw [promote_eq_ok.mpr ⟨rfl, hall.2.1⟩] at hfirst
          cases hfirst
      | ok first =>
          obtain ⟨rfl, houtranks⟩ := promote_eq_ok.mp hfirst
          cases hrest : roots.mapM (promote curve role keyId generation) with
          | error error =>
              refine iff_of_false (by rintro ⟨⟩) fun hall => ?_
              rw [ih.mpr ⟨rfl, hall.2.2⟩] at hrest
              cases hrest
          | ok rest =>
              obtain ⟨rfl, hothers⟩ := ih.mp hrest
              constructor
              · rintro ⟨⟩
                exact ⟨rfl, houtranks, hothers⟩
              · rintro ⟨rfl, -⟩
                rfl

theorem expand_eq_ok {newRoot : TrustRoot} :
    expand curve register newRoot = .ok next ↔
      register.find newRoot.role newRoot.keyId = none ∧
      highestIn register newRoot.role < newRoot.generation ∧
      next = { register with roots := register.roots ++ [staged newRoot] } ∧
      next.validate curve = .ok () := by
  unfold expand
  cases hfind : register.find newRoot.role newRoot.keyId with
  | some root => simp
  | none =>
      by_cases hgeneration : newRoot.generation ≤ highestIn register newRoot.role
      · simp [hgeneration, not_lt.mpr hgeneration]
      · simp [hgeneration, not_le.mp hgeneration, withRoots_eq_ok, staged]

theorem activate_eq_ok {role : KeyRole} {keyId : Bytes} :
    activate curve register role keyId = .ok next ↔
      ∃ candidate, register.find role keyId = some candidate ∧ candidate.status = .pending ∧
        candidate.dualControlSatisfied = true ∧
        (∀ root ∈ register.roots, ¬ Outranks role keyId candidate.generation root) ∧
        next = { register with roots := register.roots.map (promoted role keyId) } ∧
        next.validate curve = .ok () := by
  unfold activate
  cases hfind : register.find role keyId with
  | none => simp
  | some candidate =>
      by_cases hstatus : candidate.status = .pending
      · by_cases hdual : candidate.dualControlSatisfied = true
        · simp only [hstatus, hdual, ne_eq, not_true_eq_false, if_false, Option.some.injEq,
            exists_eq_left', true_and]
          cases hroots : register.roots.mapM (promote curve role keyId candidate.generation) with
          | error error =>
              refine iff_of_false (by rintro ⟨⟩) fun hall => ?_
              rw [mapM_promote_eq_ok.mpr ⟨rfl, hall.1⟩] at hroots
              cases hroots
          | ok roots =>
              obtain ⟨rfl, houtranks⟩ := mapM_promote_eq_ok.mp hroots
              exact withRoots_eq_ok.trans (and_iff_right houtranks).symm
        · simp [hstatus, hdual]
      · simp [hstatus]

theorem retire_eq_ok {role : KeyRole} {keyId : Bytes} :
    retire curve register role keyId = .ok next ↔
      ∃ candidate, register.find role keyId = some candidate ∧ candidate.status = .active ∧
        next = { register with roots := register.roots.map (restate role keyId fun root =>
          { root with status := .retired }) } ∧
        next.validate curve = .ok () := by
  unfold retire
  cases hfind : register.find role keyId with
  | none => simp
  | some candidate =>
      by_cases hstatus : candidate.status = .active
      · simp [hstatus, withRoots_eq_ok]
      · simp [hstatus]

theorem revoke_eq_ok {role : KeyRole} {keyId reason : Bytes} {allowSeal : Bool} :
    revoke curve register role keyId reason allowSeal = .ok next ↔
      trim reason ≠ [] ∧
      ∃ candidate, register.find role keyId = some candidate ∧ candidate.status ≠ .revoked ∧
        candidate.dualControlSatisfied = true ∧
        (survivors register role keyId = [] → allowSeal = true) ∧
        next = { register with roots := register.roots.map (restate role keyId fun root =>
          { root with status := .revoked, revocationReason := some reason }) } ∧
        next.validate curve = .ok () := by
  unfold revoke
  by_cases hreason : trim reason = []
  · simp [hreason]
  · cases hfind : register.find role keyId with
    | none => simp [hreason]
    | some candidate =>
        by_cases hstatus : candidate.status = .revoked
        · simp [hreason, hstatus]
        · by_cases hdual : candidate.dualControlSatisfied = true
          · by_cases hseal : survivors register role keyId = [] → allowSeal = true
            · have hgo : ¬ (survivors register role keyId = [] ∧ ¬ allowSeal = true) :=
                fun hstop => hstop.2 (hseal hstop.1)
              simp only [hreason, hstatus, hdual, hgo, if_false, not_true_eq_false,
                Option.some.injEq, exists_eq_left', ne_eq, not_false_eq_true, true_and,
                withRoots_eq_ok]
              exact (and_iff_right hseal).symm
            · have hstop := Classical.not_imp.mp hseal
              simp [hreason, hstatus, hdual, hstop]
          · simp [hreason, hstatus, hdual]

end Keys

end LoomDB
