import Mathlib.Logic.Function.Basic
import LoomDB.Foundations.Ancestry

/-!
# Versions kept whole

A store of versions in its plainest form: every commit keeps all of its map and the commits
it was made from, and a branch is a name for a commit. A version is made on top of a
branch, and what a commit holds is never changed.
-/

namespace LoomDB

open Function (update update_self update_of_ne)

/-- The branches, what every commit holds, and what it was made from. -/
structure Versions (β κ δ ν : Type) where
  heads : β → Option κ
  contents : κ → Option (δ → Option ν)
  parents : κ → List κ

namespace Versions

variable {β κ δ ν : Type}

/-- What the head of a branch holds. -/
def Shows (versions : Versions β κ δ ν) (branch : β) (held : δ → Option ν) : Prop :=
  ∃ commit, versions.heads branch = some commit ∧ versions.contents commit = some held

/-- What was held before is held after. -/
def Kept (before after : Versions β κ δ ν) : Prop :=
  ∀ commit held, before.contents commit = some held → after.contents commit = some held

theorem Kept.refl (versions : Versions β κ δ ν) : Kept versions versions :=
  fun _ _ => id

theorem Kept.trans {before middle after : Versions β κ δ ν} (hfirst : Kept before middle)
    (hsecond : Kept middle after) : Kept before after :=
  fun commit held hheld => hsecond commit held (hfirst commit held hheld)

theorem Shows.unique {versions : Versions β κ δ ν} {branch : β} {held held' : δ → Option ν}
    (hshown : versions.Shows branch held)
    (hshown' : versions.Shows branch held') : held' = held := by
  obtain ⟨head, hhead, hheld⟩ := hshown
  obtain ⟨head', hhead', hheld'⟩ := hshown'
  obtain rfl := Option.some.inj (hhead.symm.trans hhead')
  exact Option.some.inj (hheld'.symm.trans hheld)

section Branches

variable [DecidableEq β]

/-- A branch set to a commit. -/
def point (versions : Versions β κ δ ν) (branch : β) (commit : κ) : Versions β κ δ ν :=
  { versions with heads := update versions.heads branch (some commit) }

theorem kept_point (versions : Versions β κ δ ν) (branch : β) (commit : κ) :
    Kept versions (versions.point branch commit) :=
  fun _ _ => id

theorem shows_point {versions : Versions β κ δ ν} {branch other : β} {commit : κ}
    (hother : other ≠ branch) (held : δ → Option ν) :
    (versions.point branch commit).Shows other held ↔ versions.Shows other held := by
  have hheads : (versions.point branch commit).heads other = versions.heads other :=
    update_of_ne hother _ _
  rw [Shows, Shows, hheads]
  rfl

variable [DecidableEq κ]

/-- A version made on top of a branch, from its head and from the commits joined to it. A
version that holds what the head holds may be the head itself. -/
structure Grows (branch : β) (joined : List κ) (held held' : δ → Option ν) (base commit : κ)
    (before after : Versions β κ δ ν) : Prop where
  head : before.heads branch = some base
  holds : before.contents base = some held
  heads : after.heads = update before.heads branch (some commit)
  contents : after.contents = update before.contents commit (some held')
  fresh : commit = base ∧ held' = held ∨ before.contents commit = none
  others : ∀ other, other ≠ commit → after.parents other = before.parents other
  parents : ∀ parent ∈ after.parents commit,
    parent ∈ before.parents commit ∨ parent ∈ base :: joined
  joins : ∀ parent ∈ base :: joined, parent ≠ commit → parent ∈ after.parents commit

variable {branch other : β} {joined : List κ} {held held' shown : δ → Option ν} {base commit : κ}
  {before after : Versions β κ δ ν}

theorem Grows.kept (hgrows : Grows branch joined held held' base commit before after) :
    Kept before after := by
  intro earlier found hfound
  rw [hgrows.contents]
  by_cases hearlier : earlier = commit
  · subst hearlier
    rcases hgrows.fresh with ⟨rfl, rfl⟩ | hnone
    · rw [update_self, ← hgrows.holds, hfound]
    · rw [hnone] at hfound
      cases hfound
  · rw [update_of_ne hearlier, hfound]

/-- The branch shows the version. -/
theorem Grows.shows (hgrows : Grows branch joined held held' base commit before after) :
    after.Shows branch held' := by
  refine ⟨commit, ?_, ?_⟩
  · rw [hgrows.heads, update_self]
  · rw [hgrows.contents, update_self]

/-- The other branches show what they did. -/
theorem Grows.shows_of_ne (hgrows : Grows branch joined held held' base commit before after)
    (hother : other ≠ branch) (hshown : before.Shows other shown) : after.Shows other shown := by
  obtain ⟨head, hhead, hheld⟩ := hshown
  exact ⟨head, by rw [hgrows.heads, update_of_ne hother, hhead], hgrows.kept head shown hheld⟩

theorem Grows.was_shown (hgrows : Grows branch joined held held' base commit before after) :
    before.Shows branch held :=
  ⟨base, hgrows.head, hgrows.holds⟩

end Branches

/-! ## Runs -/

/-- The states a list of labelled steps leads to. -/
inductive Steps {S L : Type} (step : S → L → S → Prop) : S → List L → S → Prop
  | nil (state : S) : Steps step state [] state
  | cons {before middle after : S} {label : L} {labels : List L} (first : step before label middle)
      (rest : Steps step middle labels after) : Steps step before (label :: labels) after

/-- What every step keeps, from the start on, every run keeps. -/
theorem Steps.keeps {S L : Type} {step : S → L → S → Prop} {P : S → S → Prop}
    (hrefl : ∀ state, P state state)
    (htrans : ∀ {first second third}, P first second → P second third → P first third)
    {before after : S} {labels : List L}
    (hstep : ∀ {before after : S}, ∀ label ∈ labels, step before label after → P before after)
    (hsteps : Steps step before labels after) : P before after := by
  induction hsteps with
  | nil state => exact hrefl state
  | cons hfirst hrest ih =>
      exact htrans (hstep _ List.mem_cons_self hfirst)
        (ih fun label hlabel => hstep label (List.mem_cons_of_mem _ hlabel))

end Versions

end LoomDB
