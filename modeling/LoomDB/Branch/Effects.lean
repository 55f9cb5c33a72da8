import LoomDB.Branch.Steps

/-!
# What a call does to the commits and the refs

Every call is a sequence of a few effects: a commit put on a branch, a new
branch at the head of another, a head moved by hand, a merge edge. What they keep
is kept by every run.
-/

namespace LoomDB

open Std (ExtTreeMap ExtTreeSet)
open Relation (ReflTransGen)

namespace Engine

variable {σ ρ α β : Type} {engine : Engine σ ρ}

/-- The heads a call may move by hand. -/
abbrev Rewinds := BranchId → CommitId → Prop

/-- One thing a call does to the commits and the refs. -/
inductive Effect (lawful : engine.pager.Lawful) (rewinds : Rewinds) (before after : Loom σ ρ) :
    Prop
  /-- Nothing, or a commit that failed. -/
  | aside (same : lawful.Same before.pager after.pager) (refs : after.refs = before.refs)
      (refEdits : after.refEdits = before.refEdits) (store : after.store = before.store)
  /-- A transaction on the head of a branch, put on the branch. -/
  | wrote {α : Type} {branch : BranchId} {base commit : CommitId} {program : RecordProgram α}
      {result : α} {map map' : RecordMap} {persisted : Except LoomError Unit}
      (head : before.refs.branches[branch]? = some base)
      (transacted : Transacted lawful program base result commit before.pager after.pager map map')
      (filed : Filed engine (advanceEdits before.refs branch base commit) persisted before after)
  /-- A new branch at the head of another. -/
  | branched {source name : BranchId} {commit : CommitId} {persisted : Except LoomError Unit}
      (pager : after.pager = before.pager) (head : before.refs.branches[source]? = some commit)
      (free : before.refs.branches[name]? = none)
      (filed : Filed engine [.createBranch name commit] persisted before after)
  /-- A head moved by hand. -/
  | rewound {branch : BranchId} {commit : CommitId} {persisted : Except LoomError Unit}
      (pager : after.pager = before.pager) (head : before.refs.branches[branch]?.isSome)
      (allowed : rewinds branch commit)
      (filed : Filed engine [.setHead branch commit] persisted before after)
  /-- The source head of a merge, added to the parents of its commit. -/
  | joined {base commit second : CommitId} {persisted : Except LoomError Unit}
      (pager : after.pager = before.pager)
      (filed : Filed engine (joinEdits before.refs commit base second) persisted before after)

theorem Effect.extended {lawful : engine.pager.Lawful} {rewinds : Rewinds}
    {before after : Loom σ ρ} (heffect : Effect lawful rewinds before after) :
    lawful.Extends before.pager after.pager := by
  cases heffect with
  | aside hsame => exact hsame.extended
  | wrote _ htransacted => exact htransacted.extended
  | branched hpager => exact hpager ▸ .refl _
  | rewound hpager => exact hpager ▸ .refl _
  | joined hpager => exact hpager ▸ .refl _

variable {lawful : engine.pager.Lawful} {rewinds : Rewinds} {loom loom' : Loom σ ρ}

theorem extended_of_path (hpath : ReflTransGen (Effect lawful rewinds) loom loom') :
    lawful.Extends loom.pager loom'.pager := by
  induction hpath with
  | refl => exact .refl _
  | tail _ heffect ih => exact ih.trans heffect.extended

theorem Unmoved.path (hunmoved : Unmoved lawful loom loom') :
    ReflTransGen (Effect lawful rewinds) loom loom' :=
  .single (.aside hunmoved.pager hunmoved.refs hunmoved.refEdits hunmoved.store)

theorem Advanced.path {program : RecordProgram α} {branch : BranchId} {base commit : CommitId}
    {result : α} {map map' : RecordMap} {persisted : Except LoomError Unit}
    (hadvanced : Advanced lawful program branch base commit result map map' persisted loom loom') :
    ReflTransGen (Effect lawful rewinds) loom loom' :=
  .single (.wrote hadvanced.head hadvanced.transacted hadvanced.filed)

/-- Only a rewind moves a head by hand. -/
def rewindsOf : Call → Rewinds
  | .rewind _ branch commit => fun other target => other = branch ∧ target = commit
  | _ => fun _ _ => False

/-- Every call is a sequence of effects. -/
theorem Step.path {call : Call} {outcome : Except LoomError Answer}
    (hstep : Step lawful loom call outcome loom') :
    ReflTransGen (Effect lawful (rewindsOf call)) loom loom' := by
  cases hstep with
  | asked _ hstill => exact hstill.unmoved.path
  | refused hunmoved => exact hunmoved.path
  | opened _ hhead hfree hpager hfiled => exact .single (.branched hpager hhead hfree hfiled)
  | branched _ hhead hfree hpager hfiled => exact .single (.branched hpager hhead hfree hfiled)
  | rewound _ hhead hpager hfiled =>
      exact .single (.rewound hpager (hhead ▸ rfl) ⟨rfl, rfl⟩ hfiled)
  | wrote _ hadvanced => exact hadvanced.path
  | forgot _ hadvanced => exact hadvanced.path
  | kept _ hadvanced => exact hadvanced.path
  | stopped hstill _ _ => exact hstill.unmoved.path
  | halted _ hadvanced => exact hadvanced.path
  | merged _ hadvanced hpager hfiled =>
      exact hadvanced.path.tail (.joined hpager hfiled)

theorem call_path (hsound : lawful.Sound loom.pager) (call : Call) :
    ReflTransGen (Effect lawful (rewindsOf call)) loom (engine.after call loom) :=
  (call_step hsound rfl).path

theorem call_extended (hsound : lawful.Sound loom.pager) (call : Call) :
    lawful.Extends loom.pager (engine.after call loom).pager :=
  extended_of_path (call_path hsound call)

end Engine

end LoomDB
