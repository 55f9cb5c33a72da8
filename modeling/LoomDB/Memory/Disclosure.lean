import LoomDB.Branch.Capture
import LoomDB.Memory.Retrieval

/-!
# What a session has been shown

A record reaches a session through a read, a read as of a commit, a scan or a
retrieval. Only the first of them adds to the session's read set, so the next write
derives from what the others show only where the read set has it already.
-/

namespace LoomDB

open Std (ExtTreeMap ExtTreeSet)
open FallibleState (Moves)

/-- A call of the engine, or a retrieval. -/
inductive Act where
  | call (call : Call)
  | retrieve (token : CapabilityToken) (branch : BranchId) (query : RetrievalQuery)
      (allow : IndexEntry → Bool)

namespace Engine

variable {σ ρ α : Type} {engine : Engine σ ρ} {lawful : engine.pager.Lawful}
  {loom loom' : Loom σ ρ} {ranking : Ranking}

def afterAct (engine : Engine σ ρ) (ranking : Ranking) (loom : Loom σ ρ) : Act → Loom σ ρ
  | .call call => engine.after call loom
  | .retrieve token branch query allow =>
      (engine.retrieveFiltered ranking token branch query allow loom).2

/-- The act made a write under a token of the session. -/
def ActWritesFor (engine : Engine σ ρ) (loom : Loom σ ρ) : Act → SessionId → Prop
  | .call call, session => WritesFor engine loom call session
  | .retrieve .., _ => False

/-- The origins of the records that an act shows to a session. -/
def shows (lawful : engine.pager.Lawful) (ranking : Ranking) (loom : Loom σ ρ) :
    Act → SessionId → Origins
  | .call (.read token branch key), session => fun origin =>
      (∃ answer, (engine.call (.read token branch key) loom).1 = .ok answer) ∧
        reads lawful loom (.read token branch key) session origin
  | .call (.readAt token branch commit key), session => fun origin =>
      session = token.claims.session ∧
        (∃ answer, (engine.call (.readAt token branch commit key) loom).1 = .ok answer) ∧
        ∃ (map : RecordMap) (record : Record), lawful.Stores loom.pager commit map ∧
          map[key]? = some record ∧ originsAt map key record origin
  | .call (.scan token branch), session => fun origin =>
      session = token.claims.session ∧
        (∃ answer, (engine.call (.scan token branch) loom).1 = .ok answer) ∧
        ∃ (map : RecordMap) (key : Key) (record : Record), Shows lawful loom branch map ∧
          isCaller key = true ∧ map[key]? = some record ∧ originsAt map key record origin
  | .retrieve token branch query allow, session => fun origin =>
      session = token.claims.session ∧
        ∃ context, (engine.retrieveFiltered ranking token branch query allow loom).1 =
          .ok context ∧ ∃ item ∈ context.items, ∃ (map : RecordMap) (record : Record),
            Shows lawful loom branch map ∧ map[item.key]? = some record ∧
              originsAt map item.key record origin
  | _, _ => fun _ => False

/-- What each session has been shown since its last write. -/
def shownAfter (lawful : engine.pager.Lawful) (ranking : Ranking) (loom : Loom σ ρ)
    (shown : SessionId → Origins) (act : Act) : SessionId → Origins :=
  fun session origin => ¬ActWritesFor engine loom act session ∧
    (shown session origin ∨ shows lawful ranking loom act session origin)

/-- A write derives from everything its token's session has been shown. -/
def DerivesShown (lawful : engine.pager.Lawful) (shown : SessionId → Origins) (loom : Loom σ ρ) :
    Act → Prop
  | .call call => DerivesOwn lawful { least := shown, most := fun _ _ => True } loom call
  | .retrieve .. => True

def AllDeriveShown (lawful : engine.pager.Lawful) (ranking : Ranking) :
    (SessionId → Origins) → Loom σ ρ → List Act → Prop
  | _, _, [] => True
  | shown, loom, act :: acts => DerivesShown lawful shown loom act ∧
      AllDeriveShown lawful ranking (shownAfter lawful ranking loom shown act)
        (engine.afterAct ranking loom act) acts

/-- A call keeps to its session; and what an act other than a read shows, the
session has read already. -/
def ShowsRead (lawful : engine.pager.Lawful) (ranking : Ranking) (loom : Loom σ ρ) (act : Act) :
    Prop :=
  (∀ call, act = .call call → KeepsToSession lawful loom call) ∧
    ((∀ token branch key, act ≠ .call (.read token branch key)) →
      ∀ session, shows lawful ranking loom act session ≤ (readSet session loom).origins)

def AllShowRead (lawful : engine.pager.Lawful) (ranking : Ranking) : Loom σ ρ → List Act → Prop
  | _, [] => True
  | loom, act :: acts => ShowsRead lawful ranking loom act ∧
      AllShowRead lawful ranking (engine.afterAct ranking loom act) acts

/-! ## One act -/

/-- A retrieval only looks at the clock. -/
theorem after_retrieve (token : CapabilityToken) (branch : BranchId) (query : RetrievalQuery)
    (allow : IndexEntry → Bool) :
    (engine.retrieveFiltered ranking token branch query allow loom).2 = ticked loom := by
  have hentries : (engine.entriesOn token branch loom).2 = ticked loom := by
    unfold entriesOn
    rw [FallibleState.bind_eq, authorize_eq]
    cases admits engine loom token branch with
    | error error => rfl
    | ok done =>
        have hmoves : Moves Eq (do
            let commit ← head branch
            let records ← engine.reading commit KeyValue.entries
            FallibleState.lift (indexEntries records) : LoomM σ ρ (List IndexEntry)) :=
          .bind (head_moves branch) fun _ => .bind (reading_moves _ _) fun _ => .lift _
        exact (hmoves (ticked loom)).symm
  unfold retrieveFiltered
  rw [FallibleState.snd_bind_pure, hentries]

theorem after_readAt (token : CapabilityToken) (branch : BranchId) (commit : CommitId)
    (key : Key) : engine.after (.readAt token branch commit key) loom = ticked loom := by
  have hafter : engine.after (.readAt token branch commit key) loom =
      (engine.readAt token branch commit key loom).2 := FallibleState.snd_map _ _ _
  rw [hafter]
  unfold readAt
  rw [FallibleState.bind_eq, authorize_eq]
  cases admits engine loom token branch with
  | error error => rfl
  | ok done => exact (reading_moves commit (KeyValue.ask key) (ticked loom)).symm

theorem Reachable.afterAct (hreachable : engine.Reachable lawful loom) (act : Act) :
    engine.Reachable lawful (engine.afterAct ranking loom act) := by
  cases act with
  | call call => exact hreachable.called call
  | retrieve token branch query allow =>
      change engine.Reachable lawful (engine.retrieveFiltered ranking token branch query allow
        loom).2
      rw [after_retrieve, ← after_readAt token branch 0 []]
      exact hreachable.called _

theorem derivesShown_of_le {shown : SessionId → Origins} {act : Act}
    (hsound : lawful.Sound loom.pager)
    (hshown : ∀ session, shown session ≤ (readSet session loom).origins)
    (hread : ShowsRead lawful ranking loom act) : DerivesShown lawful shown loom act := by
  cases act with
  | call call =>
      exact derivesOwn_of_captures hsound (fun session => ⟨hshown session, fun _ _ => trivial⟩)
        (hread.1 call rfl)
  | retrieve token branch query allow => trivial

theorem shownAfter_le {shown : SessionId → Origins} {act : Act}
    (hsound : lawful.Sound loom.pager)
    (hshown : ∀ session, shown session ≤ (readSet session loom).origins)
    (hread : ShowsRead lawful ranking loom act) (session : SessionId) :
    shownAfter lawful ranking loom shown act session ≤
      (readSet session (engine.afterAct ranking loom act)).origins := by
  rintro origin ⟨hwrites, horigin⟩
  cases act with
  | retrieve token branch query allow =>
      have hafter : engine.afterAct ranking loom (.retrieve token branch query allow) =
          ticked loom := after_retrieve token branch query allow
      have hsame : SameReads loom (engine.afterAct ranking loom (.retrieve token branch query
          allow)) := by
        rw [hafter]
        rfl
      rw [hsame.readSet]
      exact horigin.elim (hshown session origin) (hread.2 nofun session origin)
  | call call =>
      -- The read set itself is the ledger to keep.
      have hcaptures : Captures ⟨fun session => (readSet session loom).origins,
          fun _ _ => True⟩ loom := fun session => ⟨le_rfl, fun _ _ => trivial⟩
      have hkept := (captures_after hsound hcaptures (hread.1 call rfl) session).1
      refine hkept origin ⟨hwrites, ?_⟩
      rcases horigin with hold | hnew
      · exact Or.inl (hshown session origin hold)
      · by_cases hcall : ∃ token branch key, call = .read token branch key
        · obtain ⟨token, branch, key, rfl⟩ := hcall
          exact Or.inr hnew
        · refine Or.inl (hread.2 (fun token branch key heq => hcall ⟨token, branch, key, ?_⟩)
            session origin hnew)
          exact Act.call.inj heq

/-! ## Runs -/

theorem allDeriveShown_of_le {shown : SessionId → Origins} {acts : List Act}
    (hreachable : engine.Reachable lawful loom)
    (hshown : ∀ session, shown session ≤ (readSet session loom).origins)
    (hread : AllShowRead lawful ranking loom acts) :
    AllDeriveShown lawful ranking shown loom acts := by
  induction acts generalizing shown loom with
  | nil => trivial
  | cons act acts ih =>
      exact ⟨derivesShown_of_le hreachable.sound hshown hread.1, ih (hreachable.afterAct act)
        (shownAfter_le hreachable.sound hshown hread.1) hread.2⟩

/-- In every run in which what is shown by other ways than a read was read before,
every write derives from all that its token's session was shown since its last
write. -/
theorem allDeriveShown_of_allShowRead (hreachable : engine.Reachable lawful loom)
    {acts : List Act} (hread : AllShowRead lawful ranking loom acts) :
    AllDeriveShown lawful ranking (fun _ _ => False) loom acts :=
  allDeriveShown_of_le hreachable (fun _ _ => False.elim) hread

/-- Every score is zero, and the order is the order of the keys. -/
def plainRanking : Ranking where
  scoreCandidate _ _ := 0
  sort scored := scored
  perm _ := .refl _

/-- A call that keeps to its session and is no read as of a commit and no scan. -/
theorem showsRead_call {call : Call} (hkeeps : KeepsToSession lawful loom call)
    (hreadAt : ∀ token branch commit key, call ≠ .readAt token branch commit key)
    (hscan : ∀ token branch, call ≠ .scan token branch) :
    ShowsRead lawful ranking loom (.call call) := by
  refine ⟨fun other heq => Act.call.inj heq ▸ hkeeps, fun hread session origin hshows => ?_⟩
  cases call with
  | read token branch key => exact absurd rfl (hread token branch key)
  | readAt token branch commit key => exact absurd rfl (hreadAt token branch commit key)
  | scan token branch => exact absurd rfl (hscan token branch)
  | _ => exact hshows.elim

/-- The session reads its page, and then reads it again as of the commit that wrote it. -/
theorem allDeriveShown_of_allShowRead_again :
    (memoryEngine.readAt (memoryToken [ascii "s"]) (ascii "s") 1 (ascii "k")
        (memoryEngine.afterAll readBack memoryLoom)).1 = .ok (some (.observation webPage)) ∧
      AllDeriveShown memoryLawful plainRanking (fun _ _ => False) memoryLoom
        ((readBack ++ [.readAt (memoryToken [ascii "s"]) (ascii "s") 1 (ascii "k"),
          envelopeWrite (ascii "s")]).map .call) := by
  refine ⟨by decide +kernel,
    allDeriveShown_of_allShowRead memoryLoom_reachable ⟨?_, ?_, ?_, ?_, ?_, trivial⟩⟩
  · exact showsRead_call (keepsToSession_of_none rfl nofun) nofun nofun
  · exact showsRead_call (keepsToSession_write rfl (by decide +kernel)) nofun nofun
  · exact showsRead_call (keepsToSession_read (by decide)) nofun nofun
  · refine ⟨fun call heq => ?_, fun _ session origin hshows => ?_⟩
    · obtain rfl := Act.call.inj heq
      exact keepsToSession_of_none rfl nofun
    · -- the commit is the head that was read, and the read has left its origins in the read set
      obtain ⟨rfl, -, map, record, hlater, hrecord, horigin⟩ := hshows
      have hstill : Still pageLoom (memoryEngine.after (.read (memoryToken [ascii "s"]) (ascii "s")
          (ascii "k")) pageLoom) := asks_still rfl pageLoom
      have hstores : memoryLawful.Stores pageLoom.pager 1 map := by
        rw [← hstill.pager]
        exact hlater
      have hread : reads memoryLawful pageLoom (.read (memoryToken [ascii "s"]) (ascii "s")
          (ascii "k")) (ascii "s") origin :=
        ⟨rfl, by decide +kernel, map, record, ⟨1, pageLoom_head, hstores⟩, hrecord, horigin⟩
      have hcaptures : Captures ⟨fun session => (readSet session pageLoom).origins,
          fun _ _ => True⟩ pageLoom := fun session => ⟨le_rfl, fun _ _ => trivial⟩
      exact (captures_after pageLoom_reachable.sound hcaptures (keepsToSession_read (by decide))
        (ascii "s")).1 origin ⟨not_writesFor_of_none rfl _, Or.inr ⟨pageLoom_returns, hread⟩⟩
  · exact showsRead_call (keepsToSession_write rfl (by decide +kernel)) nofun nofun

/-- What a read as of a commit shows is in no read set: the next write has no
source. -/
theorem readAt_not_captured :
    ¬AllDeriveShown memoryLawful plainRanking (fun _ _ => False) memoryLoom
      ((readBack.take 2 ++ [.readAt (memoryToken [ascii "s"]) (ascii "s") 1 (ascii "k"),
        envelopeWrite (ascii "s")]).map .call) := by
  rintro ⟨-, -, -, hown, -⟩
  obtain ⟨map, hstores, hrecord⟩ := pageLoom_stores
  have hanswered : (memoryEngine.readAt (memoryToken [ascii "s"]) (ascii "s") 1 (ascii "k")
      pageLoom).1 = .ok (some (.observation webPage)) := by decide +kernel
  have hshows : shows memoryLawful plainRanking pageLoom (.call (.readAt (memoryToken [ascii "s"])
      (ascii "s") 1 (ascii "k"))) (ascii "s") (.source webPage.source) := by
    refine ⟨rfl, ?_, map, _, hstores, hrecord, webPage, rfl, rfl⟩
    rw [Engine.call, FallibleState.map_eq, hanswered]
    exact ⟨_, rfl⟩
  refine not_derivesOwn_envelopeWrite
    (show (memoryEngine.writeIndexedMany _ _ _ _ _ _).1 = .ok 2 by decide +kernel)
    (by decide +kernel) ?_ hown
  exact ⟨not_writesFor_of_none rfl _, Or.inr hshows⟩

end Engine

end LoomDB
