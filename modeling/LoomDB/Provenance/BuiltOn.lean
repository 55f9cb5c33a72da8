import LoomDB.Provenance.Descent
import LoomDB.Provenance.Listing

/-!
# What is built on a claim that was marked

A mark is a write like any other: it makes a new latest node for each key it marks, built on
what the marking session has read and on what its envelope cites, not on the node whose claim
it marks. Where either of them rests on the source, so does the new node, and with it whatever
a session that read the key writes afterwards.
-/

namespace LoomDB

open Std (ExtTreeMap ExtTreeSet)
open FallibleState (Moves)

namespace Engine

variable {σ ρ : Type} {engine : Engine σ ρ} {lawful : engine.pager.Lawful} {loom loom' : Loom σ ρ}
  {source : SourceRef} {branch place : BranchId} {key : Key} {id : NodeId}

/-! ## What a branch shows of a source -/

/-- The branch shows the map, and its counter is past all that is stored for it. -/
structure Standing (lawful : engine.pager.Lawful) (loom : Loom σ ρ) (source : SourceRef)
    (branch : BranchId) (map : RecordMap) : Prop where
  shows : Shows lawful loom branch map
  ahead : Ahead source branch map

/-- The node that last wrote the key rests on the source. -/
def LatestRests (lawful : engine.pager.Lawful) (loom : Loom σ ρ) (source : SourceRef)
    (branch : BranchId) (key : Key) : Prop :=
  ∃ map id, Standing lawful loom source branch map ∧ LatestNode map key id ∧
    RestsUpon map source id

/-- The session has read of a node that rests on the source. -/
def HasSeen (lawful : engine.pager.Lawful) (loom : Loom σ ρ) (source : SourceRef)
    (branch : BranchId) (session : SessionId) : Prop :=
  ∃ map id, Standing lawful loom source branch map ∧ id ∈ (readSet session loom).nodes ∧
    RestsUpon map source id

/-- A node of the key, of that name, rests on the source. -/
def NodeRests (lawful : engine.pager.Lawful) (loom : Loom σ ρ) (source : SourceRef)
    (branch : BranchId) (key : Key) (id : NodeId) : Prop :=
  ∃ map node, Standing lawful loom source branch map ∧ HasNode map node ∧ node.key = key ∧
    node.id = id ∧ RestsUpon map source id

/-! ## Reads and writes -/

/-- The call takes nothing over and takes nothing back, and writes the caller's own keys. -/
def ReadsOrWrites : Call → Prop
  | .write _ _ records _ _ => ∀ entry ∈ records, isCaller entry.1 = true
  | .rewind .. => False
  | .invalidate .. => False
  | .merge .. => False
  | .maintain .. => False
  | _ => True

def WritesKey (branch : BranchId) (key : Key) : Call → Prop
  | .write _ other records _ _ => other = branch ∧ ∃ record, (key, record) ∈ records
  | _ => False

def WritesAs (session : SessionId) : Call → Prop
  | .write _ _ _ _ envelope => envelope.session = session
  | _ => False

/-- A new branch leaves the others as they were, and shows what it is forked from. -/
theorem shows_of_created {name : BranchId} {commit : CommitId} {persisted : Except LoomError Unit}
    {map : RecordMap} (hfree : loom.refs.branches[name]? = none) (hpager : loom'.pager = loom.pager)
    (hfiled : Filed engine [.createBranch name commit] persisted loom loom')
    (hshows : Shows lawful loom branch map) : Shows lawful loom' branch map := by
  obtain ⟨head, hhead, hstores⟩ := hshows.ofHead
  refine ⟨head, ?_, hpager ▸ hstores⟩
  rw [hfiled.branches]
  change (loom.refs.branches.insert name commit)[branch]? = some head
  rw [OrderedMap.getElem?_insert, if_neg]
  · exact hhead
  · rintro rfl
    rw [hfree] at hhead
    cases hhead

/-- What a branch shows after a call that reads or writes. -/
theorem ReadsOrWrites.standing {call : Call} {map : RecordMap} (hcall : ReadsOrWrites call)
    (hsound : lawful.Sound loom.pager) (hstanding : Standing lawful loom source branch map) :
    ∃ map', Standing lawful (engine.after call loom) source branch map' ∧ Keeps source map map' ∧
      ∀ key, ¬WritesKey branch key call → map'[latestNodeKey key]? = map[latestNodeKey key]? := by
  obtain ⟨hshows, hahead⟩ := hstanding
  have hsame : Shows lawful (engine.after call loom) branch map →
      ∃ map', Standing lawful (engine.after call loom) source branch map' ∧ Keeps source map map' ∧
        ∀ key, ¬WritesKey branch key call → map'[latestNodeKey key]? = map[latestNodeKey key]? :=
    fun hafter => ⟨map, ⟨hafter, hahead⟩, .refl source map, fun _ _ => rfl⟩
  rcases hresult : engine.call call loom with ⟨outcome, last⟩
  rw [after, hresult] at hsame ⊢
  cases call_step hsound hresult with
  | asked _ hstill => exact hsame (hstill.unmoved.shows hshows)
  | refused hunmoved => exact hsame (hunmoved.shows hshows)
  | opened _ _ hfree hpager hfiled => exact hsame (shows_of_created hfree hpager hfiled hshows)
  | branched _ _ hfree hpager hfiled => exact hsame (shows_of_created hfree hpager hfiled hshows)
  | stopped hstill => exact hsame (hstill.unmoved.shows hshows)
  | rewound => exact absurd hcall id
  | forgot => exact absurd hcall id
  | kept => exact absurd hcall id
  | halted => exact absurd hcall id
  | merged => exact absurd hcall id
  | wrote _ hadvanced =>
      rcases hadvanced.shows hshows with ⟨-, hafter⟩ | ⟨rfl, rfl, hafter⟩
      · exact hsame hafter
      · have hran := hadvanced.transacted.ran
        obtain ⟨hahead', hkeeps, -⟩ := writeProgram_finds hahead hcall hran
        refine ⟨_, ⟨hafter, hahead'⟩, hkeeps, fun key hkey => ?_⟩
        exact writeProgram_latest_other hcall hran fun record hmem => hkey ⟨rfl, record, hmem⟩

/-- A fork that succeeds shows what the branch shows. -/
theorem branch_shows {token : CapabilityToken} {name : BranchId} {answer : Answer}
    {map : RecordMap} (hsound : lawful.Sound loom.pager)
    (hforks : (engine.call (.branch token branch name) loom).1 = .ok answer)
    (hshows : Shows lawful loom branch map) :
    Shows lawful (engine.after (.branch token branch name) loom) name map := by
  rcases hresult : engine.call (.branch token branch name) loom with ⟨outcome, last⟩
  rw [hresult] at hforks
  obtain rfl : outcome = .ok answer := hforks
  rw [after, hresult]
  have hstep := call_step hsound hresult
  generalize houtcome : (Except.ok answer : Except LoomError Answer) = outcome at hstep
  cases hstep with
  | asked hasks => cases hasks
  | refused => cases houtcome
  | opened hopens => rcases hopens with hopens | hopens <;> cases hopens
  | branched _ hhead _ hpager hfiled =>
      obtain ⟨head, hhead', hstores⟩ := hshows.ofHead
      obtain rfl := Option.some.inj (hhead.symm.trans hhead')
      refine ⟨_, ?_, hpager ▸ hstores⟩
      rw [hfiled.branches]
      change (loom.refs.branches.insert name _)[name]? = _
      rw [OrderedMap.getElem?_insert, if_pos rfl]

/-- Only a write for a session takes anything from what it has read. -/
theorem ReadsOrWrites.readSet_le {call : Call} (hcall : ReadsOrWrites call) {session : SessionId}
    (hsound : lawful.Sound loom.pager) (hother : ¬WritesAs session call) :
    (readSet session loom).origins ≤ (readSet session (engine.after call loom)).origins := by
  by_cases htouches : touchesReads call = false
  · have hsame : SameReads loom (engine.after call loom) := call_sameReads htouches loom
    rw [hsame.readSet]
  · cases call with
    | read token branch key =>
        rcases hread : engine.read token branch key loom with ⟨outcome, last⟩
        have hafter : engine.after (.read token branch key) loom = last := by
          rw [after, Engine.call, FallibleState.snd_map, hread]
        rw [hafter]
        exact (read_grows hsound hread session).1
    | write token branch records hints envelope =>
        rcases hwrite : engine.writeAll token branch records envelope ∅ hints loom with
          ⟨outcome, last⟩
        have hafter : engine.after (.write token branch records hints envelope) loom = last := by
          rw [after, Engine.call, FallibleState.snd_map]
          exact congrArg Prod.snd hwrite
        rw [hafter]
        rcases write_takes hwrite with ⟨-, hsame⟩ | ⟨-, herase⟩
        · rw [hsame.readSet]
        · have hsession : envelope.session ≠ session := hother
          rw [readSet_of_erase herase, if_neg hsession]
    | merge => exact absurd hcall id
    | _ => exact absurd rfl htouches

/-! ## Runs -/

/-- What the branch has is carried to the place, by calls that read or write and are let through,
and by forks of where it is. -/
inductive Carried (lawful : engine.pager.Lawful) (source : SourceRef)
    (lets : BranchId → Call → Prop) : Loom σ ρ → BranchId → List Call → BranchId → Prop
  | here {loom : Loom σ ρ} {branch : BranchId} : Carried lawful source lets loom branch [] branch
  | called {loom : Loom σ ρ} {branch place : BranchId} {call : Call} {calls : List Call}
      (plain : ReadsOrWrites call) (allowed : lets branch call)
      (rest : Carried lawful source lets (engine.after call loom) branch calls place) :
      Carried lawful source lets loom branch (call :: calls) place
  /-- Nothing is stored yet for the name of the fork. -/
  | forked {loom : Loom σ ρ} {branch place name : BranchId} {token : CapabilityToken}
      {answer : Answer} {calls : List Call}
      (forks : (engine.call (.branch token branch name) loom).1 = .ok answer)
      (ahead : ∀ map, Shows lawful loom branch map → Ahead source name map)
      (rest : Carried lawful source lets (engine.after (.branch token branch name) loom) name calls
        place) :
      Carried lawful source lets loom branch (.branch token branch name :: calls) place

theorem Carried.standing {lets : BranchId → Call → Prop} {calls : List Call} {map : RecordMap}
    (hcarried : Carried lawful source lets loom branch calls place)
    (hreachable : engine.Reachable lawful loom)
    (hstanding : Standing lawful loom source branch map) :
    ∃ map', Standing lawful (engine.afterAll calls loom) source place map' ∧
      Keeps source map map' ∧ ∀ key, (∀ branch call, lets branch call → ¬WritesKey branch key call) →
        map'[latestNodeKey key]? = map[latestNodeKey key]? := by
  induction hcarried generalizing map with
  | here => exact ⟨map, hstanding, .refl source map, fun _ _ => rfl⟩
  | called hplain hallowed _ ih =>
      obtain ⟨middle, hmiddle, hkeeps, hlatest⟩ := hplain.standing hreachable.sound hstanding
      obtain ⟨last, hlast, hkeeps', hlatest'⟩ := ih (hreachable.called _) hmiddle
      refine ⟨last, hlast, hkeeps.trans hkeeps', fun key hkey => ?_⟩
      rw [hlatest' key hkey, hlatest key (hkey _ _ hallowed)]
  | forked hforks hahead _ ih =>
      have hshows := branch_shows hreachable.sound hforks hstanding.shows
      exact ih (hreachable.called _) ⟨hshows, hahead _ hstanding.shows⟩

theorem Carried.latestRests {calls : List Call}
    (hcarried : Carried lawful source (fun place call => ¬WritesKey place key call) loom branch
      calls place) (hreachable : engine.Reachable lawful loom)
    (hrests : LatestRests lawful loom source branch key) :
    LatestRests lawful (engine.afterAll calls loom) source place key := by
  obtain ⟨map, id, hstanding, hlatest, hrests⟩ := hrests
  obtain ⟨map', hstanding', hkeeps, hkept⟩ := hcarried.standing hreachable hstanding
  refine ⟨map', id, hstanding', ?_, hrests.mono hkeeps⟩
  rw [LatestNode, hkept key fun _ _ hlets => hlets]
  exact hlatest

theorem Carried.readSet_le {session : SessionId} {calls : List Call}
    (hcarried : Carried lawful source (fun _ call => ¬WritesAs session call) loom branch calls
      place) (hreachable : engine.Reachable lawful loom) :
    (readSet session loom).origins ≤ (readSet session (engine.afterAll calls loom)).origins := by
  induction hcarried with
  | here => exact le_rfl
  | called hplain hallowed _ ih =>
      exact (hplain.readSet_le hreachable.sound hallowed).trans (ih (hreachable.called _))
  | @forked _ branch _ name token _ _ _ _ _ ih =>
      have hfork : ReadsOrWrites (.branch token branch name) := trivial
      exact (hfork.readSet_le hreachable.sound id).trans (ih (hreachable.called _))

theorem Carried.hasSeen {session : SessionId} {calls : List Call}
    (hcarried : Carried lawful source (fun _ call => ¬WritesAs session call) loom branch calls
      place) (hreachable : engine.Reachable lawful loom)
    (hseen : HasSeen lawful loom source branch session) :
    HasSeen lawful (engine.afterAll calls loom) source place session := by
  obtain ⟨map, id, hstanding, hid, hrests⟩ := hseen
  obtain ⟨map', hstanding', hkeeps, -⟩ := hcarried.standing hreachable hstanding
  exact ⟨map', id, hstanding', hcarried.readSet_le hreachable (.node id) hid, hrests.mono hkeeps⟩

theorem Carried.nodeRests {lets : BranchId → Call → Prop} {calls : List Call}
    (hcarried : Carried lawful source lets loom branch calls place)
    (hreachable : engine.Reachable lawful loom)
    (hrests : NodeRests lawful loom source branch key id) :
    NodeRests lawful (engine.afterAll calls loom) source place key id := by
  obtain ⟨map, node, hstanding, hnode, hkey, hid, hrests⟩ := hrests
  obtain ⟨map', hstanding', hkeeps, -⟩ := hcarried.standing hreachable hstanding
  exact ⟨map', node, hstanding', hnode.mono hkeeps, hkey, hid, hrests.mono hkeeps⟩

/-! ## Reading and writing -/

/-- A session that reads the key has read of its latest node. -/
theorem LatestRests.read {token : CapabilityToken} {record : Record}
    (hrests : LatestRests lawful loom source branch key) (hsound : lawful.Sound loom.pager)
    (hkey : isProvenance key = false)
    (hread : (engine.call (.read token branch key) loom).1 = .ok (.record (some record))) :
    HasSeen lawful (engine.after (.read token branch key) loom) source branch
      token.claims.session := by
  obtain ⟨map, id, hstanding, hlatest, hrests⟩ := hrests
  have hreads : ReadsOrWrites (.read token branch key) := trivial
  obtain ⟨map', hstanding', hkeeps, -⟩ := hreads.standing hsound hstanding
  refine ⟨map', id, hstanding', ?_, hrests.mono hkeeps⟩
  rcases hresult : engine.read token branch key loom with ⟨outcome, last⟩
  rw [Engine.call, FallibleState.map_eq, hresult] at hread
  rw [after, Engine.call, FallibleState.snd_map, hresult]
  cases outcome with
  | error error => cases hread
  | ok found =>
      obtain rfl := Answer.record.inj (Except.ok.inj hread)
      obtain ⟨hadmits, shown, hshows, hfound, -⟩ := read_spec hsound hresult
      obtain rfl := hstanding.shows.unique hshows
      have hcaptures := read_captures hsound hresult (by simp [hkey]) token.claims.session
      exact hcaptures (.node id) ⟨rfl, hadmits, map, record, hshows, hfound.symm, hlatest⟩

/-- What a write is built on: something read that rests on the source, or the source itself. -/
def Informed (map : RecordMap) (source : SourceRef) (captured : ReadSet)
    (envelope : WriteEnvelope) : Prop :=
  source ∈ captured.sources ∨ source ∈ envelope.derivedFrom ∨
    ∃ id ∈ captured.nodes, RestsUpon map source id

theorem Informed.restsUpon {platform : Platform} {commit : CommitId}
    {records : List (Key × Record)} {envelope : WriteEnvelope} {captured : ReadSet}
    {extraParents : ExtTreeMap Key (List NodeId)} {map map' : RecordMap} {node : DerivationNode}
    (hinformed : Informed map source captured envelope)
    (hnode : node ∈ derivationNodes platform branch commit records envelope captured extraParents)
    (hkeeps : Keeps source map map') (hfinds : Finds source map' node) :
    RestsUpon map' source node.id := by
  obtain ⟨hleast, -⟩ := origins_derivationNodes hnode
  rcases hinformed with hsource | hcited | ⟨id, hid, hrests⟩
  · exact .of_seed (hfinds.2 (hleast (.source source) hsource))
  · refine .of_seed (hfinds.2 ?_)
    obtain ⟨⟨other, record⟩, -, rfl⟩ := List.mem_map.mp hnode
    refine mem_sorted.mpr ?_
    cases record with
    | observation obs =>
        exact List.mem_append_left _ (List.mem_append_right _ hcited)
    | claim claim => exact List.mem_append_right _ hcited
    | value value => exact List.mem_append_right _ hcited
  · exact (hrests.mono hkeeps).child hfinds.1 (hleast (.node id) hid)

/-- A write that is built on the source makes latest nodes that rest on it. -/
theorem Advanced.latestRests {records : List (Key × Record)} {envelope : WriteEnvelope}
    {captured : ReadSet} {extraParents : ExtTreeMap Key (List NodeId)}
    {hints : ExtTreeMap Key IndexHint} {base commit : CommitId} {map map' shown : RecordMap}
    {persisted : Except LoomError Unit} {record : Record}
    (hadvanced : Advanced lawful (writeProgram engine.platform branch base records envelope captured
      extraParents hints) branch base commit () map map' persisted loom loom')
    (hstanding : Standing lawful loom source branch shown)
    (hcaller : ∀ entry ∈ records, isCaller entry.1 = true)
    (hinformed : Informed shown source captured envelope) (hmem : (key, record) ∈ records) :
    ∃ id, LatestNode map' key id ∧ Standing lawful loom' source branch map' ∧
      NodeRests lawful loom' source branch key id := by
  rcases hadvanced.shows hstanding.shows with ⟨hother, -⟩ | ⟨-, rfl, hshows⟩
  · exact absurd rfl hother
  have hran := hadvanced.transacted.ran
  obtain ⟨hahead, hkeeps, -⟩ := writeProgram_finds hstanding.ahead hcaller hran
  obtain ⟨node, hnode, rfl, hfinds, hlatest⟩ :=
    writeProgram_latest hstanding.ahead hcaller hran hmem
  have hstanding' : Standing lawful loom' source branch map' := ⟨hshows, hahead⟩
  exact ⟨node.id, hlatest, hstanding', map', node, hstanding', hfinds.1, rfl, rfl,
    hinformed.restsUpon hnode hkeeps hfinds⟩

/-- What a session writes that has read of such a node rests on the source. -/
theorem HasSeen.write {token : CapabilityToken} {records : List (Key × Record)}
    {hints : ExtTreeMap Key IndexHint} {envelope : WriteEnvelope} {answer : Answer}
    {record : Record} {map : RecordMap} (hsound : lawful.Sound loom.pager)
    (hseen : HasSeen lawful loom source branch envelope.session)
    (hcaller : ∀ entry ∈ records, isCaller entry.1 = true)
    (hwrite : (engine.call (.write token branch records hints envelope) loom).1 = .ok answer)
    (hmem : (key, record) ∈ records)
    (hshows : Shows lawful (engine.after (.write token branch records hints envelope) loom) branch
      map) (hlatest : LatestNode map key id) :
    NodeRests lawful (engine.after (.write token branch records hints envelope) loom) source branch
      key id := by
  obtain ⟨shown, seen, hstanding, hid, hrests⟩ := hseen
  rcases hresult : engine.call (.write token branch records hints envelope) loom with ⟨outcome, last⟩
  rw [after, hresult] at hshows ⊢
  rw [hresult] at hwrite
  obtain rfl : outcome = .ok answer := hwrite
  have hstep := call_step hsound hresult
  generalize houtcome : (Except.ok answer : Except LoomError Answer) = outcome at hstep
  cases hstep with
  | asked hasks => cases hasks
  | refused => cases houtcome
  | opened hopens => rcases hopens with hopens | hopens <;> cases hopens
  | wrote _ hadvanced =>
      obtain ⟨id', hlatest', hstanding', hrests'⟩ := hadvanced.latestRests hstanding hcaller
        (Or.inr (Or.inr ⟨seen, hid, hrests⟩)) hmem
      obtain rfl := hshows.unique hstanding'.shows
      obtain rfl := Option.some.inj (hlatest.symm.trans hlatest')
      exact hrests'

/-! ## Marking -/

/-- Where the marking write is built on the source, so are the marked keys. -/
theorem markStale_latestRests {token : CapabilityToken} {envelope : WriteEnvelope}
    {marked : List Key} {map : RecordMap} (hsound : lawful.Sound loom.pager)
    (hstanding : Standing lawful loom source branch map)
    (hmarked : (engine.markStale token branch source envelope loom).1 = .ok marked)
    (hcaller : ∀ key ∈ marked, isCaller key = true)
    (hinformed : Informed map source (readSet envelope.session loom) envelope)
    (hkey : key ∈ marked) :
    LatestRests lawful (engine.markStale token branch source envelope loom).2 source branch key := by
  obtain ⟨writes, -, rfl, hends⟩ := markStale_eq_ok hsound hmarked
  obtain ⟨entry, hmem, hentry⟩ := List.mem_map.mp hkey
  have hmem : (key, entry.2) ∈ writes := hentry ▸ hmem
  rcases hends with ⟨hnone, -⟩ | ⟨base, commit, map', map'', hadvanced⟩
  · rw [hnone] at hmem
    cases hmem
  · obtain ⟨id, hlatest, hstanding', shown, node, hshown, -, -, rfl, hrests⟩ :=
      hadvanced.latestRests hstanding
        (fun entry hentry => hcaller entry.1 (List.mem_map_of_mem hentry)) hinformed hmem
    obtain rfl := hstanding'.shows.unique hshown.shows
    exact ⟨_, _, hstanding', hlatest, hrests⟩

theorem markStale_reachable (hreachable : engine.Reachable lawful loom) (token : CapabilityToken)
    (branch : BranchId) (source : SourceRef) (envelope : WriteEnvelope) :
    engine.Reachable lawful (engine.markStale token branch source envelope loom).2 := by
  rcases snd_markStale token branch source envelope loom with hafter | ⟨writes, -, hafter⟩
  · rw [hafter]
    exact hreachable
  · rw [hafter]
    exact hreachable.called _

/-! ## What is built on a key -/

/-- A run of reads and writes in which a session reads the key and then writes the other one,
whose latest node has the name `id` from then on, and what the run leaves. -/
inductive BuiltOn (lawful : engine.pager.Lawful) (source : SourceRef) (start : Loom σ ρ)
    (branch : BranchId) (key : Key) : Loom σ ρ → BranchId → Key → NodeId → Prop
  | intro {before between later : List Call} {reads writes last : BranchId}
      {reader writer : CapabilityToken} {found record : Record} {records : List (Key × Record)}
      {hints : ExtTreeMap Key IndexHint} {envelope : WriteEnvelope} {answer : Answer} {other : Key}
      {map : RecordMap} {id : NodeId} {readAt asked written : Loom σ ρ}
      (carried : Carried lawful source (fun place call => ¬WritesKey place key call) start branch
        before reads)
      (beforeRead : engine.afterAll before start = readAt)
      (read : (engine.call (.read reader reads key) readAt).1 = .ok (.record (some found)))
      (kept : Carried lawful source (fun _ call => ¬WritesAs reader.claims.session call)
        (engine.after (.read reader reads key) readAt) reads between writes)
      (beforeWrite : engine.afterAll between (engine.after (.read reader reads key) readAt) = asked)
      (session : envelope.session = reader.claims.session)
      (caller : ∀ entry ∈ records, isCaller entry.1 = true)
      (wrote : (engine.call (.write writer writes records hints envelope) asked).1 = .ok answer)
      (afterWrite : engine.after (.write writer writes records hints envelope) asked = written)
      (record_mem : (other, record) ∈ records) (shows : Shows lawful written writes map)
      (latest : LatestNode map other id)
      (rest : Carried lawful source (fun _ _ => True) written writes later last) :
      BuiltOn lawful source start branch key (engine.afterAll later written) last other id

theorem BuiltOn.nodeRests {start : Loom σ ρ} {other : Key}
    (hbuilt : BuiltOn lawful source start branch key loom place other id)
    (hreachable : engine.Reachable lawful start) (hkey : isProvenance key = false)
    (hrests : LatestRests lawful start source branch key) :
    NodeRests lawful loom source place other id := by
  cases hbuilt with
  | @intro before between _ reads _ _ reader _ _ _ _ _ _ _ _ _ _ _ _ _ hcarried hbefore hread hkept
      hbetween hsession hcaller hwrote hafter hmem hshows hlatest hrest =>
    subst hbefore hbetween hafter
    have hreadAt := hreachable.afterAll before
    have hseen := (hcarried.latestRests hreachable hrests).read hreadAt.sound hkey hread
    have hasked := (hreadAt.called (.read reader reads key)).afterAll between
    have hseen := hkept.hasSeen (hreadAt.called _) hseen
    rw [← hsession] at hseen
    exact hrest.nodeRests (hasked.called _)
      (hseen.write hasked.sound hcaller hwrote hmem hshows hlatest)

/-! ## What a taint reports -/

/-- A taint of the source has the node of the key. -/
structure Reported (engine : Engine σ ρ) (loom : Loom σ ρ) (source : SourceRef)
    (branch : BranchId) (key : Key) (id : NodeId) : Prop where
  keys : ∀ keys, (engine.contaminatedKeysOn branch source loom).1 = .ok keys → key ∈ keys
  plan : ∀ plan stats, (engine.taint source loom).1 = .ok (plan, stats) →
    ∃ item ∈ plan.reversible, ∃ node, item.Displays engine.platform node ∧ node.key = key ∧
      node.id = id

theorem nodesOn_eq_ok {nodes : NodeMap} (hsound : lawful.Sound loom.pager)
    (hnodes : (engine.nodesOn branch loom).1 = .ok nodes) :
    ∃ map, Shows lawful loom branch map ∧ nodes = nodesAmong map.toList ∅ := by
  rcases hresult : engine.nodesOn branch loom with ⟨result, after⟩
  rw [hresult] at hnodes
  obtain rfl : result = .ok nodes := hnodes
  rw [nodesOn, FallibleState.bind_eq_ok] at hresult
  obtain ⟨commit, _, hhead, hresult⟩ := hresult
  obtain ⟨hhead, rfl⟩ := head_eq_ok.mp hhead
  rw [FallibleState.bind_eq_ok] at hresult
  obtain ⟨records, _, hreading, hresult⟩ := hresult
  obtain ⟨rfl, -⟩ := FallibleState.pure_eq_ok.mp hresult
  obtain ⟨-, map, _, hstores, hran⟩ := reading_spec hsound hreading
  obtain ⟨rfl, -⟩ := Prod.mk.inj (Except.ok.inj hran)
  exact ⟨map, ⟨commit, hhead, hstores⟩, rfl⟩

/-- Where the walk over the branch returns, it has the node. -/
theorem NodeRests.walked {nodes : NodeMap} {contaminated : ExtTreeSet NodeId}
    (hrests : NodeRests lawful loom source branch key id) (hsound : lawful.Sound loom.pager)
    (hagree : ∀ map, Shows lawful loom branch map → NamesAgree map)
    (hwalked : Walked engine loom source branch nodes contaminated) :
    ∃ node, nodes[id]? = some node ∧ id ∈ contaminated ∧ node.key = key ∧ node.id = id := by
  obtain ⟨hnodes, seeds, hseeds, hflood⟩ := hwalked
  obtain ⟨map, node, ⟨hshows, -⟩, hnode, rfl, rfl, hrests⟩ := hrests
  obtain ⟨map', hshows', rfl⟩ := nodesOn_eq_ok hsound hnodes
  obtain ⟨map'', hshows'', rfl⟩ := seedsOn_eq_ok hsound hseeds
  obtain rfl := hshows.unique hshows'
  obtain rfl := hshows.unique hshows''
  obtain ⟨found, hfound⟩ := hnode.exists_found
  obtain ⟨hhas, hid⟩ := hasNode_of_nodesAmong hfound
  obtain ⟨-, hkey⟩ := hagree map hshows found node hhas hnode hid
  exact ⟨found, hfound, (mem_floodDownstream hflood).mpr (hrests.downstream (hagree map hshows)),
    hkey, hid⟩

theorem NodeRests.reported (hrests : NodeRests lawful loom source branch key id)
    (hreachable : engine.Reachable lawful loom) (hkey : isProvenance key = false)
    (hagree : ∀ map, Shows lawful loom branch map → NamesAgree map) :
    Reported engine loom source branch key id := by
  constructor
  · intro keys hkeys
    rcases hresult : engine.contaminatedKeysOn branch source loom with ⟨result, last⟩
    rw [hresult] at hkeys
    obtain rfl : result = .ok keys := hkeys
    obtain ⟨-, hmem⟩ := contaminatedKeysOn_spec hresult
    rw [hmem]
    rw [contaminatedKeysOn, FallibleState.bind_eq_ok] at hresult
    obtain ⟨nodes, _, hnodes, hresult⟩ := hresult
    obtain rfl := (nodesOn_moves branch).of_eq hnodes
    rw [FallibleState.bind_eq_ok] at hresult
    obtain ⟨seeds, _, hseeds, hresult⟩ := hresult
    obtain ⟨contaminated, hflood, -⟩ := FallibleState.lift_bind_eq_ok.mp hresult
    obtain ⟨node, hnode, hmem, hsame, rfl⟩ := hrests.walked hreachable.sound hagree
      ⟨congrArg Prod.fst hnodes, seeds, congrArg Prod.fst hseeds, hflood⟩
    exact ⟨nodes, seeds, node.id, node, congrArg Prod.fst hnodes, congrArg Prod.fst hseeds,
      (mem_floodDownstream hflood).mp hmem, hnode, by rw [hsame, hkey], hsame⟩
  · intro plan stats hplan
    rcases hresult : engine.taint source loom with ⟨result, last⟩
    rw [hresult] at hplan
    obtain rfl : result = .ok (plan, stats) := hplan
    obtain ⟨items, hitems, hordered, -⟩ := taint_eq_ok hreachable hresult
    rw [taint, FallibleState.get_bind, FallibleState.bind_eq_ok] at hresult
    obtain ⟨_, _, hbranches, -⟩ := hresult
    obtain ⟨hwalks, -⟩ := taintBranches_eq_ok hreachable.legible (congrArg Prod.fst hbranches)
    have hbranch : branch ∈ branchNames loom := by
      obtain ⟨map, _, hstanding, -⟩ := hrests
      obtain ⟨commit, hhead, -⟩ := hstanding.shows.ofHead
      exact ExtTreeMap.mem_keys.mpr (ExtTreeMap.mem_iff_isSome_getElem?.mpr (hhead ▸ rfl))
    obtain ⟨nodes, contaminated, hwalked⟩ := hwalks branch hbranch
    obtain ⟨node, hnode, hmem, hsame, hid⟩ := hrests.walked hreachable.sound hagree hwalked
    have hfound : node ∈ foundOn engine loom source branch := by
      rw [hwalked.foundOn_eq, callerNodes, List.mem_filter, List.mem_filterMap]
      exact ⟨⟨id, ExtTreeSet.mem_toList.mpr hmem, hnode⟩, by rw [hsame, hkey]; rfl⟩
    obtain ⟨item, hitem, hdisplays⟩ :=
      hordered.exists_item (List.mem_flatMap.mpr ⟨branch, hbranch, hfound⟩)
    exact ⟨item, hitems ▸ hitem, node, hdisplays, hsame, hid⟩

theorem BuiltOn.isProvenance {start : Loom σ ρ} {other : Key}
    (hbuilt : BuiltOn lawful source start branch key loom place other id) :
    isProvenance other = false := by
  cases hbuilt with
  | intro _ _ _ _ _ _ hcaller _ _ hmem _ _ _ =>
    have hother := hcaller _ hmem
    rw [isCaller, Bool.and_eq_true] at hother
    simpa using hother.2

theorem BuiltOn.reachable {start : Loom σ ρ} {other : Key}
    (hbuilt : BuiltOn lawful source start branch key loom place other id)
    (hreachable : engine.Reachable lawful start) : engine.Reachable lawful loom := by
  cases hbuilt with
  | intro _ hbefore _ _ hbetween _ _ _ hafter _ _ _ _ =>
    subst hbefore hbetween hafter
    exact ((((hreachable.afterAll _).called _).afterAll _).called _).afterAll _

/-- Where the marking write is built on the source, a taint reports whatever is built on a key
it marked. Without the mark, it does so if the latest node of the key rests on the source. -/
theorem builtOn_reported {token : CapabilityToken} {envelope : WriteEnvelope} {marked : List Key}
    {map : RecordMap} (hreachable : engine.Reachable lawful loom)
    (hstanding : Standing lawful loom source branch map)
    (hmarked : (engine.markStale token branch source envelope loom).1 = .ok marked)
    (hcaller : ∀ key ∈ marked, isCaller key = true) (hkey : key ∈ marked)
    (hinformed : Informed map source (readSet envelope.session loom) envelope) :
    (∀ last place other id,
      BuiltOn lawful source (engine.markStale token branch source envelope loom).2 branch key last
        place other id →
      (∀ shown, Shows lawful last place shown → NamesAgree shown) →
      Reported engine last source place other id) ∧
    (LatestRests lawful loom source branch key → ∀ last place other id,
      BuiltOn lawful source loom branch key last place other id →
      (∀ shown, Shows lawful last place shown → NamesAgree shown) →
      Reported engine last source place other id) := by
  have hprovenance : isProvenance key = false := by
    have hown := hcaller key hkey
    rw [isCaller, Bool.and_eq_true] at hown
    simpa using hown.2
  have hall : ∀ start : Loom σ ρ, engine.Reachable lawful start →
      LatestRests lawful start source branch key → ∀ last place other id,
      BuiltOn lawful source start branch key last place other id →
      (∀ shown, Shows lawful last place shown → NamesAgree shown) →
      Reported engine last source place other id :=
    fun start hstart hrests last place other id hbuilt hagree =>
      (hbuilt.nodeRests hstart hprovenance hrests).reported (hbuilt.reachable hstart)
        hbuilt.isProvenance hagree
  refine ⟨hall _ (markStale_reachable hreachable token branch source envelope) ?_,
    hall loom hreachable⟩
  exact markStale_latestRests hreachable.sound hstanding hmarked hcaller hinformed hkey

/-! ## A page that is marked -/

/-- The places in the keys of the walk are all below the counter. -/
def aheadTest (branch : BranchId) : RecordProgram Bool := do
  let counter ← KeyValue.ask (provSeqKey branch)
  let records ← KeyValue.entries
  return records.all fun entry => !isProvenance entry.1 ||
    beValue (entry.1.drop (entry.1.length - 8)) < (provSeq counter).val

/-- What reads as a node has its parents and its key from its name. -/
def agreeTest : RecordProgram Bool := do
  let records ← KeyValue.entries
  let nodes := records.filterMap fun entry => nodeAt entry.1 entry.2
  return nodes.all fun left => nodes.all fun right =>
    left.id ≠ right.id ∨ left.derivedFrom = right.derivedFrom ∧ left.key = right.key

/-- A test of the head of a branch. -/
def passes (engine : Engine σ ρ) (loom : Loom σ ρ) (branch : BranchId)
    (test : RecordProgram Bool) : Bool :=
  match loom.refs.branches[branch]? with
  | some commit => (engine.reading commit test loom).1.toOption = some true
  | none => false

theorem passes_eq_true {test : RecordProgram Bool} (hsound : lawful.Sound loom.pager)
    (hpasses : passes engine loom branch test = true) :
    ∃ map map', Shows lawful loom branch map ∧ test.onMap map = .ok (true, map') := by
  unfold passes at hpasses
  split at hpasses
  · next commit hhead =>
    rcases hresult : engine.reading commit test loom with ⟨result, last⟩
    rw [hresult] at hpasses
    obtain rfl := StateExcept.toOption_eq_some.mp (of_decide_eq_true hpasses)
    obtain ⟨-, map, map', hstores, hran⟩ := reading_spec hsound hresult
    exact ⟨map, map', ⟨commit, hhead, hstores⟩, hran⟩
  · cases hpasses

theorem beValue_drop_seq {start : Bytes} {seq : U64} :
    beValue ((start ++ beBytes 8 seq.val).drop ((start ++ beBytes 8 seq.val).length - 8)) =
      seq.val := by
  have hdrop : (start ++ beBytes 8 seq.val).length - 8 = start.length := by
    rw [List.length_append, length_beBytes, Nat.add_sub_cancel]
  rw [hdrop, List.drop_left, beValue_beBytes seq.isLt]

theorem standing_of_passes (source : SourceRef) (hsound : lawful.Sound loom.pager)
    (hpasses : passes engine loom branch (aheadTest branch) = true) :
    ∃ map, Standing lawful loom source branch map := by
  obtain ⟨map, _, hshows, hran⟩ := passes_eq_true hsound hpasses
  rw [aheadTest, KeyValue.onMap_ask_bind] at hran
  obtain ⟨records, _, hentries, hran⟩ := KeyValue.onMap_bind_eq_ok.mp hran
  obtain ⟨rfl, rfl⟩ := Prod.mk.inj (Except.ok.inj hentries)
  obtain ⟨hall, -⟩ := Prod.mk.inj (Except.ok.inj hran)
  have hbelow : ∀ (start : Bytes) (seq : U64), isProvenance (start ++ beBytes 8 seq.val) = true →
      nextPlace map branch ≤ seq → map[start ++ beBytes 8 seq.val]? = none := by
    intro start seq hkey hle
    by_contra htaken
    obtain ⟨record, hrecord⟩ := Option.ne_none_iff_exists'.mp htaken
    have hentry := List.all_eq_true.mp hall (_, record)
      (ExtTreeMap.mem_toList_iff_getElem?_eq_some.mpr hrecord)
    rw [hkey, Bool.not_true, Bool.false_or, beValue_drop_seq] at hentry
    exact absurd (Fin.lt_def.mpr (of_decide_eq_true hentry)) (not_lt_of_ge hle)
  refine ⟨map, hshows, fun seq hle => ?_, fun cited seq hle _ => ?_⟩
  · have hkey := isProvenance_nodeStorageKey branch seq
    simp only [nodeStorageKey, branchSeq, ← List.append_assoc] at hkey ⊢
    exact hbelow _ seq hkey hle
  · have hkey := isProvenance_sourceIndexKey cited branch seq
    simp only [sourceIndexKey, branchSeq, ← List.append_assoc] at hkey ⊢
    exact hbelow _ seq hkey hle

theorem namesAgree_of_passes (hsound : lawful.Sound loom.pager)
    (hpasses : passes engine loom branch agreeTest = true) {map : RecordMap}
    (hshows : Shows lawful loom branch map) : NamesAgree map := by
  obtain ⟨shown, _, hshown, hran⟩ := passes_eq_true hsound hpasses
  obtain rfl := hshows.unique hshown
  obtain ⟨records, _, hentries, hran⟩ := KeyValue.onMap_bind_eq_ok.mp hran
  obtain ⟨rfl, rfl⟩ := Prod.mk.inj (Except.ok.inj hentries)
  obtain ⟨hall, -⟩ := Prod.mk.inj (Except.ok.inj hran)
  have hfound : ∀ {node : DerivationNode}, HasNode map node →
      node ∈ map.toList.filterMap fun entry => nodeAt entry.1 entry.2 := by
    rintro node ⟨key, record, hrecord, hnode⟩
    exact List.mem_filterMap.mpr
      ⟨(key, record), ExtTreeMap.mem_toList_iff_getElem?_eq_some.mpr hrecord, hnode⟩
  intro left right hleft hright hid
  have hpair := of_decide_eq_true
    (List.all_eq_true.mp (List.all_eq_true.mp hall left (hfound hleft)) right (hfound hright))
  exact hpair.resolve_left fun hne => hne hid

/-- The page is marked, with this envelope. -/
def markPage (envelope : WriteEnvelope) : Loom MemPager (Option Refs) :=
  (memoryEngine.markStale (memoryToken [MAIN]) MAIN claimPage envelope toldLoom).2

def readK : Call :=
  .read (memoryToken [MAIN]) MAIN (ascii "k")

def writeJ : Call :=
  .write (memoryToken [MAIN]) MAIN [(ascii "j", .observation {
      id := 0
      source := sitePage (ascii "2")
      trust := .untrusted
      observedAt := none
      ingestedAt := 0
      payload := [] })] ∅ (memoryEnvelope MAIN)

/-- The session `s` reads `k` and writes another page as `j`. -/
def builtLoom (start : Loom MemPager (Option Refs)) : Loom MemPager (Option Refs) :=
  memoryEngine.after writeJ (memoryEngine.after readK start)

def readsSome : Except LoomError Answer → Bool
  | .ok (.record (some _)) => true
  | _ => false

/-- The key has a latest node. -/
def latestTest (key : Key) : RecordProgram Bool := do
  let found ← KeyValue.ask (latestNodeKey key)
  return (nodeOf found).isSome

/-- The read finds a record, the write succeeds, and the names of the nodes agree. -/
def builtTest (start : Loom MemPager (Option Refs)) : Bool :=
  readsSome (memoryEngine.call readK start).1 &&
    (memoryEngine.call writeJ (memoryEngine.after readK start)).1.isOk &&
    passes memoryEngine (builtLoom start) MAIN (latestTest (ascii "j")) &&
    passes memoryEngine (builtLoom start) MAIN agreeTest

theorem builtOn_of_test {start : Loom MemPager (Option Refs)}
    (hreachable : memoryEngine.Reachable memoryLawful start) (htest : builtTest start = true) :
    (∃ id, BuiltOn memoryLawful claimPage start MAIN (ascii "k") (builtLoom start) MAIN (ascii "j")
      id) ∧ ∀ map, Shows memoryLawful (builtLoom start) MAIN map → NamesAgree map := by
  simp only [builtTest, Bool.and_eq_true] at htest
  obtain ⟨⟨⟨hread, hwrite⟩, hlatest⟩, hagree⟩ := htest
  have hsound : memoryLawful.Sound (builtLoom start).pager :=
    ((hreachable.called readK).called writeJ).sound
  refine ⟨?_, fun map hshows => namesAgree_of_passes hsound hagree hshows⟩
  obtain ⟨map, _, hshows, hran⟩ := passes_eq_true hsound hlatest
  rw [latestTest, KeyValue.onMap_ask_bind] at hran
  obtain ⟨hsome, -⟩ := Prod.mk.inj (Except.ok.inj hran)
  obtain ⟨id, hid⟩ := Option.isSome_iff_exists.mp hsome
  cases hanswer : (memoryEngine.call writeJ (memoryEngine.after readK start)).1 with
  | error error =>
      rw [hanswer] at hwrite
      cases hwrite
  | ok answer =>
      unfold readsSome at hread
      split at hread
      · next found hfound =>
        refine ⟨id, .intro .here rfl hfound .here rfl rfl ?_ hanswer rfl
          (List.mem_singleton_self _) hshows hid .here⟩
        intro entry hentry
        rw [List.mem_singleton.mp hentry]
        exact (show isCaller (ascii "j") = true by decide)
      · cases hread

/-- A mark by a session that has read nothing, with an envelope that cites the page. -/
theorem builtOn_reported_page :
    memoryEngine.Reachable memoryLawful toldLoom ∧
      (memoryEngine.markStale (memoryToken [MAIN]) MAIN claimPage pageEnvelope toldLoom).1 =
        .ok [ascii "k"] ∧
      ∃ id, BuiltOn memoryLawful claimPage (markPage pageEnvelope) MAIN (ascii "k")
          (builtLoom (markPage pageEnvelope)) MAIN (ascii "j") id ∧
        Reported memoryEngine (builtLoom (markPage pageEnvelope)) claimPage MAIN (ascii "j") id := by
  have hmarked : (memoryEngine.markStale (memoryToken [MAIN]) MAIN claimPage pageEnvelope
      toldLoom).1 = .ok [ascii "k"] := StateExcept.toOption_eq_some.mp (by decide +kernel)
  have hreachable : memoryEngine.Reachable memoryLawful toldLoom := memoryLoom_reachable.called _
  obtain ⟨map, hstanding⟩ :=
    standing_of_passes claimPage hreachable.sound (by decide +kernel : passes memoryEngine toldLoom
      MAIN (aheadTest MAIN) = true)
  obtain ⟨⟨id, hbuilt⟩, hagree⟩ :=
    builtOn_of_test (markStale_reachable hreachable _ MAIN claimPage pageEnvelope)
      (by decide +kernel : builtTest (markPage pageEnvelope) = true)
  have hcaller : ∀ key ∈ [ascii "k"], isCaller key = true := by
    intro key hkey
    rw [List.mem_singleton.mp hkey]
    exact (show isCaller (ascii "k") = true by decide)
  exact ⟨hreachable, hmarked, id, hbuilt,
    (builtOn_reported hreachable hstanding hmarked hcaller List.mem_cons_self
      (Or.inr (Or.inl (List.mem_singleton_self claimPage)))).1 _ _ _ _ hbuilt hagree⟩

/-- A mark by a session that has read nothing, with an envelope that cites nothing: what is then
built on the claim is not reported, and without the mark it would be. -/
theorem builtOn_unreported :
    memoryEngine.Reachable memoryLawful toldLoom ∧
      (memoryEngine.markStale (memoryToken [MAIN]) MAIN claimPage (memoryEnvelope MAIN)
        toldLoom).1 = .ok [ascii "k"] ∧
      (∃ id, BuiltOn memoryLawful claimPage (markPage (memoryEnvelope MAIN)) MAIN (ascii "k")
          (builtLoom (markPage (memoryEnvelope MAIN))) MAIN (ascii "j") id ∧
        ¬Reported memoryEngine (builtLoom (markPage (memoryEnvelope MAIN))) claimPage MAIN
          (ascii "j") id) ∧
      (∃ id, BuiltOn memoryLawful claimPage toldLoom MAIN (ascii "k") (builtLoom toldLoom) MAIN
        (ascii "j") id) ∧
      (memoryEngine.contaminatedKeysOn MAIN claimPage (builtLoom toldLoom)).1 =
        .ok [ascii "j", ascii "k"] := by
  have hreachable : memoryEngine.Reachable memoryLawful toldLoom := memoryLoom_reachable.called _
  have hkeys : (memoryEngine.contaminatedKeysOn MAIN claimPage
      (builtLoom (markPage (memoryEnvelope MAIN)))).1 = .ok [ascii "k"] :=
    StateExcept.toOption_eq_some.mp (by decide +kernel)
  obtain ⟨⟨id, hbuilt⟩, -⟩ :=
    builtOn_of_test (markStale_reachable hreachable _ MAIN claimPage (memoryEnvelope MAIN))
      (by decide +kernel : builtTest (markPage (memoryEnvelope MAIN)) = true)
  obtain ⟨hunmarked, -⟩ :=
    builtOn_of_test hreachable (by decide +kernel : builtTest toldLoom = true)
  refine ⟨hreachable, StateExcept.toOption_eq_some.mp (by decide +kernel),
    ⟨id, hbuilt, fun hreported => ?_⟩, hunmarked,
    StateExcept.toOption_eq_some.mp (by decide +kernel)⟩
  have hmem := hreported.keys _ hkeys
  exact absurd (List.mem_singleton.mp hmem) (by decide)

end Engine

end LoomDB
