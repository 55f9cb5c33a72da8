import LoomDB.Branch.Binding
import LoomDB.Branch.Keyspace

/-!
# What a write derives from

A read adds to the read set of the session its token names; a write takes the read
set of the session its envelope names. The nodes of a write then point at what its
own session has read, as far as the two names agree and nothing takes a read set
without writing.
-/

namespace LoomDB

open Std (ExtTreeMap ExtTreeSet)
open FallibleState (Moves)

/-- What a write may derive from: a node of the database, or a source outside. -/
inductive Origin where
  | node (id : NodeId)
  | source (source : SourceRef)

/-- Some origins, ordered by inclusion. -/
abbrev Origins := Origin → Prop

def ReadSet.origins (set : ReadSet) : Origins
  | .node id => id ∈ set.nodes
  | .source source => source ∈ set.sources

def DerivationNode.origins (node : DerivationNode) : Origins
  | .node id => id ∈ node.derivedFrom
  | .source source => source ∈ node.sources

namespace Engine

variable {σ ρ α : Type} {engine : Engine σ ρ} {lawful : engine.pager.Lawful}
  {loom loom' : Loom σ ρ} {session other : SessionId}

/-- What a record stands for: the node that wrote it, and the source it is. -/
def originsAt (map : RecordMap) (key : Key) (record : Record) : Origins
  | .node id => nodeOf map[latestNodeKey key]? = some id
  | .source source => ∃ obs, record = .observation obs ∧ obs.source = source

/-! ## Read sets -/

theorem origins_default (origin : Origin) : ¬ReadSet.default.origins origin := by
  cases origin <;> exact ExtTreeSet.not_mem_empty

theorem origins_addNode (found : Option NodeId) (set : ReadSet) (origin : Origin) :
    (ReadSet.addNode found set).origins origin ↔
      set.origins origin ∨ ∃ id, found = some id ∧ origin = .node id := by
  cases found with
  | none => simp [ReadSet.addNode]
  | some found =>
      cases origin with
      | node id =>
          change id ∈ set.nodes.insert found ↔ id ∈ set.nodes ∨ _
          rw [ExtTreeSet.mem_insert, Std.compare_eq_iff_eq, or_comm]
          simp [eq_comm]
      | source source => simp [ReadSet.addNode, ReadSet.origins]

theorem origins_addRecord (record : Record) (set : ReadSet) (origin : Origin) :
    (ReadSet.addRecord record set).origins origin ↔
      set.origins origin ∨ ∃ obs, record = .observation obs ∧ origin = .source obs.source := by
  cases record with
  | observation obs =>
      cases origin with
      | node id => simp [ReadSet.addRecord, ReadSet.origins]
      | source source =>
          change source ∈ set.sources.insert obs.source ↔ source ∈ set.sources ∨ _
          rw [ExtTreeSet.mem_insert, Std.compare_eq_iff_eq, or_comm]
          simp [eq_comm]
  | claim claim => simp [ReadSet.addRecord]
  | value value => simp [ReadSet.addRecord]

@[simp]
theorem origins_addEntry (entry : Option IndexEntry) (set : ReadSet) :
    (ReadSet.addEntry entry set).origins = set.origins := by
  cases entry <;> funext origin <;> cases origin <;> rfl

/-- A read adds the record's origins to a read set. -/
theorem origins_seen (map : RecordMap) (key : Key) (record : Record) (entry : Option IndexEntry)
    (set : ReadSet) (origin : Origin) :
    (seen map key record entry set).origins origin ↔
      set.origins origin ∨ originsAt map key record origin := by
  rw [seen, origins_addEntry, origins_addRecord, origins_addNode, or_assoc]
  refine or_congr_right ?_
  cases origin <;> simp [originsAt, eq_comm]

theorem readSet_noted (loom : Loom σ ρ) (session other : SessionId)
    (change : ReadSet → ReadSet) :
    readSet other (noted loom session change) =
      if session = other then change (readSet session loom) else readSet other loom := by
  simp only [readSet, noted, OrderedMap.getElem?_insert]
  split <;> rfl

theorem readSet_of_erase {session : SessionId}
    (herase : loom'.readSets = loom.readSets.erase session) (other : SessionId) :
    readSet other loom' = if session = other then ReadSet.default else readSet other loom := by
  unfold readSet
  rw [herase, OrderedMap.getElem?_erase]
  split <;> rfl

/-- The same read sets. -/
def SameReads (before after : Loom σ ρ) : Prop :=
  after.readSets = before.readSets

instance : IsPreorder (Loom σ ρ) SameReads where
  refl _ := rfl
  trans _ _ _ hfirst hsecond := hsecond.trans hfirst

theorem SameReads.readSet (hsame : SameReads loom loom') (session : SessionId) :
    readSet session loom' = readSet session loom := by
  unfold Engine.readSet
  rw [hsame]

/-! ### Steps that leave them -/

theorem now_sameReads : Moves SameReads engine.now :=
  .bind .get fun _ => .bind (.modify fun _ => rfl) fun _ => .pure _

theorem authorize_sameReads (token : CapabilityToken) (branch : BranchId) :
    Moves SameReads (engine.authorize token branch) :=
  .bind now_sameReads fun _ => .lift _

theorem SameReads.of_eq (heq : loom = loom') : SameReads loom loom' :=
  heq ▸ refl loom

theorem head_sameReads (branch : BranchId) :
    Moves SameReads (head branch : LoomM σ ρ CommitId) :=
  (head_moves branch).mono fun _ _ => .of_eq

theorem reading_sameReads (commit : CommitId) (program : RecordProgram α) :
    Moves SameReads (engine.reading commit program) :=
  (reading_moves commit program).mono fun _ _ => .of_eq

theorem persist_sameReads : Moves SameReads engine.persist :=
  fun _ => rfl

theorem createBranch_sameReads (name : BranchId) (commit : CommitId) :
    Moves SameReads (engine.createBranch name commit) := by
  refine .bind .get fun loom => ?_
  split
  · exact .throw _
  · exact .bind (fun _ => rfl) fun _ => persist_sameReads

theorem setHead_sameReads (branch : BranchId) (commit : CommitId) :
    Moves SameReads (engine.setHead branch commit) := by
  refine .bind .get fun loom => ?_
  split
  · exact .bind (fun _ => rfl) fun _ => persist_sameReads
  · exact .throw _

theorem recordCommit_sameReads (commit : CommitId) (parents : List CommitId) :
    Moves SameReads (recordCommit commit parents : LoomM σ ρ Unit) := by
  intro loom
  rw [recordCommit_eq]
  rfl

theorem transact_sameReads (base : CommitId) (program : RecordProgram α) :
    Moves SameReads (engine.transact base program) :=
  .bind .get fun _ => .bind (.lift _) fun _ => .bind (.lift _) fun _ => .bind (.lift _) fun _ =>
    .bind (.modify fun _ => rfl) fun _ => .bind (.lift _) fun _ => .pure _

theorem advance_sameReads (branch : BranchId) (base : CommitId) (program : RecordProgram α) :
    Moves SameReads (engine.advance branch base program) :=
  .bind (transact_sameReads _ _) fun _ => .bind (recordCommit_sameReads _ _) fun _ =>
    .bind (setHead_sameReads _ _) fun _ => .pure _

theorem openSessionNamed_sameReads (session : SessionId) :
    Moves SameReads (engine.openSessionNamed session) :=
  .bind (head_sameReads _) fun _ => .bind (createBranch_sameReads _ _) fun _ =>
    .bind now_sameReads fun _ => .bind (.lift _) fun _ => .pure _

theorem requireEnvelope_sameReads (envelope : WriteEnvelope) :
    Moves SameReads (requireEnvelope envelope : LoomM σ ρ Unit) := by
  unfold requireEnvelope
  split
  · exact .pure _
  · exact .throw _

theorem authenticate_sameReads (envelope : WriteEnvelope) :
    Moves SameReads (engine.authenticate envelope) := by
  refine .bind .get fun loom => ?_
  cases loom.actorKeys with
  | none => exact .pure ()
  | some keys =>
      simp only
      cases keys[envelope.actor]? with
      | none => exact .throw _
      | some key => exact .lift _

theorem modifyActorKeys_sameReads (keys : Option (ExtTreeMap ActorId Bytes)) :
    Moves SameReads (modify fun loom => { loom with actorKeys := keys } : LoomM σ ρ Unit) :=
  .modify fun _ => rfl

/-- The calls that look into a read set or change one. -/
def touchesReads : Call → Bool
  | .read .. => true
  | .write .. => true
  | .merge .. => true
  | _ => false

theorem call_sameReads {call : Call} (htouches : touchesReads call = false) :
    Moves SameReads (engine.call call) := by
  cases call with
  | openSession => exact .map _ (.bind now_sameReads fun _ => openSessionNamed_sameReads _)
  | openSessionNamed session => exact .map _ (openSessionNamed_sameReads session)
  | issueCapability session branches ttlMs =>
      exact .map _ (.bind (.forM fun branch => .discard (head_sameReads branch)) fun _ =>
        .bind now_sameReads fun _ => .bind (.lift _) fun _ => .pure _)
  | branch token source name =>
      exact .map _ (.bind (authorize_sameReads _ _) fun _ => .bind (head_sameReads _) fun _ =>
        .bind (createBranch_sameReads _ _) fun _ => .pure _)
  | rewind token branch commit =>
      exact .map _ (.bind (authorize_sameReads _ _) fun _ => .bind (head_sameReads _) fun _ =>
        .bind (setHead_sameReads _ _) fun _ => .pure _)
  | readAt token branch commit key =>
      exact .map _ (.bind (authorize_sameReads _ _) fun _ => reading_sameReads _ _)
  | scan token branch =>
      exact .map _ (.bind (authorize_sameReads _ _) fun _ => .bind (head_sameReads _) fun _ =>
        .bind (reading_sameReads _ _) fun _ => .pure _)
  | invalidate token branch keys envelope =>
      exact .map _ (.bind (requireEnvelope_sameReads _) fun _ =>
        .bind (authenticate_sameReads _) fun _ => .bind (authorize_sameReads _ _) fun _ =>
          .bind (head_sameReads _) fun _ => .bind (advance_sameReads _ _ _) fun _ => .pure _)
  | maintain token branch upkeep =>
      exact .map _ (.bind (authorize_sameReads _ _) fun _ => .bind (head_sameReads _) fun _ =>
        .discard (advance_sameReads _ _ _))
  | replaceActorKeys keys =>
      exact .map _ (.bind (.lift _) fun _ => modifyActorKeys_sameReads _)
  | rotateActorKey actor key =>
      exact .map _ (.bind .get fun _ => .bind (.lift _) fun _ => modifyActorKeys_sameReads _)
  | revokeActorKey actor =>
      exact .map _ (.bind .get fun _ => .bind (.lift _) fun _ =>
        .bind (modifyActorKeys_sameReads _) fun _ => .pure _)
  | read token branch key => cases htouches
  | write token branch records hints envelope => cases htouches
  | merge token source target policy envelope forbids => cases htouches

/-! ## Reading -/

/-- What a call reads for a session. -/
def reads (lawful : engine.pager.Lawful) (loom : Loom σ ρ) : Call → SessionId → Origins
  | .read token branch key, session => fun origin =>
      session = token.claims.session ∧ admits engine loom token branch = .ok () ∧
        ∃ map record, Shows lawful loom branch map ∧ map[key]? = some record ∧
          originsAt map key record origin
  | _, _ => fun _ => False

/-- However a capture ends, it adds at most the origins of the record. -/
theorem captureRead_cases {branch : BranchId} {key : Key} {record : Record} {map : RecordMap}
    {outcome : Except LoomError Unit} (hshows : Shows lawful loom branch map)
    (hsound : lawful.Sound loom.pager)
    (hcapture : engine.captureRead session branch key record loom = (outcome, loom')) :
    loom' = loom ∨ ∃ change : ReadSet → ReadSet, loom' = noted loom session change ∧
      ∀ set, set.origins ≤ (change set).origins ∧
        (change set).origins ≤ set.origins ⊔ originsAt map key record := by
  unfold captureRead at hcapture
  split at hcapture
  · exact Or.inl (Prod.mk.inj hcapture).2.symm
  · right
    rw [note_bind, FallibleState.bind_eq] at hcapture
    rcases hnode : engine.nodeForKey branch key (noted loom session id) with
      ⟨error | node, middle⟩
    · obtain rfl := (nodeForKey_moves branch key).of_eq hnode
      rw [hnode] at hcapture
      obtain ⟨-, rfl⟩ := Prod.mk.inj hcapture
      exact ⟨id, rfl, fun set => ⟨le_rfl, le_sup_left⟩⟩
    · have hshows' : Shows lawful (noted loom session id) branch map := ⟨hshows.ofHead⟩
      obtain ⟨rfl, rfl⟩ := nodeForKey_spec hshows' hsound hnode
      rw [hnode] at hcapture
      simp only at hcapture
      rw [note_bind, note_bind, FallibleState.bind_eq] at hcapture
      have hentry : Moves Eq (engine.indexEntryFor branch key) :=
        .bind (head_moves branch) fun _ => .bind (reading_moves _ _) fun _ => .lift _
      rcases hindexed : engine.indexEntryFor branch key (noted (noted (noted loom session id)
        session (ReadSet.addNode (nodeOf map[latestNodeKey key]?))) session
        (ReadSet.addRecord record)) with ⟨error | entry, middle⟩
      · obtain rfl := hentry.of_eq hindexed
        rw [hindexed] at hcapture
        obtain ⟨-, rfl⟩ := Prod.mk.inj hcapture
        refine ⟨seen map key record none, ?_, fun set => ⟨fun origin hset => ?_, fun origin => ?_⟩⟩
        · rw [noted_noted, noted_noted]
          rfl
        · exact (origins_seen ..).mpr (Or.inl hset)
        · exact (origins_seen ..).mp
      · obtain rfl := hentry.of_eq hindexed
        rw [hindexed] at hcapture
        simp only at hcapture
        rw [note_eq] at hcapture
        obtain ⟨-, rfl⟩ := Prod.mk.inj hcapture
        refine ⟨seen map key record entry, ?_, fun set => ⟨fun origin hset => ?_,
          fun origin => ?_⟩⟩
        · rw [noted_noted, noted_noted, noted_noted]
          rfl
        · exact (origins_seen ..).mpr (Or.inl hset)
        · exact (origins_seen ..).mp

/-- However a read ends, its session's read set grows by at most what it read. -/
theorem read_grows {token : CapabilityToken} {branch : BranchId} {key : Key}
    {outcome : Except LoomError (Option Record)} (hsound : lawful.Sound loom.pager)
    (hread : engine.read token branch key loom = (outcome, loom')) (session : SessionId) :
    (readSet session loom).origins ≤ (readSet session loom').origins ∧
      (readSet session loom').origins ≤ (readSet session loom).origins ⊔
        reads lawful loom (.read token branch key) session := by
  have hkept : SameReads loom loom' → (readSet session loom).origins ≤
      (readSet session loom').origins ∧ (readSet session loom').origins ≤
        (readSet session loom).origins ⊔ reads lawful loom (.read token branch key) session := by
    intro hsame
    rw [hsame.readSet]
    exact ⟨le_rfl, le_sup_left⟩
  unfold read at hread
  rw [FallibleState.bind_eq, authorize_eq] at hread
  cases hadmits : admits engine loom token branch with
  | error error =>
      rw [hadmits] at hread
      obtain ⟨-, rfl⟩ := Prod.mk.inj hread
      exact hkept rfl
  | ok done =>
  rw [hadmits] at hread
  simp only at hread
  cases hhead : loom.refs.branches[branch]? with
  | none =>
      rw [head_bind_none (show (ticked loom).refs.branches[branch]? = none from hhead)] at hread
      obtain ⟨-, rfl⟩ := Prod.mk.inj hread
      exact hkept rfl
  | some commit =>
  rw [head_bind_some (show (ticked loom).refs.branches[branch]? = some commit from hhead),
    FallibleState.bind_eq] at hread
  rcases hreading : engine.reading commit (KeyValue.ask key) (ticked loom) with
    ⟨error | found, middle⟩
  · obtain rfl := (reading_moves _ _).of_eq hreading
    rw [hreading] at hread
    obtain ⟨-, rfl⟩ := Prod.mk.inj hread
    exact hkept rfl
  · have hsound' : lawful.Sound (ticked loom).pager := hsound
    obtain ⟨rfl, map, _, hstores, hask⟩ := reading_spec hsound' hreading
    obtain ⟨rfl, -⟩ := Prod.mk.inj (Except.ok.inj hask)
    have hshows : Shows lawful loom branch map := ⟨commit, hhead, hstores⟩
    have hshows' : Shows lawful (ticked loom) branch map := ⟨hshows.ofHead⟩
    rw [hreading] at hread
    simp only at hread
    have hafter : loom' = (engine.captureFound token.claims.session branch key map[key]?
        (ticked loom)).2 := by
      rw [← FallibleState.snd_bind_pure _ fun _ => map[key]?, hread]
    cases hfound : map[key]? with
    | none =>
        rw [hfound] at hafter
        have hsame : SameReads loom loom' := by rw [hafter]; rfl
        exact hkept hsame
    | some record =>
        rw [hfound] at hafter
        rcases hcapture : engine.captureRead token.claims.session branch key record
          (ticked loom) with ⟨result, last⟩
        obtain rfl : loom' = last := hafter.trans (congrArg Prod.snd hcapture)
        rcases captureRead_cases hshows' hsound' hcapture with heq | ⟨change, heq, hchange⟩
        · have hsame : SameReads loom loom' := by rw [heq]; rfl
          exact hkept hsame
        · obtain ⟨hleast, hmost⟩ := hchange (readSet token.claims.session (ticked loom))
          rw [heq, readSet_noted]
          split
          · next hsession =>
            subst hsession
            refine ⟨hleast, fun origin hmem => ?_⟩
            rcases hmost origin hmem with hold | hnew
            · exact Or.inl hold
            · exact Or.inr ⟨rfl, hadmits, map, record, hshows, hfound, hnew⟩
          · exact ⟨le_rfl, le_sup_left⟩

/-- A read of a caller's record adds all that it read. -/
theorem read_captures {token : CapabilityToken} {branch : BranchId} {key : Key}
    {found : Option Record} (hsound : lawful.Sound loom.pager)
    (hread : engine.read token branch key loom = (.ok found, loom'))
    (hprovenance : isProvenance key = true → ∀ map record, Shows lawful loom branch map →
      map[key]? = some record → ∀ origin, ¬originsAt map key record origin)
    (session : SessionId) :
    reads lawful loom (.read token branch key) session ≤ (readSet session loom').origins := by
  rintro origin ⟨rfl, -, map, record, hshows, hrecord, horigin⟩
  obtain ⟨-, map', hshows', rfl, hends⟩ := read_spec hsound hread
  obtain rfl := hshows.unique hshows'
  rcases hends with ⟨-, hnone | hkey⟩ | ⟨-, record', entry, hrecord', -, rfl⟩
  · rw [hrecord] at hnone
    cases hnone
  · exact absurd horigin (hprovenance hkey map record hshows hrecord origin)
  · rw [hrecord] at hrecord'
    obtain rfl := Option.some.inj hrecord'
    rw [readSet_noted, if_pos rfl]
    exact (origins_seen ..).mpr (Or.inr horigin)

/-! ## Writing -/

/-- A call takes the read set of a session: it is a write that passes its checks. -/
def Takes (engine : Engine σ ρ) (loom : Loom σ ρ) : Call → SessionId → Prop
  | .write token branch _ _ envelope, session =>
      writeAdmits engine loom token branch envelope = .ok () ∧ envelope.session = session
  | .merge token source target policy envelope forbids, session =>
      (∃ sourceHead targetHead base writes automatic parents, MergeReady engine loom token source
        target policy envelope forbids sourceHead targetHead base writes automatic parents) ∧
      writeAdmits engine (ticked (ticked loom)) token target envelope = .ok () ∧
        envelope.session = session
  | _, _ => False

theorem write_takes {token : CapabilityToken} {branch : BranchId}
    {records : List (Key × Record)} {hints : ExtTreeMap Key IndexHint} {envelope : WriteEnvelope}
    {extraParents : ExtTreeMap Key (List NodeId)} {outcome : Except LoomError CommitId}
    (hwrite : engine.writeAll token branch records envelope extraParents hints loom =
      (outcome, loom')) :
    ((∃ error, outcome = .error error) ∧ SameReads loom loom') ∨
      writeAdmits engine loom token branch envelope = .ok () ∧
        loom'.readSets = loom.readSets.erase envelope.session := by
  rcases writeAll_cases hwrite with
    ⟨error, -, rfl, hafter⟩ | ⟨hadmits, ⟨-, -, rfl⟩ | ⟨base, advanced, -, hadvance, -⟩⟩
  · exact Or.inl ⟨⟨error, rfl⟩, (congrArg Loom.readSets hafter).trans rfl⟩
  · exact Or.inr ⟨hadmits, rfl⟩
  · exact Or.inr ⟨hadmits, ((advance_sameReads _ _ _).of_eq hadvance).trans rfl⟩

theorem merge_takes {token : CapabilityToken} {source target : BranchId} {policy : MergePolicy}
    {envelope : WriteEnvelope} {forbids : Key → Record → Option Bytes}
    {outcome : Except LoomError MergeResult}
    (hmerge : engine.mergeChecked token source target policy envelope forbids loom =
      (outcome, loom')) :
    ((∀ commit records automatic, outcome ≠ .ok (.merged commit records automatic)) ∧
        SameReads loom loom') ∨
      Takes engine loom (.merge token source target policy envelope forbids) envelope.session ∧
        loom'.readSets = loom.readSets.erase envelope.session ∧
        ∀ result, outcome = .ok result → ∃ commit records automatic,
          result = .merged commit records automatic := by
  rcases mergeChecked_cases hmerge with
    ⟨error, rfl, hafter⟩ | ⟨hadmits, ⟨result, rfl, rfl, hstopped⟩ |
      ⟨sourceHead, targetHead, base, writes, automatic, parents, written, hwritten, rfl⟩⟩
  · exact Or.inl ⟨nofun, (congrArg Loom.readSets hafter).trans rfl⟩
  · refine Or.inl ⟨fun commit records automatic heq => ?_, rfl⟩
    obtain rfl := Except.ok.inj heq
    cases hstopped
  · have hhead : (ticked (ticked loom)).refs.branches[target]? = some targetHead :=
      hwritten.heads.target
    obtain ⟨wrote, middle, hwrote, hends⟩ := writeMerge_cases hhead hwritten.wrote
    have hrest : SameReads middle loom' := by
      rcases hends with ⟨_, -, -, heq⟩ | ⟨_, _, -, hpersist, -⟩
      · exact .of_eq heq.symm
      · unfold SameReads
        rw [persist_refs hpersist]
        rfl
    rcases write_takes hwrote with ⟨⟨error, rfl⟩, hsame⟩ | ⟨htakes, herase⟩
    · refine Or.inl ⟨fun commit records count heq => ?_, hrest.trans hsame⟩
      rcases hends with ⟨_, -, rfl, -⟩ | ⟨_, _, hok, -⟩
      · cases heq
      · cases hok
    · refine Or.inr ⟨⟨⟨_, _, _, _, _, _, hwritten.ready hadmits⟩, htakes, rfl⟩,
        hrest.trans herase, fun result heq => ?_⟩
      cases written with
      | error error => cases heq
      | ok commit => exact ⟨_, _, _, (Except.ok.inj heq).symm⟩

/-! ## Nodes -/

theorem mem_sorted {β : Type} [Ord β] [Std.TransOrd β] [Std.LawfulEqOrd β] [DecidableEq β]
    {items : List β} {item : β} : item ∈ DerivationNode.sorted items ↔ item ∈ items := by
  rw [DerivationNode.sorted, ExtTreeSet.mem_toList, ExtTreeSet.mem_ofList, List.contains_iff_mem]

/-- What the caller of a write states, and the parents a merge gives. -/
def stated (records : List (Key × Record)) (envelope : WriteEnvelope)
    (extraParents : ExtTreeMap Key (List NodeId)) : Origins
  | .node id => ∃ (key : Key) (ids : List NodeId), extraParents[key]? = some ids ∧ id ∈ ids
  | .source source => source ∈ envelope.derivedFrom ∨
      ∃ key obs, (key, Record.observation obs) ∈ records ∧ obs.source = source

/-- The nodes of a write derive from what was captured, and from what was stated. -/
theorem origins_derivationNodes {platform : Platform} {branch : BranchId} {commit : CommitId}
    {records : List (Key × Record)} {envelope : WriteEnvelope} {captured : ReadSet}
    {extraParents : ExtTreeMap Key (List NodeId)} {node : DerivationNode}
    (hnode : node ∈ derivationNodes platform branch commit records envelope captured extraParents) :
    captured.origins ≤ node.origins ∧
      node.origins ≤ captured.origins ⊔ stated records envelope extraParents := by
  obtain ⟨⟨key, record⟩, hmem, rfl⟩ := List.mem_map.mp hnode
  have hrecord := (List.mem_filter.mp hmem).1
  constructor
  · rintro (id | source) hcaptured
    · exact mem_sorted.mpr (mem_sorted.mpr (List.mem_append_left _
        (ExtTreeSet.mem_toList.mpr hcaptured)))
    · refine mem_sorted.mpr ?_
      cases record <;> simp only [List.mem_append, ExtTreeSet.mem_toList]
      · exact Or.inl (Or.inl hcaptured)
      · exact Or.inl hcaptured
      · exact Or.inl hcaptured
  · rintro (id | source) hmem
    · rcases List.mem_append.mp (mem_sorted.mp (mem_sorted.mp hmem)) with hcaptured | hextra
      · exact Or.inl (ExtTreeSet.mem_toList.mp hcaptured)
      · cases hids : extraParents[key]? with
        | none =>
            rw [hids] at hextra
            cases hextra
        | some ids =>
            rw [hids] at hextra
            exact Or.inr ⟨key, ids, hids, hextra⟩
    · have hsources := mem_sorted.mp hmem
      cases record <;> simp only [List.mem_append, ExtTreeSet.mem_toList] at hsources
      · rcases hsources with (hcaptured | hderived) | hown
        · exact Or.inl hcaptured
        · exact Or.inr (Or.inl hderived)
        · exact Or.inr (Or.inr ⟨key, _, hrecord, (List.mem_singleton.mp hown).symm⟩)
      · exact hsources.imp_right Or.inl
      · exact hsources.imp_right Or.inl

/-! ## Runs -/

/-- The token and the envelope of a call that derives what it writes. -/
def derives : Call → Option (CapabilityToken × WriteEnvelope)
  | .write token _ _ _ envelope => some (token, envelope)
  | .merge token _ _ _ envelope _ => some (token, envelope)
  | _ => none

/-- The call made a write under a token of the session. -/
def WritesFor (engine : Engine σ ρ) (loom : Loom σ ρ) (call : Call) (session : SessionId) :
    Prop :=
  ∃ token envelope answer, derives call = some (token, envelope) ∧
    (engine.call call loom).1 = .ok answer ∧ answer.isWritten = true ∧
    token.claims.session = session

/-- What each session has read since its last write: at least what its reads
returned, at most what they asked for. -/
structure Ledger where
  least : SessionId → Origins
  most : SessionId → Origins

def Ledger.empty : Ledger where
  least _ _ := False
  most _ _ := False

def Ledger.after (lawful : engine.pager.Lawful) (loom : Loom σ ρ) (ledger : Ledger)
    (call : Call) : Ledger where
  least session origin := ¬WritesFor engine loom call session ∧
    (ledger.least session origin ∨ (∃ answer, (engine.call call loom).1 = .ok answer) ∧
      reads lawful loom call session origin)
  most session origin := ¬WritesFor engine loom call session ∧
    (ledger.most session origin ∨ reads lawful loom call session origin)

/-- A commit made by a write of the engine, whose nodes derive from at least and at
most some origins, besides what was stated. -/
structure WroteFrom (lawful : engine.pager.Lawful) (before after : Loom σ ρ) (branch : BranchId)
    (commit : CommitId) (records : List (Key × Record)) (envelope : WriteEnvelope)
    (extraParents : ExtTreeMap Key (List NodeId)) (hints : ExtTreeMap Key IndexHint)
    (least most : Origins) (base : CommitId) (map map' : RecordMap) : Prop where
  head : before.refs.branches[branch]? = some base
  stored : lawful.Stores before.pager base map
  ran : (writeProgram engine.platform branch base records envelope
    (readSet envelope.session before) extraParents hints).onMap map = .ok ((), map')
  stores : lawful.Stores after.pager commit map'
  nodes : ∀ node ∈ derivationNodes engine.platform branch base records envelope
    (readSet envelope.session before) extraParents, least ≤ node.origins ∧
      node.origins ≤ most ⊔ stated records envelope extraParents

/-- A write that is made derives from what its token's session read, and from
nothing else that was read. -/
def DerivesOwn (lawful : engine.pager.Lawful) (ledger : Ledger) (loom : Loom σ ρ) :
    Call → Prop
  | .write token branch records hints envelope => ∀ commit,
      (engine.call (.write token branch records hints envelope) loom).1 = .ok (.commit commit) →
        ∃ base map map', WroteFrom lawful loom
          (engine.after (.write token branch records hints envelope) loom) branch commit records
          envelope ∅ hints (ledger.least token.claims.session) (ledger.most token.claims.session)
          base map map'
  | .merge token source target policy envelope forbids => ∀ commit count automatic,
      (engine.call (.merge token source target policy envelope forbids) loom).1 =
        .ok (.merge (.merged commit count automatic)) →
        ∃ records parents base map map', WroteFrom lawful loom
          (engine.after (.merge token source target policy envelope forbids) loom) target commit
          records envelope parents ∅ (ledger.least token.claims.session)
          (ledger.most token.claims.session) base map map'
  | _ => True

def AllDeriveOwn (lawful : engine.pager.Lawful) : Ledger → Loom σ ρ → List Call → Prop
  | _, _, [] => True
  | ledger, loom, call :: calls => DerivesOwn lawful ledger loom call ∧
      AllDeriveOwn lawful (ledger.after lawful loom call) (engine.after call loom) calls

/-- A read set is taken for the session of the token, by a call that does not fail.
A key of the provenance is read only where no node and no source stands behind it. -/
def KeepsToSession (lawful : engine.pager.Lawful) (loom : Loom σ ρ) (call : Call) : Prop :=
  (∀ session token envelope, Takes engine loom call session →
    derives call = some (token, envelope) →
      session = token.claims.session ∧ (engine.call call loom).1.isOk = true) ∧
  ∀ token branch key, call = .read token branch key → isProvenance key = true →
    ∀ map record, Shows lawful loom branch map → map[key]? = some record →
      ∀ origin, ¬originsAt map key record origin

def AllKeepToSession (lawful : engine.pager.Lawful) : Loom σ ρ → List Call → Prop
  | _, [] => True
  | loom, call :: calls => KeepsToSession lawful loom call ∧
      AllKeepToSession lawful (engine.after call loom) calls

/-- The read sets hold what the ledger says. -/
def Captures (ledger : Ledger) (loom : Loom σ ρ) : Prop :=
  ∀ session, ledger.least session ≤ (readSet session loom).origins ∧
    (readSet session loom).origins ≤ ledger.most session

theorem captures_empty (hempty : loom.readSets = ∅) : Captures Ledger.empty loom := by
  refine fun session => ⟨fun _ => False.elim, fun origin horigin => ?_⟩
  have hread : readSet session loom = ReadSet.default := by
    unfold readSet
    rw [hempty]
    simp
  rw [hread] at horigin
  exact origins_default origin horigin

/-- A call that leaves the read sets and writes nothing. -/
theorem Captures.of_same {ledger : Ledger} {call : Call} (hcaptures : Captures ledger loom)
    (hsame : SameReads loom (engine.after call loom))
    (hwrites : ∀ session, ¬WritesFor engine loom call session)
    (hreads : ∀ session origin, ¬reads lawful loom call session origin) :
    Captures (ledger.after lawful loom call) (engine.after call loom) := by
  intro session
  rw [hsame.readSet]
  obtain ⟨hleast, hmost⟩ := hcaptures session
  refine ⟨fun origin horigin => ?_, fun origin horigin => ⟨hwrites session, ?_⟩⟩
  · rcases horigin.2 with hold | ⟨-, hread⟩
    · exact hleast origin hold
    · exact absurd hread (hreads session origin)
  · exact Or.inl (hmost origin horigin)

/-- A call that takes the read set of its token's session and writes. -/
theorem Captures.of_taken {ledger : Ledger} {call : Call} {session : SessionId}
    (hcaptures : Captures ledger loom)
    (herase : (engine.after call loom).readSets = loom.readSets.erase session)
    (hwrites : ∀ other, WritesFor engine loom call other ↔ other = session)
    (hreads : ∀ session origin, ¬reads lawful loom call session origin) :
    Captures (ledger.after lawful loom call) (engine.after call loom) := by
  intro other
  rw [readSet_of_erase herase]
  obtain ⟨hleast, hmost⟩ := hcaptures other
  split
  · next heq =>
    subst heq
    exact ⟨fun origin horigin => absurd ((hwrites session).mpr rfl) horigin.1,
      fun origin horigin => absurd horigin (origins_default origin)⟩
  · next hne =>
    have hnot : ¬WritesFor engine loom call other := fun hwrites' =>
      hne ((hwrites other).mp hwrites').symm
    refine ⟨fun origin horigin => ?_, fun origin horigin => ⟨hnot, Or.inl (hmost origin horigin)⟩⟩
    rcases horigin.2 with hold | ⟨-, hread⟩
    · exact hleast origin hold
    · exact absurd hread (hreads other origin)

theorem Captures.of_read {ledger : Ledger} {token : CapabilityToken} {branch : BranchId}
    {key : Key} (hsound : lawful.Sound loom.pager) (hcaptures : Captures ledger loom)
    (hkeeps : KeepsToSession lawful loom (.read token branch key)) :
    Captures (ledger.after lawful loom (.read token branch key))
      (engine.after (.read token branch key) loom) := by
  intro session
  have hafter : engine.after (.read token branch key) loom =
      (engine.read token branch key loom).2 := FallibleState.snd_map _ _ _
  rcases hread : engine.read token branch key loom with ⟨outcome, last⟩
  rw [hafter, hread]
  obtain ⟨hleast, hmost⟩ := hcaptures session
  obtain ⟨hgrows, hbounded⟩ := read_grows hsound hread session
  constructor
  · rintro origin ⟨-, hold | ⟨⟨answer, hanswer⟩, hnew⟩⟩
    · exact hgrows origin (hleast origin hold)
    · rw [Engine.call, FallibleState.map_eq, hread] at hanswer
      cases outcome with
      | error error => cases hanswer
      | ok found =>
          exact read_captures hsound hread (hkeeps.2 token branch key rfl) session origin hnew
  · intro origin horigin
    refine ⟨?_, (hbounded origin horigin).imp_left (hmost origin)⟩
    rintro ⟨_, _, _, hderives, -⟩
    cases hderives

theorem writesFor_iff {call : Call} {token : CapabilityToken} {envelope : WriteEnvelope}
    (hderives : derives call = some (token, envelope)) {session : SessionId} :
    WritesFor engine loom call session ↔ (∃ answer, (engine.call call loom).1 = .ok answer ∧
      answer.isWritten = true) ∧ session = token.claims.session := by
  constructor
  · rintro ⟨_, _, answer, hderives', hanswer, hwritten, rfl⟩
    obtain ⟨rfl, -⟩ := Prod.mk.inj (Option.some.inj (hderives.symm.trans hderives'))
    exact ⟨⟨answer, hanswer, hwritten⟩, rfl⟩
  · rintro ⟨⟨answer, hanswer, hwritten⟩, rfl⟩
    exact ⟨token, envelope, answer, hderives, hanswer, hwritten, rfl⟩

theorem not_writesFor_of_none {call : Call} (hnone : derives call = none) (session : SessionId) :
    ¬WritesFor engine loom call session := by
  rintro ⟨_, _, _, hderives, -⟩
  rw [hnone] at hderives
  cases hderives

theorem captures_after {ledger : Ledger} {call : Call} (hsound : lawful.Sound loom.pager)
    (hcaptures : Captures ledger loom) (hkeeps : KeepsToSession lawful loom call) :
    Captures (ledger.after lawful loom call) (engine.after call loom) := by
  have hreads : ∀ session origin, touchesReads call = false ∨ derives call ≠ none →
      ¬reads lawful loom call session origin := by
    intro session origin hcall hread
    cases call <;> first | exact hread | exact hcall.elim (fun heq => by cases heq) (absurd rfl)
  by_cases htouches : touchesReads call = false
  · have hnone : derives call = none := by cases call <;> first | rfl | cases htouches
    exact hcaptures.of_same (call_sameReads htouches loom) (not_writesFor_of_none hnone)
      fun session origin => hreads session origin (Or.inl htouches)
  · cases call with
    | read token branch key => exact hcaptures.of_read hsound hkeeps
    | write token branch records hints envelope =>
        have hreads := fun session origin => hreads session origin (Or.inr (Option.some_ne_none _))
        rcases hwrite : engine.writeIndexedMany token branch records hints envelope loom with
          ⟨outcome, last⟩
        have hcall : engine.call (.write token branch records hints envelope) loom =
            (outcome.map .commit, last) := by
          rw [Engine.call, FallibleState.map_eq, hwrite]
        have hafter : engine.after (.write token branch records hints envelope) loom = last :=
          congrArg Prod.snd hcall
        rcases write_takes hwrite with ⟨⟨error, rfl⟩, hsame⟩ | ⟨hadmits, herase⟩
        · refine hcaptures.of_same (hafter ▸ hsame) (fun session => ?_) hreads
          rw [writesFor_iff rfl, hcall]
          rintro ⟨⟨_, hanswer, -⟩, -⟩
          cases hanswer
        · obtain ⟨hsession, hok⟩ := hkeeps.1 _ token envelope ⟨hadmits, rfl⟩ rfl
          refine hcaptures.of_taken (hafter ▸ hsession ▸ herase) (fun other => ?_) hreads
          rw [writesFor_iff rfl, hcall]
          rw [hcall] at hok
          cases outcome with
          | error error => cases hok
          | ok commit => exact and_iff_right ⟨_, rfl, rfl⟩
    | merge token source target policy envelope forbids =>
        have hreads := fun session origin => hreads session origin (Or.inr (Option.some_ne_none _))
        rcases hmerge : engine.mergeChecked token source target policy envelope forbids loom with
          ⟨outcome, last⟩
        have hcall : engine.call (.merge token source target policy envelope forbids) loom =
            (outcome.map .merge, last) := by
          rw [Engine.call, FallibleState.map_eq, hmerge]
        have hafter : engine.after (.merge token source target policy envelope forbids) loom =
            last := congrArg Prod.snd hcall
        rcases merge_takes hmerge with ⟨hnot, hsame⟩ | ⟨htakes, herase, hmerged⟩
        · refine hcaptures.of_same (hafter ▸ hsame) (fun session => ?_) hreads
          rw [writesFor_iff rfl, hcall]
          rintro ⟨⟨answer, hanswer, hwritten⟩, -⟩
          cases outcome with
          | error error => cases hanswer
          | ok result =>
              obtain rfl := Except.ok.inj hanswer
              cases result with
              | merged commit records automatic => exact hnot commit records automatic rfl
              | _ => cases hwritten
        · obtain ⟨hsession, hok⟩ := hkeeps.1 _ token envelope htakes rfl
          refine hcaptures.of_taken (hafter ▸ hsession ▸ herase) (fun other => ?_) hreads
          rw [writesFor_iff rfl, hcall]
          rw [hcall] at hok
          cases outcome with
          | error error => cases hok
          | ok result =>
              obtain ⟨commit, records, automatic, rfl⟩ := hmerged result rfl
              exact and_iff_right ⟨_, rfl, rfl⟩
    | _ => exact absurd rfl htouches

theorem Advanced.wroteFrom {branch : BranchId} {base commit : CommitId}
    {records : List (Key × Record)} {envelope : WriteEnvelope}
    {extraParents : ExtTreeMap Key (List NodeId)} {hints : ExtTreeMap Key IndexHint}
    {map map' : RecordMap} {persisted : Except LoomError Unit} {last : Loom σ ρ}
    {least most : Origins}
    (hadvanced : Advanced lawful (writeProgram engine.platform branch base records envelope
      (readSet envelope.session loom) extraParents hints) branch base commit () map map' persisted
      loom loom')
    (hpager : last.pager = loom'.pager) (hleast : least ≤ (readSet envelope.session loom).origins)
    (hmost : (readSet envelope.session loom).origins ≤ most) :
    WroteFrom lawful loom last branch commit records envelope extraParents hints least most base
      map map' where
  head := hadvanced.head
  stored := hadvanced.transacted.stored
  ran := hadvanced.transacted.ran
  stores := hpager ▸ hadvanced.transacted.stores
  nodes node hnode := by
    obtain ⟨hcaptured, hbounded⟩ := origins_derivationNodes hnode
    exact ⟨hleast.trans hcaptured, hbounded.trans (sup_le_sup_right hmost _)⟩

theorem derivesOwn_of_captures {ledger : Ledger} {call : Call}
    (hsound : lawful.Sound loom.pager) (hcaptures : Captures ledger loom)
    (hkeeps : KeepsToSession lawful loom call) : DerivesOwn lawful ledger loom call := by
  cases call with
  | write token branch records hints envelope =>
      intro commit hcommit
      generalize houtcome : Except.ok (Answer.commit commit) = outcome at hcommit
      cases call_step hsound (Prod.ext hcommit rfl) with
      | asked hasks _ => cases hasks
      | refused => cases houtcome
      | opened hopens _ _ _ _ => rcases hopens with hopens | hopens <;> cases hopens
      | @wrote _ _ _ _ _ _ _ _ _ persisted _ hadmits hadvanced =>
          cases persisted with
          | error error => cases houtcome
          | ok done =>
              obtain rfl := Answer.commit.inj (Except.ok.inj houtcome)
              obtain ⟨hsession, -⟩ := hkeeps.1 _ token envelope ⟨hadmits, rfl⟩ rfl
              obtain ⟨hleast, hmost⟩ := hcaptures token.claims.session
              exact ⟨_, _, _, hadvanced.wroteFrom rfl (hsession ▸ hleast) (hsession ▸ hmost)⟩
  | merge token source target policy envelope forbids =>
      intro commit count automatic hcommit
      have htakes : Takes engine loom (.merge token source target policy envelope forbids)
          envelope.session := by
        rcases hmerge : engine.mergeChecked token source target policy envelope forbids loom with
          ⟨outcome, last⟩
        rw [Engine.call, FallibleState.map_eq, hmerge] at hcommit
        rcases merge_takes hmerge with ⟨hnot, -⟩ | ⟨htakes, -⟩
        · cases outcome with
          | error error => cases hcommit
          | ok result =>
              obtain rfl := Answer.merge.inj (Except.ok.inj hcommit)
              exact absurd rfl (hnot commit count automatic)
        · exact htakes
      generalize houtcome : Except.ok (Answer.merge (.merged commit count automatic)) = outcome
        at hcommit
      cases call_step hsound (Prod.ext hcommit rfl) with
      | asked hasks _ => cases hasks
      | refused => cases houtcome
      | opened hopens _ _ _ _ => rcases hopens with hopens | hopens <;> cases hopens
      | stopped _ _ hstopped =>
          obtain rfl := Answer.merge.inj (Except.ok.inj houtcome)
          cases hstopped
      | halted => cases houtcome
      | @merged _ _ _ _ _ _ _ _ _ _ _ _ _ _ _ persisted _ _ hready hadvanced hpager =>
          cases persisted with
          | error error => cases houtcome
          | ok done =>
              obtain ⟨rfl, -⟩ := MergeResult.merged.inj (Answer.merge.inj (Except.ok.inj houtcome))
              obtain ⟨hsession, -⟩ := hkeeps.1 _ token envelope htakes rfl
              obtain ⟨hleast, hmost⟩ := hcaptures token.claims.session
              exact ⟨_, _, _, _, _, hadvanced.wroteFrom hpager (hsession ▸ hleast)
                (hsession ▸ hmost)⟩
  | _ => trivial

theorem allDeriveOwn_of_captures {ledger : Ledger} {calls : List Call}
    (hreachable : engine.Reachable lawful loom) (hcaptures : Captures ledger loom)
    (hkeep : AllKeepToSession lawful loom calls) : AllDeriveOwn lawful ledger loom calls := by
  induction calls generalizing ledger loom with
  | nil => trivial
  | cons call calls ih =>
      exact ⟨derivesOwn_of_captures hreachable.sound hcaptures hkeep.1,
        ih (hreachable.called call) (captures_after hreachable.sound hcaptures hkeep.1) hkeep.2⟩

/-- In every run, by any sessions in any order, whose calls keep to their sessions,
every write derives from what its token's session has read since its last write and
from nothing that only another session read. -/
theorem allDeriveOwn_of_allKeepToSession (hreachable : engine.Reachable lawful loom)
    (hempty : loom.readSets = ∅) {calls : List Call}
    (hkeep : AllKeepToSession lawful loom calls) : AllDeriveOwn lawful .empty loom calls :=
  allDeriveOwn_of_captures hreachable (captures_empty hempty) hkeep

/-- A page of the outside world. -/
def webPage : Observation where
  id := 0
  source := { system := ascii "web", recordId := ascii "1" }
  trust := .untrusted
  observedAt := none
  ingestedAt := 0
  payload := []

/-- Session `s` writes the page under `k` and reads it back. -/
def readBack : List Call :=
  [.openSessionNamed (ascii "s"),
    .write (memoryToken [ascii "s"]) (ascii "s") [(ascii "k", .observation webPage)] ∅
      (memoryEnvelope (ascii "s")),
    .read (memoryToken [ascii "s"]) (ascii "s") (ascii "k")]

/-- A write under a token of session `s` whose envelope names a session. -/
def envelopeWrite (session : SessionId) : Call :=
  .write (memoryToken [ascii "s"]) (ascii "s") [(ascii "l", .value (.counter (I64.ofU64 0)))] ∅
    (WriteEnvelope.new (ascii "a") session (ascii "s") (ascii "i"))

/-- A call that neither takes a read set nor reads keeps to its session. -/
theorem keepsToSession_of_none {call : Call} (hnone : derives call = none)
    (hread : ∀ token branch key, call ≠ .read token branch key) :
    KeepsToSession lawful loom call := by
  refine ⟨fun session token envelope _ hderives => ?_, fun token branch key heq =>
    absurd heq (hread token branch key)⟩
  rw [hnone] at hderives
  cases hderives

theorem keepsToSession_write {token : CapabilityToken} {branch : BranchId}
    {records : List (Key × Record)} {hints : ExtTreeMap Key IndexHint} {envelope : WriteEnvelope}
    (hsession : envelope.session = token.claims.session)
    (hok : (engine.call (.write token branch records hints envelope) loom).1.isOk = true) :
    KeepsToSession lawful loom (.write token branch records hints envelope) := by
  refine ⟨?_, nofun⟩
  rintro session _ _ ⟨-, rfl⟩ hderives
  obtain ⟨rfl, rfl⟩ := Prod.mk.inj (Option.some.inj hderives)
  exact ⟨hsession, hok⟩

/-- A read of a key that is not of the provenance layer keeps to its session. -/
theorem keepsToSession_read {token : CapabilityToken} {branch : BranchId} {key : Key}
    (hkey : isProvenance key = false) : KeepsToSession lawful loom (.read token branch key) := by
  refine ⟨fun _ _ _ _ hderives => ?_, fun _ _ _ heq hprovenance => ?_⟩
  · cases hderives
  · obtain ⟨rfl, rfl, rfl⟩ := Call.read.inj heq
    rw [hkey] at hprovenance
    cases hprovenance

/-- The session of the token takes its own read set. -/
theorem allDeriveOwn_of_allKeepToSession_own :
    AllDeriveOwn memoryLawful .empty memoryLoom (readBack ++ [envelopeWrite (ascii "s")]) := by
  refine allDeriveOwn_of_allKeepToSession memoryLoom_reachable rfl ⟨?_, ?_, ?_, ?_, trivial⟩
  · exact keepsToSession_of_none rfl nofun
  · exact keepsToSession_write rfl (by decide +kernel)
  · exact keepsToSession_read (by decide)
  · exact keepsToSession_write rfl (by decide +kernel)

/-- The memory engine after session `s` wrote the page. -/
def pageLoom : Loom MemPager (Option Refs) :=
  memoryEngine.afterAll (readBack.take 2) memoryLoom

theorem pageLoom_reachable : memoryEngine.Reachable memoryLawful pageLoom :=
  memoryLoom_reachable.afterAll _

theorem pageLoom_head : pageLoom.refs.branches[ascii "s"]? = some 1 := by decide +kernel

/-- The page is what commit 1 has under its key. -/
theorem pageLoom_stores : ∃ map : RecordMap, memoryLawful.Stores pageLoom.pager 1 map ∧
    map[ascii "k"]? = some (.observation webPage) := by
  have hpages : (memoryLawful.pages pageLoom.pager 1).isSome := by decide +kernel
  obtain ⟨pages, hpages⟩ := Option.isSome_iff_exists.mp hpages
  obtain ⟨map, hstored⟩ := pageLoom_reachable.sound 1 pages hpages
  have hshows : Shows memoryLawful pageLoom (ascii "s") map :=
    ⟨1, pageLoom_head, pages, hpages, hstored⟩
  exact ⟨map, ⟨pages, hpages, hstored⟩,
    hshows.getElem? pageLoom_reachable.sound pageLoom_head (by decide +kernel)⟩

/-- The read of the page returns. -/
theorem pageLoom_returns : ∃ answer, (memoryEngine.call (.read (memoryToken [ascii "s"]) (ascii "s")
    (ascii "k")) pageLoom).1 = .ok answer := by
  have hanswered : (memoryEngine.read (memoryToken [ascii "s"]) (ascii "s") (ascii "k")
      pageLoom).1 = .ok (some (.observation webPage)) := by decide +kernel
  rw [Engine.call, FallibleState.map_eq, hanswered]
  exact ⟨_, rfl⟩

/-- A write whose envelope names a session that has read nothing has no source. -/
theorem not_derivesOwn_envelopeWrite {ledger : Ledger} {loom : Loom MemPager (Option Refs)}
    {session : SessionId} {commit : CommitId}
    (hcommit : (memoryEngine.writeIndexedMany (memoryToken [ascii "s"]) (ascii "s")
      [(ascii "l", .value (.counter (I64.ofU64 0)))] ∅
      (WriteEnvelope.new (ascii "a") session (ascii "s") (ascii "i")) loom).1 = .ok commit)
    (hdefault : readSet session loom = ReadSet.default)
    (hleast : ledger.least (ascii "s") (.source webPage.source)) :
    ¬DerivesOwn memoryLawful ledger loom (envelopeWrite session) := by
  intro hown
  have hcall : (memoryEngine.call (envelopeWrite session) loom).1 = .ok (.commit commit) := by
    rw [envelopeWrite, Engine.call, FallibleState.map_eq, hcommit]
    rfl
  obtain ⟨base, _, _, hwrote⟩ := hown commit hcall
  obtain ⟨node, hnode⟩ : ∃ node, node ∈ derivationNodes memoryEngine.platform (ascii "s") base
      [(ascii "l", .value (.counter (I64.ofU64 0)))]
      (WriteEnvelope.new (ascii "a") session (ascii "s") (ascii "i")) (readSet session loom) ∅ :=
    ⟨_, List.mem_map.mpr ⟨(ascii "l", _), List.mem_filter.mpr ⟨List.mem_singleton_self _,
      by decide⟩, rfl⟩⟩
  rcases (origins_derivationNodes hnode).2 _ ((hwrote.nodes node hnode).1 _ hleast) with
    hmem | hmem | ⟨key, obs, hmem, -⟩
  · rw [hdefault] at hmem
    exact origins_default _ hmem
  · cases hmem
  · cases List.mem_singleton.mp hmem

/-- A write whose envelope names another session leaves out what its token's session
has read. -/
theorem foreign_session_launders :
    ¬AllDeriveOwn memoryLawful .empty memoryLoom (readBack ++ [envelopeWrite (ascii "x")]) := by
  rintro ⟨-, -, -, hown, -⟩
  obtain ⟨map, hstores, hrecord⟩ := pageLoom_stores
  have hread : reads memoryLawful pageLoom (.read (memoryToken [ascii "s"]) (ascii "s")
      (ascii "k")) (ascii "s") (.source webPage.source) :=
    ⟨rfl, by decide +kernel, map, _, ⟨1, pageLoom_head, hstores⟩, hrecord, webPage, rfl, rfl⟩
  refine not_derivesOwn_envelopeWrite
    (show (memoryEngine.writeIndexedMany _ _ _ _ _ _).1 = .ok 2 by decide +kernel)
    (by decide +kernel) ?_ hown
  exact ⟨not_writesFor_of_none rfl _, Or.inr ⟨pageLoom_returns, hread⟩⟩

end Engine

end LoomDB
