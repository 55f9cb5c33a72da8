import LoomDB.Branch.IndexSpec
import LoomDB.Branch.Maps
import LoomDB.Foundations.HashGraph
import LoomDB.Provenance.Flood

/-!
# Lineage

A node is named by the hash of a text that has the names of its parents in it. Where
every stored node is one the engine built, and a text that is hashed for the first time
gets a name that no earlier text foretells, the nodes of all commits together form no
cycle.
-/

namespace LoomDB

open Std (ExtTreeMap ExtTreeSet)
open KeyValue (ask put drop entries)

/-- The text a node is named after. -/
def DerivationNode.text (node : DerivationNode) : Bytes :=
  hashedBytes node.branch node.commit node.key node.actor node.derivedFrom node.sources

/-- The node that a record reads as, where the walk looks for nodes. -/
def nodeAt (key : Key) (record : Record) : Option DerivationNode :=
  if PROV_PREFIX.isPrefixOf key then
    match record with
    | .value (.blob bytes) => (DerivationNode.decode bytes).toOption
    | _ => none
  else none

/-- A text has the name of a node in it. -/
def Mentions (text : Bytes) (id : NodeId) : Prop :=
  id.asBytes <:+: text

instance (text : Bytes) (id : NodeId) : Decidable (Mentions text id) :=
  inferInstanceAs (Decidable (id.asBytes <:+: text))

/-- The text of a node has the names of its parents in it. -/
theorem mentions_text {node : DerivationNode} {parent : NodeId}
    (hparent : parent ∈ node.derivedFrom) : Mentions node.text parent := by
  obtain ⟨before, after, hparents⟩ := List.mem_iff_append.mp hparent
  refine ⟨node.branch ++ node.commit.asBytes ++ node.key ++ node.actor ++
    before.flatMap Digest.asBytes,
    after.flatMap Digest.asBytes ++ node.sources.flatMap SourceRef.toBytes, ?_⟩
  simp only [DerivationNode.text, DerivationNode.hashedBytes, hparents, List.flatMap_append,
    List.flatMap_cons, List.append_assoc]

/-! ## Where nodes are -/

theorem nodeAt_of_not_isPrefixOf {key : Key} (record : Record)
    (hkey : PROV_PREFIX.isPrefixOf key = false) : nodeAt key record = none := by
  unfold nodeAt
  rw [hkey]
  rfl

theorem nodeAt_of_isReserved {key : Key} (record : Record) (hkey : isReserved key = true) :
    nodeAt key record = none := by
  obtain ⟨rest, rfl⟩ := List.isPrefixOf_iff_prefix.mp hkey
  exact nodeAt_of_not_isPrefixOf record
    (isPrefixOf_append_eq_false (by decide) (by decide) rest)

theorem nodeAt_sourceIndexKey (source : SourceRef) (branch : BranchId) (seq : U64)
    (record : Record) : nodeAt (sourceIndexKey source branch seq) record = none := by
  simp only [sourceIndexKey, List.append_assoc]
  exact nodeAt_of_not_isPrefixOf record
    (isPrefixOf_append_eq_false (by decide) (by decide) _)

theorem nodeAt_eq_some {key : Key} {record : Record} {node : DerivationNode}
    (hnode : nodeAt key record = some node) :
    ∃ bytes, record = Record.blob bytes ∧ DerivationNode.decode bytes = .ok node := by
  unfold nodeAt at hnode
  split at hnode
  · split at hnode
    · next bytes =>
      refine ⟨bytes, rfl, ?_⟩
      cases hdecode : DerivationNode.decode bytes with
      | error error =>
          rw [hdecode] at hnode
          cases hnode
      | ok found =>
          rw [hdecode] at hnode
          rw [Option.some.inj hnode]
    · cases hnode
  · cases hnode

/-- The nodes of a walk were read among the records. -/
theorem mem_of_nodesAmong {records : List (Key × Record)} {nodes : NodeMap} {id : NodeId}
    {node : DerivationNode} (hfound : (nodesAmong records nodes)[id]? = some node) :
    nodes[id]? = some node ∨
      ∃ entry ∈ records, nodeAt entry.1 entry.2 = some node ∧ node.id = id := by
  induction records generalizing nodes with
  | nil => exact Or.inl hfound
  | cons entry records ih =>
      obtain ⟨key, record⟩ := entry
      have hrest : (∃ entry ∈ records, nodeAt entry.1 entry.2 = some node ∧ node.id = id) →
          ∃ entry ∈ (key, record) :: records, nodeAt entry.1 entry.2 = some node ∧
            node.id = id := by
        rintro ⟨entry, hentry, hnode⟩
        exact ⟨entry, List.mem_cons_of_mem _ hentry, hnode⟩
      unfold nodesAmong at hfound
      split at hfound
      · next hprefix =>
        split at hfound
        · next bytes =>
          split at hfound
          · next found hdecode =>
            rcases ih hfound with hhere | hthere
            · rw [OrderedMap.getElem?_insert] at hhere
              split at hhere
              · next heq =>
                obtain rfl := Option.some.inj hhere
                refine Or.inr ⟨_, List.mem_cons_self, ?_, heq⟩
                rw [nodeAt, if_pos hprefix]
                simp only [hdecode]
                rfl
              · exact Or.inl hhere
            · exact Or.inr (hrest hthere)
          · exact (ih hfound).imp_right hrest
        · exact (ih hfound).imp_right hrest
      · exact (ih hfound).imp_right hrest

/-! ## What a merge takes -/

/-- The policy gives, of its own, no record that reads as a node: one that does is a
record of the conflict. -/
def MergePolicy.InventsNoNode : MergePolicy → Prop
  | .custom resolve => ∀ report record key, resolve report = .replace record →
      nodeAt key record ≠ none → some record = report.records.base ∨
        some record = report.records.source ∨ some record = report.records.target
  | _ => True

theorem nodeAt_mergeTyped {platform : Platform} {base : Option Record}
    {source target merged : Record} (key : Key)
    (hmerged : mergeTyped platform base source target = some merged) :
    nodeAt key merged = none := by
  have hplain : (∀ bytes, merged ≠ Record.blob bytes) → nodeAt key merged = none := by
    intro hblob
    by_contra hsome
    obtain ⟨node, hnode⟩ := Option.ne_none_iff_exists'.mp hsome
    obtain ⟨bytes, rfl, -⟩ := nodeAt_eq_some hnode
    exact hblob bytes rfl
  refine hplain fun bytes hblob => ?_
  subst hblob
  unfold mergeTyped at hmerged
  split at hmerged
  · cases hmerged
  · cases hmerged
  · unfold mergeClaims at hmerged
    dsimp only at hmerged
    split at hmerged
    · split at hmerged
      · cases hmerged
      · cases hmerged
    · split at hmerged
      · cases hmerged
      · cases hmerged
  · cases hmerged

/-- What a policy resolves a conflict to is the source's record, or its own. -/
theorem resolve_writes {policy : MergePolicy} {source : Option Record} {report : MergeConflict}
    {record : Record}
    (hwrites : resolve policy source report = .write record ∨
      resolve policy source report = .resolved record) :
    some record = source ∨ ∃ answer, policy = .custom answer ∧ answer report = .replace record := by
  have hsource : resolve .takeSource source report = .write record ∨
      resolve .takeSource source report = .resolved record → some record = source := by
    intro hfound
    cases source with
    | none => rcases hfound with hfound | hfound <;> cases hfound
    | some found =>
        rcases hfound with hfound | hfound
        · cases hfound
        · rw [Decision.resolved.inj hfound]
  cases policy with
  | takeSource => exact Or.inl (hsource hwrites)
  | takeTarget => rcases hwrites with hwrites | hwrites <;> cases hwrites
  | conflict => rcases hwrites with hwrites | hwrites <;> cases hwrites
  | custom answer =>
      unfold resolve at hwrites
      dsimp only at hwrites
      cases hanswer : answer report with
      | source =>
          rw [hanswer] at hwrites
          exact Or.inl (hsource hwrites)
      | target =>
          rw [hanswer] at hwrites
          rcases hwrites with hwrites | hwrites <;> cases hwrites
      | replace found =>
          rw [hanswer] at hwrites
          rcases hwrites with hwrites | hwrites
          · cases hwrites
          · exact Or.inr ⟨answer, rfl, by rw [hanswer, Decision.resolved.inj hwrites]⟩
      | unresolved =>
          rw [hanswer] at hwrites
          rcases hwrites with hwrites | hwrites <;> cases hwrites

/-- What a merge decides to write is the source's record, or comes from the typed rules or
from the policy, asked about the conflict. -/
theorem decide_writes {platform : Platform} {key : Key} {base source target : Option Record}
    {policy : MergePolicy} {decision : Decision} {record : Record}
    (hdecide : decide platform key base source target policy = .ok decision)
    (hwrites : decision = .write record ∨ decision = .resolved record) :
    some record = source ∨ typedDecision platform base source target = some record ∨
      ∃ report answer, conflictOf platform key base source target = .ok report ∧
        policy = .custom answer ∧ answer report = .replace record := by
  unfold LoomDB.decide at hdecide
  split at hdecide
  · cases hdecide
    rcases hwrites with hwrites | hwrites <;> cases hwrites
  split at hdecide
  · cases hdecide
    rcases hwrites with hwrites | hwrites <;> cases hwrites
  split at hdecide
  · split at hdecide
    · cases hdecide
      rcases hwrites with hwrites | hwrites
      · cases hwrites
        exact Or.inl rfl
      · cases hwrites
    · cases hdecide
      rcases hwrites with hwrites | hwrites <;> cases hwrites
  split at hdecide
  · next merged htyped =>
    cases hdecide
    rcases hwrites with hwrites | hwrites
    · cases hwrites
      exact Or.inr (Or.inl htyped)
    · cases hwrites
  · cases hconflict : conflictOf platform key base source target with
    | error error =>
        rw [hconflict] at hdecide
        cases hdecide
    | ok report =>
        rw [hconflict] at hdecide
        obtain rfl := Except.ok.inj hdecide
        rcases resolve_writes hwrites with hsource | ⟨answer, rfl, hanswer⟩
        · exact Or.inl hsource
        · exact Or.inr (Or.inr ⟨report, answer, rfl, rfl, hanswer⟩)

/-- A node that a merge decides on is one of the three records. -/
theorem eq_or_of_decide {platform : Platform} {key : Key} {base source target : Option Record}
    {policy : MergePolicy} {decision : Decision} {record : Record}
    (hdecide : decide platform key base source target policy = .ok decision)
    (hwrites : decision = .write record ∨ decision = .resolved record)
    (hinvents : policy.InventsNoNode) (hnode : nodeAt key record ≠ none) :
    some record = base ∨ some record = source ∨ some record = target := by
  rcases decide_writes hdecide hwrites with
    hsource | htyped | ⟨report, answer, hconflict, rfl, hanswer⟩
  · exact Or.inr (Or.inl hsource)
  · unfold typedDecision at htyped
    split at htyped
    · exact absurd (nodeAt_mergeTyped key htyped) hnode
    · cases htyped
  · have hside := hinvents report record key hanswer hnode
    rwa [records_conflictOf hconflict] at hside

/-! ## What a write puts there -/

/-- The nodes a write builds: none for bookkeeping alone. -/
def builtNodes (platform : Platform) (branch : BranchId) (head : CommitId)
    (written : List (Key × Record)) (envelope : WriteEnvelope) (captured : ReadSet)
    (extraParents : ExtTreeMap Key (List NodeId)) : List DerivationNode :=
  if written.any fun entry => !isProvenance entry.1 && !isReserved entry.1 then
    derivationNodes platform branch head written envelope captured extraParents
  else []

/-- A node under its key is one of the nodes. -/
def NodeAmong (nodes : List DerivationNode) (key : Key) (record : Record) : Prop :=
  ∀ node, nodeAt key record = some node → node ∈ nodes

theorem NodeAmong.of_none {nodes : List DerivationNode} {key : Key} {record : Record}
    (hnone : nodeAt key record = none) : NodeAmong nodes key record := by
  intro node hnode
  rw [hnone] at hnode
  cases hnode

theorem appendNodes_inserts {nodes : List DerivationNode} (branch : BranchId)
    (built : List DerivationNode) (seq : U64) (hbuilt : built ⊆ nodes) :
    (appendNodes branch built seq).Inserts (NodeAmong nodes) := by
  induction built generalizing seq with
  | nil => trivial
  | cons node built ih =>
      obtain ⟨hnode, hrest⟩ := List.cons_subset.mp hbuilt
      have hstored : NodeAmong nodes (nodeStorageKey branch seq) (Record.blob node.encode) := by
        intro found hfound
        obtain ⟨bytes, hbytes, hdecode⟩ := nodeAt_eq_some hfound
        obtain rfl : node.encode = bytes := by cases hbytes; rfl
        rw [DerivationNode.decode_encode] at hdecode
        exact Except.ok.inj hdecode ▸ hnode
      have hsources : (node.sources.forM fun source =>
          (put (sourceIndexKey source branch seq) (Record.blob node.id.asBytes) :
            RecordProgram Unit)).Inserts (NodeAmong nodes) :=
        .forM fun source _ => .put (.of_none (nodeAt_sourceIndexKey source branch seq _))
      have hlatest : NodeAmong nodes (latestNodeKey node.key) (Record.blob node.id.asBytes) :=
        .of_none (nodeAt_of_isReserved _ (isReserved_latestNodeKey node.key))
      exact .bind (.bind (.put hstored) fun _ => .bind (.put hlatest) fun _ => hsources) fun _ =>
        .bind (.lift _) fun _ => ih _ hrest

theorem indexRecord_inserts {nodes : List DerivationNode} (captured : ReadSet)
    (hints : ExtTreeMap Key IndexHint) (key : Key) (record : Record) :
    (indexRecord captured hints key record).Inserts (NodeAmong nodes) := by
  unfold indexRecord
  split
  · trivial
  · next hint _ =>
    dsimp only
    split
    · trivial
    · refine .bind (.put (.of_none (nodeAt_of_isReserved _
        (IndexEntry.isReserved_storageKey key)))) fun _ => ?_
      cases hint.embedding with
      | none => trivial
      | some embedding =>
          exact .put (.of_none (nodeAt_of_isReserved _ (isReserved_annBufferKey key)))

theorem appendHistory_inserts {nodes : List DerivationNode} (record : Record) :
    (appendHistory record).Inserts (NodeAmong nodes) := by
  cases record with
  | claim claim =>
      refine .bind .entries fun records => .bind (.forM fun entry hentry => ?_) fun _ =>
        .bind (.lift _) fun _ => .put (.of_none (nodeAt_of_isReserved _
          (ClaimVersion.isReserved_storageKey _ _ _)))
      obtain ⟨hmem, -⟩ := List.mem_filter.mp hentry
      obtain ⟨⟨key, found⟩, -, hversion⟩ := List.mem_filterMap.mp hmem
      dsimp only at hversion
      split at hversion
      · next hstarts =>
        split at hversion
        · obtain ⟨version, -, rfl⟩ := Option.map_eq_some_iff.mp hversion
          exact .put (.of_none (nodeAt_of_isReserved _
            (ClaimVersion.isReserved_of_historyPrefix hstarts)))
        · cases hversion
      · cases hversion
  | _ => trivial

/-- What a write puts where nodes are, the caller gave or the engine built. -/
theorem writeProgram_inserts {nodes : List DerivationNode} {platform : Platform}
    {branch : BranchId} {head : CommitId} {written : List (Key × Record)}
    {envelope : WriteEnvelope} {captured : ReadSet} {extraParents : ExtTreeMap Key (List NodeId)}
    {hints : ExtTreeMap Key IndexHint}
    (hwritten : ∀ entry ∈ written, NodeAmong nodes entry.1 entry.2)
    (hbuilt : builtNodes platform branch head written envelope captured extraParents ⊆ nodes) :
    (writeProgram platform branch head written envelope captured extraParents hints).Inserts
      (NodeAmong nodes) := by
  have hrest : (indexAppends written captured hints).Inserts (NodeAmong nodes) :=
    .bind (.forM fun _ _ => indexRecord_inserts _ _ _ _) fun _ =>
      .forM fun _ _ => appendHistory_inserts _
  refine .bind (.forM fun entry hentry => .put (hwritten entry hentry)) fun _ => ?_
  unfold engineAppends
  unfold builtNodes at hbuilt
  split
  · next hany =>
    rw [if_pos hany] at hbuilt
    exact .bind (.bind (.ask _) fun _ => .bind (appendNodes_inserts branch _ _ hbuilt) fun _ =>
      .put (.of_none (nodeAt_of_isReserved _ (isReserved_provSeqKey branch)))) fun _ => hrest
  · exact hrest

namespace Engine

theorem invalidateClaim_inserts {nodes : List DerivationNode} (key : Key)
    (found : Option Record) : (invalidateClaim key found).Inserts (NodeAmong nodes) := by
  unfold invalidateClaim
  split
  · split
    · refine .bind (.put (.of_none ?_)) fun _ => trivial
      unfold nodeAt
      split <;> rfl
    · trivial
  · trivial

theorem forgetKeys_inserts {nodes : List DerivationNode} (keys : List Key) :
    (forgetKeys keys).Inserts (NodeAmong nodes) := by
  induction keys with
  | nil => trivial
  | cons key keys ih =>
      exact .bind (.drop _) fun _ => .bind (.ask _) fun found =>
        .bind (invalidateClaim_inserts key found) fun _ => ih.bind fun _ => trivial

/-! ## Runs -/

variable {σ ρ : Type} {engine : Engine σ ρ} {lawful : engine.pager.Lawful}
  {loom : Loom σ ρ} {built : List DerivationNode}

/-- The nodes that a write or a merge builds, in order, if it gets to its write. -/
inductive Builds (engine : Engine σ ρ) (loom : Loom σ ρ) : Call → List DerivationNode → Prop
  | wrote {token : CapabilityToken} {branch : BranchId} {records : List (Key × Record)}
      {hints : ExtTreeMap Key IndexHint} {envelope : WriteEnvelope} {base : CommitId}
      (admitted : writeAdmits engine loom token branch envelope = .ok ())
      (head : loom.refs.branches[branch]? = some base) :
      Builds engine loom (.write token branch records hints envelope)
        (builtNodes engine.platform branch base records envelope (readSet envelope.session loom) ∅)
  | merged {token : CapabilityToken} {source target : BranchId} {policy : MergePolicy}
      {envelope : WriteEnvelope} {forbids : Key → Record → Option Bytes}
      {sourceHead targetHead base : CommitId} {writes : List (Key × Record)} {automatic : ℕ}
      {parents : ExtTreeMap Key (List NodeId)}
      (ready : MergeReady engine loom token source target policy envelope forbids sourceHead
        targetHead base writes automatic parents) :
      Builds engine loom (.merge token source target policy envelope forbids)
        (builtNodes engine.platform target targetHead
          (writes ++ [(mergedFromKey source, Record.blob sourceHead.asBytes)]) envelope
          (readSet envelope.session loom) parents)

theorem Builds.unique {call : Call} {nodes nodes' : List DerivationNode}
    (hbuilds : Builds engine loom call nodes) (hother : Builds engine loom call nodes') :
    nodes' = nodes := by
  cases hbuilds with
  | wrote _ hhead =>
      cases hother with
      | wrote _ hhead' =>
          obtain rfl := Option.some.inj (hhead.symm.trans hhead')
          rfl
  | merged hready =>
      cases hother with
      | merged hready' =>
          obtain ⟨rfl, rfl, rfl⟩ := hready.heads.unique hready'.heads
          have hplanned := Except.ok.inj (hready.planned.symm.trans hready'.planned)
          obtain ⟨rfl, rfl⟩ := MergeOutcome.merged.inj hplanned
          have hparents := (Prod.mk.inj (hready.parents.symm.trans hready'.parents)).1
          obtain rfl := Except.ok.inj hparents
          rfl

/-- The caller hands in no record that reads as a node: neither in a write nor, of the
policy's own, in a merge. -/
def HandsInNoNode : Call → Prop
  | .write _ _ records _ _ => ∀ entry ∈ records, nodeAt entry.1 entry.2 = none
  | .merge _ _ _ policy _ _ => policy.InventsNoNode
  | _ => True

/-- A database, and the nodes that were built on the way to it from a new one, the last
one first. -/
inductive Grown (lawful : engine.pager.Lawful) : List DerivationNode → Loom σ ρ → Prop
  | opened {pager : σ} {store : ρ} {loom : Loom σ ρ} (fresh : engine.Fresh lawful pager store)
      (opened : engine.assemble pager store = .ok loom) : Grown lawful [] loom
  | built {built nodes : List DerivationNode} {loom : Loom σ ρ} {call : Call}
      (grown : Grown lawful built loom) (handsIn : HandsInNoNode call)
      (builds : Builds engine loom call nodes) :
      Grown lawful (nodes.reverse ++ built) (engine.after call loom)
  | called {built : List DerivationNode} {loom : Loom σ ρ} {call : Call}
      (grown : Grown lawful built loom) (handsIn : HandsInNoNode call)
      (builds : ∀ nodes, ¬ Builds engine loom call nodes) :
      Grown lawful built (engine.after call loom)
  | reopened {built : List DerivationNode} {loom loom' : Loom σ ρ} (grown : Grown lawful built loom)
      (opened : engine.assemble loom.pager loom.store = .ok loom') : Grown lawful built loom'

theorem Grown.reachable (hgrown : Grown lawful built loom) : engine.Reachable lawful loom := by
  induction hgrown with
  | opened hfresh hopened => exact .opened hfresh hopened
  | built _ _ _ ih => exact ih.called _
  | called _ _ _ ih => exact ih.called _
  | reopened _ hopened ih => exact ih.reopened hopened

/-- Every node of the map is among the nodes. -/
def NodesAmong (nodes : List DerivationNode) (map : RecordMap) : Prop :=
  ∀ key record, map[key]? = some record → NodeAmong nodes key record

theorem NodesAmong.mono {nodes more : List DerivationNode} {map : RecordMap}
    (hnodes : NodesAmong nodes map) (hmore : nodes ⊆ more) : NodesAmong more map :=
  fun key record hrecord node hnode => hmore (hnodes key record hrecord node hnode)

theorem NodesAmong.of_inserts {α : Type} {nodes : List DerivationNode} {map map' : RecordMap}
    {program : RecordProgram α} {result : α} (hnodes : NodesAmong nodes map)
    (hinserts : program.Inserts (NodeAmong nodes))
    (hrun : program.onMap map = .ok (result, map')) : NodesAmong nodes map' :=
  fun key record hrecord => (hinserts.getElem? hrun hrecord).elim (hnodes key record) id

/-- A call adds to the stored nodes those it builds. -/
theorem Makes.nodesAmong {call : Call} {branch : BranchId} {map map' : RecordMap}
    {nodes : List DerivationNode} (hmakes : Makes engine loom call branch map map')
    (hsound : lawful.Sound loom.pager) (hall : lawful.AllMaps (NodesAmong nodes) loom.pager)
    (hhands : HandsInNoNode call) (hbuilds : ∀ found, Builds engine loom call found → found ⊆ nodes)
    (hmap : NodesAmong nodes map) : NodesAmong nodes map' := by
  cases hmakes with
  | wrote hhead hadmits hrun =>
      refine hmap.of_inserts (writeProgram_inserts (fun entry hentry => ?_) ?_) hrun
      · exact .of_none (hhands entry hentry)
      · exact hbuilds _ (.wrote hadmits hhead)
  | forgot _ hrun => exact hmap.of_inserts (forgetKeys_inserts _) hrun
  | @kept _ _ upkeep _ _ _ hrun =>
      refine hmap.of_inserts (upkeep.property.inserts fun key record hkey => ?_) hrun
      exact .of_none (nodeAt_of_isReserved record (isReserved_of_isVectorKey hkey))
  | @merged _ source _ _ _ _ sourceHead _ _ _ _ _ _ _ hready hrun =>
      refine hmap.of_inserts (writeProgram_inserts (fun entry hentry => ?_)
        (hbuilds _ (.merged hready))) hrun
      obtain ⟨baseMap, sourceMap, targetMap, keys, plan, houtcome, hplanned⟩ :=
        planMerge_spec hready.planned hsound
      obtain ⟨rfl, -⟩ := mem_writes_of_planned hplanned houtcome
      rcases List.mem_append.mp hentry with hentry | hentry
      · obtain ⟨key, record⟩ := entry
        intro node hnode
        rcases (mem_writes_planOver hplanned.planned).mp hentry with hnone | ⟨-, decision, hdecision,
          hwrites⟩
        · cases hnone
        have hside := eq_or_of_decide hdecision hwrites hhands (hnode ▸ Option.some_ne_none node)
        rcases hside with hside | hside | hside
        · exact hall _ _ hplanned.base key record hside.symm node hnode
        · exact hall _ _ hplanned.source key record hside.symm node hnode
        · exact hall _ _ hplanned.target key record hside.symm node hnode
      · rw [List.mem_singleton.mp hentry]
        exact .of_none (nodeAt_of_isReserved _ (isReserved_mergedFromKey source))

/-- Every stored node was built. -/
theorem Grown.nodesAmong (hgrown : Grown lawful built loom) :
    lawful.AllMaps (NodesAmong built) loom.pager := by
  induction hgrown with
  | opened hfresh hopened =>
      refine AllMaps.opened hfresh hopened fun key record hrecord => ?_
      simp at hrecord
  | @built built nodes loom call hgrown hhands hbuilds ih =>
      have hall : lawful.AllMaps (NodesAmong (nodes.reverse ++ built)) loom.pager :=
        fun commit map hstores => (ih commit map hstores).mono (List.subset_append_right _ _)
      refine AllMaps.after hgrown.reachable.sound hall fun _ hmakes hmap =>
        hmakes.nodesAmong hgrown.reachable.sound hall hhands (fun found hfound => ?_) hmap
      obtain rfl := hbuilds.unique hfound
      exact fun node hnode => List.mem_append_left _ (List.mem_reverse.mpr hnode)
  | called hgrown hhands hnone ih =>
      exact AllMaps.after hgrown.reachable.sound ih fun _ hmakes hmap =>
        hmakes.nodesAmong hgrown.reachable.sound ih hhands
          (fun found hfound => absurd hfound (hnone found)) hmap
  | reopened _ hopened ih => exact AllMaps.reopened ih hopened

/-! ## No cycle -/

/-- Every node is named by the hash of its text. -/
theorem Grown.named (hgrown : Grown lawful built loom) {node : DerivationNode}
    (hnode : node ∈ built) : engine.platform.blake3 node.text = node.id := by
  have hnamed : ∀ {branch : BranchId} {head : CommitId} {written : List (Key × Record)}
      {envelope : WriteEnvelope} {captured : ReadSet} {extraParents : ExtTreeMap Key (List NodeId)},
      node ∈ builtNodes engine.platform branch head written envelope captured extraParents →
        engine.platform.blake3 node.text = node.id := by
    intro branch head written envelope captured extraParents hmem
    unfold builtNodes at hmem
    split at hmem
    · obtain ⟨⟨key, record⟩, -, rfl⟩ := List.mem_map.mp hmem
      rfl
    · cases hmem
  induction hgrown with
  | opened => cases hnode
  | built _ _ hbuilds ih =>
      rcases List.mem_append.mp hnode with hnew | hold
      · have hnew := List.mem_reverse.mp hnew
        cases hbuilds with
        | wrote => exact hnamed hnew
        | merged => exact hnamed hnew
      · exact ih hold
  | called _ _ _ ih => exact ih hnode
  | reopened _ _ ih => exact ih hnode

/-- A node stored in some commit names the parent. -/
def DerivesIn (lawful : engine.pager.Lawful) (state : σ) (parent child : NodeId) : Prop :=
  ∃ commit map key record node, lawful.Stores state commit map ∧ map[key]? = some record ∧
    nodeAt key record = some node ∧ parent ∈ node.derivedFrom ∧ node.id = child

/-- The stored nodes form no cycle. -/
theorem Grown.acyclic (hgrown : Grown lawful built loom)
    (hunforeseen : HashGraph.Unforeseen engine.platform.blake3 Mentions
      (built.map DerivationNode.text)) (id : NodeId) :
    ¬ Relation.TransGen (DerivesIn lawful loom.pager) id id := by
  have hnames : ∀ parent child, DerivesIn lawful loom.pager parent child →
      HashGraph.Names engine.platform.blake3 Mentions (built.map DerivationNode.text) parent
        child := by
    rintro parent child ⟨commit, map, key, record, node, hstores, hrecord, hnode, hparent, rfl⟩
    have hbuilt := hgrown.nodesAmong commit map hstores key record hrecord node hnode
    exact ⟨node.text, List.mem_map_of_mem hbuilt, mentions_text hparent, hgrown.named hbuilt⟩
  exact fun hcycle => hunforeseen.acyclic id (Relation.TransGen.mono hnames _ _ hcycle)

/-- The nodes that a walk reads on a branch are stored. -/
theorem derivesIn_of_derives {branch : BranchId} {nodes : NodeMap}
    (hsound : lawful.Sound loom.pager) (hnodes : (engine.nodesOn branch loom).1 = .ok nodes)
    {parent child : NodeId} (hderives : Derives nodes parent child) :
    DerivesIn lawful loom.pager parent child := by
  rcases hresult : engine.nodesOn branch loom with ⟨result, after⟩
  rw [hresult] at hnodes
  obtain rfl : result = .ok nodes := hnodes
  rw [nodesOn, FallibleState.bind_eq_ok] at hresult
  obtain ⟨commit, _, hhead, hresult⟩ := hresult
  obtain ⟨-, rfl⟩ := head_eq_ok.mp hhead
  rw [FallibleState.bind_eq_ok] at hresult
  obtain ⟨records, _, hreading, hresult⟩ := hresult
  obtain ⟨rfl, -⟩ := FallibleState.pure_eq_ok.mp hresult
  obtain ⟨-, map, _, hstores, hran⟩ := reading_spec hsound hreading
  obtain ⟨rfl, -⟩ := Prod.mk.inj (Except.ok.inj hran)
  obtain ⟨id, node, hfound, hparent, hchild⟩ := hderives
  rcases mem_of_nodesAmong hfound with hnone | ⟨⟨key, record⟩, hentry, hnode, -⟩
  · simp at hnone
  · exact ⟨commit, map, key, record, node, hstores,
      ExtTreeMap.mem_toList_iff_getElem?_eq_some.mp hentry, hnode, hparent, hchild⟩

/-- A line of derivations comes to no node twice. -/
theorem nodup_of_line {branch : BranchId} {nodes : NodeMap} {seeds : ExtTreeSet NodeId}
    {line : List NodeId} (hsound : lawful.Sound loom.pager)
    (hacyclic : ∀ id, ¬ Relation.TransGen (DerivesIn lawful loom.pager) id id)
    (hnodes : (engine.nodesOn branch loom).1 = .ok nodes) (hline : Line nodes seeds line) :
    line.Nodup := by
  have hchain : line.IsChain fun child parent =>
      Relation.TransGen (DerivesIn lawful loom.pager) parent child :=
    hline.derives.imp fun child parent hderives =>
      .single (derivesIn_of_derives hsound hnodes hderives)
  have htrans : IsTrans NodeId fun child parent =>
      Relation.TransGen (DerivesIn lawful loom.pager) parent child :=
    ⟨fun _ _ _ hfirst hsecond => hsecond.trans hfirst⟩
  refine (List.isChain_iff_pairwise.mp hchain).imp fun {child parent} hreach heq => ?_
  exact hacyclic parent (heq ▸ hreach)

end Engine

end LoomDB
