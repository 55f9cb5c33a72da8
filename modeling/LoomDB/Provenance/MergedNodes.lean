import LoomDB.Branch.Containment
import LoomDB.Branch.Nodes
import LoomDB.Provenance.SourceIndex
import LoomDB.Provenance.TaintSpec

/-!
# The nodes of a merge

A write takes the next places of its branch for the nodes it builds, and a merge writes the
caller's records together with the mark of what was merged, under a reserved key. So a merge
that takes over any of the caller's records builds a node for the mark as well.
-/

namespace LoomDB

open Std (ExtTreeMap ExtTreeSet)
open KeyValue (put)

/-- A node at a place that the branch took between the two maps. -/
def NewNode (before after : RecordMap) (branch : BranchId) (node : DerivationNode) : Prop :=
  ∃ seq, nextPlace before branch ≤ seq ∧ seq < nextPlace after branch ∧
    StoredAt after branch seq node

/-- No reserved key is one of the provenance layer. -/
theorem isProvenance_of_isReserved {key : Key} (hreserved : isReserved key = true) :
    isProvenance key = false := by
  obtain ⟨rest, rfl⟩ := List.isPrefixOf_iff_prefix.mp hreserved
  by_contra hprovenance
  rcases Bool.or_eq_true_iff.mp ((Bool.not_eq_false _).mp hprovenance) with hstarts | hstarts
  all_goals
    rw [isPrefixOf_append_eq_false (by decide) (by decide) rest] at hstarts
    cases hstarts

section Places

variable {branch : BranchId} {map map' : RecordMap}

theorem lt_of_next {seq after : U64} (hnext : seq.next = .ok after) : seq < after := by
  have hval := Tree.U64.next_eq_ok hnext
  exact Fin.lt_def.mpr (by omega)

theorem next_le_of_lt {place seq after : U64} (hnext : seq.next = .ok after)
    (hplace : seq < place) : after ≤ place := by
  have hval := Tree.U64.next_eq_ok hnext
  exact Fin.le_def.mpr (by have := Fin.lt_def.mp hplace; omega)

/-- What appending a node does to the places of its branch. -/
theorem getElem?_appendNode_place {node : DerivationNode} {seq : U64}
    (hrun : (appendNode branch node seq).onMap map = .ok ((), map')) (place : U64) :
    map'[nodeStorageKey branch place]? =
      if place = seq then some (Record.blob node.encode) else map[nodeStorageKey branch place]? := by
  rw [getElem?_appendNode hrun (isProvenance_nodeStorageKey branch place)]
  refine if_congr (nodeStorageKey_inj.trans (and_iff_right rfl)) rfl (if_neg ?_)
  rintro ⟨source, -, hentry⟩
  exact isPrefixOf_absurd (isPrefixOf_nodeStorageKey branch place)
    (hentry ▸ isPrefixOf_sourceIndexKey source branch seq)

/-- The nodes take the places from the first one on, and no others. -/
theorem appendNodes_places {nodes : List DerivationNode} {seq seq' : U64}
    (hrun : (appendNodes branch nodes seq).onMap map = .ok (seq', map')) :
    seq ≤ seq' ∧
      (∀ place, place < seq → map'[nodeStorageKey branch place]? = map[nodeStorageKey branch place]?) ∧
      ∀ node, node ∈ nodes ↔
        ∃ place, seq ≤ place ∧ place < seq' ∧ StoredAt map' branch place node := by
  induction nodes generalizing seq map with
  | nil =>
      obtain ⟨rfl, rfl⟩ := Prod.mk.inj (Except.ok.inj hrun)
      refine ⟨le_rfl, fun _ _ => rfl, fun node => iff_of_false List.not_mem_nil ?_⟩
      rintro ⟨place, hle, hlt, -⟩
      exact absurd hlt (not_lt_of_ge hle)
  | cons first nodes ih =>
      rw [appendNodes, KeyValue.onMap_bind_eq_ok] at hrun
      obtain ⟨_, middle, hfirst, hrun⟩ := hrun
      obtain ⟨after, middle', hlift, hrest⟩ := KeyValue.onMap_bind_eq_ok.mp hrun
      obtain ⟨hnext, hmiddle⟩ := KeyValue.onMap_lift_eq_ok.mp hlift
      dsimp only at hmiddle
      subst hmiddle
      obtain ⟨hle, hbelow, hnodes⟩ := ih hrest
      have hafter := lt_of_next hnext
      have hhere : StoredAt map' branch seq first := by
        rw [StoredAt, hbelow seq hafter, getElem?_appendNode_place hfirst, if_pos rfl]
      refine ⟨hafter.le.trans hle, fun place hplace => ?_, fun node => ?_⟩
      · rw [hbelow place (hplace.trans hafter), getElem?_appendNode_place hfirst,
          if_neg (ne_of_lt hplace)]
      · rw [List.mem_cons, hnodes]
        constructor
        · rintro (rfl | ⟨place, hge, hlt, hstored⟩)
          · exact ⟨seq, le_rfl, hafter.trans_le hle, hhere⟩
          · exact ⟨place, hafter.le.trans hge, hlt, hstored⟩
        · rintro ⟨place, hge, hlt, hstored⟩
          rcases hge.eq_or_lt with rfl | hgt
          · exact Or.inl (hstored.unique hhere)
          · exact Or.inr ⟨place, next_le_of_lt hnext hgt, hlt, hstored⟩

theorem NewNode.congr {before after after' : RecordMap} {node : DerivationNode}
    (hsame : ∀ key : Key, isLedgerKey key = true → after'[key]? = after[key]?) :
    NewNode before after' branch node ↔ NewNode before after branch node := by
  have hnext : nextPlace after' branch = nextPlace after branch := by
    rw [nextPlace, hsame _ (isLedgerKey_provSeqKey branch), nextPlace]
  unfold NewNode
  rw [hnext]
  refine exists_congr fun seq => and_congr_right fun _ => and_congr_right fun _ => ?_
  rw [StoredAt, hsame _ (isLedgerKey_of_isProvenance (isProvenance_nodeStorageKey branch seq)),
    StoredAt]

/-- The new nodes are the ones that were appended. -/
theorem appendProvenance_newNode {nodes : List DerivationNode}
    (hrun : (appendProvenance branch nodes).onMap map = .ok ((), map')) (node : DerivationNode) :
    NewNode map map' branch node ↔ node ∈ nodes := by
  rw [appendProvenance, KeyValue.onMap_ask_bind] at hrun
  obtain ⟨seq, middle, hnodes, hrun⟩ := KeyValue.onMap_bind_eq_ok.mp hrun
  rw [KeyValue.onMap_put] at hrun
  obtain ⟨-, rfl⟩ := Prod.mk.inj (Except.ok.inj hrun)
  obtain ⟨-, -, hplaces⟩ := appendNodes_places hnodes
  rw [hplaces]
  unfold NewNode
  have hnext : nextPlace (middle.insert (provSeqKey branch) (.value (.counter (I64.ofU64 seq))))
      branch = seq := by
    rw [nextPlace, OrderedMap.getElem?_insert, if_pos rfl, provSeq, I64.toU64_ofU64]
  rw [hnext]
  refine exists_congr fun place => and_congr_right fun _ => and_congr_right fun _ => ?_
  rw [StoredAt, OrderedMap.getElem?_insert, if_neg, StoredAt]
  intro heq
  have hkey := isProvenance_of_isReserved (isReserved_provSeqKey branch)
  rw [heq, isProvenance_nodeStorageKey] at hkey
  cases hkey

/-- A write that leaves the counter of its branch alone stores the nodes it builds as new ones. -/
theorem writeProgram_newNode {platform : Platform} {head : CommitId}
    {written : List (Key × Record)} {envelope : WriteEnvelope} {captured : ReadSet}
    {extraParents : ExtTreeMap Key (List NodeId)} {hints : ExtTreeMap Key IndexHint}
    (hcounter : ∀ entry ∈ written, entry.1 ≠ provSeqKey branch)
    (hrun : (writeProgram platform branch head written envelope captured extraParents hints).onMap
      map = .ok ((), map')) (node : DerivationNode) :
    NewNode map map' branch node ↔
      node ∈ builtNodes platform branch head written envelope captured extraParents := by
  obtain ⟨_, put', hput, hrun⟩ := KeyValue.onMap_bind_eq_ok.mp hrun
  have hputWrites : (written.forM fun entry => (put entry.1 entry.2 : RecordProgram Unit)).Writes
      fun key => key ≠ provSeqKey branch :=
    .forM fun entry hentry => ⟨hcounter entry hentry, trivial⟩
  have hnext : nextPlace put' branch = nextPlace map branch := by
    rw [nextPlace, hputWrites.frame hput (not_not_intro rfl), nextPlace]
  have hrest : ∀ before : RecordMap,
      (indexAppends written captured hints).onMap before = .ok ((), map') → ∀ key : Key, isLedgerKey key = true → map'[key]? = before[key]? := by
    intro before hrest key hkey
    have houtside : (indexAppends written captured hints).Writes
        fun touched => isLedgerKey touched = false :=
      .bind (.forM fun _ _ => indexRecord_outside _ _ _ _) fun _ =>
        .forM fun _ _ => appendHistory_outside _
    exact houtside.frame hrest (by rw [hkey]; exact Bool.true_eq_false_eq_False)
  have hstart : NewNode map map' branch node ↔ NewNode put' map' branch node := by
    unfold NewNode
    rw [hnext]
  unfold engineAppends at hrun
  unfold builtNodes
  split at hrun
  · next hany =>
    obtain ⟨_, appended, hprovenance, hrun⟩ := KeyValue.onMap_bind_eq_ok.mp hrun
    rw [if_pos hany, hstart, NewNode.congr (hrest appended hrun),
      appendProvenance_newNode hprovenance]
  · next hnone =>
    rw [if_neg hnone, hstart, NewNode.congr (hrest put' hrun)]
    refine iff_of_false ?_ List.not_mem_nil
    rintro ⟨place, hle, hlt, -⟩
    exact absurd hlt (not_lt_of_ge hle)

end Places

namespace Engine

variable {σ ρ : Type} {engine : Engine σ ρ} {lawful : engine.pager.Lawful} {loom loom' : Loom σ ρ}

/-- Each merged record of the caller has a new node, the parents of such a node are the latest
nodes of its key on the two sides, and no other node is new. -/
structure PerKey (sourceMap targetMap mergedMap : RecordMap) (target : BranchId)
    (writes : List (Key × Record)) : Prop where
  merged : ∀ entry ∈ writes, isCaller entry.1 = true →
    ∃ node, NewNode targetMap mergedMap target node ∧ node.key = entry.1
  parents : ∀ node, NewNode targetMap mergedMap target node → ∀ id, id ∈ node.derivedFrom ↔
    LatestNode sourceMap node.key id ∨ LatestNode targetMap node.key id
  caller : ∀ node, NewNode targetMap mergedMap target node → isReserved node.key = false

/-- The mark of a merge is not the counter of a branch. -/
theorem mergedFromKey_ne_provSeqKey (source target : BranchId) :
    mergedFromKey source ≠ provSeqKey target := by
  intro heq
  have hledger : isLedgerKey (mergedFromKey source) = false := isLedgerKey_append (by decide) source
  rw [heq, isLedgerKey_provSeqKey] at hledger
  cases hledger

/-- A write has a node for each of its keys, but those of the provenance layer. -/
theorem exists_mem_derivationNodes {platform : Platform} {branch : BranchId} {head : CommitId}
    {written : List (Key × Record)} {envelope : WriteEnvelope} {captured : ReadSet}
    {extraParents : ExtTreeMap Key (List NodeId)} {key : Key} {record : Record}
    (hmem : (key, record) ∈ written) (hkey : isProvenance key = false) :
    ∃ node ∈ derivationNodes platform branch head written envelope captured extraParents,
      node.key = key :=
  ⟨_, List.mem_map_of_mem (List.mem_filter.mpr ⟨hmem, by simp [hkey]⟩), rfl⟩

/-- A node that a write builds has the parents that were read and those given for its key. -/
theorem mem_derivedFrom_of_built {platform : Platform} {branch : BranchId} {head : CommitId}
    {written : List (Key × Record)} {envelope : WriteEnvelope} {captured : ReadSet}
    {extraParents : ExtTreeMap Key (List NodeId)} {node : DerivationNode}
    (hnode : node ∈ derivationNodes platform branch head written envelope captured extraParents) :
    ∃ record, (node.key, record) ∈ written ∧ isProvenance node.key = false ∧ ∀ id,
      id ∈ node.derivedFrom ↔ id ∈ captured.nodes ∨ id ∈ (extraParents[node.key]?).getD [] := by
  obtain ⟨⟨key, record⟩, hentry, rfl⟩ := List.mem_map.mp hnode
  obtain ⟨hmem, hkey⟩ := List.mem_filter.mp hentry
  have hprovenance : isProvenance key = false := by simpa using hkey
  refine ⟨record, hmem, hprovenance, fun id => ?_⟩
  change id ∈ DerivationNode.sorted (DerivationNode.sorted
      (captured.nodes.toList ++ (extraParents[key]?).getD [])) ↔
    id ∈ captured.nodes ∨ id ∈ (extraParents[key]?).getD []
  rw [mem_sorted, mem_sorted, List.mem_append, ExtTreeSet.mem_toList]

section Merged

variable {platform : Platform} {source target : BranchId} {head sourceHead : CommitId}
  {writes : List (Key × Record)} {envelope : WriteEnvelope} {captured : ReadSet}
  {parents : ExtTreeMap Key (List NodeId)} {sourceMap targetMap mergedMap : RecordMap}

/-- The new nodes of a merge are those built for its plan and its mark, if its plan takes over a
record of the caller. -/
theorem newNode_merged (hunreserved : ∀ entry ∈ writes, isReserved entry.1 = false)
    (hrun : (writeProgram platform target head
      (writes ++ [(mergedFromKey source, Record.blob sourceHead.asBytes)]) envelope captured parents
      ∅).onMap targetMap = .ok ((), mergedMap)) (node : DerivationNode) :
    NewNode targetMap mergedMap target node ↔
      (writes.any fun entry => isCaller entry.1) = true ∧
        node ∈ derivationNodes platform target head
          (writes ++ [(mergedFromKey source, Record.blob sourceHead.asBytes)]) envelope captured
          parents := by
  have hcounter : ∀ entry ∈ writes ++ [(mergedFromKey source, Record.blob sourceHead.asBytes)],
      entry.1 ≠ provSeqKey target := by
    intro entry hentry heq
    rcases List.mem_append.mp hentry with hentry | hentry
    · have hkey := hunreserved entry hentry
      rw [heq, isReserved_provSeqKey] at hkey
      cases hkey
    · rw [List.mem_singleton.mp hentry] at heq
      exact mergedFromKey_ne_provSeqKey source target heq
  have hany : ((writes ++ [(mergedFromKey source, Record.blob sourceHead.asBytes)]).any fun entry =>
      !isProvenance entry.1 && !isReserved entry.1) = writes.any fun entry => isCaller entry.1 := by
    simp [isCaller, Bool.and_comm]
  rw [writeProgram_newNode hcounter hrun node, builtNodes, hany]
  split
  next hsome => rw [and_iff_right hsome]
  next hnone => exact iff_of_false List.not_mem_nil fun hnode => hnone hnode.1

/-- Where a merge takes over a record of the caller, its mark gets a node too; and where it takes
over none, no node is new. -/
theorem perKey_iff (hunreserved : ∀ entry ∈ writes, isReserved entry.1 = false)
    (hrun : (writeProgram platform target head
      (writes ++ [(mergedFromKey source, Record.blob sourceHead.asBytes)]) envelope captured parents
      ∅).onMap targetMap = .ok ((), mergedMap)) :
    PerKey sourceMap targetMap mergedMap target writes ↔
      ∀ entry ∈ writes, isCaller entry.1 = false := by
  have hnew := newNode_merged hunreserved hrun
  constructor
  · intro hperKey entry hentry
    by_contra hcaller
    have hsome : (writes.any fun entry => isCaller entry.1) = true :=
      List.any_eq_true.mpr ⟨entry, hentry, (Bool.not_eq_false _).mp hcaller⟩
    obtain ⟨node, hnode, hkey⟩ : ∃ node ∈ derivationNodes platform target head
        (writes ++ [(mergedFromKey source, Record.blob sourceHead.asBytes)]) envelope captured
        parents, node.key = mergedFromKey source :=
      exists_mem_derivationNodes (List.mem_append_right writes List.mem_cons_self)
        (isProvenance_of_isReserved (isReserved_mergedFromKey source))
    have hreserved := hperKey.caller node ((hnew node).mpr ⟨hsome, hnode⟩)
    rw [hkey, isReserved_mergedFromKey] at hreserved
    cases hreserved
  · intro hnone
    have hnothing : ∀ node, ¬NewNode targetMap mergedMap target node := by
      intro node hnode
      obtain ⟨entry, hentry, hcaller⟩ := List.any_eq_true.mp ((hnew node).mp hnode).1
      rw [hnone entry hentry] at hcaller
      cases hcaller
    refine ⟨fun entry hentry hcaller => ?_, fun node hnode => absurd hnode (hnothing node),
      fun node hnode => absurd hnode (hnothing node)⟩
    rw [hnone entry hentry] at hcaller
    cases hcaller

/-- The parents of each new node of a caller's key are the latest nodes of the key on the two
sides. -/
def ParentsExact (sourceMap targetMap mergedMap : RecordMap) (target : BranchId) : Prop :=
  ∀ node, NewNode targetMap mergedMap target node → isReserved node.key = false →
    ∀ id, id ∈ node.derivedFrom ↔
      LatestNode sourceMap node.key id ∨ LatestNode targetMap node.key id

/-- Where the parents given are those of the two sides, what was read is all that can be too
much. -/
theorem parentsExact_iff (hunreserved : ∀ entry ∈ writes, isReserved entry.1 = false)
    (hrun : (writeProgram platform target head
      (writes ++ [(mergedFromKey source, Record.blob sourceHead.asBytes)]) envelope captured parents
      ∅).onMap targetMap = .ok ((), mergedMap))
    (hparents : ∀ entry ∈ writes, isCaller entry.1 = true → ∀ id,
      id ∈ (parents[entry.1]?).getD [] ↔
        LatestNode sourceMap entry.1 id ∨ LatestNode targetMap entry.1 id) :
    ParentsExact sourceMap targetMap mergedMap target ↔
      ∀ entry ∈ writes, isCaller entry.1 = true → ∀ id ∈ captured.nodes,
        LatestNode sourceMap entry.1 id ∨ LatestNode targetMap entry.1 id := by
  have hnew := newNode_merged hunreserved hrun
  constructor
  · intro hexact entry hentry hcaller id hid
    have hkeys := Bool.and_eq_true_iff.mp hcaller
    obtain ⟨node, hnode, hkey⟩ := exists_mem_derivationNodes (List.mem_append_left _ hentry)
      (by simpa using hkeys.2)
    obtain ⟨-, -, -, hderived⟩ := mem_derivedFrom_of_built hnode
    have hmem := (hnew node).mpr ⟨List.any_eq_true.mpr ⟨entry, hentry, hcaller⟩, hnode⟩
    rw [← hkey]
    exact (hexact node hmem (by rw [hkey, hunreserved entry hentry]) id).mp
      ((hderived id).mpr (Or.inl hid))
  · intro hread node hnode hreserved id
    obtain ⟨record, hmem, hprovenance, hderived⟩ := mem_derivedFrom_of_built ((hnew node).mp hnode).2
    have hcaller : isCaller node.key = true := by simp [isCaller, hreserved, hprovenance]
    have hentry : (node.key, record) ∈ writes := by
      rcases List.mem_append.mp hmem with hentry | hmark
      · exact hentry
      · rw [(Prod.mk.inj (List.mem_singleton.mp hmark)).1, isReserved_mergedFromKey] at hreserved
        cases hreserved
    rw [hderived, ← hparents _ hentry hcaller]
    refine or_iff_right_of_imp fun hid => ?_
    exact (hparents _ hentry hcaller id).mpr (hread _ hentry hcaller id hid)

end Merged

/-- The provenance of a merge is per key, and of the caller's records only, exactly if its plan
takes over no record of the caller. -/
theorem merge_perKey_iff (hreachable : Reachable engine lawful loom) {token : CapabilityToken}
    {source target : BranchId} {policy : MergePolicy} {envelope : WriteEnvelope}
    {forbids : Key → Record → Option Bytes} {commit : CommitId} {records automatic : ℕ}
    (hmerge : engine.mergeChecked token source target policy envelope forbids loom =
      (.ok (.merged commit records automatic), loom')) :
    ∃ sourceHead targetHead base writes automatic sourceMap targetMap mergedMap,
      MergeHeads engine loom source target sourceHead targetHead base ∧
      planMerge engine.platform engine.pager loom.pager base sourceHead targetHead policy =
        .ok (.merged writes automatic) ∧
      Shows lawful loom source sourceMap ∧ Shows lawful loom target targetMap ∧
      Shows lawful loom' target mergedMap ∧
      (PerKey sourceMap targetMap mergedMap target writes ↔
        ∀ entry ∈ writes, isCaller entry.1 = false) := by
  obtain ⟨sourceHead, targetHead, base, writes, automatic, parents, targetMap, mergedMap, hready, -,
    htarget, hmerged, hrun⟩ := merge_shows hreachable.sound hmerge
  obtain ⟨_, sourceMap, _, _, _, houtcome, hplanned⟩ :=
    planMerge_spec hready.planned hreachable.sound
  obtain ⟨-, hunreserved⟩ := mem_writes_of_planned hplanned houtcome
  exact ⟨sourceHead, targetHead, base, writes, automatic, sourceMap, targetMap, mergedMap,
    hready.heads, hready.planned, ⟨_, hready.heads.source, hplanned.source⟩, htarget, hmerged,
    perKey_iff hunreserved hrun⟩

/-! ## The parents of the merged nodes -/

/-- The node of a key is found on a branch whose commit the page store gives. -/
theorem nodeForKey_of_fork (hlegible : lawful.Legible loom.pager) {branch : BranchId}
    {commit : CommitId} {snapshot : Snapshot} {map : RecordMap}
    (hhead : loom.refs.branches[branch]? = some commit)
    (hfork : engine.pager.fork loom.pager commit = .ok snapshot)
    (hshows : Shows lawful loom branch map) (key : Key) :
    engine.nodeForKey branch key loom = (.ok (nodeOf map[latestNodeKey key]?), loom) := by
  obtain ⟨pages, map', tree, -, hstores, hopen, hholds, -, hreads⟩ := hlegible.opens hfork
  obtain rfl := hshows.unique ⟨commit, hhead, hstores⟩
  obtain ⟨tree', hget⟩ := hholds.answers_get hreads (latestNodeKey key)
  have hrun : (KeyValue.ask (latestNodeKey key) : RecordProgram (Option Record)).run Tree.records
      tree = .ok (map[latestNodeKey key]?, tree') :=
    StateExcept.bind_eq_ok.mpr ⟨_, tree', hget, rfl⟩
  have hreading : engine.reading commit (KeyValue.ask (latestNodeKey key)) loom =
      (.ok map[latestNodeKey key]?, loom) := by
    unfold reading
    rw [FallibleState.get_bind]
    simp only [Except.mapError, FallibleState.bind_eq, FallibleState.lift_eq, hfork, hopen, hrun]
    rfl
  unfold nodeForKey
  rw [head_bind, hhead]
  dsimp only
  rw [FallibleState.bind_eq, hreading]
  rfl

/-- Where both sides can be read, the nodes found for a key are the latest of each. -/
theorem sideNodes_of_found {source target : BranchId} {key : Key} {onSource onTarget : Option NodeId}
    (hsource : engine.nodeForKey source key loom = (.ok onSource, loom))
    (htarget : engine.nodeForKey target key loom = (.ok onTarget, loom)) :
    engine.sideNodes source target key loom = (.ok (onSource.toList ++ onTarget.toList), loom) := by
  unfold sideNodes
  rw [FallibleState.bind_eq, FallibleState.attempt_eq, hsource]
  dsimp only
  rw [FallibleState.bind_eq, FallibleState.attempt_eq, htarget]
  cases onSource <;> cases onTarget <;> rfl

/-- The parents gathered for the caller's keys of a plan are the nodes of the two sides. -/
theorem mergeParents_sides {source target : BranchId} {sides : Key → List NodeId}
    (hsides : ∀ key, engine.sideNodes source target key loom = (.ok (sides key), loom))
    {writes : List (Key × Record)} {parents parents' : ExtTreeMap Key (List NodeId)}
    (hparents : ∀ (key : Key) nodes, parents[key]? = some nodes → nodes = sides key)
    (hrun : engine.mergeParents source target writes parents loom = (.ok parents', loom')) :
    (∀ (key : Key) nodes, parents'[key]? = some nodes → nodes = sides key) ∧
      ∀ key : Key, parents'[key]? = none → parents[key]? = none ∧
        ∀ record, (key, record) ∈ writes → isCaller key = true → sides key = [] := by
  induction writes generalizing parents with
  | nil =>
      obtain ⟨hdone, -⟩ := FallibleState.pure_eq_ok.mp hrun
      obtain rfl := hdone
      exact ⟨hparents, fun key hnone => ⟨hnone, fun _ hmem => absurd hmem List.not_mem_nil⟩⟩
  | cons write writes ih =>
      obtain ⟨key, record⟩ := write
      unfold mergeParents at hrun
      split at hrun
      · next hreserved =>
        obtain ⟨hafter, hnone⟩ := ih hparents hrun
        refine ⟨hafter, fun other hother => ⟨(hnone other hother).1, fun found hmem hcaller => ?_⟩⟩
        rcases List.mem_cons.mp hmem with heq | hmem
        · obtain ⟨rfl, rfl⟩ := Prod.mk.inj heq
          rw [isCaller, ← Bool.not_or, hreserved] at hcaller
          cases hcaller
        · exact (hnone other hother).2 found hmem hcaller
      · rw [FallibleState.bind_eq, hsides] at hrun
        dsimp only at hrun
        have hstep : ∀ (other : Key) nodes,
            (if sides key = [] then parents else parents.insert key (sides key))[other]? =
              some nodes → nodes = sides other := by
          intro other nodes hfound
          split at hfound
          · exact hparents other nodes hfound
          · rw [OrderedMap.getElem?_insert] at hfound
            split at hfound
            next heq => exact heq ▸ (Option.some.inj hfound).symm
            next => exact hparents other nodes hfound
        obtain ⟨hafter, hnone⟩ := ih hstep hrun
        refine ⟨hafter, fun other hother => ?_⟩
        obtain ⟨hbefore, hrest⟩ := hnone other hother
        have hnothing : parents[other]? = none ∧ (key = other → sides other = []) := by
          split at hbefore
          next hempty => exact ⟨hbefore, fun heq => heq ▸ hempty⟩
          next =>
            rw [OrderedMap.getElem?_insert] at hbefore
            split at hbefore
            next => cases hbefore
            next hne => exact ⟨hbefore, fun heq => absurd heq hne⟩
        refine ⟨hnothing.1, fun found hmem hcaller => ?_⟩
        rcases List.mem_cons.mp hmem with heq | hmem
        · exact hnothing.2 (Prod.mk.inj heq).1.symm
        · exact hrest found hmem hcaller

theorem mem_toList_nodeOf {map : RecordMap} {key : Key} {id : NodeId} :
    id ∈ (nodeOf map[latestNodeKey key]?).toList ↔ LatestNode map key id := by
  rw [Option.mem_toList, LatestNode]

/-- The parents of the merged nodes are exact if what the session had read since its last write
are parents of each of them anyway, and only then. -/
theorem merge_parents_iff (hreachable : Reachable engine lawful loom) {token : CapabilityToken}
    {source target : BranchId} {policy : MergePolicy} {envelope : WriteEnvelope}
    {forbids : Key → Record → Option Bytes} {commit : CommitId} {records automatic : ℕ}
    {sourceMap targetMap mergedMap : RecordMap}
    (hmerge : engine.mergeChecked token source target policy envelope forbids loom =
      (.ok (.merged commit records automatic), loom'))
    (hsource : Shows lawful loom source sourceMap) (htarget : Shows lawful loom target targetMap)
    (hmerged : Shows lawful loom' target mergedMap) :
    ∃ sourceHead targetHead base writes automatic,
      MergeHeads engine loom source target sourceHead targetHead base ∧
      planMerge engine.platform engine.pager loom.pager base sourceHead targetHead policy =
        .ok (.merged writes automatic) ∧
      (ParentsExact sourceMap targetMap mergedMap target ↔
        ∀ entry ∈ writes, isCaller entry.1 = true →
          ∀ id ∈ (readSet envelope.session loom).nodes,
            LatestNode sourceMap entry.1 id ∨ LatestNode targetMap entry.1 id) := by
  obtain ⟨sourceHead, targetHead, base, writes, automatic, parents, targetMap', mergedMap', hready,
    -, htarget', hmerged', hrun⟩ := merge_shows hreachable.sound hmerge
  obtain rfl := htarget.unique htarget'
  obtain rfl := hmerged.unique hmerged'
  refine ⟨sourceHead, targetHead, base, writes, automatic, hready.heads, hready.planned, ?_⟩
  obtain ⟨_, _, _, _, _, houtcome, hplanned⟩ := planMerge_spec hready.planned hreachable.sound
  obtain ⟨-, hunreserved⟩ := mem_writes_of_planned hplanned houtcome
  -- what the plan forked is where the nodes of the sides are looked up
  have hforks := hready.planned
  simp only [planMerge, StateExcept.except_bind_eq_ok, StateExcept.except_mapError_eq_ok] at hforks
  obtain ⟨-, -, -, -, sourceStore, hforkSource, targetStore, hforkTarget, -⟩ := hforks
  have hlegible : lawful.Legible (ticked (ticked loom)).pager := hreachable.legible
  have hsides : ∀ key, engine.sideNodes source target key (ticked (ticked loom)) =
      (.ok ((nodeOf sourceMap[latestNodeKey key]?).toList ++
        (nodeOf targetMap[latestNodeKey key]?).toList), ticked (ticked loom)) := fun key =>
    sideNodes_of_found
      (nodeForKey_of_fork hlegible hready.heads.source hforkSource ⟨hsource.ofHead⟩ key)
      (nodeForKey_of_fork hlegible hready.heads.target hforkTarget ⟨htarget.ofHead⟩ key)
  obtain ⟨hfound, hnone⟩ := mergeParents_sides hsides (fun key nodes hnodes => by simp at hnodes)
    hready.parents
  have hparents : ∀ entry ∈ writes, isCaller entry.1 = true → ∀ id,
      id ∈ (parents[entry.1]?).getD [] ↔
        LatestNode sourceMap entry.1 id ∨ LatestNode targetMap entry.1 id := by
    intro entry hentry hcaller id
    rw [← mem_toList_nodeOf, ← mem_toList_nodeOf, ← List.mem_append]
    cases hkey : parents[entry.1]? with
    | some nodes => rw [hfound _ _ hkey, Option.getD_some]
    | none =>
        rw [(hnone _ hkey).2 entry.2 (List.mem_append_left _ hentry) hcaller, Option.getD_none]
  exact parentsExact_iff hunreserved hrun hparents

/-! ## A merge of one page -/

/-- Session `s` wrote the page on its branch. -/
def forkWritten : Loom MemPager (Option Refs) :=
  memoryEngine.afterAll [.openSessionNamed (ascii "s"),
    .write (memoryToken [ascii "s"]) (ascii "s") [(ascii "k", .observation webPage)] ∅
      (memoryEnvelope (ascii "s"))] memoryLoom

/-- The branch is merged into `main`. -/
def mergeFork (policy : MergePolicy) (loom : Loom MemPager (Option Refs)) :
    Except LoomError MergeResult × Loom MemPager (Option Refs) :=
  memoryEngine.mergeChecked (memoryToken [ascii "s", MAIN]) (ascii "s") MAIN policy
    (memoryEnvelope MAIN) (fun _ _ => none) loom

theorem forkWritten_reachable : memoryEngine.Reachable memoryLawful forkWritten :=
  memoryLoom_reachable.afterAll _

theorem mergeFork_eq {policy : MergePolicy} {loom : Loom MemPager (Option Refs)}
    {result : MergeResult} (heval : (mergeFork policy loom).1.toOption = some result) :
    mergeFork policy loom = (.ok result, (mergeFork policy loom).2) := by
  have houtcome := StateExcept.toOption_eq_some.mp heval
  rw [← houtcome]

/-- And `main` wrote another record under the key. -/
def partedLoom : Loom MemPager (Option Refs) :=
  memoryEngine.after (.write (memoryToken [MAIN]) MAIN [(ascii "k", .value (.text (ascii "t")))] ∅
    (memoryEnvelope MAIN)) forkWritten

/-- The merge that keeps what `main` wrote takes over nothing, and its mark has no node. -/
theorem merge_perKey_kept :
    memoryEngine.Reachable memoryLawful partedLoom ∧
      mergeFork .takeTarget partedLoom =
        (.ok (.merged 3 0 2), (mergeFork .takeTarget partedLoom).2) ∧
      ∃ sourceHead targetHead base writes automatic sourceMap targetMap mergedMap,
        MergeHeads memoryEngine partedLoom (ascii "s") MAIN sourceHead targetHead base ∧
        planMerge Platform.plain memoryEngine.pager partedLoom.pager base sourceHead targetHead
          .takeTarget = .ok (.merged writes automatic) ∧
        Shows memoryLawful partedLoom (ascii "s") sourceMap ∧
        Shows memoryLawful partedLoom MAIN targetMap ∧
        Shows memoryLawful (mergeFork .takeTarget partedLoom).2 MAIN mergedMap ∧
        PerKey sourceMap targetMap mergedMap MAIN writes := by
  have hreachable : memoryEngine.Reachable memoryLawful partedLoom := forkWritten_reachable.called _
  have hmerge := mergeFork_eq (show (mergeFork .takeTarget partedLoom).1.toOption =
    some (.merged 3 0 2) by decide +kernel)
  obtain ⟨sourceHead, targetHead, base, writes, automatic, sourceMap, targetMap, mergedMap, hheads,
    hplan, hsource, htarget, hmerged, hiff⟩ := merge_perKey_iff hreachable hmerge
  refine ⟨hreachable, hmerge, sourceHead, targetHead, base, writes, automatic, sourceMap, targetMap,
    mergedMap, hheads, hplan, hsource, htarget, hmerged, hiff.mpr fun entry hentry => ?_⟩
  -- the count of the result is the number of records taken over
  obtain ⟨_, _, _, _, _, _, _, _, hready, hrecords, -⟩ := merge_shows hreachable.sound hmerge
  obtain ⟨rfl, rfl, rfl⟩ := hheads.unique hready.heads
  obtain ⟨rfl, rfl⟩ := MergeOutcome.merged.inj (Except.ok.inj (hready.planned.symm.trans hplan))
  have hempty := List.filter_eq_nil_iff.mp (List.length_eq_zero_iff.mp hrecords.symm) entry hentry
  exact (Bool.not_eq_true _).mp hempty

/-- The merge of one page builds a node for its mark. -/
theorem not_perKey_fork :
    memoryEngine.Reachable memoryLawful forkWritten ∧
      mergeFork .conflict forkWritten = (.ok (.merged 2 1 3), (mergeFork .conflict forkWritten).2) ∧
      ∃ sourceHead targetHead base writes automatic targetMap mergedMap,
        MergeHeads memoryEngine forkWritten (ascii "s") MAIN sourceHead targetHead base ∧
        planMerge Platform.plain memoryEngine.pager forkWritten.pager base sourceHead targetHead
          .conflict = .ok (.merged writes automatic) ∧
        Shows memoryLawful forkWritten MAIN targetMap ∧
        Shows memoryLawful (mergeFork .conflict forkWritten).2 MAIN mergedMap ∧
        ∀ sourceMap, ¬PerKey sourceMap targetMap mergedMap MAIN writes := by
  refine ⟨forkWritten_reachable, mergeFork_eq (by decide +kernel), ?_⟩
  have hsound := forkWritten_reachable.sound
  obtain ⟨sourceHead, targetHead, base, writes, automatic, _, targetMap, mergedMap, hready, hrecords,
    htarget, hmerged, hrun⟩ := merge_shows hsound
    (mergeFork_eq (show (mergeFork .conflict forkWritten).1.toOption = some (.merged 2 1 3) by
      decide +kernel))
  refine ⟨sourceHead, targetHead, base, writes, automatic, targetMap, mergedMap, hready.heads,
    hready.planned, htarget, hmerged, fun sourceMap hperKey => ?_⟩
  obtain ⟨_, _, _, _, _, houtcome, hplanned⟩ := planMerge_spec hready.planned hsound
  obtain ⟨-, hunreserved⟩ := mem_writes_of_planned hplanned houtcome
  have hnone := (perKey_iff hunreserved hrun).mp hperKey
  have hempty : writes.filter (fun entry => !isReserved entry.1 && !isProvenance entry.1) = [] :=
    List.filter_eq_nil_iff.mpr fun entry hentry => by
      rw [show (!isReserved entry.1 && !isProvenance entry.1) = isCaller entry.1 from rfl,
        hnone entry hentry]
      exact Bool.false_ne_true
  rw [mergedRecords, hempty] at hrecords
  cases hrecords

end Engine

end LoomDB
