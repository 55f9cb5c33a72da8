import LoomDB.Provenance.Lineage

/-!
# The source index

Each node that a write builds is stored at the next place of its branch, and the index has an
entry for every source it cites, next to the place. The entries of a source are found by a
prefix: those of the nodes that cite it, as long as no other source they are built on spells
a key with that prefix.
-/

namespace LoomDB

open Std (ExtTreeMap ExtTreeSet)
open KeyValue (ask put drop entries)

/-! ## Places -/

theorem length_branchSeq (branch : BranchId) (seq : U64) :
    (branchSeq branch seq).length = branch.length + 10 := by
  simp only [branchSeq, List.length_append, length_beBytes]
  omega

theorem branchSeq_inj {branch branch' : BranchId} {seq seq' : U64}
    (heq : branchSeq branch seq = branchSeq branch' seq') : branch = branch' ∧ seq = seq' := by
  have hlength := congrArg List.length heq
  simp only [length_branchSeq] at hlength
  simp only [branchSeq] at heq
  obtain ⟨hbranch, hseq⟩ := List.append_inj' heq (by simp only [length_beBytes])
  obtain ⟨-, rfl⟩ := List.append_inj hbranch (by simp only [length_beBytes])
  exact ⟨rfl, Fin.ext (beBytes_inj seq.isLt seq'.isLt hseq)⟩

theorem nodeStorageKey_inj {branch branch' : BranchId} {seq seq' : U64} :
    nodeStorageKey branch seq = nodeStorageKey branch' seq' ↔ branch = branch' ∧ seq = seq' := by
  constructor
  · exact fun heq => branchSeq_inj (List.append_cancel_left heq)
  · rintro ⟨rfl, rfl⟩
    rfl

theorem nodeStorageKey_lt_iff (branch : BranchId) (seq seq' : U64) :
    nodeStorageKey branch seq < nodeStorageKey branch seq' ↔ seq < seq' := by
  simp only [nodeStorageKey, branchSeq]
  rw [append_lt_append_iff, append_lt_append_iff, beBytes_lt_iff seq.isLt seq'.isLt]
  rfl

/-- The key of a node tells its place, whatever the length of the branch name, and the keys of a
branch are in the order of the places. -/
theorem nodeStorageKey_places (branch branch' : BranchId) (seq seq' : U64) :
    (nodeStorageKey branch seq = nodeStorageKey branch' seq' ↔ branch = branch' ∧ seq = seq') ∧
      compare (nodeStorageKey branch seq) (nodeStorageKey branch seq') = compare seq seq' := by
  refine ⟨nodeStorageKey_inj, ?_⟩
  rcases lt_trichotomy seq seq' with hlt | rfl | hgt
  · rw [(Bytes.compare_eq_lt _ _).mpr ((nodeStorageKey_lt_iff branch seq seq').mpr hlt),
      compare_lt_iff_lt.mpr hlt]
  · rw [Std.ReflOrd.compare_self, Std.ReflOrd.compare_self]
  · have hkeys := (Bytes.compare_eq_lt _ _).mpr ((nodeStorageKey_lt_iff branch seq' seq).mpr hgt)
    rw [Std.OrientedOrd.eq_swap, hkeys, compare_gt_iff_gt.mpr hgt]
    rfl

theorem isPrefixOf_nodeStorageKey (branch : BranchId) (seq : U64) :
    PROV_PREFIX.isPrefixOf (nodeStorageKey branch seq) = true :=
  isPrefixOf_append_of (by decide) _

theorem isPrefixOf_sourceIndexKey (source : SourceRef) (branch : BranchId) (seq : U64) :
    SRC_PREFIX.isPrefixOf (sourceIndexKey source branch seq) = true := by
  rw [sourceIndexKey, List.append_assoc, List.append_assoc]
  exact isPrefixOf_append_of (by decide) _

theorem sourceIndexPrefix_prefix (source : SourceRef) (branch : BranchId) (seq : U64) :
    sourceIndexPrefix source <+: sourceIndexKey source branch seq :=
  List.prefix_append _ _

theorem isPrefixOf_sourceIndexPrefix {source : SourceRef} {key : Key}
    (hbegins : sourceIndexPrefix source <+: key) : SRC_PREFIX.isPrefixOf key = true := by
  refine List.isPrefixOf_iff_prefix.mpr (List.IsPrefix.trans ?_ hbegins)
  rw [sourceIndexPrefix, List.append_assoc]
  exact List.prefix_append _ _

/-- A key of a node is none of the index. -/
theorem isPrefixOf_absurd {key : Key} (hnode : PROV_PREFIX.isPrefixOf key = true)
    (hentry : SRC_PREFIX.isPrefixOf key = true) : False := by
  obtain ⟨rest, rfl⟩ := List.isPrefixOf_iff_prefix.mp hentry
  rw [isPrefixOf_append_eq_false (by decide) (by decide) rest] at hnode
  cases hnode

/-! ## Keys of the ledger -/

/-- A key of a node, of the source index or of a counter of places. -/
def isLedgerKey (key : Key) : Bool :=
  isProvenance key || RESERVED_PROV_SEQ_PREFIX.isPrefixOf key

/-- Nothing that goes on from here is a key of the ledger. -/
def outsideLedger (mid : Bytes) : Bool :=
  [PROV_PREFIX, SRC_PREFIX, RESERVED_PROV_SEQ_PREFIX].all fun start =>
    !start.isPrefixOf mid && !mid.isPrefixOf start

theorem isLedgerKey_append {mid : Bytes} (hmid : outsideLedger mid = true) (rest : Bytes) :
    isLedgerKey (mid ++ rest) = false := by
  simp only [outsideLedger, List.all_cons, List.all_nil, Bool.and_true, Bool.and_eq_true,
    Bool.not_eq_true'] at hmid
  obtain ⟨⟨hprov, hprov'⟩, ⟨hsrc, hsrc'⟩, hseq, hseq'⟩ := hmid
  rw [isLedgerKey, isProvenance, isPrefixOf_append_eq_false hprov hprov',
    isPrefixOf_append_eq_false hsrc hsrc', isPrefixOf_append_eq_false hseq hseq']
  rfl

theorem isLedgerKey_of_isProvenance {key : Key} (hkey : isProvenance key = true) :
    isLedgerKey key = true := by
  rw [isLedgerKey, hkey, Bool.true_or]

theorem isLedgerKey_provSeqKey (branch : BranchId) : isLedgerKey (provSeqKey branch) = true := by
  rw [isLedgerKey, provSeqKey, isPrefixOf_append_of (by decide), Bool.or_true]

theorem isLedgerKey_of_isCaller {key : Key} (hcaller : isCaller key = true) :
    isLedgerKey key = false := by
  simp only [isCaller, Bool.and_eq_true, Bool.not_eq_true'] at hcaller
  obtain ⟨hreserved, hprovenance⟩ := hcaller
  rw [isLedgerKey, hprovenance, Bool.false_or]
  by_contra hseq
  obtain ⟨rest, rfl⟩ := List.isPrefixOf_iff_prefix.mp ((Bool.not_eq_false _).mp hseq)
  rw [isReserved_append (by decide) rest] at hreserved
  cases hreserved

theorem isLedgerKey_latestNodeKey (key : Key) : isLedgerKey (latestNodeKey key) = false :=
  isLedgerKey_append (by decide) key

theorem isLedgerKey_storageKey (key : Key) : isLedgerKey (IndexEntry.storageKey key) = false :=
  isLedgerKey_append (by decide) key

theorem isLedgerKey_annBufferKey (key : Key) : isLedgerKey (annBufferKey key) = false :=
  isLedgerKey_append (by decide) key

theorem isLedgerKey_of_historyPrefix {subject predicate : Bytes} {key : Key}
    (hstarts : (ClaimVersion.historyPrefix subject predicate).isPrefixOf key = true) :
    isLedgerKey key = false := by
  obtain ⟨rest, rfl⟩ := List.isPrefixOf_iff_prefix.mp hstarts
  simp only [ClaimVersion.historyPrefix, List.append_assoc]
  exact isLedgerKey_append (by decide) _

theorem isLedgerKey_claimKey (subject predicate : Bytes) (seq : U64) :
    isLedgerKey (ClaimVersion.storageKey subject predicate seq) = false := by
  simp only [ClaimVersion.storageKey, List.append_assoc]
  exact isLedgerKey_append (by decide) _

theorem isLedgerKey_of_isVectorKey {key : Key} (hvector : isVectorKey key = true) :
    isLedgerKey key = false := by
  rcases Bool.or_eq_true_iff.mp hvector with hstarts | hstarts
  all_goals
    obtain ⟨rest, rfl⟩ := List.isPrefixOf_iff_prefix.mp hstarts
    exact isLedgerKey_append (by decide) rest

/-! ## The ledger of a map -/

/-- A node at a place. -/
def StoredAt (map : RecordMap) (branch : BranchId) (seq : U64) (node : DerivationNode) : Prop :=
  map[nodeStorageKey branch seq]? = some (Record.blob node.encode)

theorem StoredAt.unique {map : RecordMap} {branch : BranchId} {seq : U64}
    {node node' : DerivationNode} (hnode : StoredAt map branch seq node)
    (hnode' : StoredAt map branch seq node') : node = node' := by
  have hencode : node.encode = node'.encode :=
    Value.blob.inj (Record.value.inj (Option.some.inj (hnode.symm.trans hnode')))
  have hdecode := DerivationNode.decode_encode node
  rw [hencode, DerivationNode.decode_encode] at hdecode
  exact (Except.ok.inj hdecode).symm

/-- The places below the next ones are taken by nodes; each node has its entries, and there are
no others. -/
structure Catalogued (next : BranchId → U64) (map : RecordMap) : Prop where
  nodes : ∀ (key : Key) (record : Record), map[key]? = some record →
    PROV_PREFIX.isPrefixOf key = true → ∃ branch seq, ∃ node : DerivationNode,
      key = nodeStorageKey branch seq ∧ record = Record.blob node.encode ∧ seq < next branch
  listed : ∀ branch seq (node : DerivationNode), StoredAt map branch seq node → ∀ source ∈ node.sources,
    map[sourceIndexKey source branch seq]? ≠ none
  entries : ∀ (key : Key) (record : Record), map[key]? = some record →
    SRC_PREFIX.isPrefixOf key = true → ∃ branch seq, ∃ node : DerivationNode,
      ∃ source ∈ node.sources, StoredAt map branch seq node ∧ key = sourceIndexKey source branch seq ∧
      record = Record.blob node.id.asBytes

/-- The next place of a branch, as its counter has it. -/
def nextPlace (map : RecordMap) (branch : BranchId) : U64 :=
  provSeq map[provSeqKey branch]?

/-- The ledger of a map is in order. -/
def Kept (map : RecordMap) : Prop :=
  Catalogued (nextPlace map) map

theorem Catalogued.congr {next : BranchId → U64} {map map' : RecordMap}
    (hcatalogued : Catalogued next map)
    (hsame : ∀ key : Key, isProvenance key = true → map'[key]? = map[key]?) :
    Catalogued next map' := by
  have hnode : ∀ branch seq node, StoredAt map' branch seq node ↔ StoredAt map branch seq node := by
    intro branch seq node
    rw [StoredAt, hsame _ (isProvenance_nodeStorageKey branch seq), StoredAt]
  have hprov : ∀ {key : Key}, PROV_PREFIX.isPrefixOf key = true → isProvenance key = true :=
    fun hkey => by rw [isProvenance, hkey, Bool.true_or]
  have hsrc : ∀ {key : Key}, SRC_PREFIX.isPrefixOf key = true → isProvenance key = true :=
    fun hkey => by rw [isProvenance, hkey, Bool.or_true]
  refine ⟨fun key record hrecord hkey => ?_, fun branch seq node hstored source hsource => ?_,
    fun key record hrecord hkey => ?_⟩
  · exact hcatalogued.nodes key record (hsame key (hprov hkey) ▸ hrecord) hkey
  · rw [hsame _ (isProvenance_sourceIndexKey source branch seq)]
    exact hcatalogued.listed branch seq node ((hnode branch seq node).mp hstored) source hsource
  · obtain ⟨branch, seq, node, source, hsource, hstored, hrest⟩ :=
      hcatalogued.entries key record (hsame key (hsrc hkey) ▸ hrecord) hkey
    exact ⟨branch, seq, node, source, hsource, (hnode branch seq node).mpr hstored, hrest⟩

/-- What leaves the keys of the ledger alone keeps it. -/
theorem Kept.congr {map map' : RecordMap} (hkept : Kept map)
    (hsame : ∀ key : Key, isLedgerKey key = true → map'[key]? = map[key]?) : Kept map' := by
  have hnext : nextPlace map' = nextPlace map := by
    funext branch
    rw [nextPlace, hsame _ (isLedgerKey_provSeqKey branch), nextPlace]
  rw [Kept, hnext]
  exact Catalogued.congr hkept fun key hkey => hsame key (isLedgerKey_of_isProvenance hkey)

theorem Kept.of_writes {α : Type} {program : RecordProgram α} {result : α} {map map' : RecordMap}
    (hkept : Kept map) (hwrites : program.Writes fun key => isLedgerKey key = false)
    (hrun : program.onMap map = .ok (result, map')) : Kept map' :=
  hkept.congr fun key hkey => hwrites.frame hrun (by rw [hkey]; exact Bool.true_eq_false_eq_False)

/-! ## One more node -/

/-- The keys that a node gets in the index. -/
theorem getElem?_index {sources : List SourceRef} {branch : BranchId} {seq : U64} {id : NodeId}
    {map map' : RecordMap}
    (hrun : (sources.forM fun source => (put (sourceIndexKey source branch seq)
      (Record.blob id.asBytes) : RecordProgram Unit)).onMap map = .ok ((), map')) (key : Key) :
    map'[key]? = if ∃ source ∈ sources, sourceIndexKey source branch seq = key then
      some (Record.blob id.asBytes) else map[key]? := by
  induction sources generalizing map with
  | nil =>
      obtain ⟨-, rfl⟩ := Prod.mk.inj (Except.ok.inj hrun)
      simp
  | cons source sources ih =>
      rw [List.forM_eq_forM, List.forM_cons, ← List.forM_eq_forM, KeyValue.onMap_put_bind] at hrun
      rw [ih hrun, OrderedMap.getElem?_insert]
      simp only [List.exists_mem_cons_iff]
      by_cases hhere : sourceIndexKey source branch seq = key
      · simp [hhere]
      · simp [hhere]

section Append

variable {branch : BranchId} {node : DerivationNode} {seq : U64} {map map' : RecordMap}

/-- A node at its place, and its entries. -/
theorem getElem?_appendNode (hrun : (appendNode branch node seq).onMap map = .ok ((), map'))
    {key : Key} (hkey : isProvenance key = true) :
    map'[key]? = if key = nodeStorageKey branch seq then some (Record.blob node.encode)
      else if ∃ source ∈ node.sources, sourceIndexKey source branch seq = key then
        some (Record.blob node.id.asBytes)
      else map[key]? := by
  rw [appendNode, KeyValue.onMap_put_bind, KeyValue.onMap_put_bind] at hrun
  rw [getElem?_index hrun key, OrderedMap.getElem?_insert, OrderedMap.getElem?_insert]
  have hlatest : latestNodeKey node.key ≠ key := by
    rintro rfl
    have hledger := isLedgerKey_of_isProvenance hkey
    rw [isLedgerKey_latestNodeKey] at hledger
    cases hledger
  rw [if_neg hlatest]
  by_cases hnode : key = nodeStorageKey branch seq
  · have hentry : ¬ ∃ source ∈ node.sources, sourceIndexKey source branch seq = key := by
      rintro ⟨source, -, rfl⟩
      exact isPrefixOf_absurd (hnode ▸ isPrefixOf_nodeStorageKey branch seq)
        (isPrefixOf_sourceIndexKey source branch seq)
    rw [if_neg hentry, if_pos hnode, if_pos hnode.symm]
  · rw [if_neg hnode, if_neg (Ne.symm hnode)]

theorem Catalogued.appendNode {next : BranchId → U64} {seq' : U64}
    (hcatalogued : Catalogued next map) (hseq : next branch = seq) (hnext : seq.next = .ok seq')
    (hrun : (appendNode branch node seq).onMap map = .ok ((), map')) :
    Catalogued (Function.update next branch seq') map' := by
  have hafter : seq < seq' := by
    have hval := Tree.U64.next_eq_ok hnext
    exact Fin.lt_def.mpr (by omega)
  have hfree : map[nodeStorageKey branch seq]? = none := by
    by_contra htaken
    obtain ⟨record, hrecord⟩ := Option.ne_none_iff_exists'.mp htaken
    obtain ⟨branch', seq'', found, hkey, -, hbelow⟩ :=
      hcatalogued.nodes _ record hrecord (isPrefixOf_nodeStorageKey branch seq)
    obtain ⟨rfl, rfl⟩ := nodeStorageKey_inj.mp hkey
    exact absurd (hseq ▸ hbelow) (lt_irrefl _)
  have hnodeKey : ∀ branch' seq'', map'[nodeStorageKey branch' seq'']? =
      if branch' = branch ∧ seq'' = seq then some (Record.blob node.encode)
      else map[nodeStorageKey branch' seq'']? := by
    intro branch' seq''
    rw [getElem?_appendNode hrun (isProvenance_nodeStorageKey branch' seq'')]
    refine if_congr nodeStorageKey_inj rfl (if_neg ?_)
    rintro ⟨source, -, hentry⟩
    exact isPrefixOf_absurd (isPrefixOf_nodeStorageKey branch' seq'')
      (hentry ▸ isPrefixOf_sourceIndexKey source branch seq)
  have hentryKey : ∀ {key : Key}, SRC_PREFIX.isPrefixOf key = true → map'[key]? =
      if ∃ source ∈ node.sources, sourceIndexKey source branch seq = key then
        some (Record.blob node.id.asBytes) else map[key]? := by
    intro key hkey
    rw [getElem?_appendNode hrun (by rw [isProvenance, hkey, Bool.or_true]), if_neg]
    rintro rfl
    exact isPrefixOf_absurd (isPrefixOf_nodeStorageKey branch seq) hkey
  have hhere : StoredAt map' branch seq node := by
    rw [StoredAt, hnodeKey, if_pos ⟨rfl, rfl⟩]
  have hold : ∀ {branch' seq'' found}, StoredAt map branch' seq'' found →
      StoredAt map' branch' seq'' found := by
    intro branch' seq'' found hstored
    rw [StoredAt, hnodeKey, if_neg]
    · exact hstored
    · rintro ⟨rfl, rfl⟩
      rw [StoredAt, hfree] at hstored
      cases hstored
  refine ⟨fun key record hrecord hkey => ?_, fun branch' seq'' found hstored source hsource => ?_,
    fun key record hrecord hkey => ?_⟩
  · rw [getElem?_appendNode hrun (by rw [isProvenance, hkey, Bool.true_or])] at hrecord
    split at hrecord
    · next heq =>
      obtain rfl := Option.some.inj hrecord
      exact ⟨branch, seq, node, heq, rfl, by rwa [Function.update_self]⟩
    · rw [if_neg] at hrecord
      · obtain ⟨branch', seq'', found, rfl, rfl, hbelow⟩ :=
          hcatalogued.nodes key record hrecord hkey
        refine ⟨branch', seq'', found, rfl, rfl, ?_⟩
        rw [Function.update_apply]
        split
        · next heq => exact lt_trans (by rwa [heq, hseq] at hbelow) hafter
        · exact hbelow
      · rintro ⟨source, -, rfl⟩
        exact isPrefixOf_absurd hkey (isPrefixOf_sourceIndexKey source branch seq)
  · rw [hentryKey (isPrefixOf_sourceIndexKey source branch' seq'')]
    split
    · exact Option.some_ne_none _
    · next hnone =>
      rw [StoredAt, hnodeKey] at hstored
      split at hstored
      · next heq =>
        obtain ⟨rfl, rfl⟩ := heq
        have hfound : StoredAt map' branch' seq'' found := by
          rw [StoredAt, hnodeKey, if_pos ⟨rfl, rfl⟩, hstored]
        obtain rfl := hhere.unique hfound
        exact absurd ⟨source, hsource, rfl⟩ hnone
      · exact hcatalogued.listed branch' seq'' found hstored source hsource
  · rw [hentryKey hkey] at hrecord
    split at hrecord
    · next hnew =>
      obtain ⟨source, hsource, hentry⟩ := hnew
      exact ⟨branch, seq, node, source, hsource, hhere, hentry.symm,
        (Option.some.inj hrecord).symm⟩
    · obtain ⟨branch', seq'', found, source, hsource, hstored, hrest⟩ :=
        hcatalogued.entries key record hrecord hkey
      exact ⟨branch', seq'', found, source, hsource, hold hstored, hrest⟩

theorem Catalogued.appendNodes {next : BranchId → U64} {nodes : List DerivationNode} {seq' : U64}
    (hcatalogued : Catalogued next map) (hseq : next branch = seq)
    (hrun : (appendNodes branch nodes seq).onMap map = .ok (seq', map')) :
    Catalogued (Function.update next branch seq') map' := by
  induction nodes generalizing next seq map with
  | nil =>
      obtain ⟨rfl, rfl⟩ := Prod.mk.inj (Except.ok.inj hrun)
      rwa [← hseq, Function.update_eq_self]
  | cons node nodes ih =>
      rw [LoomDB.appendNodes, KeyValue.onMap_bind_eq_ok] at hrun
      obtain ⟨_, middle, hnode, hrun⟩ := hrun
      obtain ⟨after, middle', hlift, hrest⟩ := KeyValue.onMap_bind_eq_ok.mp hrun
      obtain ⟨hnext, hmiddle⟩ := KeyValue.onMap_lift_eq_ok.mp hlift
      dsimp only at hmiddle
      subst hmiddle
      have happended := hcatalogued.appendNode hseq hnext hnode
      have hmore := ih happended (Function.update_self branch _ next) hrest
      rwa [Function.update_idem] at hmore

end Append

/-- The counters are not among the keys of nodes. -/
theorem appendNodes_counters (branch : BranchId) (nodes : List DerivationNode) (seq : U64) :
    (appendNodes branch nodes seq).Writes fun key =>
      RESERVED_PROV_SEQ_PREFIX.isPrefixOf key = false := by
  have hprovenance : ∀ {key : Key}, isProvenance key = true →
      RESERVED_PROV_SEQ_PREFIX.isPrefixOf key = false := by
    intro key hkey
    rcases Bool.or_eq_true_iff.mp hkey with hstarts | hstarts
    all_goals
      obtain ⟨rest, rfl⟩ := List.isPrefixOf_iff_prefix.mp hstarts
      exact isPrefixOf_append_eq_false (by decide) (by decide) rest
  induction nodes generalizing seq with
  | nil => trivial
  | cons node nodes ih =>
      have hnode : (appendNode branch node seq).Writes fun key =>
          RESERVED_PROV_SEQ_PREFIX.isPrefixOf key = false :=
        ⟨hprovenance (by simp), isPrefixOf_append_eq_false (by decide) (by decide) node.key,
          .forM fun source _ => ⟨hprovenance (by simp), trivial⟩⟩
      refine hnode.bind fun _ => ?_
      cases seq.next with
      | error error => trivial
      | ok next => exact ih next

/-- The nodes of a write take the next places. -/
theorem Kept.appendProvenance {branch : BranchId} {nodes : List DerivationNode}
    {map map' : RecordMap} (hkept : Kept map)
    (hrun : (appendProvenance branch nodes).onMap map = .ok ((), map')) : Kept map' := by
  rw [LoomDB.appendProvenance, KeyValue.onMap_ask_bind] at hrun
  obtain ⟨seq, middle, hnodes, hrun⟩ := KeyValue.onMap_bind_eq_ok.mp hrun
  rw [KeyValue.onMap_put] at hrun
  obtain ⟨-, rfl⟩ := Prod.mk.inj (Except.ok.inj hrun)
  have hcatalogued := Catalogued.appendNodes hkept rfl hnodes
  have hnext : nextPlace (middle.insert (provSeqKey branch) (.value (.counter (I64.ofU64 seq)))) =
      Function.update (nextPlace map) branch seq := by
    funext other
    rw [nextPlace, OrderedMap.getElem?_insert, Function.update_apply]
    by_cases hother : other = branch
    · rw [if_pos (by rw [hother]), if_pos hother, provSeq, I64.toU64_ofU64]
    · have hkey : provSeqKey branch ≠ provSeqKey other := fun heq =>
        hother (List.append_cancel_left heq).symm
      have hcounter : RESERVED_PROV_SEQ_PREFIX.isPrefixOf (provSeqKey other) = true :=
        isPrefixOf_append_of (by decide) other
      rw [if_neg hkey, if_neg hother, nextPlace, (appendNodes_counters branch nodes _).frame hnodes]
      rw [hcounter]
      exact Bool.true_eq_false_eq_False
  rw [Kept, hnext]
  refine hcatalogued.congr fun key hkey => ?_
  rw [OrderedMap.getElem?_insert, if_neg]
  rintro rfl
  obtain ⟨rest, hrest⟩ := List.isPrefixOf_iff_prefix.mp
    (show RESERVED_PREFIX.isPrefixOf (provSeqKey branch) = true from isReserved_provSeqKey branch)
  rcases Bool.or_eq_true_iff.mp hkey with hstarts | hstarts
  all_goals
    rw [← hrest, isPrefixOf_append_eq_false (by decide) (by decide) rest] at hstarts
    cases hstarts

/-! ## Writes -/

theorem indexRecord_outside (captured : ReadSet) (hints : ExtTreeMap Key IndexHint) (key : Key)
    (record : Record) :
    (indexRecord captured hints key record).Writes fun touched => isLedgerKey touched = false := by
  rw [indexRecord_eq]
  cases newEntry captured hints key record with
  | none => trivial
  | some entry =>
      refine ⟨isLedgerKey_storageKey key, ?_⟩
      cases entry.embedding with
      | none => trivial
      | some embedding => exact ⟨isLedgerKey_annBufferKey key, trivial⟩

theorem appendHistory_outside (record : Record) :
    (appendHistory record).Writes fun touched => isLedgerKey touched = false := by
  cases record with
  | claim claim =>
      have hentries : (entries : RecordProgram (List (Key × Record))).Writes fun touched =>
          isLedgerKey touched = false := fun _ => trivial
      refine hentries.bind fun records => KeyValue.Writes.bind (.forM fun version hversion => ?_)
        fun _ => ?_
      · have hfound := isPrefixOf_of_mem_versionsAt (List.mem_filter.mp hversion).1
        exact ⟨isLedgerKey_of_historyPrefix hfound, trivial⟩
      · cases nextVersion _ with
        | error error => trivial
        | ok seq => exact ⟨isLedgerKey_claimKey _ _ _, trivial⟩
  | value value => trivial
  | observation obs => trivial

/-- A write of the caller's own keys keeps the ledger. -/
theorem Kept.writeProgram {platform : Platform} {branch : BranchId} {head : CommitId}
    {written : List (Key × Record)} {envelope : WriteEnvelope} {captured : ReadSet}
    {extraParents : ExtTreeMap Key (List NodeId)} {hints : ExtTreeMap Key IndexHint}
    {map map' : RecordMap} (hkept : Kept map)
    (hcaller : ∀ entry ∈ written, isCaller entry.1 = true)
    (hrun : (writeProgram platform branch head written envelope captured extraParents hints).onMap
      map = .ok ((), map')) : Kept map' := by
  obtain ⟨_, put', hput, hrun⟩ := KeyValue.onMap_bind_eq_ok.mp hrun
  have hkept := hkept.of_writes
    ((putAll_writes hcaller).mono fun _ => isLedgerKey_of_isCaller) hput
  have hrest : ∀ before : RecordMap, Kept before →
      (indexAppends written captured hints).onMap before = .ok ((), map') → Kept map' :=
    fun before hbefore hrest =>
    hbefore.of_writes (.bind (.forM fun _ _ => indexRecord_outside _ _ _ _) fun _ =>
      .forM fun _ _ => appendHistory_outside _) hrest
  unfold engineAppends at hrun
  split at hrun
  · obtain ⟨_, appended, hprovenance, hrun⟩ := KeyValue.onMap_bind_eq_ok.mp hrun
    exact hrest appended (hkept.appendProvenance hprovenance) hrun
  · exact hrest put' hkept hrun

/-- A claim in place of a claim is no change to the ledger. -/
theorem Kept.insert_claim {map : RecordMap} {key : Key} {claim claim' : Claim}
    (hkept : Kept map) (hclaim : map[key]? = some (.claim claim)) :
    Kept (map.insert key (.claim claim')) := by
  have hnone : isProvenance key = false := by
    by_contra hprovenance
    rcases Bool.or_eq_true_iff.mp ((Bool.not_eq_false _).mp hprovenance) with hstarts | hstarts
    · obtain ⟨_, _, _, -, hblob, -⟩ := hkept.nodes key _ hclaim hstarts
      cases hblob
    · obtain ⟨_, _, _, _, -, -, -, hblob⟩ := hkept.entries key _ hclaim hstarts
      cases hblob
  have hnext : nextPlace (map.insert key (.claim claim')) = nextPlace map := by
    funext branch
    rw [nextPlace, OrderedMap.getElem?_insert]
    split
    · next heq => rw [nextPlace, ← heq, hclaim]; rfl
    · rfl
  rw [Kept, hnext]
  refine Catalogued.congr hkept fun other hother => ?_
  rw [OrderedMap.getElem?_insert, if_neg]
  rintro rfl
  rw [hnone] at hother
  cases hother

theorem Kept.forgetKeys {keys : List Key} {counts : ℕ × ℕ} {map map' : RecordMap}
    (hkept : Kept map) (hrun : (Engine.forgetKeys keys).onMap map = .ok (counts, map')) :
    Kept map' := by
  induction keys generalizing map counts with
  | nil =>
      obtain ⟨-, rfl⟩ := Prod.mk.inj (Except.ok.inj hrun)
      exact hkept
  | cons key keys ih =>
      rw [Engine.forgetKeys, KeyValue.onMap_drop_bind, KeyValue.onMap_ask_bind] at hrun
      obtain ⟨withdrawn, after, hclaim, hrun⟩ := KeyValue.onMap_bind_eq_ok.mp hrun
      obtain ⟨more, last, hmore, hrun⟩ := KeyValue.onMap_bind_eq_ok.mp hrun
      obtain ⟨-, rfl⟩ := Prod.mk.inj (Except.ok.inj hrun)
      have hdropped : Kept (map.erase (IndexEntry.storageKey key)) := by
        refine hkept.congr fun other hother => ?_
        rw [OrderedMap.getElem?_erase, if_neg]
        rintro rfl
        rw [isLedgerKey_storageKey] at hother
        cases hother
      have hafter : Kept after := by
        unfold Engine.invalidateClaim at hclaim
        split at hclaim
        · next claim hfound =>
          split at hclaim
          · rw [KeyValue.onMap_put_bind] at hclaim
            obtain ⟨-, rfl⟩ := Prod.mk.inj (Except.ok.inj hclaim)
            exact hdropped.insert_claim hfound
          · obtain ⟨-, rfl⟩ := Prod.mk.inj (Except.ok.inj hclaim)
            exact hdropped
        · obtain ⟨-, rfl⟩ := Prod.mk.inj (Except.ok.inj hclaim)
          exact hdropped
      exact ih hafter hmore

theorem kept_empty : Kept ∅ := by
  refine ⟨fun key record hrecord _ => ?_, fun branch seq node hstored _ _ => ?_,
    fun key record hrecord _ => ?_⟩
  · simp at hrecord
  · simp [StoredAt] at hstored
  · simp at hrecord

/-! ## What a prefix finds -/

/-- The record is the name of a node, as the index has it. -/
theorem mem_seedsAmong {source : SourceRef} {records : List (Key × Record)}
    {seeds : ExtTreeSet NodeId} {id : NodeId} :
    id ∈ seedsAmong source records seeds ↔ id ∈ seeds ∨ ∃ key bytes,
      (key, Record.blob bytes) ∈ records ∧ sourceIndexPrefix source <+: key ∧
      Digest.fromBytes bytes = some id := by
  induction records generalizing seeds with
  | nil => simp [seedsAmong]
  | cons entry records ih =>
      obtain ⟨key, record⟩ := entry
      have hskip : (∀ bytes, record = Record.blob bytes → sourceIndexPrefix source <+: key →
          Digest.fromBytes bytes ≠ some id) →
          ((∃ key' bytes, (key', Record.blob bytes) ∈ (key, record) :: records ∧
            sourceIndexPrefix source <+: key' ∧ Digest.fromBytes bytes = some id) ↔
          ∃ key' bytes, (key', Record.blob bytes) ∈ records ∧
            sourceIndexPrefix source <+: key' ∧ Digest.fromBytes bytes = some id) := by
        intro hnone
        constructor
        · rintro ⟨key', bytes, hmem, hbegins, hid⟩
          rcases List.mem_cons.mp hmem with heq | hmem
          · obtain ⟨rfl, rfl⟩ := Prod.mk.inj heq
            exact absurd hid (hnone bytes rfl hbegins)
          · exact ⟨key', bytes, hmem, hbegins, hid⟩
        · rintro ⟨key', bytes, hmem, hrest⟩
          exact ⟨key', bytes, List.mem_cons_of_mem _ hmem, hrest⟩
      unfold seedsAmong
      split
      · next hbegins =>
        have hbegins := List.isPrefixOf_iff_prefix.mp hbegins
        split
        · next bytes =>
          cases hid : Digest.fromBytes bytes with
          | none =>
              dsimp only
              rw [ih, hskip]
              intro bytes' hblob _ hid'
              obtain rfl := Value.blob.inj (Record.value.inj hblob)
              rw [hid] at hid'
              cases hid'
          | some found =>
              dsimp only
              rw [ih, ExtTreeSet.mem_insert, Std.compare_eq_iff_eq]
              by_cases hfound : found = id
              · subst hfound
                simp only [true_or, true_iff]
                exact Or.inr ⟨key, bytes, List.mem_cons_self, hbegins, hid⟩
              · rw [hskip]
                · simp [hfound]
                · intro bytes' hblob _ hid'
                  obtain rfl := Value.blob.inj (Record.value.inj hblob)
                  exact hfound (Option.some.inj (hid.symm.trans hid'))
        · next hblob =>
          rw [ih, hskip]
          exact fun bytes heq => absurd heq (hblob bytes)
      · next hbegins =>
        rw [ih, hskip]
        exact fun _ _ hstarts => absurd (List.isPrefixOf_iff_prefix.mpr hstarts) hbegins

/-- What a scan by the prefix of a source finds are nodes with some source under the prefix. -/
theorem Kept.mem_seeds {map : RecordMap} (hkept : Kept map) {source : SourceRef} {id : NodeId}
    (hid : id ∈ seedsAmong source map.toList ∅) :
    ∃ branch seq, ∃ node : DerivationNode, ∃ cited ∈ node.sources, StoredAt map branch seq node ∧
      sourceIndexPrefix source <+: sourceIndexKey cited branch seq ∧ node.id = id := by
  rcases mem_seedsAmong.mp hid with hnone | ⟨key, bytes, hmem, hbegins, hbytes⟩
  · simp at hnone
  · have hentry := ExtTreeMap.mem_toList_iff_getElem?_eq_some.mp hmem
    obtain ⟨branch, seq, node, cited, hcited, hstored, rfl, hblob⟩ :=
      hkept.entries key _ hentry (isPrefixOf_sourceIndexPrefix hbegins)
    obtain rfl := Value.blob.inj (Record.value.inj hblob)
    refine ⟨branch, seq, node, cited, hcited, hstored, hbegins, ?_⟩
    rw [Digest.fromBytes_asBytes] at hbytes
    exact Option.some.inj hbytes

/-- A scan finds whichever node has the entry of a source at the place. -/
theorem Kept.seeds_mem {map : RecordMap} (hkept : Kept map) {branch : BranchId} {seq : U64}
    {node : DerivationNode} {source : SourceRef} (hstored : StoredAt map branch seq node)
    (hsource : source ∈ node.sources) :
    ∃ branch' seq', ∃ holder : DerivationNode, ∃ cited ∈ holder.sources,
      StoredAt map branch' seq' holder ∧
      sourceIndexKey cited branch' seq' = sourceIndexKey source branch seq ∧
      holder.id ∈ seedsAmong source map.toList ∅ := by
  obtain ⟨record, hrecord⟩ :=
    Option.ne_none_iff_exists'.mp (hkept.listed branch seq node hstored source hsource)
  obtain ⟨branch', seq', holder, cited, hcited, hholder, hkey, rfl⟩ :=
    hkept.entries _ record hrecord (isPrefixOf_sourceIndexKey source branch seq)
  refine ⟨branch', seq', holder, cited, hcited, hholder, hkey.symm, mem_seedsAmong.mpr (Or.inr
    ⟨_, _, ExtTreeMap.mem_toList_iff_getElem?_eq_some.mpr hrecord,
      sourceIndexPrefix_prefix source branch seq, Digest.fromBytes_asBytes holder.id⟩)⟩

/-- Whatever has an index key under the prefix of the source cites the source, and no other node
has the key of one that does. -/
structure Separate (map : RecordMap) (source : SourceRef) : Prop where
  cites : ∀ place seq (node : DerivationNode), StoredAt map place seq node →
    ∀ cited ∈ node.sources, sourceIndexPrefix source <+: sourceIndexKey cited place seq →
    source ∈ node.sources
  alone : ∀ place seq (node : DerivationNode) place' seq' (other : DerivationNode),
    StoredAt map place seq node → source ∈ node.sources → StoredAt map place' seq' other →
    ∀ cited ∈ other.sources, sourceIndexKey cited place' seq' = sourceIndexKey source place seq →
    other.id = node.id

theorem nodeAt_nodeStorageKey (branch : BranchId) (seq : U64) (node : DerivationNode) :
    nodeAt (nodeStorageKey branch seq) (Record.blob node.encode) = some node := by
  unfold nodeAt Record.blob
  rw [if_pos (isPrefixOf_nodeStorageKey branch seq)]
  dsimp only
  rw [DerivationNode.decode_encode]
  rfl

/-- What reads as a node is one at its place. -/
theorem Kept.storedAt {map : RecordMap} (hkept : Kept map) {key : Key} {record : Record}
    {node : DerivationNode} (hrecord : map[key]? = some record)
    (hnode : nodeAt key record = some node) :
    ∃ branch seq, key = nodeStorageKey branch seq ∧ StoredAt map branch seq node := by
  have hstarts : PROV_PREFIX.isPrefixOf key = true := by
    by_contra hother
    rw [nodeAt_of_not_isPrefixOf record ((Bool.not_eq_true _).mp hother)] at hnode
    cases hnode
  obtain ⟨branch, seq, found, rfl, rfl, -⟩ := hkept.nodes key record hrecord hstarts
  rw [nodeAt_nodeStorageKey] at hnode
  obtain rfl := Option.some.inj hnode
  exact ⟨branch, seq, rfl, hrecord⟩

theorem Kept.mem_seeds_iff {map : RecordMap} (hkept : Kept map) {source : SourceRef}
    (hseparate : Separate map source) {id : NodeId} :
    id ∈ seedsAmong source map.toList ∅ ↔ ∃ branch seq, ∃ node : DerivationNode,
      StoredAt map branch seq node ∧ source ∈ node.sources ∧ node.id = id := by
  constructor
  · intro hid
    obtain ⟨branch, seq, node, cited, hcited, hstored, hbegins, hname⟩ := hkept.mem_seeds hid
    exact ⟨branch, seq, node, hstored,
      hseparate.cites branch seq node hstored cited hcited hbegins, hname⟩
  · rintro ⟨branch, seq, node, hstored, hsource, rfl⟩
    obtain ⟨branch', seq', holder, cited, hcited, hholder, hkey, hmem⟩ :=
      hkept.seeds_mem hstored hsource
    rwa [hseparate.alone branch seq node branch' seq' holder hstored hsource hholder cited hcited
      hkey] at hmem

namespace Engine

variable {σ ρ : Type} {engine : Engine σ ρ} {lawful : engine.pager.Lawful} {loom : Loom σ ρ}

/-! ## Runs -/

/-- The call hands in no key of the engine, and merges nothing. -/
def WritesOwn : Call → Prop
  | .write _ _ records _ _ => ∀ entry ∈ records, isCaller entry.1 = true
  | .merge .. => False
  | _ => True

/-- What such calls lead to from a new database. -/
inductive Written (lawful : engine.pager.Lawful) : Loom σ ρ → Prop
  | opened {pager : σ} {store : ρ} {loom : Loom σ ρ} (fresh : engine.Fresh lawful pager store)
      (opened : engine.assemble pager store = .ok loom) : Written lawful loom
  | called {loom : Loom σ ρ} {call : Call} (written : Written lawful loom) (own : WritesOwn call) :
      Written lawful (engine.after call loom)
  | reopened {loom loom' : Loom σ ρ} (written : Written lawful loom)
      (opened : engine.assemble loom.pager loom.store = .ok loom') : Written lawful loom'

theorem Written.reachable (hwritten : Written lawful loom) : engine.Reachable lawful loom := by
  induction hwritten with
  | opened hfresh hopened => exact .opened hfresh hopened
  | called _ _ ih => exact ih.called _
  | reopened _ hopened ih => exact ih.reopened hopened

theorem Makes.kept_ledger {call : Call} {branch : BranchId} {map map' : RecordMap}
    (hmakes : Makes engine loom call branch map map') (hown : WritesOwn call)
    (hkept : LoomDB.Kept map) : LoomDB.Kept map' := by
  cases hmakes with
  | wrote _ _ hrun => exact hkept.writeProgram hown hrun
  | forgot _ hrun => exact hkept.forgetKeys hrun
  | @kept _ _ upkeep _ _ _ hrun =>
      exact hkept.of_writes (upkeep.property.mono fun _ => isLedgerKey_of_isVectorKey) hrun
  | merged => exact absurd hown id

/-- The ledger of every commit is in order. -/
theorem Written.kept (hwritten : Written lawful loom) :
    lawful.AllMaps LoomDB.Kept loom.pager := by
  induction hwritten with
  | opened hfresh hopened => exact AllMaps.opened hfresh hopened kept_empty
  | called hwritten hown ih =>
      exact AllMaps.after hwritten.reachable.sound ih fun _ hmakes hmap =>
        hmakes.kept_ledger hown hmap
  | reopened _ hopened ih => exact AllMaps.reopened ih hopened

/-! ## Seeds -/

/-- A record of the branch reads as the node. -/
def NodeOn (lawful : engine.pager.Lawful) (loom : Loom σ ρ) (branch : BranchId)
    (node : DerivationNode) : Prop :=
  ∃ (map : RecordMap) (key : Key) (record : Record), Shows lawful loom branch map ∧
    map[key]? = some record ∧ nodeAt key record = some node

/-- The seeds of a source are the nodes on the branch that cite it. -/
def SeedsExact (lawful : engine.pager.Lawful) (loom : Loom σ ρ) (branch : BranchId)
    (source : SourceRef) : Prop :=
  ∀ seeds, (engine.seedsOn branch source loom).1 = .ok seeds → ∀ id, id ∈ seeds ↔
    ∃ node, NodeOn lawful loom branch node ∧ source ∈ node.sources ∧ node.id = id

theorem seedsOn_eq_ok {branch : BranchId} {source : SourceRef} {seeds : ExtTreeSet NodeId}
    (hsound : lawful.Sound loom.pager)
    (hseeds : (engine.seedsOn branch source loom).1 = .ok seeds) :
    ∃ map, Shows lawful loom branch map ∧ seeds = seedsAmong source map.toList ∅ := by
  rcases hresult : engine.seedsOn branch source loom with ⟨result, after⟩
  rw [hresult] at hseeds
  obtain rfl : result = .ok seeds := hseeds
  rw [seedsOn, FallibleState.bind_eq_ok] at hresult
  obtain ⟨commit, _, hhead, hresult⟩ := hresult
  obtain ⟨hhead, rfl⟩ := head_eq_ok.mp hhead
  rw [FallibleState.bind_eq_ok] at hresult
  obtain ⟨records, _, hreading, hresult⟩ := hresult
  obtain ⟨rfl, -⟩ := FallibleState.pure_eq_ok.mp hresult
  obtain ⟨-, map, _, hstores, hran⟩ := reading_spec hsound hreading
  obtain ⟨rfl, -⟩ := Prod.mk.inj (Except.ok.inj hran)
  exact ⟨map, ⟨commit, hhead, hstores⟩, rfl⟩

/-- Where the sources are told apart by the prefix, the seeds are exact. -/
theorem seedsOn_exact (hwritten : Written lawful loom) {branch : BranchId} {source : SourceRef}
    (hseparate : ∀ map, Shows lawful loom branch map → Separate map source) :
    SeedsExact lawful loom branch source := by
  intro seeds hseeds name
  obtain ⟨map, hshows, rfl⟩ := seedsOn_eq_ok hwritten.reachable.sound hseeds
  obtain ⟨commit, hhead, hstores⟩ := id hshows
  have hkept := hwritten.kept commit map hstores
  rw [hkept.mem_seeds_iff (hseparate map hshows)]
  constructor
  · rintro ⟨place, seq, node, hstored, hsource, rfl⟩
    exact ⟨node, ⟨map, _, _, hshows, hstored, nodeAt_nodeStorageKey place seq node⟩, hsource, rfl⟩
  · rintro ⟨node, ⟨map', key, record, hshows', hrecord, hnode⟩, hsource, rfl⟩
    obtain rfl := hshows.unique hshows'
    obtain ⟨place, seq, -, hstored⟩ := hkept.storedAt hrecord hnode
    exact ⟨place, seq, node, hstored, hsource, rfl⟩

/-! ## A source and one that extends it -/

/-- Every node among the records of the commit passes. -/
def nodesPass (engine : Engine σ ρ) (loom : Loom σ ρ) (commit : CommitId)
    (test : DerivationNode → Bool) : Bool :=
  match (engine.reading commit entries loom).1 with
  | .ok records => records.all fun entry => (nodeAt entry.1 entry.2).all test
  | .error _ => false

theorem NodeOn.passes {branch : BranchId} {node : DerivationNode}
    (hnode : NodeOn lawful loom branch node) (hsound : lawful.Sound loom.pager)
    (commit : CommitId) (test : DerivationNode → Bool)
    (hhead : loom.refs.branches[branch]? = some commit)
    (hpass : nodesPass engine loom commit test = true) : test node = true := by
  obtain ⟨map, key, record, hshows, hrecord, hnode⟩ := hnode
  unfold nodesPass at hpass
  split at hpass
  · next records hrecords =>
    rcases hresult : engine.reading commit entries loom with ⟨result, after⟩
    rw [hresult] at hrecords
    obtain rfl : result = .ok records := hrecords
    obtain ⟨-, map', _, hstores, hran⟩ := reading_spec hsound hresult
    obtain rfl := hshows.unique ⟨commit, hhead, hstores⟩
    obtain ⟨rfl, -⟩ := Prod.mk.inj (Except.ok.inj hran)
    have hentry := List.all_eq_true.mp hpass (key, record)
      (ExtTreeMap.mem_toList_iff_getElem?_eq_some.mpr hrecord)
    rwa [hnode, Option.all_some] at hentry
  · cases hpass

/-- A page of the site. -/
def sitePage (recordId : Bytes) : SourceRef :=
  { system := ascii "web", recordId := recordId }

/-- The page is written to the main branch. -/
def siteCall (recordId : Bytes) : Call :=
  .write (memoryToken [MAIN]) MAIN [(ascii "k", .observation {
      id := 0
      source := sitePage recordId
      trust := .untrusted
      observedAt := none
      ingestedAt := 0
      payload := [] })] ∅ (memoryEnvelope MAIN)

theorem written_siteCall (recordId : Bytes) :
    Written memoryLawful (memoryEngine.after (siteCall recordId) memoryLoom) := by
  refine .called (.opened (inMemory_fresh rfl) memoryLoom_opened) fun entry hentry => ?_
  rw [List.mem_singleton.mp hentry]
  exact (show isCaller (ascii "k") = true by decide)

theorem seedsOn_exact_page :
    SeedsExact memoryLawful (memoryEngine.after (siteCall (ascii "1")) memoryLoom) MAIN
      (sitePage (ascii "1")) := by
  have hwritten := written_siteCall (ascii "1")
  have honly : ∀ node, NodeOn memoryLawful
      (memoryEngine.after (siteCall (ascii "1")) memoryLoom) MAIN node →
      node.sources = [sitePage (ascii "1")] := by
    intro node hnode
    have hpass := hnode.passes hwritten.reachable.sound 1
      (fun node => node.sources = [sitePage (ascii "1")]) (by decide +kernel) (by decide +kernel)
    exact of_decide_eq_true hpass
  refine seedsOn_exact hwritten fun map hshows => ?_
  have hsources : ∀ {place seq} {node : DerivationNode}, StoredAt map place seq node →
      node.sources = [sitePage (ascii "1")] := fun {place seq node} hstored =>
    honly node ⟨map, _, _, hshows, hstored, nodeAt_nodeStorageKey place seq node⟩
  refine ⟨fun place seq node hstored _ _ _ => ?_,
    fun place seq node place' seq' other hstored _ hother cited hcited hkey => ?_⟩
  · rw [hsources hstored]
    exact List.mem_singleton_self _
  · rw [hsources hother] at hcited
    obtain rfl := List.mem_singleton.mp hcited
    obtain ⟨rfl, rfl⟩ := branchSeq_inj (List.append_cancel_left hkey)
    rw [hother.unique hstored]

/-- A write that cites a page below another one is found under both. -/
theorem seeds_of_extended :
    Written memoryLawful (memoryEngine.after (siteCall (ascii "1/2")) memoryLoom) ∧
      ¬ SeedsExact memoryLawful (memoryEngine.after (siteCall (ascii "1/2")) memoryLoom) MAIN
        (sitePage (ascii "1")) := by
  have hwritten := written_siteCall (ascii "1/2")
  refine ⟨hwritten, fun hexact => ?_⟩
  obtain ⟨seeds, hseeds, hsome⟩ : ∃ seeds,
      (memoryEngine.seedsOn MAIN (sitePage (ascii "1"))
        (memoryEngine.after (siteCall (ascii "1/2")) memoryLoom)).1 = .ok seeds ∧
      seeds.isEmpty = false := by
    have hfound : ((memoryEngine.seedsOn MAIN (sitePage (ascii "1"))
        (memoryEngine.after (siteCall (ascii "1/2")) memoryLoom)).1.toOption.any fun seeds =>
          !seeds.isEmpty) = true := by decide +kernel
    cases hseeds : (memoryEngine.seedsOn MAIN (sitePage (ascii "1"))
        (memoryEngine.after (siteCall (ascii "1/2")) memoryLoom)).1 with
    | error error =>
        rw [hseeds] at hfound
        cases hfound
    | ok seeds =>
        rw [hseeds] at hfound
        exact ⟨seeds, rfl, Bool.not_eq_true' _ ▸ hfound⟩
  have hne : seeds.toList ≠ [] := by
    intro hnil
    rw [← ExtTreeSet.isEmpty_toList, hnil] at hsome
    cases hsome
  obtain ⟨id, hid⟩ := List.exists_mem_of_ne_nil _ hne
  have hid := ExtTreeSet.mem_toList.mp hid
  obtain ⟨node, hnode, hcites, -⟩ := (hexact seeds hseeds id).mp hid
  have hpass := hnode.passes hwritten.reachable.sound 1
    (fun node => sitePage (ascii "1") ∉ node.sources) (by decide +kernel) (by decide +kernel)
  exact of_decide_eq_true hpass hcites

end Engine

end LoomDB
