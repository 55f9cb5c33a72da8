import LoomDB.Provenance.MergedNodes

/-!
# What rests on a source

A node rests on a source if the index has it under the source, or if a parent of it rests on
the source. A write at the next places of its branch takes no node and no entry away, so what
rested on a source before it does so after it.
-/

namespace LoomDB

open Std (ExtTreeMap ExtTreeSet)
open KeyValue (put)

/-! ## The nodes of a map -/

/-- A record of the map reads as the node. -/
def HasNode (map : RecordMap) (node : DerivationNode) : Prop :=
  ∃ (key : Key) (record : Record), map[key]? = some record ∧ nodeAt key record = some node

/-- A node of the map names the parent. -/
def NamesParent (map : RecordMap) (parent child : NodeId) : Prop :=
  ∃ node, HasNode map node ∧ parent ∈ node.derivedFrom ∧ node.id = child

/-- The node has an entry under the source, or comes down from one that has. -/
def RestsUpon (map : RecordMap) (source : SourceRef) (id : NodeId) : Prop :=
  ∃ seed ∈ seedsAmong source map.toList ∅, Relation.ReflTransGen (NamesParent map) seed id

/-- Where the walk for a source looks. -/
def Walks (source : SourceRef) (key : Key) : Prop :=
  PROV_PREFIX.isPrefixOf key = true ∨ sourceIndexPrefix source <+: key

theorem Walks.isProvenance {source : SourceRef} {key : Key} (hwalks : Walks source key) :
    isProvenance key = true := by
  rw [LoomDB.isProvenance, Bool.or_eq_true]
  exact hwalks.imp id isPrefixOf_sourceIndexPrefix

/-- Nothing that the walk finds is lost. -/
def Keeps (source : SourceRef) (map map' : RecordMap) : Prop :=
  ∀ (key : Key) (record : Record), Walks source key → map[key]? = some record →
    map'[key]? = some record

theorem isPrefixOf_of_nodeAt {key : Key} {record : Record} {node : DerivationNode}
    (hnode : nodeAt key record = some node) : PROV_PREFIX.isPrefixOf key = true := by
  by_contra hkey
  unfold nodeAt at hnode
  rw [if_neg hkey] at hnode
  cases hnode

section Resting

variable {map map' : RecordMap} {source : SourceRef} {id : NodeId} {node : DerivationNode}

theorem Keeps.refl (source : SourceRef) (map : RecordMap) : Keeps source map map :=
  fun _ _ _ => id

theorem Keeps.trans {map'' : RecordMap} (hfirst : Keeps source map map')
    (hsecond : Keeps source map' map'') : Keeps source map map'' :=
  fun key record hwalks hrecord => hsecond key record hwalks (hfirst key record hwalks hrecord)

theorem Keeps.of_same
    (hsame : ∀ key : Key, isProvenance key = true → map'[key]? = map[key]?) :
    Keeps source map map' :=
  fun key _ hwalks hrecord => (hsame key hwalks.isProvenance).trans hrecord

theorem HasNode.mono (hnode : HasNode map node) (hkeeps : Keeps source map map') :
    HasNode map' node := by
  obtain ⟨key, record, hrecord, hnode⟩ := hnode
  exact ⟨key, record, hkeeps key record (Or.inl (isPrefixOf_of_nodeAt hnode)) hrecord, hnode⟩

theorem Keeps.seeds (hkeeps : Keeps source map map')
    (hseed : id ∈ seedsAmong source map.toList ∅) : id ∈ seedsAmong source map'.toList ∅ := by
  rcases mem_seedsAmong.mp hseed with hnone | ⟨key, bytes, hmem, hbegins, hbytes⟩
  · simp at hnone
  · have hentry := ExtTreeMap.mem_toList_iff_getElem?_eq_some.mp hmem
    exact mem_seedsAmong.mpr (Or.inr ⟨key, bytes, ExtTreeMap.mem_toList_iff_getElem?_eq_some.mpr
      (hkeeps key _ (Or.inr hbegins) hentry), hbegins, hbytes⟩)

theorem RestsUpon.mono (hrests : RestsUpon map source id) (hkeeps : Keeps source map map') :
    RestsUpon map' source id := by
  obtain ⟨seed, hseed, hpath⟩ := hrests
  have hnames : NamesParent map ≤ NamesParent map' := by
    rintro parent child ⟨middle, hmiddle, hnames⟩
    exact ⟨middle, hmiddle.mono hkeeps, hnames⟩
  exact ⟨seed, hkeeps.seeds hseed, Relation.ReflTransGen.mono hnames _ _ hpath⟩

theorem RestsUpon.of_seed (hseed : id ∈ seedsAmong source map.toList ∅) :
    RestsUpon map source id :=
  ⟨id, hseed, .refl⟩

theorem RestsUpon.child (hrests : RestsUpon map source id) (hnode : HasNode map node)
    (hparent : id ∈ node.derivedFrom) : RestsUpon map source node.id := by
  obtain ⟨seed, hseed, hpath⟩ := hrests
  exact ⟨seed, hseed, hpath.tail ⟨node, hnode, hparent, rfl⟩⟩

end Resting

/-! ## What the walk finds -/

section Walking

variable {map : RecordMap} {source : SourceRef} {id : NodeId} {node : DerivationNode}

theorem nodesAmong_cons (key : Key) (record : Record) (records : List (Key × Record))
    (nodes : NodeMap) :
    nodesAmong ((key, record) :: records) nodes =
      nodesAmong records ((nodeAt key record).elim nodes fun node => nodes.insert node.id node) := by
  cases hkey : PROV_PREFIX.isPrefixOf key with
  | false => simp [nodesAmong, nodeAt, hkey]
  | true =>
      cases record with
      | observation obs => simp [nodesAmong, nodeAt, hkey]
      | claim claim => simp [nodesAmong, nodeAt, hkey]
      | value value =>
          cases value with
          | blob bytes =>
              simp only [nodesAmong, nodeAt, hkey, if_true]
              cases DerivationNode.decode bytes <;> rfl
          | _ => simp [nodesAmong, nodeAt, hkey]

/-- Every node among the records has its name in the map of nodes. -/
theorem isSome_nodesAmong {records : List (Key × Record)} {nodes : NodeMap}
    (hfound : nodes[id]?.isSome ∨ ∃ entry ∈ records, ∃ node, nodeAt entry.1 entry.2 = some node ∧
      node.id = id) : (nodesAmong records nodes)[id]?.isSome := by
  induction records generalizing nodes with
  | nil => exact hfound.resolve_right fun ⟨_, hmem, _⟩ => List.not_mem_nil hmem
  | cons entry records ih =>
      obtain ⟨key, record⟩ := entry
      rw [nodesAmong_cons]
      refine ih ?_
      rcases hfound with hold | ⟨entry, hentry, node, hnode, rfl⟩
      · refine Or.inl ?_
        cases nodeAt key record with
        | none => exact hold
        | some node =>
            rw [Option.elim_some, OrderedMap.getElem?_insert]
            split
            · rfl
            · exact hold
      · rcases List.mem_cons.mp hentry with rfl | hlater
        · refine Or.inl ?_
          dsimp only at hnode
          rw [hnode, Option.elim_some, OrderedMap.getElem?_insert, if_pos rfl]
          rfl
        · exact Or.inr ⟨entry, hlater, node, hnode, rfl⟩

/-- What the map of nodes has is a node of the records, under its name. -/
theorem hasNode_of_nodesAmong (hfound : (nodesAmong map.toList ∅)[id]? = some node) :
    HasNode map node ∧ node.id = id := by
  rcases mem_of_nodesAmong hfound with hnone | ⟨⟨key, record⟩, hentry, hnode, hid⟩
  · simp at hnone
  · exact ⟨⟨key, record, ExtTreeMap.mem_toList_iff_getElem?_eq_some.mp hentry, hnode⟩, hid⟩

theorem HasNode.exists_found (hnode : HasNode map node) :
    ∃ found, (nodesAmong map.toList ∅)[node.id]? = some found := by
  obtain ⟨key, record, hrecord, hnode⟩ := hnode
  exact Option.isSome_iff_exists.mp (isSome_nodesAmong (Or.inr
    ⟨_, ExtTreeMap.mem_toList_iff_getElem?_eq_some.mpr hrecord, node, hnode, rfl⟩))

/-- Nodes of one name have the same parents, and are of one key. -/
def NamesAgree (map : RecordMap) : Prop :=
  ∀ left right, HasNode map left → HasNode map right → left.id = right.id →
    left.derivedFrom = right.derivedFrom ∧ left.key = right.key

/-- Where names agree, the walk finds what rests on the source. -/
theorem RestsUpon.downstream (hrests : RestsUpon map source id) (hagree : NamesAgree map) :
    Downstream (nodesAmong map.toList ∅) (seedsAmong source map.toList ∅) id := by
  obtain ⟨seed, hseed, hpath⟩ := hrests
  refine ⟨seed, hseed, Relation.ReflTransGen.mono ?_ _ _ hpath⟩
  rintro parent child ⟨node, hnode, hparent, rfl⟩
  obtain ⟨found, hfound⟩ := hnode.exists_found
  obtain ⟨hhas, hid⟩ := hasNode_of_nodesAmong hfound
  obtain ⟨hparents, -⟩ := hagree found node hhas hnode hid
  exact ⟨node.id, found, hfound, hparents ▸ hparent, hid⟩

end Walking

/-! ## Places -/

/-- Nothing that the walk looks at is stored at the branch's places from `next` on. -/
structure FreeFrom (next : U64) (source : SourceRef) (branch : BranchId) (map : RecordMap) :
    Prop where
  nodes : ∀ seq, next ≤ seq → map[nodeStorageKey branch seq]? = none
  entries : ∀ cited seq, next ≤ seq → sourceIndexPrefix source <+: sourceIndexKey cited branch seq →
    map[sourceIndexKey cited branch seq]? = none

/-- The counter of the branch is past all that is stored for it. -/
def Ahead (source : SourceRef) (branch : BranchId) (map : RecordMap) : Prop :=
  FreeFrom (nextPlace map branch) source branch map

theorem FreeFrom.congr {next : U64} {source : SourceRef} {branch : BranchId}
    {map map' : RecordMap} (hfree : FreeFrom next source branch map)
    (hsame : ∀ key : Key, isProvenance key = true → map'[key]? = map[key]?) :
    FreeFrom next source branch map' where
  nodes seq hseq := (hsame _ (isProvenance_nodeStorageKey branch seq)).trans (hfree.nodes seq hseq)
  entries cited seq hseq hbegins :=
    (hsame _ (isProvenance_sourceIndexKey cited branch seq)).trans
      (hfree.entries cited seq hseq hbegins)

/-- The last bytes of an index key are the place. -/
theorem sourceIndexKey_seq {cited cited' : SourceRef} {branch branch' : BranchId} {seq seq' : U64}
    (heq : sourceIndexKey cited branch seq = sourceIndexKey cited' branch' seq') : seq = seq' := by
  simp only [sourceIndexKey, branchSeq, ← List.append_assoc] at heq
  obtain ⟨-, hseq⟩ := List.append_inj' heq (by simp only [length_beBytes])
  exact Fin.ext (beBytes_inj seq.isLt seq'.isLt hseq)

/-- The walk finds the node, and finds it under the source if it cites it. -/
def Finds (source : SourceRef) (map : RecordMap) (node : DerivationNode) : Prop :=
  HasNode map node ∧ (source ∈ node.sources → node.id ∈ seedsAmong source map.toList ∅)

theorem Finds.mono {source : SourceRef} {map map' : RecordMap} {node : DerivationNode}
    (hfinds : Finds source map node) (hkeeps : Keeps source map map') : Finds source map' node :=
  ⟨hfinds.1.mono hkeeps, fun hcites => hkeeps.seeds (hfinds.2 hcites)⟩

section Writing

variable {branch : BranchId} {map map' : RecordMap} {source : SourceRef}

/-- A node put at the next place is found, and nothing else is lost. -/
theorem appendNode_finds {node : DerivationNode} {seq after : U64}
    (hfree : FreeFrom seq source branch map) (hnext : seq.next = .ok after)
    (hrun : (appendNode branch node seq).onMap map = .ok ((), map')) :
    FreeFrom after source branch map' ∧ Keeps source map map' ∧ Finds source map' node := by
  have hafter := lt_of_next hnext
  have hplace : ∀ place, map'[nodeStorageKey branch place]? =
      if place = seq then some (Record.blob node.encode) else map[nodeStorageKey branch place]? :=
    getElem?_appendNode_place hrun
  have hentry : ∀ {key : Key}, SRC_PREFIX.isPrefixOf key = true → map'[key]? =
      if ∃ cited ∈ node.sources, sourceIndexKey cited branch seq = key then
        some (Record.blob node.id.asBytes) else map[key]? := by
    intro key hkey
    rw [getElem?_appendNode hrun (by rw [isProvenance, hkey, Bool.or_true]), if_neg]
    rintro rfl
    exact isPrefixOf_absurd (isPrefixOf_nodeStorageKey branch seq) hkey
  refine ⟨⟨fun place hle => ?_, fun cited place hle hbegins => ?_⟩, fun key record hwalks hrecord => ?_,
    ⟨nodeStorageKey branch seq, Record.blob node.encode, ?_, nodeAt_nodeStorageKey branch seq node⟩,
    fun hcites => mem_seedsAmong.mpr (Or.inr ⟨sourceIndexKey source branch seq, node.id.asBytes,
      ExtTreeMap.mem_toList_iff_getElem?_eq_some.mpr ?_, sourceIndexPrefix_prefix source branch seq,
      Digest.fromBytes_asBytes node.id⟩)⟩
  · rw [hplace, if_neg (hafter.trans_le hle).ne']
    exact hfree.nodes place (hafter.le.trans hle)
  · rw [hentry (isPrefixOf_sourceIndexKey cited branch place), if_neg]
    · exact hfree.entries cited place (hafter.le.trans hle) hbegins
    · rintro ⟨other, -, heq⟩
      exact (hafter.trans_le hle).ne (sourceIndexKey_seq heq)
  · rcases hwalks with hnode | hbegins
    · rw [getElem?_appendNode hrun (by rw [isProvenance, hnode, Bool.true_or]), if_neg, if_neg]
      · exact hrecord
      · rintro ⟨cited, -, rfl⟩
        exact isPrefixOf_absurd hnode (isPrefixOf_sourceIndexKey cited branch seq)
      · rintro rfl
        rw [hfree.nodes seq le_rfl] at hrecord
        cases hrecord
    · rw [hentry (isPrefixOf_sourceIndexPrefix hbegins), if_neg]
      · exact hrecord
      · rintro ⟨cited, -, rfl⟩
        rw [hfree.entries cited seq le_rfl hbegins] at hrecord
        cases hrecord
  · rw [hplace, if_pos rfl]
  · rw [hentry (isPrefixOf_sourceIndexKey source branch seq), if_pos ⟨source, hcites, rfl⟩]

theorem appendNodes_finds {nodes : List DerivationNode} {seq seq' : U64}
    (hfree : FreeFrom seq source branch map)
    (hrun : (appendNodes branch nodes seq).onMap map = .ok (seq', map')) :
    FreeFrom seq' source branch map' ∧ Keeps source map map' ∧
      ∀ node ∈ nodes, Finds source map' node := by
  induction nodes generalizing seq map with
  | nil =>
      obtain ⟨rfl, rfl⟩ := Prod.mk.inj (Except.ok.inj hrun)
      exact ⟨hfree, .refl source _, by simp⟩
  | cons node nodes ih =>
      rw [appendNodes, KeyValue.onMap_bind_eq_ok] at hrun
      obtain ⟨_, middle, hnode, hrun⟩ := hrun
      obtain ⟨after, middle', hlift, hrest⟩ := KeyValue.onMap_bind_eq_ok.mp hrun
      obtain ⟨hnext, hmiddle⟩ := KeyValue.onMap_lift_eq_ok.mp hlift
      dsimp only at hmiddle
      subst hmiddle
      obtain ⟨hfree', hkeeps, hfinds⟩ := appendNode_finds hfree hnext hnode
      obtain ⟨hlast, hkeeps', hrest⟩ := ih hfree' hrest
      exact ⟨hlast, hkeeps.trans hkeeps',
        List.forall_mem_cons.mpr ⟨hfinds.mono hkeeps', hrest⟩⟩

/-- A node is made the latest of its key. -/
theorem getElem?_appendNode_latest {node : DerivationNode} {seq : U64}
    (hrun : (appendNode branch node seq).onMap map = .ok ((), map')) (key : Key) :
    map'[latestNodeKey key]? = if node.key = key then some (Record.blob node.id.asBytes)
      else map[latestNodeKey key]? := by
  have hother : ∀ {other : Key}, isProvenance other = true → other ≠ latestNodeKey key := by
    rintro other hprovenance rfl
    rw [isProvenance_of_isReserved (isReserved_latestNodeKey key)] at hprovenance
    cases hprovenance
  have hlatest : latestNodeKey node.key = latestNodeKey key ↔ node.key = key :=
    ⟨fun heq => List.append_cancel_left heq, congrArg latestNodeKey⟩
  rw [appendNode, KeyValue.onMap_put_bind, KeyValue.onMap_put_bind] at hrun
  rw [getElem?_index hrun, if_neg, OrderedMap.getElem?_insert, OrderedMap.getElem?_insert,
    if_neg (hother (isProvenance_nodeStorageKey branch seq)), if_congr hlatest rfl rfl]
  rintro ⟨source, -, hentry⟩
  exact hother (isProvenance_sourceIndexKey source branch seq) hentry

/-- The record of the latest node of a key is that of one of the nodes appended for it, or the
one before if there are none. -/
theorem appendNodes_latest {nodes : List DerivationNode} {seq seq' : U64}
    (hrun : (appendNodes branch nodes seq).onMap map = .ok (seq', map')) (key : Key) :
    (∃ node ∈ nodes, node.key = key ∧
        map'[latestNodeKey key]? = some (Record.blob node.id.asBytes)) ∨
      (∀ node ∈ nodes, node.key ≠ key) ∧ map'[latestNodeKey key]? = map[latestNodeKey key]? := by
  induction nodes generalizing seq map with
  | nil =>
      obtain ⟨-, rfl⟩ := Prod.mk.inj (Except.ok.inj hrun)
      exact Or.inr ⟨by simp, rfl⟩
  | cons node nodes ih =>
      rw [appendNodes, KeyValue.onMap_bind_eq_ok] at hrun
      obtain ⟨_, middle, hnode, hrun⟩ := hrun
      obtain ⟨after, middle', hlift, hrest⟩ := KeyValue.onMap_bind_eq_ok.mp hrun
      obtain ⟨-, hmiddle⟩ := KeyValue.onMap_lift_eq_ok.mp hlift
      dsimp only at hmiddle
      subst hmiddle
      have hhere := getElem?_appendNode_latest hnode key
      rcases ih hrest with ⟨found, hfound, hkey, hlatest⟩ | ⟨hnone, hsame⟩
      · exact Or.inl ⟨found, List.mem_cons_of_mem _ hfound, hkey, hlatest⟩
      · rw [hsame, hhere]
        by_cases hkey : node.key = key
        · exact Or.inl ⟨node, List.mem_cons_self, hkey, if_pos hkey⟩
        · exact Or.inr ⟨List.forall_mem_cons.mpr ⟨hkey, hnone⟩, if_neg hkey⟩

/-- Indexing and history leave the latest nodes. -/
theorem indexRecord_latest (captured : ReadSet) (hints : ExtTreeMap Key IndexHint) (key : Key)
    (record : Record) : (indexRecord captured hints key record).Writes fun touched =>
      RESERVED_LATEST_PREFIX.isPrefixOf touched = false := by
  rw [indexRecord_eq]
  cases newEntry captured hints key record with
  | none => trivial
  | some entry =>
      refine ⟨isPrefixOf_append_eq_false (by decide) (by decide) key, ?_⟩
      cases entry.embedding with
      | none => trivial
      | some embedding => exact ⟨isPrefixOf_append_eq_false (by decide) (by decide) key, trivial⟩

theorem appendHistory_latest (record : Record) : (appendHistory record).Writes fun touched =>
    RESERVED_LATEST_PREFIX.isPrefixOf touched = false := by
  cases record with
  | value value => trivial
  | observation obs => trivial
  | claim claim =>
      have hentries : (KeyValue.entries : RecordProgram (List (Key × Record))).Writes fun touched =>
          RESERVED_LATEST_PREFIX.isPrefixOf touched = false := fun _ => trivial
      refine hentries.bind fun records => KeyValue.Writes.bind (.forM fun version hversion => ?_)
        fun _ => ?_
      · obtain ⟨rest, hrest⟩ := List.isPrefixOf_iff_prefix.mp
          (isPrefixOf_of_mem_versionsAt (List.mem_filter.mp hversion).1)
        refine ⟨?_, trivial⟩
        rw [← hrest]
        simp only [ClaimVersion.historyPrefix, List.append_assoc]
        exact isPrefixOf_append_eq_false (by decide) (by decide) _
      · cases nextVersion _ with
        | error error => trivial
        | ok seq =>
            refine ⟨?_, trivial⟩
            simp only [ClaimVersion.storageKey, List.append_assoc]
            exact isPrefixOf_append_eq_false (by decide) (by decide) _

section Program

variable {platform : Platform} {head : CommitId} {written : List (Key × Record)}
  {envelope : WriteEnvelope} {captured : ReadSet} {extraParents : ExtTreeMap Key (List NodeId)}
  {hints : ExtTreeMap Key IndexHint}

/-- As far as nodes go, a write of the caller's own keys appends the nodes it builds. -/
theorem writeProgram_ledger (hcaller : ∀ entry ∈ written, isCaller entry.1 = true)
    (hrun : (writeProgram platform branch head written envelope captured extraParents hints).onMap
      map = .ok ((), map')) :
    ∃ put' appended, (∀ key : Key, isCaller key = false → put'[key]? = map[key]?) ∧
      (appendNodes branch (builtNodes platform branch head written envelope captured extraParents)
        (nextPlace map branch)).onMap put' = .ok (nextPlace map' branch, appended) ∧
      (∀ key : Key, isProvenance key = true → map'[key]? = appended[key]?) ∧
      ∀ key, map'[latestNodeKey key]? = appended[latestNodeKey key]? := by
  obtain ⟨_, put', hput, hrun⟩ := KeyValue.onMap_bind_eq_ok.mp hrun
  have hkept : ∀ key : Key, isCaller key = false → put'[key]? = map[key]? := fun key hkey =>
    (putAll_writes hcaller).frame hput (by rw [hkey]; exact Bool.false_ne_true)
  have hnext : nextPlace put' branch = nextPlace map branch := by
    rw [nextPlace, hkept _ (isCaller_of_isReserved (isReserved_provSeqKey branch)), nextPlace]
  have hrest : ∀ before : RecordMap,
      (indexAppends written captured hints).onMap before = .ok ((), map') →
      (∀ key : Key, isLedgerKey key = true → map'[key]? = before[key]?) ∧
        ∀ key, map'[latestNodeKey key]? = before[latestNodeKey key]? := by
    intro before hrest
    have houtside : (indexAppends written captured hints).Writes
        fun touched => isLedgerKey touched = false :=
      .bind (.forM fun _ _ => indexRecord_outside _ _ _ _) fun _ =>
        .forM fun _ _ => appendHistory_outside _
    have hlatest : (indexAppends written captured hints).Writes
        fun touched => RESERVED_LATEST_PREFIX.isPrefixOf touched = false :=
      .bind (.forM fun _ _ => indexRecord_latest _ _ _ _) fun _ =>
        .forM fun _ _ => appendHistory_latest _
    refine ⟨fun key hkey => houtside.frame hrest ?_, fun key => hlatest.frame hrest ?_⟩
    · rw [hkey]
      exact Bool.true_eq_false_eq_False
    · rw [latestNodeKey, isPrefixOf_append_of (by decide) key]
      exact Bool.true_eq_false_eq_False
  unfold engineAppends at hrun
  unfold builtNodes
  split at hrun
  · next hany =>
    obtain ⟨_, appended, hprovenance, hrun⟩ := KeyValue.onMap_bind_eq_ok.mp hrun
    obtain ⟨hledger, hlatest⟩ := hrest appended hrun
    rw [appendProvenance, KeyValue.onMap_ask_bind] at hprovenance
    obtain ⟨seq, middle, happend, hcounter⟩ := KeyValue.onMap_bind_eq_ok.mp hprovenance
    rw [KeyValue.onMap_put] at hcounter
    obtain ⟨-, rfl⟩ := Prod.mk.inj (Except.ok.inj hcounter)
    have hseq : nextPlace map' branch = seq := by
      rw [nextPlace, hledger _ (isLedgerKey_provSeqKey branch), OrderedMap.getElem?_insert,
        if_pos rfl, provSeq, I64.toU64_ofU64]
    rw [if_pos hany, ← hnext, hseq]
    refine ⟨put', middle, hkept, happend, fun key hkey => ?_, fun key => ?_⟩
    · rw [hledger key (isLedgerKey_of_isProvenance hkey), OrderedMap.getElem?_insert, if_neg]
      rintro rfl
      rw [isProvenance_of_isReserved (isReserved_provSeqKey branch)] at hkey
      cases hkey
    · rw [hlatest, OrderedMap.getElem?_insert, if_neg]
      intro heq
      have hkey : RESERVED_LATEST_PREFIX.isPrefixOf (provSeqKey branch) = false :=
        isPrefixOf_append_eq_false (by decide) (by decide) branch
      rw [heq, latestNodeKey, isPrefixOf_append_of (by decide) key] at hkey
      cases hkey
  · next hnone =>
    obtain ⟨hledger, hlatest⟩ := hrest put' hrun
    have hseq : nextPlace map' branch = nextPlace map branch := by
      rw [nextPlace, hledger _ (isLedgerKey_provSeqKey branch), ← nextPlace, hnext]
    rw [if_neg hnone, hseq]
    exact ⟨put', put', hkept, rfl, fun key hkey => hledger key (isLedgerKey_of_isProvenance hkey),
      hlatest⟩

/-- A write loses nothing, and the walk finds every node it builds. -/
theorem writeProgram_finds {source : SourceRef} (hahead : Ahead source branch map)
    (hcaller : ∀ entry ∈ written, isCaller entry.1 = true)
    (hrun : (writeProgram platform branch head written envelope captured extraParents hints).onMap
      map = .ok ((), map')) :
    Ahead source branch map' ∧ Keeps source map map' ∧
      ∀ node ∈ builtNodes platform branch head written envelope captured extraParents,
        Finds source map' node := by
  obtain ⟨put', appended, hput, happend, hledger, -⟩ := writeProgram_ledger hcaller hrun
  have hsame : ∀ key : Key, isProvenance key = true → put'[key]? = map[key]? :=
    fun key hkey => hput key (isCaller_of_isProvenance hkey)
  obtain ⟨hfree, hkeeps, hfinds⟩ := appendNodes_finds (hahead.congr hsame) happend
  have hlast : Keeps source appended map' := .of_same hledger
  exact ⟨hfree.congr hledger, ((Keeps.of_same hsame).trans hkeeps).trans hlast,
    fun node hnode => (hfinds node hnode).mono hlast⟩

/-- The latest node of a key that is written is one of those that the write builds for it. -/
theorem writeProgram_latest {source : SourceRef} (hahead : Ahead source branch map)
    (hcaller : ∀ entry ∈ written, isCaller entry.1 = true)
    (hrun : (writeProgram platform branch head written envelope captured extraParents hints).onMap
      map = .ok ((), map')) {key : Key} {record : Record} (hmem : (key, record) ∈ written) :
    ∃ node ∈ derivationNodes platform branch head written envelope captured extraParents,
      node.key = key ∧ Finds source map' node ∧ Engine.LatestNode map' key node.id := by
  obtain ⟨-, -, hfinds⟩ := writeProgram_finds hahead hcaller hrun
  obtain ⟨put', appended, -, happend, -, hlatest⟩ := writeProgram_ledger hcaller hrun
  have hkey := hcaller _ hmem
  rw [isCaller, Bool.and_eq_true] at hkey
  have hany : (written.any fun entry => !isProvenance entry.1 && !isReserved entry.1) = true :=
    List.any_eq_true.mpr ⟨(key, record), hmem, by rw [hkey.1, hkey.2]; rfl⟩
  rw [builtNodes, if_pos hany] at happend hfinds
  rcases appendNodes_latest happend key with ⟨node, hnode, hsame, hrecord⟩ | ⟨hnone, -⟩
  · refine ⟨node, hnode, hsame, hfinds node hnode, ?_⟩
    rw [Engine.LatestNode, hlatest, hrecord]
    exact Digest.fromBytes_asBytes node.id
  · obtain ⟨first, hfirst, hsame⟩ :=
      Engine.exists_mem_derivationNodes hmem (by simpa using hkey.2)
    exact absurd hsame (hnone first hfirst)

/-- A key that is not written keeps its latest node. -/
theorem writeProgram_latest_other (hcaller : ∀ entry ∈ written, isCaller entry.1 = true)
    (hrun : (writeProgram platform branch head written envelope captured extraParents hints).onMap
      map = .ok ((), map')) {key : Key} (hnone : ∀ record, (key, record) ∉ written) :
    map'[latestNodeKey key]? = map[latestNodeKey key]? := by
  obtain ⟨put', appended, hput, happend, -, hlatest⟩ := writeProgram_ledger hcaller hrun
  rw [hlatest]
  rcases appendNodes_latest happend key with ⟨node, hnode, hkey, -⟩ | ⟨-, hsame⟩
  · unfold builtNodes at hnode
    split at hnode
    · obtain ⟨⟨other, record⟩, hmem, rfl⟩ := List.mem_map.mp hnode
      obtain rfl : other = key := hkey
      exact absurd (List.mem_filter.mp hmem).1 (hnone record)
    · cases hnode
  · rw [hsame, hput _ (isCaller_of_isReserved (isReserved_latestNodeKey key))]

end Program

end Writing

end LoomDB
