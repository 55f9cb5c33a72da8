import LoomDB.Branch.Containment
import LoomDB.Branch.IndexSpec

/-!
# The history is a graph without cycles

A commit is made after its base. A merge also adds the edge to its source, and where it
leaves the target's pages as they were, the edge starts at the head the target had; that this
closes no cycle is seen to by the mark of the merge, which holds the source head and is part
of the pages. So the commits can be ranked, every commit comes down to the root, and any two
commits have a base. It takes a caller that does not write the marks.
-/

namespace LoomDB

open Std (ExtTreeMap ExtTreeSet)
open KeyValue (put drop entries)
open Ancestry (Acyclic Ancestor)

/-! ## Where the engine writes -/

/-- What the keys of the engine's appends begin with. -/
def appendPrefixes : List Bytes :=
  [PROV_PREFIX, SRC_PREFIX, RESERVED_PROV_SEQ_PREFIX, RESERVED_LATEST_PREFIX,
    RESERVED_INDEX_PREFIX, RESERVED_ANNBUF_PREFIX, RESERVED_HISTORY_PREFIX]

def IsAppendKey (key : Key) : Prop :=
  ∃ start ∈ appendPrefixes, start <+: key

theorem isAppendKey_append {start : Bytes} (hstart : start ∈ appendPrefixes) (rest : Bytes) :
    IsAppendKey (start ++ rest) :=
  ⟨start, hstart, List.prefix_append start rest⟩

theorem isAppendKey_nodeStorageKey (branch : BranchId) (seq : U64) :
    IsAppendKey (nodeStorageKey branch seq) :=
  isAppendKey_append (by decide) _

theorem isAppendKey_sourceIndexKey (source : SourceRef) (branch : BranchId) (seq : U64) :
    IsAppendKey (sourceIndexKey source branch seq) := by
  rw [sourceIndexKey, List.append_assoc, List.append_assoc]
  exact isAppendKey_append (by decide) _

theorem isAppendKey_of_historyPrefix {subject predicate : Bytes} {key : Key}
    (hstarts : (ClaimVersion.historyPrefix subject predicate).isPrefixOf key = true) :
    IsAppendKey key := by
  obtain ⟨rest, rfl⟩ := List.isPrefixOf_iff_prefix.mp hstarts
  simp only [ClaimVersion.historyPrefix, List.append_assoc]
  exact isAppendKey_append (by decide) _

theorem isAppendKey_claimKey (subject predicate : Bytes) (seq : U64) :
    IsAppendKey (ClaimVersion.storageKey subject predicate seq) := by
  simp only [ClaimVersion.storageKey, List.append_assoc]
  exact isAppendKey_append (by decide) _

theorem appendNodes_appendKeys (branch : BranchId) (nodes : List DerivationNode) (seq : U64) :
    (appendNodes branch nodes seq).Writes IsAppendKey := by
  induction nodes generalizing seq with
  | nil => trivial
  | cons node nodes ih =>
      have hnode : (appendNode branch node seq).Writes IsAppendKey :=
        ⟨isAppendKey_nodeStorageKey branch seq, isAppendKey_append (by decide) _,
          .forM fun source _ => ⟨isAppendKey_sourceIndexKey source branch seq, trivial⟩⟩
      refine hnode.bind fun _ => ?_
      cases seq.next with
      | error error => trivial
      | ok next => exact ih next

theorem indexRecord_appendKeys (captured : ReadSet) (hints : ExtTreeMap Key IndexHint) (key : Key)
    (record : Record) : (indexRecord captured hints key record).Writes IsAppendKey := by
  rw [indexRecord_eq]
  cases newEntry captured hints key record with
  | none => trivial
  | some entry =>
      refine ⟨isAppendKey_append (by decide) _, ?_⟩
      cases entry.embedding with
      | none => trivial
      | some embedding => exact ⟨isAppendKey_append (by decide) _, trivial⟩

theorem appendHistory_appendKeys (record : Record) :
    (appendHistory record).Writes IsAppendKey := by
  cases record with
  | value value => trivial
  | observation obs => trivial
  | claim claim =>
      have hentries : (entries : RecordProgram (List (Key × Record))).Writes IsAppendKey :=
        fun _ => trivial
      refine hentries.bind fun records => ?_
      refine KeyValue.Writes.bind (.forM fun version hversion => ?_) fun _ => ?_
      · have hfound := isPrefixOf_of_mem_versionsAt (List.mem_filter.mp hversion).1
        exact ⟨isAppendKey_of_historyPrefix hfound, trivial⟩
      · cases nextVersion _ with
        | error error => trivial
        | ok seq => exact ⟨isAppendKey_claimKey _ _ _, trivial⟩

/-- The engine's appends write under their prefixes. -/
theorem engineAppends_appendKeys (platform : Platform) (branch : BranchId) (head : CommitId)
    (written : List (Key × Record)) (envelope : WriteEnvelope) (captured : ReadSet)
    (extraParents : ExtTreeMap Key (List NodeId)) (hints : ExtTreeMap Key IndexHint) :
    (engineAppends platform branch head written envelope captured extraParents hints).Writes
      IsAppendKey := by
  have hrest : (indexAppends written captured hints).Writes IsAppendKey :=
    KeyValue.Writes.bind (.forM fun _ _ => indexRecord_appendKeys _ _ _ _) fun _ =>
      .forM fun _ _ => appendHistory_appendKeys _
  have hprovenance : ∀ nodes, (appendProvenance branch nodes).Writes IsAppendKey :=
    fun nodes _ => (appendNodes_appendKeys branch nodes _).bind fun _ =>
      ⟨isAppendKey_append (by decide) _, trivial⟩
  unfold engineAppends
  split
  · exact (hprovenance _).bind fun _ => hrest
  · exact hrest

/-! ## Marks of merges -/

/-- A key of a mark. -/
def isMark (key : Key) : Bool :=
  mergedFromPrefix.isPrefixOf key

theorem isMark_mergedFromKey (source : BranchId) : isMark (mergedFromKey source) = true :=
  List.isPrefixOf_iff_prefix.mpr (List.prefix_append _ _)

/-- Nothing that goes on from another prefix of the engine is a mark. -/
theorem not_isMark_of_prefix {start key : Bytes} (hstart : mergedFromPrefix.isPrefixOf start = false)
    (hmark : start.isPrefixOf mergedFromPrefix = false) (hkey : start <+: key) :
    isMark key = false := by
  obtain ⟨rest, rfl⟩ := hkey
  exact isPrefixOf_append_eq_false hstart hmark rest

theorem not_isMark_of_isAppendKey {key : Key} (happend : IsAppendKey key) : isMark key = false := by
  obtain ⟨start, hstart, hkey⟩ := happend
  have hapart : ∀ start ∈ appendPrefixes, mergedFromPrefix.isPrefixOf start = false ∧
      start.isPrefixOf mergedFromPrefix = false := by decide
  exact not_isMark_of_prefix (hapart start hstart).1 (hapart start hstart).2 hkey

theorem not_isMark_of_isVectorKey {key : Key} (hvector : isVectorKey key = true) :
    isMark key = false := by
  rcases Bool.or_eq_true_iff.mp hvector with hstarts | hstarts
  all_goals
    exact not_isMark_of_prefix (by decide) (by decide) (List.isPrefixOf_iff_prefix.mp hstarts)

section Programs

variable {map map' : RecordMap} {mark : Key}

/-- A mark after a write is the one the write gives, if it gives one. -/
theorem mark_written {platform : Platform} {branch : BranchId} {head : CommitId}
    {written : List (Key × Record)} {envelope : WriteEnvelope} {captured : ReadSet}
    {extraParents : ExtTreeMap Key (List NodeId)} {hints : ExtTreeMap Key IndexHint}
    (hrun : (writeProgram platform branch head written envelope captured extraParents hints).onMap
      map = .ok ((), map')) (hmark : isMark mark = true) :
    map'[mark]? = (lastRecord written mark).or map[mark]? := by
  obtain ⟨_, stored, hput, happend⟩ := KeyValue.onMap_bind_eq_ok.mp hrun
  have hkept : map'[mark]? = stored[mark]? :=
    (engineAppends_appendKeys _ _ _ _ _ _ _ _).frame happend fun hkey => by
      rw [not_isMark_of_isAppendKey hkey] at hmark
      cases hmark
  rw [hkept, getElem?_putAll hput]

/-- Forgetting makes no blob. -/
theorem mark_forgot {keys : List Key} {counts : ℕ × ℕ}
    (hrun : (Engine.forgetKeys keys).onMap map = .ok (counts, map')) {bytes : Bytes}
    (hblob : map'[mark]? = some (Record.blob bytes)) :
    map[mark]? = some (Record.blob bytes) := by
  induction keys generalizing map counts with
  | nil =>
      obtain ⟨-, rfl⟩ := Prod.mk.inj (Except.ok.inj hrun)
      exact hblob
  | cons first keys ih =>
      rw [Engine.forgetKeys, KeyValue.onMap_drop_bind, KeyValue.onMap_ask_bind] at hrun
      obtain ⟨_, middle, hclaim, hrest⟩ := KeyValue.onMap_bind_eq_ok.mp hrun
      obtain ⟨⟨_, _⟩, last, hkeys, hreturn⟩ := KeyValue.onMap_bind_eq_ok.mp hrest
      obtain ⟨-, rfl⟩ := Prod.mk.inj (Except.ok.inj hreturn)
      have hmiddle := ih hkeys
      have herased : (map.erase (IndexEntry.storageKey first))[mark]? =
          some (Record.blob bytes) := by
        unfold Engine.invalidateClaim at hclaim
        split at hclaim
        · split at hclaim
          · rw [KeyValue.onMap_put_bind] at hclaim
            obtain ⟨-, rfl⟩ := Prod.mk.inj (Except.ok.inj hclaim)
            rw [OrderedMap.getElem?_insert] at hmiddle
            split at hmiddle
            · cases hmiddle
            · exact hmiddle
          · obtain ⟨-, rfl⟩ := Prod.mk.inj (Except.ok.inj hclaim)
            exact hmiddle
        · obtain ⟨-, rfl⟩ := Prod.mk.inj (Except.ok.inj hclaim)
          exact hmiddle
      rw [OrderedMap.getElem?_erase] at herased
      split at herased
      · cases herased
      · exact herased

theorem mark_kept {upkeep : IndexUpkeep} (hrun : upkeep.val.onMap map = .ok ((), map'))
    (hmark : isMark mark = true) : map'[mark]? = map[mark]? := by
  refine upkeep.property.frame hrun fun hvector => ?_
  rw [not_isMark_of_isVectorKey hvector] at hmark
  cases hmark

end Programs

namespace Engine

variable {σ ρ α : Type} {engine : Engine σ ρ} {lawful : engine.pager.Lawful}
  {loom loom' : Loom σ ρ}

/-! ## What a write records -/

/-- A write records no commit but its own, and that only if it is new. -/
theorem Advanced.commits_of_ne {program : RecordProgram α} {branch : BranchId}
    {base commit other : CommitId} {result : α} {map map' : RecordMap}
    {persisted : Except LoomError Unit}
    (hadvanced : Advanced lawful program branch base commit result map map' persisted loom loom')
    (hother : other ≠ commit ∨ base = commit) :
    loom'.refs.commits[other]? = loom.refs.commits[other]? := by
  have hrecords : loom'.refs.commits[other]? =
      (loom.refs.replay (recordEdits loom.refs commit [base])).commits[other]? := by
    rw [hadvanced.filed.refs, advanceEdits, Refs.replay_append]
    rfl
  rw [hrecords]
  refine (commits_recordEdits loom.refs commit [base] other).resolve_right ?_
  rintro ⟨rfl, -, -, hparents⟩
  rcases hother with hne | rfl
  · exact hne rfl
  · exact hparents (by simp)

/-- A commit that is new is recorded, with its base for a parent. -/
theorem Advanced.recorded {program : RecordProgram α} {branch : BranchId}
    {base commit : CommitId} {result : α} {map map' : RecordMap}
    {persisted : Except LoomError Unit} (hall : AllAlong engine (StoredEdge lawful) loom)
    (hadvanced : Advanced lawful program branch base commit result map map' persisted loom loom')
    (hnew : base ≠ commit) : loom'.refs.commits[commit]? = some [base] := by
  have hmissing : lawful.pages loom.pager commit = none :=
    hadvanced.transacted.fresh.resolve_left (Ne.symm hnew)
  have hunrecorded : loom.refs.commits[commit]? = none := by
    by_contra hsome
    obtain ⟨parents, hparents⟩ := Option.ne_none_iff_exists'.mp hsome
    obtain ⟨hne, hedges⟩ := hall.refs commit parents hparents
    obtain ⟨parent, hparent⟩ := List.exists_mem_of_ne_nil _ hne
    exact (hedges parent hparent).1 hmissing
  have hfilter : [base].filter (fun parent => parent ≠ commit) = [base] := by
    simp [hnew]
  have hedits : recordEdits loom.refs commit [base] = [.recordCommit commit [base]] := by
    rw [recordEdits, hfilter, if_neg (by simp [hunrecorded])]
  rw [hadvanced.filed.refs, advanceEdits, hedits]
  exact (OrderedMap.getElem?_insert _ _ _ _).trans (if_pos rfl)

/-! ## Edges between different commits -/

section Edges

variable {edge edge' : σ → CommitId → CommitId → Prop}

theorem AllAlong.mono (hall : AllAlong engine edge loom)
    (hweaker : ∀ commit parent, edge loom.pager commit parent → edge' loom.pager commit parent) :
    AllAlong engine edge' loom where
  refs := hall.refs.mono hweaker
  stored hload := (hall.stored hload).mono hweaker
  refEdits := hall.refEdits
  pager hfound := hweaker _ _ (hall.pager hfound)

/-- A write that makes a commit of its own adds the edge to its base. -/
theorem AllAlong.of_advanced_ne {program : RecordProgram α} {branch : BranchId}
    {base commit : CommitId} {result : α} {map map' : RecordMap}
    {persisted : Except LoomError Unit} (hall : AllAlong engine edge loom)
    (hcuts : engine.store.Cuts)
    (hadvanced : Advanced lawful program branch base commit result map map' persisted loom loom')
    (hmono : ∀ commit parent, edge loom.pager commit parent → edge loom'.pager commit parent)
    (hedge : base ≠ commit → edge loom'.pager commit base) : AllAlong engine edge loom' := by
  refine hall.of_filed hcuts hadvanced.filed hmono ?_ fun {other parent} hfound => ?_
  · intro edit hmem
    rcases List.mem_append.mp hmem with hrecord | hhead
    · unfold recordEdits at hrecord
      split at hrecord
      · cases hrecord
      · next hrecords =>
        obtain rfl := List.mem_singleton.mp hrecord
        refine ⟨fun hnil => hrecords (Or.inl hnil), fun parent hparent => ?_⟩
        obtain ⟨hparent, hne⟩ := List.mem_filter.mp hparent
        obtain rfl := List.mem_singleton.mp hparent
        exact hedge (of_decide_eq_true hne)
    · obtain rfl := List.mem_singleton.mp hhead
      trivial
  · rcases hadvanced.transacted.grows other with hsame | ⟨rfl, hmissing, hnew⟩
    · exact Or.inl (hsame ▸ hfound)
    · rw [hnew] at hfound
      obtain rfl := Option.some.inj (Except.ok.inj hfound)
      refine Or.inr (hedge ?_)
      rintro rfl
      exact ne_none_of_stores hadvanced.transacted.stored hmissing

/-- A merge adds the edge to the source, and to the target unless that is its commit. -/
theorem AllAlong.of_joined_ne {commit before second : CommitId} {persisted : Except LoomError Unit}
    (hall : AllAlong engine edge loom) (hcuts : engine.store.Cuts)
    (hfiled : Filed engine (joinEdits loom.refs commit before second) persisted loom loom')
    (hpager : loom'.pager = loom.pager) (hbefore : before ≠ commit → edge loom.pager commit before)
    (hsecond : edge loom.pager commit second) : AllAlong engine edge loom' := by
  refine hall.of_filed hcuts hfiled (by rw [hpager]; exact fun _ _ => id) ?_
    fun {other parent} hfound => Or.inl (hpager ▸ hfound)
  intro edit hmem
  rw [hpager]
  rcases List.mem_append.mp hmem with hrecord | hjoin
  · unfold recordEdits at hrecord
    split at hrecord
    · cases hrecord
    · next hrecords =>
      obtain rfl := List.mem_singleton.mp hrecord
      refine ⟨fun hnil => hrecords (Or.inl hnil), fun parent hparent => ?_⟩
      obtain ⟨hparent, hne⟩ := List.mem_filter.mp hparent
      rcases List.mem_cons.mp hparent with rfl | hlast
      · exact hbefore (of_decide_eq_true hne)
      · exact List.mem_singleton.mp hlast ▸ hsecond
  · unfold edgeEdits at hjoin
    split at hjoin
    · split at hjoin
      · cases hjoin
      · obtain rfl := List.mem_singleton.mp hjoin
        exact hsecond
    · cases hjoin

end Edges

/-! ## Ranks -/

/-- An edge between stored commits that goes down. -/
def Descends (lawful : engine.pager.Lawful) (rank : CommitId → ℕ) (state : σ)
    (commit parent : CommitId) : Prop :=
  StoredEdge lawful state commit parent ∧ rank parent < rank commit

/-- Edges and marks go down, and every commit but the root has edges. -/
structure Ranked (lawful : engine.pager.Lawful) (root : CommitId) (rank : CommitId → ℕ)
    (bound : ℕ) (loom : Loom σ ρ) : Prop where
  edges : AllAlong engine (Descends lawful rank) loom
  bounded : ∀ commit, lawful.pages loom.pager commit ≠ none → rank commit < bound
  marks : ∀ {commit second : CommitId} {map : RecordMap} {source : BranchId},
    lawful.Stores loom.pager commit map →
    map[mergedFromKey source]? = some (Record.blob second.asBytes) →
      lawful.pages loom.pager second ≠ none ∧ rank second < rank commit
  recorded : ∀ commit, lawful.pages loom.pager commit ≠ none → commit ≠ root →
    loom.refs.commits[commit]? ≠ none
  lowest : rank root = 0
  root : engine.pager.rootManifest loom.pager = .ok root

/-- A write makes a commit of a higher rank. -/
theorem Ranked.advanced {root : CommitId} {rank : CommitId → ℕ} {bound : ℕ}
    {program : RecordProgram α} {branch : BranchId} {base commit : CommitId} {result : α}
    {map map' : RecordMap} {persisted : Except LoomError Unit}
    (hranked : Ranked lawful root rank bound loom) (hcuts : engine.store.Cuts)
    (hadvanced : Advanced lawful program branch base commit result map map' persisted loom loom')
    (hmarks : ∀ {source : BranchId} {second : CommitId},
      map'[mergedFromKey source]? = some (Record.blob second.asBytes) →
      map[mergedFromKey source]? = some (Record.blob second.asBytes) ∨
        lawful.pages loom.pager second ≠ none) :
    ∃ rank' bound', Ranked lawful root rank' bound' loom' ∧
      (base ≠ commit → Descends lawful rank' loom'.pager commit base) := by
  have htransacted := hadvanced.transacted
  by_cases hsame : commit = base
  · subst hsame
    have hpages : ∀ other, lawful.pages loom'.pager other ≠ none →
        lawful.pages loom.pager other ≠ none := by
      intro other hstored
      by_cases hother : other = commit
      · exact hother ▸ ne_none_of_stores htransacted.stored
      · rwa [← htransacted.others other hother]
    have hold : ∀ {other : CommitId} {found : RecordMap},
        lawful.Stores loom'.pager other found → lawful.Stores loom.pager other found := by
      intro other found hstores
      obtain ⟨pages, hfound, hstored⟩ := hstores
      obtain ⟨earlier, hearlier⟩ := Option.ne_none_iff_exists'.mp
        (hpages other (by rw [hfound]; simp))
      have hkept := htransacted.extended.kept hearlier
      rw [hfound] at hkept
      exact ⟨pages, Option.some.inj hkept ▸ hearlier, hstored⟩
    refine ⟨rank, bound, ⟨?_, ?_, ?_, ?_, hranked.lowest, ?_⟩, fun hne => absurd rfl hne⟩
    · exact hranked.edges.of_advanced_ne hcuts hadvanced
        (fun child parent hedge => hedge.imp_left (StoredEdge.of_extends htransacted.extended _ _))
        fun hne => absurd rfl hne
    · exact fun other hstored => hranked.bounded other (hpages other hstored)
    · intro other second found source hstores hmark
      obtain ⟨hsecond, hlower⟩ := hranked.marks (hold hstores) hmark
      exact ⟨pages_ne_none htransacted.extended hsecond, hlower⟩
    · intro other hstored hroot
      have hrecorded := hranked.recorded other (hpages other hstored) hroot
      rwa [hadvanced.commits_of_ne (Or.inr rfl)]
    · rw [htransacted.extended.root, hranked.root]
  · -- A new commit is above all the others.
    have hmissing : lawful.pages loom.pager commit = none := htransacted.fresh.resolve_left hsame
    have hne : ∀ {other : CommitId}, lawful.pages loom.pager other ≠ none → other ≠ commit := by
      rintro other hstored rfl
      exact hstored hmissing
    have hrank : ∀ {other : CommitId}, lawful.pages loom.pager other ≠ none →
        Function.update rank commit bound other = rank other :=
      fun hstored => Function.update_of_ne (hne hstored) _ _
    have hbase : lawful.pages loom.pager base ≠ none := ne_none_of_stores htransacted.stored
    have hedge : Descends lawful (Function.update rank commit bound) loom'.pager commit base := by
      refine ⟨hadvanced.storedEdge, ?_⟩
      rw [hrank hbase, Function.update_self]
      exact hranked.bounded base hbase
    have hmono : ∀ child parent, Descends lawful rank loom.pager child parent →
        Descends lawful (Function.update rank commit bound) loom.pager child parent := by
      intro child parent hold
      refine ⟨hold.1, ?_⟩
      rw [hrank hold.1.1, hrank hold.1.2]
      exact hold.2
    refine ⟨Function.update rank commit bound, bound + 1, ⟨?_, ?_, ?_, ?_, ?_, ?_⟩, fun _ => hedge⟩
    · exact (hranked.edges.mono hmono).of_advanced_ne hcuts hadvanced
        (fun child parent hold => hold.imp_left (StoredEdge.of_extends htransacted.extended _ _))
        fun _ => hedge
    · intro other hstored
      by_cases hother : other = commit
      · rw [hother, Function.update_self]
        exact Nat.lt_succ_self bound
      · rw [htransacted.others other hother] at hstored
        rw [hrank hstored]
        exact (hranked.bounded other hstored).trans (Nat.lt_succ_self bound)
    · intro other second found source hstores hmark
      by_cases hother : other = commit
      · subst hother
        obtain rfl := hstores.unique htransacted.stores
        rw [Function.update_self]
        rcases hmarks hmark with hold | hsecond
        · obtain ⟨hsecond, hlower⟩ := hranked.marks htransacted.stored hold
          rw [hrank hsecond]
          exact ⟨pages_ne_none htransacted.extended hsecond, hranked.bounded second hsecond⟩
        · rw [hrank hsecond]
          exact ⟨pages_ne_none htransacted.extended hsecond, hranked.bounded second hsecond⟩
      · obtain ⟨pages, hfound, hstored⟩ := hstores
        rw [htransacted.others other hother] at hfound
        obtain ⟨hsecond, hlower⟩ := hranked.marks ⟨pages, hfound, hstored⟩ hmark
        rw [hrank hsecond, hrank (by rw [hfound]; simp)]
        exact ⟨pages_ne_none htransacted.extended hsecond, hlower⟩
    · intro other hstored hroot
      by_cases hother : other = commit
      · subst hother
        rw [hadvanced.recorded (hranked.edges.mono fun _ _ => And.left) (Ne.symm hsame)]
        exact Option.some_ne_none _
      · rw [htransacted.others other hother] at hstored
        rw [hadvanced.commits_of_ne (Or.inl hother)]
        exact hranked.recorded other hstored hroot
    · have hroot : lawful.pages loom.pager root ≠ none := by
        rw [(lawful.root_eq_ok hranked.root).1]
        exact Option.some_ne_none _
      rw [hrank hroot, hranked.lowest]
    · rw [htransacted.extended.root, hranked.root]

theorem Ranked.of_unmoved {root : CommitId} {rank : CommitId → ℕ} {bound : ℕ}
    (hranked : Ranked lawful root rank bound loom) (hunmoved : Unmoved lawful loom loom') :
    Ranked lawful root rank bound loom' where
  edges := hranked.edges.of_unmoved hunmoved fun _ _ hedge =>
    hedge.imp_left (StoredEdge.of_extends hunmoved.pager.extended _ _)
  bounded := by
    rw [hunmoved.pager.pages]
    exact hranked.bounded
  marks hstores hmark := by
    rw [hunmoved.pager.pages]
    obtain ⟨pages, hpages, hstored⟩ := hstores
    exact hranked.marks ⟨pages, hunmoved.pager.pages ▸ hpages, hstored⟩ hmark
  recorded := by
    rw [hunmoved.pager.pages, hunmoved.refs]
    exact hranked.recorded
  lowest := hranked.lowest
  root := hunmoved.pager.root.trans hranked.root

/-- An edit that records no commit. -/
theorem Ranked.of_edit {root : CommitId} {rank : CommitId → ℕ} {bound : ℕ} {edit : RefEdit}
    {persisted : Except LoomError Unit} (hranked : Ranked lawful root rank bound loom)
    (hcuts : engine.store.Cuts) (hpager : loom'.pager = loom.pager)
    (hfiled : Filed engine [edit] persisted loom loom')
    (hcommits : (loom.refs.applyEdit edit).commits = loom.refs.commits)
    (halong : ∀ edge, Refs.Along edge edit) : Ranked lawful root rank bound loom' where
  edges := hranked.edges.of_edit hcuts hpager hfiled (halong _)
  bounded := hpager ▸ hranked.bounded
  marks := hpager ▸ hranked.marks
  recorded := by
    have hsame : loom'.refs.commits = loom.refs.commits := by
      rw [hfiled.refs]
      exact hcommits
    rw [hpager, hsame]
    exact hranked.recorded
  lowest := hranked.lowest
  root := hpager ▸ hranked.root

theorem commits_joinEdits_of_ne {refs : Refs} {commit before second other : CommitId}
    (hother : other ≠ commit) :
    (refs.replay (joinEdits refs commit before second)).commits[other]? = refs.commits[other]? := by
  rw [joinEdits, Refs.replay_append]
  rcases commits_edgeEdits (refs.replay (recordEdits refs commit [before, second])) commit second
    other with hsame | ⟨heq, -⟩
  · rw [hsame]
    exact (commits_recordEdits refs commit [before, second] other).resolve_right
      fun hnew => hother hnew.1
  · exact absurd heq hother

/-- A merge that makes no commit adds its second parent to those of the head. -/
theorem commits_joinEdits_self {refs : Refs} {commit before second : CommitId}
    {parents : List CommitId} (hrecorded : refs.commits[commit]? = some parents) :
    (refs.replay (joinEdits refs commit before second)).commits[commit]? =
      some (if second ∈ parents then parents else parents ++ [second]) := by
  have hnone : recordEdits refs commit [before, second] = [] := by
    rw [recordEdits, if_pos]
    exact Or.inr (by rw [hrecorded]; rfl)
  rw [joinEdits, hnone, List.nil_append, Refs.replay_nil, edgeEdits, hrecorded]
  dsimp only
  split
  · exact hrecorded
  · next hnew =>
    rw [Refs.replay_cons, Refs.replay_nil, Refs.applyEdit, hrecorded, Option.getD_some,
      if_neg hnew, OrderedMap.getElem?_insert, if_pos rfl]

theorem commits_joinEdits_ne_none {refs : Refs} {commit before second other : CommitId}
    (hrecorded : refs.commits[other]? ≠ none) :
    (refs.replay (joinEdits refs commit before second)).commits[other]? ≠ none := by
  rw [joinEdits, Refs.replay_append]
  have hmiddle : (refs.replay (recordEdits refs commit [before, second])).commits[other]? ≠ none := by
    rcases commits_recordEdits refs commit [before, second] other with hsame | ⟨-, -, hnew, -⟩
    · rwa [hsame]
    · rw [hnew]
      exact Option.some_ne_none _
  rcases commits_edgeEdits (refs.replay (recordEdits refs commit [before, second])) commit second
    other with hsame | ⟨-, parents, -, hnew⟩
  · rwa [hsame]
  · rw [hnew]
    exact Option.some_ne_none _

theorem Ranked.joined {root : CommitId} {rank : CommitId → ℕ} {bound : ℕ}
    {commit before second : CommitId} {persisted : Except LoomError Unit}
    (hranked : Ranked lawful root rank bound loom) (hcuts : engine.store.Cuts)
    (hfiled : Filed engine (joinEdits loom.refs commit before second) persisted loom loom')
    (hpager : loom'.pager = loom.pager)
    (hbefore : before ≠ commit → Descends lawful rank loom.pager commit before)
    (hsecond : Descends lawful rank loom.pager commit second) :
    Ranked lawful root rank bound loom' where
  edges := hranked.edges.of_joined_ne hcuts hfiled hpager hbefore hsecond
  bounded := hpager ▸ hranked.bounded
  marks := hpager ▸ hranked.marks
  recorded := by
    rw [hpager, hfiled.refs]
    exact fun other hstored hroot => commits_joinEdits_ne_none (hranked.recorded other hstored hroot)
  lowest := hranked.lowest
  root := hpager ▸ hranked.root

/-- A call that does not write the marks of merges by hand. -/
def SparesMarks : Call → Prop
  | .write _ _ records _ _ => ∀ entry ∈ records, isMark entry.1 = false
  | _ => True

/-- A mark after the write of a merge was there, or is the mark of the merge. -/
theorem mark_merged {writes : List (Key × Record)} {source other : BranchId}
    {sourceHead second : CommitId} {platform : Platform} {branch : BranchId} {head : CommitId}
    {envelope : WriteEnvelope} {captured : ReadSet}
    {extraParents : ExtTreeMap Key (List NodeId)} {map map' : RecordMap}
    (hunreserved : ∀ entry ∈ writes, isReserved entry.1 = false)
    (hrun : (writeProgram platform branch head
      (writes ++ [(mergedFromKey source, Record.blob sourceHead.asBytes)]) envelope captured
      extraParents ∅).onMap map = .ok ((), map'))
    (hmark : map'[mergedFromKey other]? = some (Record.blob second.asBytes)) :
    map[mergedFromKey other]? = some (Record.blob second.asBytes) ∨ second = sourceHead := by
  rw [mark_written hrun (isMark_mergedFromKey other)] at hmark
  cases hlast : lastRecord (writes ++ [(mergedFromKey source, Record.blob sourceHead.asBytes)])
      (mergedFromKey other) with
  | none =>
      rw [hlast, Option.none_or] at hmark
      exact Or.inl hmark
  | some record =>
      rw [hlast, Option.some_or] at hmark
      right
      rcases List.mem_append.mp (mem_of_lastRecord hlast) with hwritten | hown
      · have hreserved := hunreserved _ hwritten
        rw [isReserved_mergedFromKey other] at hreserved
        cases hreserved
      · obtain ⟨-, rfl⟩ := Prod.mk.inj (List.mem_singleton.mp hown)
        exact Digest.asBytes_injective
          (Value.blob.inj (Record.value.inj (Option.some.inj hmark))).symm

/-- The mark of a merge is there after its write. -/
theorem own_mark {writes : List (Key × Record)} {source : BranchId} {sourceHead : CommitId}
    {platform : Platform} {branch : BranchId} {head : CommitId} {envelope : WriteEnvelope}
    {captured : ReadSet} {extraParents : ExtTreeMap Key (List NodeId)} {map map' : RecordMap}
    (hunreserved : ∀ entry ∈ writes, isReserved entry.1 = false)
    (hrun : (writeProgram platform branch head
      (writes ++ [(mergedFromKey source, Record.blob sourceHead.asBytes)]) envelope captured
      extraParents ∅).onMap map = .ok ((), map')) :
    map'[mergedFromKey source]? = some (Record.blob sourceHead.asBytes) := by
  obtain ⟨last, hlast⟩ := lastRecord_isSome (List.mem_append_right writes
    (List.mem_singleton.mpr (rfl : (mergedFromKey source, Record.blob sourceHead.asBytes) = _)))
  rw [mark_written hrun (isMark_mergedFromKey source), hlast, Option.some_or]
  rcases List.mem_append.mp (mem_of_lastRecord hlast) with hwritten | hown
  · have hreserved := hunreserved _ hwritten
    rw [isReserved_mergedFromKey source] at hreserved
    cases hreserved
  · rw [(Prod.mk.inj (List.mem_singleton.mp hown)).2]

/-- Every call that spares the marks keeps the history ranked. -/
theorem Step.ranked {root : CommitId} {rank : CommitId → ℕ} {bound : ℕ} {call : Call}
    {outcome : Except LoomError Answer} (hstep : Step lawful loom call outcome loom')
    (hsound : lawful.Sound loom.pager) (hcuts : engine.store.Cuts)
    (hranked : Ranked lawful root rank bound loom) (hspares : SparesMarks call) :
    ∃ rank' bound', Ranked lawful root rank' bound' loom' := by
  have hmerges : ∀ {source target : BranchId} {policy : MergePolicy} {token : CapabilityToken}
      {envelope : WriteEnvelope} {forbids : Key → Record → Option Bytes}
      {sourceHead targetHead base commit : CommitId} {writes : List (Key × Record)}
      {automatic : ℕ} {parents : ExtTreeMap Key (List NodeId)} {map map' : RecordMap}
      {persisted : Except LoomError Unit} {after : Loom σ ρ},
      MergeReady engine loom token source target policy envelope forbids sourceHead targetHead
        base writes automatic parents →
      Advanced lawful (writeProgram engine.platform target targetHead
        (writes ++ [(mergedFromKey source, Record.blob sourceHead.asBytes)]) envelope
        (readSet envelope.session loom) parents ∅) target targetHead commit () map map' persisted
        loom after →
      ∃ rank' bound', Ranked lawful root rank' bound' after ∧
        (targetHead ≠ commit → Descends lawful rank' after.pager commit targetHead) ∧
        Descends lawful rank' after.pager commit sourceHead := by
    intro source target policy token envelope forbids sourceHead targetHead base commit writes
      automatic parents map map' persisted after hready hadvanced
    obtain ⟨_, _, _, _, plan, houtcome, hplanned⟩ := planMerge_spec hready.planned hsound
    have hunreserved := (mem_writes_of_planned hplanned houtcome).2
    obtain ⟨rank', bound', hranked', hbase⟩ := hranked.advanced hcuts hadvanced fun hmark => by
      rcases mark_merged hunreserved hadvanced.transacted.ran hmark with hold | rfl
      · exact Or.inl hold
      · exact Or.inr (ne_none_of_stores hplanned.source)
    obtain ⟨hsource, hlower⟩ := hranked'.marks hadvanced.transacted.stores
      (own_mark hunreserved hadvanced.transacted.ran)
    exact ⟨rank', bound', hranked', hbase,
      ⟨ne_none_of_stores hadvanced.transacted.stores, hsource⟩, hlower⟩
  cases hstep with
  | asked _ hstill => exact ⟨rank, bound, hranked.of_unmoved hstill.unmoved⟩
  | refused hunmoved => exact ⟨rank, bound, hranked.of_unmoved hunmoved⟩
  | opened _ _ _ hpager hfiled =>
      exact ⟨rank, bound, hranked.of_edit hcuts hpager hfiled rfl fun _ => trivial⟩
  | branched _ _ _ hpager hfiled =>
      exact ⟨rank, bound, hranked.of_edit hcuts hpager hfiled rfl fun _ => trivial⟩
  | rewound _ _ hpager hfiled =>
      exact ⟨rank, bound, hranked.of_edit hcuts hpager hfiled rfl fun _ => trivial⟩
  | wrote _ hadvanced =>
      obtain ⟨rank', bound', hranked', -⟩ := hranked.advanced hcuts hadvanced fun {source _} hmark => by
        rw [mark_written hadvanced.transacted.ran (isMark_mergedFromKey source)] at hmark
        cases hlast : lastRecord _ (mergedFromKey source) with
        | none => rw [hlast, Option.none_or] at hmark; exact Or.inl hmark
        | some record =>
            have hunmarked := hspares _ (mem_of_lastRecord hlast)
            rw [isMark_mergedFromKey source] at hunmarked
            cases hunmarked
      exact ⟨rank', bound', hranked'⟩
  | forgot _ hadvanced =>
      obtain ⟨rank', bound', hranked', -⟩ := hranked.advanced hcuts hadvanced fun hmark =>
        Or.inl (mark_forgot hadvanced.transacted.ran hmark)
      exact ⟨rank', bound', hranked'⟩
  | kept _ hadvanced =>
      obtain ⟨rank', bound', hranked', -⟩ := hranked.advanced hcuts hadvanced fun hmark => by
        rw [mark_kept hadvanced.transacted.ran (isMark_mergedFromKey _)] at hmark
        exact Or.inl hmark
      exact ⟨rank', bound', hranked'⟩
  | stopped hstill _ _ => exact ⟨rank, bound, hranked.of_unmoved hstill.unmoved⟩
  | halted hready hadvanced =>
      obtain ⟨rank', bound', hranked', -⟩ := hmerges hready hadvanced
      exact ⟨rank', bound', hranked'⟩
  | merged hready hadvanced hpager hfiled =>
      obtain ⟨rank', bound', hranked', hbefore, hsecond⟩ := hmerges hready hadvanced
      exact ⟨rank', bound', hranked'.joined hcuts hfiled hpager hbefore hsecond⟩

/-! ## Orderly runs -/

/-- What calls that spare the marks, and restarts that lose no edit, lead to from a new
database. -/
inductive Orderly (lawful : engine.pager.Lawful) : Loom σ ρ → Prop
  | opened {pager : σ} {store : ρ} {loom : Loom σ ρ} (hfresh : engine.Fresh lawful pager store)
      (hopened : engine.assemble pager store = .ok loom) : Orderly lawful loom
  | called {loom : Loom σ ρ} {call : Call} (horderly : Orderly lawful loom)
      (hspares : SparesMarks call) : Orderly lawful (engine.after call loom)
  | reopened {loom loom' : Loom σ ρ} (horderly : Orderly lawful loom)
      (hdurable : Durable engine loom)
      (hopened : engine.assemble loom.pager loom.store = .ok loom') : Orderly lawful loom'

theorem Orderly.reachable (horderly : Orderly lawful loom) : engine.Reachable lawful loom := by
  induction horderly with
  | opened hfresh hopened => exact .opened hfresh hopened
  | called _ _ ih => exact ih.called _
  | reopened _ _ hopened ih => exact ih.reopened hopened

theorem ranked_of_fresh {pager : σ} {store : ρ} (hfresh : engine.Fresh lawful pager store)
    (hcuts : engine.store.Cuts) (hopened : engine.assemble pager store = .ok loom) :
    ∃ root, Ranked lawful root (fun _ => 0) 1 loom := by
  obtain ⟨hload, hpager, -⟩ := assemble_eq_ok hopened
  rcases loadRefs_eq_ok hload with ⟨hstored, -⟩ | ⟨root, -, hroot, -⟩
  · rw [hfresh.refs] at hstored
    cases hstored
  · have honly : ∀ commit, lawful.pages loom.pager commit ≠ none → commit = root := by
      intro commit hstored
      obtain ⟨pages, hpages⟩ := Option.ne_none_iff_exists'.mp hstored
      exact hfresh.root hroot commit pages (hpager ▸ hpages)
    refine ⟨root, allAlong_of_fresh hfresh hcuts hopened, fun _ _ => Nat.one_pos, ?_,
      fun commit hstored hne => absurd (honly commit hstored) hne, rfl, hpager ▸ hroot⟩
    intro commit second map source hstores hmark
    obtain rfl := honly commit (ne_none_of_stores hstores)
    have hempty : lawful.Stores loom.pager commit ∅ :=
      ⟨∅, hpager ▸ (lawful.root_eq_ok hroot).1, Tree.stored_empty _⟩
    rw [hstores.unique hempty] at hmark
    simp at hmark

theorem Ranked.of_reopened {root : CommitId} {rank : CommitId → ℕ} {bound : ℕ}
    (hranked : Ranked lawful root rank bound loom) (hcuts : engine.store.Cuts)
    (hdurable : Durable engine loom)
    (hopened : engine.assemble loom.pager loom.store = .ok loom') :
    Ranked lawful root rank bound loom' := by
  obtain ⟨hload, hpager, -⟩ := assemble_eq_ok hopened
  have hrefs : loom'.refs = loom.refs := by
    rcases loadRefs_eq_ok hload with ⟨hstored, -⟩ | ⟨-, hnone, -⟩
    · rw [hdurable.stored] at hstored
      exact (Option.some.inj (Except.ok.inj hstored)).symm
    · rw [hdurable.stored] at hnone
      cases hnone
  refine ⟨hranked.edges.of_reopened hcuts hopened, hpager ▸ hranked.bounded, hpager ▸ hranked.marks,
    ?_, hranked.lowest, hpager ▸ hranked.root⟩
  rw [hpager, hrefs]
  exact hranked.recorded

theorem Orderly.ranked (hcuts : engine.store.Cuts) (horderly : Orderly lawful loom) :
    ∃ root rank bound, Ranked lawful root rank bound loom := by
  induction horderly with
  | opened hfresh hopened =>
      obtain ⟨root, hranked⟩ := ranked_of_fresh hfresh hcuts hopened
      exact ⟨root, _, _, hranked⟩
  | called horderly hspares ih =>
      obtain ⟨root, rank, bound, hranked⟩ := ih
      have hsound := horderly.reachable.sound
      obtain ⟨rank', bound', hranked'⟩ := (call_step hsound rfl).ranked hsound hcuts hranked hspares
      exact ⟨root, rank', bound', hranked'⟩
  | reopened _ hdurable hopened ih =>
      obtain ⟨root, rank, bound, hranked⟩ := ih
      exact ⟨root, rank, bound, hranked.of_reopened hcuts hdurable hopened⟩

theorem Ranked.acyclic {root : CommitId} {rank : CommitId → ℕ} {bound : ℕ}
    (hranked : Ranked lawful root rank bound loom) : Acyclic (engine.parentsOf loom) :=
  Ancestry.acyclic_of_rank rank fun _ _ hparent => (hranked.edges.parentsOf hparent).2

/-- Every commit comes down to the root. -/
theorem Ranked.ancestor_root {root : CommitId} {rank : CommitId → ℕ} {bound : ℕ}
    (hranked : Ranked lawful root rank bound loom) {commit : CommitId}
    (hstored : lawful.pages loom.pager commit ≠ none) :
    Ancestor (engine.parentsOf loom) commit root := by
  induction hrank : rank commit using Nat.strong_induction_on generalizing commit with
  | _ height ih =>
      by_cases hroot : commit = root
      · exact hroot ▸ .refl _ _
      · obtain ⟨parents, hparents⟩ :=
          Option.ne_none_iff_exists'.mp (hranked.recorded commit hstored hroot)
        obtain ⟨hne, hedges⟩ := hranked.edges.refs commit parents hparents
        obtain ⟨parent, hparent⟩ := List.exists_mem_of_ne_nil _ hne
        obtain ⟨⟨-, hbelow⟩, hlower⟩ := hedges parent hparent
        have hedge : parent ∈ engine.parentsOf loom commit := by
          rw [parentsOf, hparents]
          exact hparent
        exact (Ancestor.of_parent hedge).trans (ih (rank parent) (hrank ▸ hlower) hbelow rfl)

/-- The history of an orderly run has no cycles, and every commit comes down to the root. -/
theorem Orderly.dag (hcuts : engine.store.Cuts) (horderly : Orderly lawful loom) :
    Acyclic (engine.parentsOf loom) ∧ ∃ root, engine.pager.rootManifest loom.pager = .ok root ∧
      ∀ commit, lawful.pages loom.pager commit ≠ none →
        Ancestor (engine.parentsOf loom) commit root := by
  obtain ⟨root, rank, bound, hranked⟩ := horderly.ranked hcuts
  exact ⟨hranked.acyclic, root, hranked.root, fun _ hstored => hranked.ancestor_root hstored⟩

theorem Orderly.afterAll {calls : List Call} (horderly : Orderly lawful loom)
    (hspares : ∀ call ∈ calls, SparesMarks call) :
    Orderly lawful (engine.afterAll calls loom) := by
  induction calls generalizing loom with
  | nil => exact horderly
  | cons call calls ih =>
      exact ih (horderly.called (hspares call List.mem_cons_self))
        fun later hmem => hspares later (List.mem_cons_of_mem _ hmem)

theorem memoryLoom_orderly : Orderly memoryLawful memoryLoom :=
  .opened (inMemory_fresh rfl) memoryLoom_opened

/-- Two branches that each merge the other. -/
def mergedLoom : Loom MemPager (Option Refs) :=
  memoryEngine.afterAll [.openSessionNamed (ascii "s"), .openSessionNamed (ascii "b"),
    .write (memoryToken [ascii "s"]) (ascii "s") [(ascii "k", .value (.counter (I64.ofU64 1)))] ∅
      (memoryEnvelope (ascii "s")),
    .merge (memoryToken [ascii "s", ascii "b"]) (ascii "s") (ascii "b") .conflict
      (memoryEnvelope (ascii "b")) (fun _ _ => none),
    .merge (memoryToken [ascii "s", ascii "b"]) (ascii "b") (ascii "s") .conflict
      (memoryEnvelope (ascii "s")) (fun _ _ => none)] memoryLoom

theorem mergedLoom_orderly : Orderly memoryLawful mergedLoom := by
  refine memoryLoom_orderly.afterAll fun call hcall => ?_
  simp only [List.mem_cons, List.not_mem_nil, or_false] at hcall
  rcases hcall with rfl | rfl | rfl | rfl | rfl
  · trivial
  · trivial
  · intro entry hentry
    rw [List.mem_singleton.mp hentry]
    decide
  · trivial
  · trivial

theorem dag_merged : Acyclic (memoryEngine.parentsOf mergedLoom) ∧
    ∃ root, memoryEngine.pager.rootManifest mergedLoom.pager = .ok root ∧
      ∀ commit, memoryLawful.pages mergedLoom.pager commit ≠ none →
        Ancestor (memoryEngine.parentsOf mergedLoom) commit root :=
  mergedLoom_orderly.dag MemRefStore.cuts

end Engine

end LoomDB
