import LoomDB.Branch.Capture

/-!
# What a node id is the hash of

The id of a derivation node is the hash of its fields, one after the other. Nothing says
where one field ends and the next begins, so the bytes of one field can as well be those
of its neighbour.
-/

namespace LoomDB

/-- What goes into the id of a node. The names are texts, a key is any bytes. -/
structure Derivation where
  branch : BranchId
  commit : CommitId
  key : Key
  actor : ActorId
  derivedFrom : List NodeId
  sources : List SourceRef
  branchText : isUtf8 branch = true
  actorText : isUtf8 actor = true
  sourceText : ∀ source ∈ sources, isUtf8 source.system = true ∧ isUtf8 source.recordId = true

namespace Derivation

/-- The node that is built from it. -/
def node (derivation : Derivation) (blake3 : Bytes → Digest) (delegation : List ActorId)
    (intent : Bytes) : DerivationNode :=
  DerivationNode.new blake3 derivation.branch derivation.commit derivation.key derivation.actor
    delegation intent derivation.derivedFrom derivation.sources

/-- The bytes that are hashed. -/
def hashed (derivation : Derivation) : Bytes :=
  DerivationNode.hashedBytes derivation.branch derivation.commit derivation.key derivation.actor
    (DerivationNode.sorted derivation.derivedFrom) (DerivationNode.sorted derivation.sources)

theorem id_node (derivation : Derivation) (blake3 : Bytes → Digest) (delegation : List ActorId)
    (intent : Bytes) :
    (derivation.node blake3 delegation intent).id = blake3 derivation.hashed := rfl

/-- The same write: the parents and the sources are sets. -/
structure Same (left right : Derivation) : Prop where
  branch : left.branch = right.branch
  commit : left.commit = right.commit
  key : left.key = right.key
  actor : left.actor = right.actor
  parents : ∀ parent, parent ∈ left.derivedFrom ↔ parent ∈ right.derivedFrom
  sources : ∀ source, source ∈ left.sources ↔ source ∈ right.sources

/-- Nothing but a commit and a key that is too short to be taken for anything else: no
name, no parent, no source; and neither the end of the key nor as much of the start of the
commit as the key is long is a text. -/
structure Bare (derivation : Derivation) : Prop where
  branch : derivation.branch = []
  actor : derivation.actor = []
  parents : derivation.derivedFrom = []
  sources : derivation.sources = []
  key : derivation.key.length < 32
  ending : ∀ text, isUtf8 text = true → text <:+ derivation.key → text = []
  start : ∀ text, isUtf8 text = true → text <+: derivation.commit.asBytes →
    text.length ≤ derivation.key.length → text = []

/-! ## The hashed bytes -/

theorem hashed_eq (derivation : Derivation) :
    derivation.hashed = derivation.branch ++ (derivation.commit.asBytes ++ (derivation.key ++
      (derivation.actor ++ ((DerivationNode.sorted derivation.derivedFrom).flatMap Digest.asBytes ++
        (DerivationNode.sorted derivation.sources).flatMap SourceRef.toBytes)))) := by
  simp only [hashed, DerivationNode.hashedBytes, List.append_assoc]

theorem length_flatMap_asBytes (ids : List NodeId) :
    (ids.flatMap Digest.asBytes).length = 32 * ids.length := by
  induction ids with
  | nil => rfl
  | cons id ids ih =>
      rw [List.flatMap_cons, List.length_append, ih, Digest.length_asBytes, List.length_cons]
      omega

theorem sorted_eq_nil {α : Type} [Ord α] [Std.TransOrd α] [Std.LawfulEqOrd α] [DecidableEq α]
    {items : List α} : DerivationNode.sorted items = [] ↔ items = [] := by
  simp only [List.eq_nil_iff_forall_not_mem, Engine.mem_sorted]

theorem isUtf8_flatMap_toBytes {sources : List SourceRef}
    (htexts : ∀ source ∈ sources, isUtf8 source.system = true ∧ isUtf8 source.recordId = true) :
    isUtf8 (sources.flatMap SourceRef.toBytes) = true := by
  induction sources with
  | nil => rfl
  | cons source sources ih =>
      obtain ⟨⟨hsystem, hrecord⟩, hrest⟩ := List.forall_mem_cons.mp htexts
      rw [List.flatMap_cons, SourceRef.toBytes]
      refine isUtf8_append (isUtf8_append (isUtf8_append hsystem ?_) hrecord) (ih hrest)
      decide

theorem flatMap_toBytes_eq_nil {sources : List SourceRef}
    (hnone : sources.flatMap SourceRef.toBytes = []) : sources = [] := by
  cases sources with
  | nil => rfl
  | cons source sources =>
      simp [SourceRef.toBytes, ascii] at hnone

theorem isUtf8_nil : isUtf8 [] = true := rfl

/-! ## Derivations with the same bytes -/

/-- A write without an actor, a parent or a source. -/
def plain (branch : BranchId) (commit : CommitId) (key : Key) (hbranch : isUtf8 branch = true) :
    Derivation where
  branch := branch
  commit := commit
  key := key
  actor := []
  derivedFrom := []
  sources := []
  branchText := hbranch
  actorText := isUtf8_nil
  sourceText := fun _ hsource => absurd hsource List.not_mem_nil

theorem hashed_plain (branch : BranchId) (commit : CommitId) (key : Key)
    (hbranch : isUtf8 branch = true) :
    (plain branch commit key hbranch).hashed = branch ++ (commit.asBytes ++ key) := by
  rw [hashed_eq]
  change branch ++ (commit.asBytes ++ (key ++ ([] ++ ([] ++ [])))) = _
  simp only [List.append_nil]

/-- The first 32 of some bytes, as a commit, and the rest. -/
theorem exists_commit {bytes : Bytes} (hlength : 32 ≤ bytes.length) :
    ∃ (commit : CommitId) (rest : Bytes), bytes = commit.asBytes ++ rest := by
  obtain ⟨commit, hcommit⟩ := Digest.exists_asBytes (List.length_take_of_le hlength)
  exact ⟨commit, bytes.drop 32, by rw [hcommit, List.take_append_drop]⟩

/-- Unless the derivation is bare, another one has its bytes. -/
theorem bare_of_alone {derivation : Derivation}
    (halone : ∀ other : Derivation, ¬ other.Same derivation → other.hashed ≠ derivation.hashed) :
    derivation.Bare := by
  -- Whatever comes after the key may be taken for more of the key.
  have hrest : derivation.actor = [] ∧ derivation.derivedFrom = [] ∧ derivation.sources = [] := by
    by_contra hsome
    refine halone (plain derivation.branch derivation.commit _ derivation.branchText)
      (fun hsame => hsome ⟨hsame.actor.symm, ?_, ?_⟩)
      ((hashed_plain _ _ _ _).trans derivation.hashed_eq.symm)
    · exact List.eq_nil_iff_forall_not_mem.mpr fun parent hparent =>
        List.not_mem_nil ((hsame.parents parent).mpr hparent)
    · exact List.eq_nil_iff_forall_not_mem.mpr fun source hsource =>
        List.not_mem_nil ((hsame.sources source).mpr hsource)
  obtain ⟨hactor, hparents, hsources⟩ := hrest
  have hhashed : derivation.hashed =
      derivation.branch ++ (derivation.commit.asBytes ++ derivation.key) := by
    rw [hashed_eq, hactor, hparents, hsources]
    change _ ++ (_ ++ (_ ++ ([] ++ ([] ++ [])))) = _
    simp only [List.append_nil]
  -- A branch name may be taken for the start of the commit.
  have hbranch : derivation.branch = [] := by
    by_contra hname
    obtain ⟨commit, rest, hbytes⟩ : ∃ (commit : CommitId) (rest : Bytes),
        derivation.hashed = commit.asBytes ++ rest := by
      refine exists_commit ?_
      rw [hhashed, List.length_append, List.length_append, Digest.length_asBytes]
      omega
    refine halone (plain [] commit rest isUtf8_nil) (fun hsame => hname hsame.branch.symm) ?_
    rw [hashed_plain, hbytes, List.nil_append]
  rw [hbranch, List.nil_append] at hhashed
  refine ⟨hbranch, hactor, hparents, hsources, ?_, ?_, ?_⟩
  · -- The last 32 bytes of a key may be taken for a parent.
    by_contra hlong
    rw [not_lt] at hlong
    have hlength : (derivation.key.drop (derivation.key.length - 32)).length = 32 := by
      rw [List.length_drop]
      omega
    obtain ⟨parent, hparent⟩ := Digest.exists_asBytes hlength
    let other : Derivation :=
      { plain [] derivation.commit (derivation.key.take (derivation.key.length - 32))
          isUtf8_nil with
        derivedFrom := [parent] }
    refine halone other (fun hsame => ?_) ?_
    · have hmem := (hsame.parents parent).mp (List.mem_singleton_self parent)
      rw [hparents] at hmem
      cases hmem
    · rw [hashed_eq, hhashed]
      change derivation.commit.asBytes ++ (derivation.key.take _ ++ ((parent.asBytes ++ []) ++ [])) =
        _
      rw [hparent, List.append_nil, List.append_nil, List.take_append_drop]
  · -- A text at the end of a key may be taken for the actor.
    rintro text htext ⟨before, hkey⟩
    by_contra hsome
    let other : Derivation :=
      { plain [] derivation.commit before isUtf8_nil with
        actor := text
        actorText := htext }
    refine halone other (fun hsame => hsome (hsame.actor.trans hactor)) ?_
    rw [hashed_eq, hhashed, ← hkey]
    change derivation.commit.asBytes ++ (before ++ (text ++ ([] ++ []))) = _
    simp only [List.append_nil]
  · -- A text at the start of a commit may be taken for the branch.
    rintro text htext ⟨after, hcommit⟩ hlength
    by_contra hsome
    obtain ⟨commit, rest, hbytes⟩ : ∃ (commit : CommitId) (rest : Bytes),
        after ++ derivation.key = commit.asBytes ++ rest := by
      refine exists_commit ?_
      have hcount := congrArg List.length hcommit
      rw [List.length_append, Digest.length_asBytes] at hcount
      rw [List.length_append]
      omega
    refine halone (plain text commit rest htext) (fun hsame => hsome (hsame.branch.trans hbranch)) ?_
    rw [hashed_plain, hhashed, ← hbytes, ← hcommit, List.append_assoc]

/-- A bare derivation shares its bytes with no other. -/
theorem Bare.same_of_hashed {derivation other : Derivation} (hbare : derivation.Bare)
    (hhashed : other.hashed = derivation.hashed) : other.Same derivation := by
  rw [hashed_eq, hashed_eq, hbare.branch, hbare.actor, hbare.parents, hbare.sources] at hhashed
  change _ = derivation.commit.asBytes ++ (derivation.key ++ ([] ++ ([] ++ []))) at hhashed
  simp only [List.append_nil] at hhashed
  have hshort := hbare.key
  have hlengths := congrArg List.length hhashed
  simp only [List.length_append, Digest.length_asBytes, length_flatMap_asBytes] at hlengths
  -- The branch is a text that the commit starts with.
  have hbranch : other.branch = [] := by
    refine hbare.start other.branch other.branchText ?_ (by omega)
    refine List.prefix_of_prefix_length_le ⟨_, hhashed⟩ (List.prefix_append _ _) ?_
    rw [Digest.length_asBytes]
    omega
  rw [hbranch, List.nil_append] at hhashed
  obtain ⟨hcommit, hrest⟩ := List.append_inj hhashed
    (by rw [Digest.length_asBytes, Digest.length_asBytes])
  have hparents : other.derivedFrom = [] := by
    rw [← sorted_eq_nil, ← List.length_eq_zero_iff]
    omega
  rw [hparents] at hrest
  -- What is left after the key is a text that the key ends in.
  have htail : other.actor ++ (DerivationNode.sorted other.sources).flatMap SourceRef.toBytes =
      [] := by
    refine hbare.ending _ (isUtf8_append other.actorText (isUtf8_flatMap_toBytes ?_)) ⟨_, hrest⟩
    exact fun source hsource => other.sourceText source (Engine.mem_sorted.mp hsource)
  obtain ⟨hactor, htexts⟩ := List.append_eq_nil_iff.mp htail
  have hsources := sorted_eq_nil.mp (flatMap_toBytes_eq_nil htexts)
  change other.key ++ (other.actor ++ (DerivationNode.sorted other.sources).flatMap
    SourceRef.toBytes) = derivation.key at hrest
  rw [htail, List.append_nil] at hrest
  constructor
  · rw [hbranch, hbare.branch]
  · exact Digest.asBytes_injective hcommit
  · exact hrest
  · rw [hactor, hbare.actor]
  · rw [hparents, hbare.parents]
    exact fun _ => Iff.rfl
  · rw [hsources, hbare.sources]
    exact fun _ => Iff.rfl

/-- No other derivation has the bytes of a derivation exactly if it is bare. -/
theorem hashed_alone_iff (derivation : Derivation) :
    (∀ other : Derivation, ¬ other.Same derivation → other.hashed ≠ derivation.hashed) ↔
      derivation.Bare :=
  ⟨bare_of_alone, fun hbare _ hother hhashed => hother (hbare.same_of_hashed hhashed)⟩

/-- A write of a text key by an actor on the branch `main`, on top of no commit. -/
def onMain (key : Key) (actor : ActorId) (hactor : isUtf8 actor = true) : Derivation :=
  { plain (ascii "main") 0 key (by decide) with
    actor := actor
    actorText := hactor }

/-- The key `ka` written by `b` and the key `k` written by `ab` are one node. -/
theorem hashed_key_or_actor :
    ¬ (onMain (ascii "ka") (ascii "b") (by decide)).Same
        (onMain (ascii "k") (ascii "ab") (by decide)) ∧
      (onMain (ascii "ka") (ascii "b") (by decide)).hashed =
        (onMain (ascii "k") (ascii "ab") (by decide)).hashed ∧
      ∀ blake3 : Bytes → Digest,
        ((onMain (ascii "ka") (ascii "b") (by decide)).node blake3 [] []).id =
          ((onMain (ascii "k") (ascii "ab") (by decide)).node blake3 [] []).id := by
  have hhashed : (onMain (ascii "ka") (ascii "b") (by decide)).hashed =
      (onMain (ascii "k") (ascii "ab") (by decide)).hashed := by
    rw [hashed_eq, hashed_eq]
    rfl
  refine ⟨fun hsame => ?_, hhashed, fun blake3 => ?_⟩
  · have hkeys : ascii "ka" = ascii "k" := hsame.key
    exact absurd hkeys (by decide)
  · rw [id_node, id_node, hhashed]

end Derivation

end LoomDB
