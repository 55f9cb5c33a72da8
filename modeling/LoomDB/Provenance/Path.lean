import LoomDB.Provenance.Walks

/-!
# The path back to a source

For each contaminated node a plan shows a path back to the source. The search follows the
first parent of every node, so it shows a real path if the line of first parents comes to a
node that cites the source, and where it does not the path leads to a clean root.
-/

namespace LoomDB

open Std (ExtTreeMap ExtTreeSet)

/-- The nodes from one up to one that cites the source, each followed by a parent of it. -/
inductive PathTo (nodes : NodeMap) (source : SourceRef) : NodeId → List DerivationNode → Prop
  | citing {id : NodeId} {node : DerivationNode} (hnode : nodes[id]? = some node)
      (hsource : source ∈ node.sources) : PathTo nodes source id [node]
  | parent {id parent : NodeId} {node : DerivationNode} {path : List DerivationNode}
      (hnode : nodes[id]? = some node) (hparent : parent ∈ node.derivedFrom)
      (hpath : PathTo nodes source parent path) : PathTo nodes source id (node :: path)

/-- The keys of nodes as a plan displays them. -/
def shownKeys (path : List DerivationNode) : List Bytes :=
  path.map fun node => utf8Lossy node.key

/-- What is shown is a path to the source: the source, and the keys from the node that cites
it down to this one. -/
def ShowsPath (nodes : NodeMap) (source : SourceRef) (id : NodeId) (shown : List Bytes) : Prop :=
  ∃ path, PathTo nodes source id path ∧ shown = source.toBytes :: (shownKeys path).reverse

/-- One of the first nodes on the line of first parents cites the source. -/
inductive CitedAbove (nodes : NodeMap) (source : SourceRef) : ℕ → NodeId → Prop
  | citing {hops : ℕ} {id : NodeId} {node : DerivationNode} (hnode : nodes[id]? = some node)
      (hsource : source ∈ node.sources) : CitedAbove nodes source (hops + 1) id
  | first {hops : ℕ} {id parent : NodeId} {node : DerivationNode} (hnode : nodes[id]? = some node)
      (hparent : node.derivedFrom.head? = some parent)
      (habove : CitedAbove nodes source hops parent) : CitedAbove nodes source (hops + 1) id

/-- The line of first parents ends at a root, and none of its nodes cites the source. -/
inductive CleanLine (nodes : NodeMap) (source : SourceRef) :
    ℕ → Option NodeId → List DerivationNode → Prop
  | root {hops : ℕ} : CleanLine nodes source hops none []
  | missing {hops : ℕ} {id : NodeId} (hnode : nodes[id]? = none) :
      CleanLine nodes source (hops + 1) (some id) []
  | first {hops : ℕ} {id : NodeId} {node : DerivationNode} {line : List DerivationNode}
      (hnode : nodes[id]? = some node) (hsource : source ∉ node.sources)
      (hline : CleanLine nodes source hops node.derivedFrom.head? line) :
      CleanLine nodes source (hops + 1) (some id) (node :: line)

/-- The line of first parents ends at a clean root whose key reads as the source, below which
its keys read as those of a path. -/
def Lookalike (nodes : NodeMap) (source : SourceRef) (id : NodeId) : Prop :=
  ∃ line path, CleanLine nodes source MAX_DERIVATION_DEPTH (some id) line ∧
    PathTo nodes source id path ∧ shownKeys line = shownKeys path ++ [source.toBytes]

variable {nodes : NodeMap} {source : SourceRef} {id : NodeId}

/-! ## Contamination -/

/-- A node has a path to the source if it is downstream of the nodes that cite it. -/
theorem exists_pathTo_iff {seeds : ExtTreeSet NodeId}
    (hids : ∀ (id : NodeId) (node : DerivationNode), nodes[id]? = some node → node.id = id)
    (hseeds : ∀ id : NodeId, id ∈ seeds ↔
      ∃ node : DerivationNode, nodes[id]? = some node ∧ source ∈ node.sources) :
    (∃ path, PathTo nodes source id path) ↔ Downstream nodes seeds id := by
  constructor
  · rintro ⟨path, hpath⟩
    induction hpath with
    | citing hnode hsource =>
        exact ⟨_, (hseeds _).mpr ⟨_, hnode, hsource⟩, Relation.ReflTransGen.refl⟩
    | parent hnode hparent _ ih =>
        obtain ⟨seed, hseed, hreach⟩ := ih
        exact ⟨seed, hseed, hreach.tail ⟨_, _, hnode, hparent, hids _ _ hnode⟩⟩
  · rintro ⟨seed, hseed, hreach⟩
    induction hreach with
    | refl =>
        obtain ⟨node, hnode, hsource⟩ := (hseeds seed).mp hseed
        exact ⟨[node], .citing hnode hsource⟩
    | tail _ hderives ih =>
        obtain ⟨path, hpath⟩ := ih
        obtain ⟨child, node, hnode, hparent, rfl⟩ := hderives
        obtain rfl := hids child node hnode
        exact ⟨node :: path, .parent hnode hparent hpath⟩

/-! ## The search -/

/-- A line that comes to a node that cites the source is shown to there. -/
theorem CitedAbove.pathFrom {hops : ℕ} (habove : CitedAbove nodes source hops id) :
    ∃ path, PathTo nodes source id path ∧
      LoomDB.pathFrom nodes source hops (some id) = shownKeys path ++ [source.toBytes] := by
  induction habove with
  | @citing hops id node hnode hsource =>
      refine ⟨[node], .citing hnode hsource, ?_⟩
      rw [LoomDB.pathFrom, hnode]
      dsimp only
      rw [if_pos hsource]
      rfl
  | @first hops id parent node hnode hparent _ ih =>
      by_cases hsource : source ∈ node.sources
      · refine ⟨[node], .citing hnode hsource, ?_⟩
        rw [LoomDB.pathFrom, hnode]
        dsimp only
        rw [if_pos hsource]
        rfl
      · obtain ⟨path, hpath, hshown⟩ := ih
        refine ⟨node :: path, .parent hnode (List.mem_of_mem_head? hparent) hpath, ?_⟩
        rw [LoomDB.pathFrom, hnode]
        dsimp only
        rw [if_neg hsource, hparent, hshown]
        rfl

theorem CleanLine.pathFrom {hops : ℕ} {start : Option NodeId} {line : List DerivationNode}
    (hline : CleanLine nodes source hops start line) :
    LoomDB.pathFrom nodes source hops start = shownKeys line := by
  induction hline with
  | root => unfold LoomDB.pathFrom; rfl
  | missing hnode =>
      rw [LoomDB.pathFrom, hnode]
      rfl
  | first hnode hsource _ ih =>
      rw [LoomDB.pathFrom, hnode]
      dsimp only
      rw [if_neg hsource, ih]
      rfl

/-- The line comes to a node that cites the source, ends before, or is cut off. -/
theorem pathFrom_cases (nodes : NodeMap) (source : SourceRef) (hops : ℕ) (start : Option NodeId) :
    (∃ id, start = some id ∧ CitedAbove nodes source hops id) ∨
      (∃ line, CleanLine nodes source hops start line) ∨
      ∃ shown, pathFrom nodes source hops start =
        shown ++ [ellipsis ++ ascii " (path truncated)"] := by
  induction hops generalizing start with
  | zero =>
      cases start with
      | none => exact Or.inr (Or.inl ⟨[], .root⟩)
      | some id => exact Or.inr (Or.inr ⟨[], rfl⟩)
  | succ hops ih =>
      cases start with
      | none => exact Or.inr (Or.inl ⟨[], .root⟩)
      | some id =>
          cases hnode : nodes[id]? with
          | none => exact Or.inr (Or.inl ⟨[], .missing hnode⟩)
          | some node =>
              by_cases hsource : source ∈ node.sources
              · exact Or.inl ⟨id, rfl, .citing hnode hsource⟩
              · rcases ih node.derivedFrom.head? with ⟨parent, hparent, habove⟩ | hrest
                · exact Or.inl ⟨id, rfl, .first hnode hparent habove⟩
                · refine Or.inr (hrest.imp ?_ ?_)
                  · rintro ⟨line, hline⟩
                    exact ⟨node :: line, .first hnode hsource hline⟩
                  · rintro ⟨shown, hshown⟩
                    refine ⟨utf8Lossy node.key :: shown, ?_⟩
                    rw [pathFrom, hnode]
                    dsimp only
                    rw [if_neg hsource, hshown]
                    rfl

/-- No source reads as the mark of a path that was cut off. -/
theorem truncated_ne (source : SourceRef) :
    ellipsis ++ ascii " (path truncated)" ≠ source.toBytes := by
  intro heq
  have hcolon : 0x3A ∈ source.toBytes := by
    unfold SourceRef.toBytes
    exact List.mem_append_left _ (List.mem_append_right _ (by decide))
  rw [← heq] at hcolon
  revert hcolon
  decide

theorem showsPath_iff {shown : List Bytes} :
    ShowsPath nodes source id shown.reverse ↔
      ∃ path, PathTo nodes source id path ∧ shown = shownKeys path ++ [source.toBytes] := by
  apply exists_congr
  intro path
  apply and_congr_right
  intro _
  rw [List.reverse_eq_iff, List.reverse_cons, List.reverse_reverse]

/-- The path shown is a real one if the line of first parents comes to a node that cites the
source, within as many nodes as a search visits, or happens to read like one. -/
theorem showsPath_pathToSource_iff (nodes : NodeMap) (source : SourceRef) (id : NodeId) :
    ShowsPath nodes source id (pathToSource nodes id source) ↔
      CitedAbove nodes source MAX_DERIVATION_DEPTH id ∨ Lookalike nodes source id := by
  rw [pathToSource, showsPath_iff]
  constructor
  · rintro ⟨path, hpath, hshown⟩
    rcases pathFrom_cases nodes source MAX_DERIVATION_DEPTH (some id) with
      ⟨start, hstart, habove⟩ | ⟨line, hline⟩ | ⟨shown, hcut⟩
    · cases hstart
      exact Or.inl habove
    · exact Or.inr ⟨line, path, hline, hpath, hline.pathFrom.symm.trans hshown⟩
    · have hlast := (List.append_inj' (hcut.symm.trans hshown) rfl).2
      exact absurd (List.singleton_inj.mp hlast) (truncated_ne source)
  · rintro (habove | ⟨line, path, hline, hpath, hreads⟩)
    · exact habove.pathFrom
    · exact ⟨path, hpath, hline.pathFrom.trans hreads⟩

/-! ## A diamond -/

namespace Engine

/-- Session `s` writes a text on its branch. -/
def textWrite (key : Key) : Call :=
  .write (memoryToken [ascii "s"]) (ascii "s") [(key, .value (.text (ascii "t")))] ∅
    (memoryEnvelope (ascii "s"))

/-- It notes what a page says, and writes from the note and from a record of its own. -/
def diamondLoom : Loom MemPager (Option Refs) :=
  mixingEngine.afterAll [.openSessionNamed (ascii "s"), textWrite (ascii "clean"),
    .write (memoryToken [ascii "s"]) (ascii "s") [(ascii "page", .observation webPage)] ∅
      (memoryEnvelope (ascii "s")),
    .read (memoryToken [ascii "s"]) (ascii "s") (ascii "page"), textWrite (ascii "noted"),
    .read (memoryToken [ascii "s"]) (ascii "s") (ascii "clean"),
    .read (memoryToken [ascii "s"]) (ascii "s") (ascii "noted"), textWrite (ascii "both")]
    memoryLoom

/-- The nodes of the branch, and the one that is downstream of the page without citing it. -/
def diamondNodes : Option (NodeMap × ExtTreeSet NodeId × NodeId) := do
  let nodes ← (mixingEngine.nodesOn (ascii "s") diamondLoom).1.toOption
  let seeds ← (mixingEngine.seedsOn (ascii "s") webPage.source diamondLoom).1.toOption
  let found ← (floodDownstream nodes seeds).toOption
  let both ← nodes.toList.find? fun entry => entry.2.key = ascii "both"
  return (nodes, found, both.1)

/-- A flood finds the record derived from both, and the path shown for it leads to the clean
one. -/
theorem not_showsPath_diamond :
    mixingEngine.Reachable mixingLawful diamondLoom ∧ ∃ nodes found id,
      Walked mixingEngine diamondLoom webPage.source (ascii "s") nodes found ∧ id ∈ found ∧
      pathToSource nodes id webPage.source = [ascii "clean", ascii "both"] ∧
      ¬ShowsPath nodes webPage.source id (pathToSource nodes id webPage.source) := by
  have hrun : diamondNodes.map (fun walk => (walk.2.1.contains walk.2.2,
      pathToSource walk.1 walk.2.2 webPage.source)) =
        some (true, [ascii "clean", ascii "both"]) := by decide +kernel
  obtain ⟨⟨nodes, found, id⟩, hwalk, heq⟩ := Option.map_eq_some_iff.mp hrun
  obtain ⟨hfound, hpath⟩ := Prod.mk.inj heq
  simp only [diamondNodes, Option.bind_eq_bind, Option.bind_eq_some_iff, Option.pure_def,
    Option.some.injEq, Prod.mk.injEq] at hwalk
  obtain ⟨_, hnodes, seeds, hseeds, _, hflood, both, -, rfl, rfl, rfl⟩ := hwalk
  refine ⟨mixingLoom_reachable.afterAll _, _, _, _,
    ⟨StateExcept.toOption_eq_some.mp hnodes, seeds, StateExcept.toOption_eq_some.mp hseeds,
      StateExcept.toOption_eq_some.mp hflood⟩, ExtTreeSet.contains_iff_mem.mp hfound, hpath, ?_⟩
  rintro ⟨path, -, hshown⟩
  have hfirst : ascii "clean" = webPage.source.toBytes :=
    (List.cons.inj (hpath.symm.trans hshown)).1
  revert hfirst
  decide

end Engine

end LoomDB
