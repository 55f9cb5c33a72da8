import LoomDB.Branch.NodeRules

/-!
# Nodes that fit into their pages

A node is cut when it has outgrown seven tenths of its page, and it is cut by the number of its
entries. Each half fits into a page unless the large entries come together in one of them; then the
page store refuses the flush.
-/

namespace LoomDB

open Codec (lengthEscape)

namespace Node

/-- The entries of a leaf fit into a leaf each, and the separators of an internal node into a node
over two children. -/
def FitParts (pageSize : ℕ) : Node → Prop
  | .leaf entries => ∀ entry ∈ entries, (Node.encode (.leaf [entry])).length ≤ fillLimit pageSize
  | .internal keys _ => ∀ key ∈ keys, key.length + 44 ≤ pageSize

/-- The node fits into a page, and so do its parts. -/
structure Fits (pageSize : ℕ) (node : Node) : Prop where
  whole : node.encode.length ≤ pageSize
  parts : FitParts pageSize node

theorem length_encode_empty : (Node.encode (.leaf [])).length = 12 := by
  rw [length_encode_leaf_of_lt (by decide)]
  rfl

theorem length_encode_pair {key : Key} {pages : List PageNo} (hpages : pages.length = 2)
    (hkey : key.length < lengthEscape) :
    (Node.encode (.internal [key] pages)).length = key.length + 44 := by
  rw [length_encode_internal, hpages]
  simp only [keySize, List.length_singleton, List.map_cons, List.map_nil, List.sum_cons,
    List.sum_nil, Codec.length_encodeLength hkey,
    Codec.length_encodeLength (show 1 < lengthEscape by decide),
    Codec.length_encodeLength (show 2 < lengthEscape by decide)]
  omega

end Node

variable {pageSize : ℕ}

theorem fillLimit_lt (hmax : pageSize < 256 ^ 8) : fillLimit pageSize < lengthEscape := by
  have hlimit := fillLimit_le pageSize
  unfold lengthEscape
  omega

/-- The key of an entry that fits into a leaf makes a separator. -/
theorem key_fits (hmin : MIN_PAGE_SIZE ≤ pageSize) {entry : Key × Record}
    (hentry : (Node.encode (.leaf [entry])).length ≤ fillLimit pageSize) :
    entry.1.length + 44 ≤ pageSize := by
  have hlimit := fillLimit_le pageSize
  have hleaf := le_length_encode_leaf [entry]
  have hkey : entry.1.length + 8 ≤ entrySize entry := by
    have hlength := le_length_encodeLength entry.1.length
    unfold entrySize keySize
    omega
  simp only [List.map_cons, List.map_nil, List.sum_cons, List.sum_nil] at hleaf
  unfold MIN_PAGE_SIZE at hmin
  omega

theorem nodeRule_fits (hmin : MIN_PAGE_SIZE ≤ pageSize) : NodeRule (Node.Fits pageSize) where
  empty := by
    unfold MIN_PAGE_SIZE at hmin
    exact ⟨by rw [Node.length_encode_empty]; omega, by simp [Node.FitParts]⟩
  renumbered := by
    rintro node node' hnodes ⟨hwhole, hparts⟩
    refine ⟨hnodes.length_encode.trans_le hwhole, ?_⟩
    cases node with
    | leaf entries =>
        cases node' with
        | leaf entries' => exact (show entries = entries' from hnodes) ▸ hparts
        | internal keys children => exact hnodes.elim
    | internal keys children =>
        cases node' with
        | leaf entries' => exact hnodes.elim
        | internal keys' children' => exact hnodes.1 ▸ hparts
  erase := by
    rintro entries position ⟨hwhole, hparts⟩
    refine ⟨le_trans ?_ hwhole, fun entry hentry =>
      hparts entry (List.mem_of_mem_eraseIdx hentry)⟩
    exact length_encode_leaf_mono (List.eraseIdx_sublist entries position)

/-! ## What an insertion makes -/

theorem Node.FitParts.halves {node half : Node} (hparts : node.FitParts pageSize)
    (hhalf : half ∈ node.halves) : half.FitParts pageSize := by
  cases node with
  | leaf entries =>
      simp only [Node.halves, List.mem_cons, List.not_mem_nil, or_false] at hhalf
      rcases hhalf with rfl | rfl
      · exact fun entry hentry => hparts entry (List.mem_of_mem_take hentry)
      · exact fun entry hentry => hparts entry (List.mem_of_mem_drop hentry)
  | internal keys children =>
      simp only [Node.halves, List.mem_cons, List.not_mem_nil, or_false] at hhalf
      rcases hhalf with rfl | rfl
      · exact fun key hkey => hparts key (List.mem_of_mem_take hkey)
      · exact fun key hkey => hparts key (List.mem_of_mem_drop hkey)

theorem Node.FitParts.separator (hmin : MIN_PAGE_SIZE ≤ pageSize) {node : Node}
    (hparts : node.FitParts pageSize) : ∀ key ∈ node.separator, key.length + 44 ≤ pageSize := by
  intro key hkey
  cases node with
  | leaf entries =>
      obtain ⟨entry, hentry, rfl⟩ := Option.map_eq_some_iff.mp hkey
      exact key_fits hmin (hparts entry (List.mem_of_mem_drop (List.mem_of_mem_head? hentry)))
  | internal keys children => exact hparts key (List.mem_of_getElem? hkey)

theorem Node.FitParts.grow {key : Key} {record : Record} {node whole : Node}
    {separator : Option Key} (hparts : node.FitParts pageSize)
    (hentry : (Node.encode (.leaf [(key, record)])).length ≤ fillLimit pageSize)
    (hseparator : ∀ key ∈ separator, key.length + 44 ≤ pageSize)
    (hgrow : node.grow key record separator = some whole) : whole.FitParts pageSize := by
  cases node with
  | leaf entries =>
      obtain rfl := Option.some.inj hgrow
      intro entry hmem
      rcases eq_or_mem_of_mem_insertEntry hmem with rfl | hmem
      · exact hentry
      · exact hparts entry hmem
  | internal keys children =>
      cases separator with
      | none => cases hgrow
      | some separator =>
          obtain rfl := Option.some.inj hgrow
          intro other hother
          rcases List.eq_or_mem_of_mem_insertIdx hother with rfl | hother
          · exact hseparator _ rfl
          · exact hparts other hother

/-- The parts of the nodes an insertion makes fit, and the separator it hands up. -/
theorem fates_fitParts (hmin : MIN_PAGE_SIZE ≤ pageSize) (limit : ℕ) {key : Key}
    {record : Record} {nodes : List Node}
    (hentry : (Node.encode (.leaf [(key, record)])).length ≤ fillLimit pageSize)
    (hnodes : ∀ node ∈ nodes, node.FitParts pageSize) :
    (∀ separator ∈ (fates limit key record nodes).2, separator.length + 44 ≤ pageSize) ∧
      ∀ fate ∈ (fates limit key record nodes).1, ∀ node ∈ fate.nodes,
        node.FitParts pageSize := by
  induction nodes with
  | nil => simp [fates]
  | cons first below ih =>
      obtain ⟨hfirst, hbelow⟩ := List.forall_mem_cons.mp hnodes
      obtain ⟨hseparator, hfates⟩ := ih hbelow
      simp only [fates]
      cases hgrow : first.grow key record (fates limit key record below).2 with
      | none =>
          simp only
          exact ⟨by simp, List.forall_mem_cons.mpr ⟨by simpa [Fate.nodes] using hfirst, hfates⟩⟩
      | some whole =>
          have hwhole := hfirst.grow hentry hseparator hgrow
          simp only
          split
          · exact ⟨hwhole.separator hmin,
              List.forall_mem_cons.mpr ⟨fun half hhalf => hwhole.halves hhalf, hfates⟩⟩
          · exact ⟨by simp, List.forall_mem_cons.mpr ⟨by simpa [Fate.nodes] using hwhole, hfates⟩⟩

namespace Tree

/-- No half of a node that the insertion cuts is longer than a page. -/
def HalvesFit (key : Key) (record : Record) (tree : Tree) : Prop :=
  ∀ fate ∈ tree.fatesOf key record, ∀ half ∈ fate.halves,
    half.encode.length ≤ tree.store.pageSize

instance (key : Key) (record : Record) (tree : Tree) : Decidable (HalvesFit key record tree) :=
  inferInstanceAs (Decidable (∀ fate ∈ tree.fatesOf key record, ∀ half ∈ fate.halves,
    half.encode.length ≤ tree.store.pageSize))

/-- What an insertion writes fits, if the halves do. -/
theorem written_fits (hmin : MIN_PAGE_SIZE ≤ pageSize) (hmax : pageSize < 256 ^ 8) {key : Key}
    {record : Record} {tree : Tree} (hsize : tree.store.pageSize = pageSize)
    (hpassed : ∀ node ∈ (tree.passedBy key).map Prod.snd, node.Fits pageSize)
    (hentry : (Node.encode (.leaf [(key, record)])).length ≤ fillLimit pageSize)
    (hhalves : HalvesFit key record tree) :
    ∀ node ∈ tree.written key record, node.Fits pageSize := by
  unfold HalvesFit fatesOf at hhalves
  unfold written
  rw [hsize] at hhalves ⊢
  obtain ⟨hseparator, hparts⟩ := fates_fitParts hmin (fillLimit pageSize) hentry
    fun node hnode => (hpassed node hnode).parts
  have hwhole := fates_rule (fun node => node.encode.length ≤ pageSize)
    (fun node hnode => hnode.trans (fillLimit_le_pageSize pageSize))
    (fun node hnode => (hpassed node hnode).whole) hhalves
  intro node hnode
  rcases List.mem_append.mp hnode with hroot | hbelow
  · cases hup : (fates (fillLimit pageSize) key record ((tree.passedBy key).map Prod.snd)).2 with
    | none =>
        simp only [hup, newRoot] at hroot
        cases hroot
    | some separator =>
        simp only [hup, newRoot] at hroot
        obtain rfl := List.mem_singleton.mp hroot
        have hkey := hseparator separator hup
        have hshort : separator.length < lengthEscape := by
          unfold lengthEscape
          omega
        exact ⟨(Node.length_encode_pair rfl hshort).trans_le hkey, by simpa [Node.FitParts] using hkey⟩
  · obtain ⟨fate, hfate, hmem⟩ := List.mem_flatMap.mp hbelow
    exact ⟨hwhole fate hfate node hmem, hparts fate hfate node hmem⟩

end Tree

theorem Meta.length_encode (info : Meta) : info.encode.length = 28 := by
  have hshape : info.encode = leBytes 4 info.formatVersion.val ++ (leBytes 8 info.root.val ++
      (leBytes 8 info.nextFree.val ++ leBytes 8 info.count.val)) := rfl
  rw [hshape]
  simp only [List.length_append, length_leBytes]

/-! ## Runs -/

/-- Every page that a flush writes fits, and a page store that takes whatever fits takes them. -/
structure OpenTree.FlushFits (pageSize : ℕ) (opened : OpenTree) : Prop where
  pages : ∀ page bytes, (page, bytes) ∈ opened.tree.flush → bytes.length ≤ pageSize
  succeeds : ∀ accept : PageNo → Bytes → Except LoomError Unit,
    (∀ page bytes, bytes.length ≤ pageSize → accept page bytes = .ok ()) →
      opened.tree.flushTo accept = .ok ()

theorem OpenTree.Follows.flushFits (hmin : MIN_PAGE_SIZE ≤ pageSize) {opened : OpenTree}
    {bindings : Bindings} (hfollows : Follows (Node.Fits pageSize) opened)
    (hrepresents : Represents pageSize opened bindings) : FlushFits pageSize opened := by
  obtain ⟨depth, entries, pages, hshaped, -⟩ := hrepresents.holds
  have hpages : ∀ page bytes, (page, bytes) ∈ opened.tree.flush → bytes.length ≤ pageSize := by
    intro page bytes hwrite
    rcases Tree.mem_flush.mp hwrite with ⟨node, hdirty, rfl⟩ | ⟨-, -, rfl⟩
    · have hpage : page ≠ META_PAGE := by
        rintro rfl
        exact hshaped.notMeta (hshaped.written _ (by simp [hdirty]))
      exact (Tree.view_of_dirty hdirty ▸ hfollows.tree.nodes page hpage).whole
    · rw [Meta.length_encode]
      unfold MIN_PAGE_SIZE at hmin
      omega
  refine ⟨hpages, fun accept haccept => ?_⟩
  exact StateExcept.except_forM_eq_ok.mpr fun write hwrite =>
    haccept _ _ (hpages write.1 write.2 hwrite)

namespace TreeOp

/-- Every page of a tree fits, in every run that cuts no node into a half longer than a page. -/
theorem flush_fits {write : PageNo → Bytes → Except LoomError Unit} {ops : List TreeOp}
    {opened : OpenTree} (hmin : MIN_PAGE_SIZE ≤ pageSize) (hmax : pageSize < 256 ^ 8)
    (hentries : ∀ key record, .insert key record ∈ ops →
      (Node.encode (.leaf [(key, record)])).length ≤ fillLimit pageSize)
    (hhalves : InsertsMeet pageSize write Tree.HalvesFit ops)
    (hrun : run pageSize write ∅ ops = .ok opened) : opened.FlushFits pageSize := by
  have hmeet : InsertsMeet pageSize write (fun key record tree =>
      (Node.encode (.leaf [(key, record)])).length ≤ fillLimit pageSize ∧
        Tree.HalvesFit key record tree) ops := by
    intro earlier later key record before hops hbefore
    exact ⟨hentries key record (by simp [hops]), hhalves _ _ _ _ _ hops hbefore⟩
  have hfollows := OpenTree.Follows.run (nodeRule_fits hmin) (fillLimit_lt hmax)
    (fun key record tree hsize _ hpassed hcondition =>
      Tree.written_fits hmin hmax hsize hpassed hcondition.1 hcondition.2) hmeet hrun
  exact hfollows.flushFits hmin (.run_empty hrun)

/-- Some insertion judges the leaf at a page with the record in it to fit. -/
def JudgedToFit (pageSize : ℕ) (page : PageNo) (key : Key) (record : Record) (tree : Tree)
    (updated : List (Key × Record)) : Prop :=
  ∃ entries taken size sized estimate counted, Tree.takeNode page tree = .ok (.leaf entries, taken) ∧
    Tree.sizeOf page (.leaf entries) taken = .ok (size, sized) ∧
    Tree.updateLeaf entries key record size sized = .ok ((updated, estimate), counted) ∧
    (Tree.overflowed pageSize (.leaf updated) estimate).1 = false

theorem JudgedToFit.length_le (hmax : pageSize < 256 ^ 8) {page : PageNo} {key : Key}
    {record : Record} {tree : Tree} {updated : List (Key × Record)} (hpage : page ≠ META_PAGE)
    (hreads : tree.Reads) (hsized : Tree.Sized tree)
    (hjudged : JudgedToFit pageSize page key record tree updated) :
    (Node.encode (.leaf updated)).length ≤ fillLimit pageSize := by
  obtain ⟨entries, taken, size, sized, estimate, counted, htake, hsizeOf, hupdate, hfits⟩ := hjudged
  have hcached := (Tree.takeNode_sizes htake hreads hpage (hsized page hpage)).1
  have hmeasured : (Node.encode (.leaf entries)).length ≤ size :=
    (Tree.sizeOf_sizes hsizeOf).1.elim (fun heq => heq.ge) (hcached entries size rfl)
  have hestimate : estimate ≤ fillLimit pageSize →
      (Node.encode (.leaf updated)).length ≤ estimate := fun hle =>
    Tree.updateLeaf_estimate hupdate hmeasured (hle.trans_lt (fillLimit_lt hmax))
  by_contra hlong
  rw [(Tree.overflowed_fst_iff hestimate).mpr (not_le.mp hlong)] at hfits
  cases hfits

/-- In every tree of a run the size that is kept for a leaf is no less than the leaf, so a leaf that
is judged to fit does. -/
theorem sizes_sound {write : PageNo → Bytes → Except LoomError Unit} {ops : List TreeOp}
    {opened : OpenTree} (hmax : pageSize < 256 ^ 8)
    (hrun : run pageSize write ∅ ops = .ok opened) :
    (∀ (page : PageNo) entries size, page ≠ META_PAGE → opened.tree.view page = .leaf entries →
      opened.tree.sizes[page]? = some size → (Node.encode (.leaf entries)).length ≤ size) ∧
    ∀ page key record updated, page ≠ META_PAGE →
      JudgedToFit pageSize page key record opened.tree updated →
      (Node.encode (.leaf updated)).length ≤ fillLimit pageSize := by
  have hrule : NodeRule fun _ => True := ⟨trivial, fun _ _ => trivial, fun _ _ => trivial⟩
  have hmeet : InsertsMeet pageSize write (fun _ _ _ => True) ops := fun _ _ _ _ _ _ _ => trivial
  have hfollows := OpenTree.Follows.run hrule (fillLimit_lt hmax)
    (fun _ _ _ _ _ _ _ _ _ => trivial) hmeet hrun
  have hsized := hfollows.tree.sized
  refine ⟨fun page entries size hpage => hsized page hpage entries size, ?_⟩
  intro page key record updated hpage hjudged
  exact hjudged.length_le hmax hpage (OpenTree.Represents.run_empty hrun).reads hsized

/-- Three entries of a thousand bytes, the last of which splits the leaf. -/
def even : List TreeOp :=
  [.insert (ascii "a") (Record.blob (List.replicate 1000 0)),
    .insert (ascii "b") (Record.blob (List.replicate 1000 0)),
    .insert (ascii "c") (Record.blob (List.replicate 1000 0))]

/-- A small entry, and two of two thirds of a page, which come together in the upper half. -/
def skewed : List TreeOp :=
  [.insert (ascii "a") (Record.blob []), .insert (ascii "b") (Record.blob (List.replicate 2700 0)),
    .insert (ascii "c") (Record.blob (List.replicate 2700 0))]

/-- The leaf at a page with the record in it, if it is judged to fit. -/
def judged (pageSize : ℕ) (page : PageNo) (key : Key) (record : Record) (tree : Tree) :
    Option (List (Key × Record)) := do
  let (node, taken) ← (Tree.takeNode page tree).toOption
  match node with
  | .leaf entries => do
      let (size, sized) ← (Tree.sizeOf page (.leaf entries) taken).toOption
      let ((updated, estimate), _) ← (Tree.updateLeaf entries key record size sized).toOption
      if (Tree.overflowed pageSize (.leaf updated) estimate).1 then none else some updated
  | .internal _ _ => none

theorem judgedToFit_of_judged {page : PageNo} {key : Key} {record : Record} {tree : Tree}
    {updated : List (Key × Record)} (hjudged : judged pageSize page key record tree = some updated) :
    JudgedToFit pageSize page key record tree updated := by
  obtain ⟨⟨node, taken⟩, htake, hjudged⟩ := Option.bind_eq_some_iff.mp hjudged
  cases node with
  | internal => cases hjudged
  | leaf entries =>
      obtain ⟨⟨size, sized⟩, hsize, hjudged⟩ := Option.bind_eq_some_iff.mp hjudged
      obtain ⟨⟨⟨leaf, estimate⟩, counted⟩, hupdate, hjudged⟩ := Option.bind_eq_some_iff.mp hjudged
      dsimp only at hjudged
      split at hjudged
      · cases hjudged
      next hfits =>
        cases hjudged
        exact ⟨entries, taken, size, sized, estimate, counted,
          StateExcept.toOption_eq_some.mp htake, StateExcept.toOption_eq_some.mp hsize,
          StateExcept.toOption_eq_some.mp hupdate, (Bool.not_eq_true _).mp hfits⟩

/-- After the split a fourth entry is judged to fit the lower leaf, and does. -/
theorem sizes_sound_even :
    ∃ opened updated, run 4096 (fun _ _ => .ok ()) ∅ even = .ok opened ∧
      (∀ (page : PageNo) entries size, page ≠ META_PAGE → opened.tree.view page = .leaf entries →
        opened.tree.sizes[page]? = some size → (Node.encode (.leaf entries)).length ≤ size) ∧
      JudgedToFit 4096 1 (ascii "aa") (Record.blob (List.replicate 1000 0)) opened.tree updated ∧
      updated.length = 2 ∧ (Node.encode (.leaf updated)).length ≤ fillLimit 4096 := by
  have hruns : ((run 4096 (fun _ _ => .ok ()) ∅ even).toOption.bind fun opened =>
      (judged 4096 1 (ascii "aa") (Record.blob (List.replicate 1000 0)) opened.tree).map
        List.length) = some 2 := by
    decide +kernel
  obtain ⟨opened, hrun, hjudged⟩ := Option.bind_eq_some_iff.mp hruns
  obtain ⟨updated, hupdated, hlength⟩ := Option.map_eq_some_iff.mp hjudged
  have hjudged := judgedToFit_of_judged hupdated
  have hrun := StateExcept.toOption_eq_some.mp hrun
  obtain ⟨hsizes, hfits⟩ := sizes_sound (by decide) hrun
  exact ⟨opened, updated, hrun, hsizes, hjudged, hlength, hfits 1 _ _ updated (by decide) hjudged⟩

/-- The conditions of `flush_fits` at one operation, as tests: the entry fits a leaf, and the
halves of a full leaf fit a page. -/
def fitsLeaf (pageSize : ℕ) : TreeOp → Bool
  | .insert key record =>
      Decidable.decide ((Node.encode (.leaf [(key, record)])).length ≤ fillLimit pageSize)
  | _ => true

def fitsHalves (tree : Tree) : TreeOp → Bool
  | .insert key record => Decidable.decide (Tree.HalvesFit key record tree)
  | _ => true

theorem flush_fits_even :
    ∃ opened, run 4096 (fun _ _ => .ok ()) ∅ even = .ok opened ∧ opened.FlushFits 4096 := by
  have hruns : (run 4096 (fun _ _ => .ok ()) ∅ even).isOk = true := by decide +kernel
  have hall : even.all (fitsLeaf 4096) = true := by decide +kernel
  have hfit : ∀ count, count < 3 → ((run 4096 (fun _ _ => .ok ()) ∅ (even.take count)).toOption.all
      fun opened => even[count]?.all (fitsHalves opened.tree)) = true := by decide +kernel
  cases hrun : run 4096 (fun _ _ => .ok ()) ∅ even with
  | error error =>
      rw [hrun] at hruns
      cases hruns
  | ok opened =>
      refine ⟨opened, rfl, flush_fits le_rfl (by decide) ?_ ?_ hrun⟩
      · intro key record hmem
        simpa [fitsLeaf] using List.all_eq_true.mp hall _ hmem
      · intro earlier later key record before hops hbefore
        have hcount : earlier.length < 3 := by
          have hlength := congrArg List.length hops
          simp only [List.length_append, List.length_cons] at hlength
          have heven : even.length = 3 := rfl
          omega
        have hstep := hfit earlier.length hcount
        rw [hops, List.take_left, hbefore, List.getElem?_append_right le_rfl, Nat.sub_self] at hstep
        simpa [Except.toOption, fitsHalves] using hstep

/-- Both large entries come to lie on one page, which is longer than the page store's. -/
theorem not_flush_fits_skewed :
    (∀ key record, .insert key record ∈ skewed →
      (Node.encode (.leaf [(key, record)])).length ≤ fillLimit 4096) ∧
    ∃ opened, run 4096 (fun _ _ => .ok ()) ∅ skewed = .ok opened ∧ ¬opened.FlushFits 4096 := by
  have hall : skewed.all fun
      | .insert key record =>
          Decidable.decide ((Node.encode (.leaf [(key, record)])).length ≤ fillLimit 4096)
      | _ => true := by decide +kernel
  have hlong : (run 4096 (fun _ _ => .ok ()) ∅ skewed).toOption.any (fun opened =>
      opened.tree.flush.any fun write => Decidable.decide (4096 < write.2.length)) = true := by
    decide +kernel
  constructor
  · intro key record hmem
    simpa using List.all_eq_true.mp hall _ hmem
  · cases hrun : run 4096 (fun _ _ => .ok ()) ∅ skewed with
    | error error =>
        rw [hrun] at hlong
        cases hlong
    | ok opened =>
        rw [hrun] at hlong
        refine ⟨opened, rfl, fun hfits => ?_⟩
        obtain ⟨write, hwrite, hlarge⟩ := List.any_eq_true.mp hlong
        exact absurd (hfits.pages write.1 write.2 hwrite) (not_le.mpr (by simpa using hlarge))

end TreeOp

end LoomDB
