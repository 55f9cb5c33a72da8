import LoomDB.Branch.TreeStore

/-!
# The page store under the engine

Commits of pages, each made on top of another one. The page store is a library
of its own; the engine takes it as a parameter, with what it relies on:
a commit keeps exactly the pages written, a commit that changes nothing is its
base, and the id of any other is new. A page store in memory has these
properties.
-/

namespace LoomDB

open Std (ExtTreeMap)

/-- What the engine asks of the page store. -/
structure Substrate (σ : Type) where
  pageSize : ℕ
  /-- The commit of the empty store. -/
  rootManifest : σ → Except PagerError CommitId
  /-- The pages of a commit. -/
  fork : σ → CommitId → Except PagerError Snapshot
  /-- A commit of the staged pages on top of another commit. -/
  commit : σ → CommitId → List (PageNo × Bytes) → Except PagerError CommitId × σ
  /-- The pages that differ among a base and two commits. -/
  diff3 : σ → CommitId → CommitId → CommitId → Except PagerError (List PageNo)
  /-- The one parent a commit records. -/
  parent : σ → CommitId → Except PagerError (Option CommitId)
  /-- How many commits there are. -/
  manifests : σ → ℕ

namespace Substrate

variable {σ : Type}

/-- What the engine relies on. -/
structure Lawful (pager : Substrate σ) where
  /-- The pages of the commits in the store. -/
  pages : σ → CommitId → Option Pages
  fork_eq_ok : ∀ {state : σ} {commit : CommitId} {snapshot : Snapshot},
    pager.fork state commit = .ok snapshot →
      ∃ content, pages state commit = some content ∧
        snapshot = Snapshot.ofPages pager.pageSize content
  commit_eq_ok : ∀ {state state' : σ} {base commit : CommitId}
    {writes : List (PageNo × Bytes)} {content : Pages},
    pager.commit state base writes = (.ok commit, state') → pages state base = some content →
      pages state' commit = some (content.overlay writes) ∧
      (content.overlay writes = content → commit = base) ∧
      (content.overlay writes ≠ content → pages state commit = none) ∧
      ∀ other, other ≠ commit → pages state' other = pages state other
  commit_eq_error : ∀ {state state' : σ} {base : CommitId} {writes : List (PageNo × Bytes)}
    {error : PagerError}, pager.commit state base writes = (.error error, state') →
      pages state' = pages state
  root_eq_ok : ∀ {state : σ} {root : CommitId}, pager.rootManifest state = .ok root →
    pages state root = some ∅ ∧ pager.parent state root = .ok none
  /-- A new commit is a child of its base, and the other parents stay. -/
  parent_commit : ∀ {state state' : σ} {base commit : CommitId}
    {writes : List (PageNo × Bytes)},
    pager.commit state base writes = (.ok commit, state') →
      (pages state commit = none → pager.parent state' commit = .ok (some base)) ∧
      ∀ other, pages state other ≠ none ∨ other ≠ commit →
        pager.parent state' other = pager.parent state other
  parent_commit_error : ∀ {state state' : σ} {base : CommitId} {writes : List (PageNo × Bytes)}
    {error : PagerError}, pager.commit state base writes = (.error error, state') →
      pager.parent state' = pager.parent state
  rootManifest_commit : ∀ (state : σ) (base : CommitId) (writes : List (PageNo × Bytes)),
    pager.rootManifest (pager.commit state base writes).2 = pager.rootManifest state
  diff3_eq_ok : ∀ {state : σ} {base source target : CommitId} {changed : List PageNo}
    {basePages sourcePages targetPages : Pages} {page : PageNo},
    pager.diff3 state base source target = .ok changed →
      pages state base = some basePages → pages state source = some sourcePages →
      pages state target = some targetPages →
      sourcePages[page]? ≠ basePages[page]? ∨ targetPages[page]? ≠ basePages[page]? →
      page ∈ changed

end Substrate

/-! ## A page store in memory -/

/-- The commits in memory, each with its pages and its parent. -/
structure MemPager where
  manifests : ExtTreeMap CommitId (Pages × Option CommitId)
  root : CommitId
  rooted : manifests[root]? = some (∅, none)

namespace MemPager

def empty : MemPager where
  manifests := (∅ : ExtTreeMap CommitId (Pages × Option CommitId)).insert 0 (∅, none)
  root := 0
  rooted := by rw [OrderedMap.getElem?_insert, if_pos rfl]

def pages (state : MemPager) (commit : CommitId) : Option Pages :=
  state.manifests[commit]?.map Prod.fst

/-- A commit under an id no other has. -/
def add (state : MemPager) (commit base : CommitId) (content : Pages)
    (hfresh : state.manifests[commit]? = none) : MemPager where
  manifests := state.manifests.insert commit (content, some base)
  root := state.root
  rooted := by
    rw [OrderedMap.getElem?_insert, if_neg, state.rooted]
    rintro rfl
    simp [state.rooted] at hfresh

theorem pages_add {state : MemPager} {commit base : CommitId} {content : Pages}
    (hfresh : state.manifests[commit]? = none) (other : CommitId) :
    (state.add commit base content hfresh).pages other =
      if commit = other then some content else state.pages other := by
  simp only [pages, add, OrderedMap.getElem?_insert]
  split <;> rfl

variable (pageSize : ℕ)

def fork (state : MemPager) (commit : CommitId) : Except PagerError Snapshot :=
  match state.pages commit with
  | some pages => .ok (Snapshot.ofPages pageSize pages)
  | none => .error (.manifestNotFound commit)

/-- Commits are numbered as they are made. -/
def append (state : MemPager) (base : CommitId) (content : Pages) :
    Except PagerError CommitId × MemPager :=
  if hfresh : state.manifests[(Fin.ofNat (256 ^ 32) state.manifests.size : CommitId)]? = none then
    (.ok (Fin.ofNat (256 ^ 32) state.manifests.size), state.add _ base content hfresh)
  else (.error .commitFailed, state)

/-- An oversized page fails the commit. -/
def commit (state : MemPager) (base : CommitId) (writes : List (PageNo × Bytes)) :
    Except PagerError CommitId × MemPager :=
  match writes.find? fun write => pageSize < write.2.length, state.pages base with
  | some (page, bytes), _ => (.error (.pageTooLarge page bytes.length pageSize), state)
  | none, none => (.error (.manifestNotFound base), state)
  | none, some pages =>
      if pages.overlay writes = pages then (.ok base, state)
      else state.append base (pages.overlay writes)

def diff3 (state : MemPager) (base source target : CommitId) : Except PagerError (List PageNo) :=
  match state.pages base, state.pages source, state.pages target with
  | some base, some source, some target =>
      .ok ((base.keys ++ source.keys ++ target.keys).filter fun page =>
        source[page]? ≠ base[page]? ∨ target[page]? ≠ base[page]?)
  | _, _, _ => .error (.manifestNotFound base)

def parent (state : MemPager) (commit : CommitId) : Except PagerError (Option CommitId) :=
  match state.manifests[commit]? with
  | some (_, parent) => .ok parent
  | none => .error (.manifestNotFound commit)

def substrate : Substrate MemPager where
  pageSize := pageSize
  rootManifest state := .ok state.root
  fork := fork pageSize
  commit := commit pageSize
  diff3 := diff3
  parent := parent
  manifests state := state.manifests.size

theorem commit_eq_ok {state state' : MemPager} {base commit : CommitId}
    {writes : List (PageNo × Bytes)} {content : Pages}
    (hcommit : MemPager.commit pageSize state base writes = (.ok commit, state'))
    (hbase : state.pages base = some content) :
    state'.pages commit = some (content.overlay writes) ∧
      (content.overlay writes = content → commit = base) ∧
      (content.overlay writes ≠ content → state.pages commit = none) ∧
      ∀ other, other ≠ commit → state'.pages other = state.pages other := by
  unfold MemPager.commit at hcommit
  cases hlarge : writes.find? fun write => pageSize < write.2.length with
  | some large => simp [hlarge] at hcommit
  | none =>
      simp only [hlarge, hbase] at hcommit
      by_cases hsame : content.overlay writes = content
      · rw [if_pos hsame, Prod.mk.injEq] at hcommit
        obtain ⟨hid, rfl⟩ := hcommit
        obtain rfl := Except.ok.inj hid
        exact ⟨by rw [hbase, hsame], fun _ => rfl, fun hne => absurd hsame hne, fun _ _ => rfl⟩
      · rw [if_neg hsame, append] at hcommit
        split at hcommit
        · next hfresh =>
          obtain ⟨hid, rfl⟩ := Prod.mk.injEq .. ▸ hcommit
          obtain rfl := Except.ok.inj hid
          refine ⟨by rw [pages_add, if_pos rfl], fun h => absurd h hsame,
            fun _ => by rw [pages, hfresh]; rfl, fun other hother => ?_⟩
          rw [pages_add, if_neg (Ne.symm hother)]
        · simp at hcommit

theorem append_root (state : MemPager) (base : CommitId) (content : Pages) :
    (state.append base content).2.root = state.root := by
  unfold append
  split <;> rfl

/-- Whatever a commit does, the root stays. -/
theorem commit_root (state : MemPager) (base : CommitId) (writes : List (PageNo × Bytes)) :
    (MemPager.commit pageSize state base writes).2.root = state.root := by
  unfold MemPager.commit
  split
  · rfl
  · rfl
  · split
    · rfl
    · exact append_root _ _ _

theorem append_eq_error {state state' : MemPager} {base : CommitId} {content : Pages}
    {error : PagerError} (happend : state.append base content = (.error error, state')) :
    state' = state := by
  unfold append at happend
  split at happend
  · cases (Prod.mk.inj happend).1
  · exact (Prod.mk.inj happend).2.symm

theorem commit_eq_error {state state' : MemPager} {base : CommitId}
    {writes : List (PageNo × Bytes)} {error : PagerError}
    (hcommit : MemPager.commit pageSize state base writes = (.error error, state')) :
    state' = state := by
  unfold MemPager.commit at hcommit
  split at hcommit
  · exact (Prod.mk.inj hcommit).2.symm
  · exact (Prod.mk.inj hcommit).2.symm
  · split at hcommit
    · cases (Prod.mk.inj hcommit).1
    · exact append_eq_error hcommit

theorem mem_keys_of_ne {left right : Pages} {page : PageNo} (hne : left[page]? ≠ right[page]?) :
    page ∈ left.keys ∨ page ∈ right.keys := by
  by_contra hnot
  rw [not_or, ExtTreeMap.mem_keys, ExtTreeMap.mem_keys] at hnot
  rw [ExtTreeMap.getElem?_eq_none hnot.1, ExtTreeMap.getElem?_eq_none hnot.2] at hne
  exact hne rfl

theorem parent_commit {state state' : MemPager} {base commit : CommitId}
    {writes : List (PageNo × Bytes)}
    (hcommit : MemPager.commit pageSize state base writes = (.ok commit, state')) :
    (state.pages commit = none → state'.parent commit = .ok (some base)) ∧
      ∀ other, state.pages other ≠ none ∨ other ≠ commit →
        state'.parent other = state.parent other := by
  unfold MemPager.commit at hcommit
  cases hlarge : writes.find? fun write => pageSize < write.2.length with
  | some large => simp [hlarge] at hcommit
  | none =>
      cases hbase : state.pages base with
      | none => simp [hlarge, hbase] at hcommit
      | some content =>
          simp only [hlarge, hbase] at hcommit
          split at hcommit
          · obtain ⟨hid, rfl⟩ := Prod.mk.inj hcommit
            obtain rfl := Except.ok.inj hid
            exact ⟨fun hnone => absurd (hbase ▸ hnone) nofun, fun _ _ => rfl⟩
          · unfold append at hcommit
            split at hcommit
            · next hfresh =>
              obtain ⟨hid, rfl⟩ := Prod.mk.inj hcommit
              obtain rfl := Except.ok.inj hid
              refine ⟨fun _ => ?_, fun other hother => ?_⟩
              · simp only [parent, add, OrderedMap.getElem?_insert, if_pos]
              · have hne : ¬(Fin.ofNat (256 ^ 32) state.manifests.size : CommitId) = other := by
                  rintro rfl
                  rcases hother with hstored | hne
                  · exact hstored (by rw [pages, hfresh]; rfl)
                  · exact hne rfl
                simp only [parent, add, OrderedMap.getElem?_insert, if_neg hne]
            · cases (Prod.mk.inj hcommit).1

/-- A page store in memory is one the engine can rely on. -/
def lawful : (substrate pageSize).Lawful where
  pages := pages
  fork_eq_ok := by
    intro state commit snapshot hfork
    change fork pageSize state commit = _ at hfork
    unfold fork at hfork
    split at hfork
    · next content hpages => exact ⟨content, hpages, (Except.ok.inj hfork).symm⟩
    · cases hfork
  commit_eq_ok := commit_eq_ok pageSize
  commit_eq_error hcommit := by rw [commit_eq_error pageSize hcommit]
  root_eq_ok := by
    intro state root hroot
    obtain rfl : state.root = root := Except.ok.inj hroot
    simp [pages, substrate, parent, state.rooted]
  parent_commit := parent_commit pageSize
  parent_commit_error hcommit := by rw [commit_eq_error pageSize hcommit]
  rootManifest_commit state base writes := congrArg Except.ok (commit_root pageSize state base writes)
  diff3_eq_ok := by
    intro state base source target changed basePages sourcePages targetPages page hdiff hbase
      hsource htarget hne
    change diff3 state base source target = _ at hdiff
    simp only [diff3, hbase, hsource, htarget] at hdiff
    obtain rfl := Except.ok.inj hdiff
    refine List.mem_filter.mpr ⟨?_, by simpa using hne⟩
    rw [List.mem_append, List.mem_append]
    rcases hne with hne | hne
    · exact Or.inl (mem_keys_of_ne hne).symm
    · exact (mem_keys_of_ne hne).symm.imp_left Or.inl

end MemPager

end LoomDB
