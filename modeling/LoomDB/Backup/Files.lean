import LoomDB.Core.Describe
import LoomDB.Foundations.OrderedMap

/-!
# Files under a directory

A directory as what a walk finds below it: the entries that are not directories, each at
the names on the way to it. A path is written with slashes between the names; reading such
a text back is not quite the inverse, since empty names and dots are passed over.
-/

namespace LoomDB

open Std (ExtTreeMap)

abbrev Name := Bytes
abbrev Path := List Name

def SLASH : Byte := 0x2F

def BACKSLASH : Byte := 0x5C

/-- What a Unix platform allows as the name of an entry. -/
def legalName (name : Name) : Bool :=
  name ≠ [] && name ≠ ascii "." && name ≠ ascii ".." && SLASH ∉ name && 0 ∉ name

def legalPath (path : Path) : Bool :=
  path ≠ [] && path.all legalName

/-- The text of a path. -/
def spell (path : Path) : Bytes :=
  [SLASH].intercalate path

/-! ## Entries -/

inductive Entry where
  | file (content : Bytes)
  | symlink
  /-- A device, a socket or a pipe. -/
  | special
  deriving DecidableEq

/-- The entries below a directory. None of them is a directory of another's path. -/
structure Files where
  entries : ExtTreeMap Path Entry
  legal : ∀ (path : Path) (entry : Entry), entries[path]? = some entry → legalPath path = true
  apart : ∀ (path other : Path) (entry entry' : Entry), entries[path]? = some entry →
    entries[other]? = some entry' → path <+: other → path = other

namespace Files

def empty : Files where
  entries := ∅
  legal := by simp
  apart := by simp

/-- Nothing is at the path, on the way to it or below it. -/
def free (files : Files) (path : Path) : Bool :=
  files.entries.keys.all fun other => !other.isPrefixOf path && !path.isPrefixOf other

theorem free_eq_true {files : Files} {path : Path} :
    files.free path = true ↔ ∀ other entry, files.entries[other]? = some entry →
      ¬ other <+: path ∧ ¬ path <+: other := by
  simp only [free, List.all_eq_true, Bool.and_eq_true, Bool.not_eq_true',
    ← Bool.not_eq_true, List.isPrefixOf_iff_prefix]
  constructor
  · intro hfree other entry hentry
    refine hfree other (ExtTreeMap.mem_keys.mpr ?_)
    rw [ExtTreeMap.mem_iff_isSome_getElem?, hentry]
    rfl
  · intro hfree other hother
    obtain ⟨entry, hentry⟩ := Option.isSome_iff_exists.mp
      (ExtTreeMap.mem_iff_isSome_getElem?.mp (ExtTreeMap.mem_keys.mp hother))
    exact hfree other entry hentry

theorem prefix_absurd {files : Files} {path : Path} (hfree : files.free path = true)
    {other : Path} {entry : Entry} (hentry : files.entries[other]? = some entry) :
    other ≠ path := by
  rintro rfl
  exact (free_eq_true.mp hfree other entry hentry).1 (List.prefix_refl other)

/-- A new regular file, with the directories on the way to it. -/
def create (files : Files) (path : Path) (content : Bytes) : Option Files :=
  if h : legalPath path = true ∧ files.free path = true then
    some {
      entries := files.entries.insert path (.file content)
      legal := by
        intro other entry hentry
        rw [OrderedMap.getElem?_insert] at hentry
        split at hentry
        · next heq => exact heq ▸ h.1
        · exact files.legal other entry hentry
      apart := by
        intro first second entry entry' hfirst hsecond hprefix
        have hfree := free_eq_true.mp h.2
        rw [OrderedMap.getElem?_insert] at hfirst hsecond
        split at hfirst
        · next hnew =>
          split at hsecond
          · next hsame => exact hnew.symm.trans hsame
          · exact absurd (hnew ▸ hprefix) (hfree second entry' hsecond).2
        · split at hsecond
          · next hnew => exact absurd (hnew ▸ hprefix) (hfree first entry hfirst).1
          · exact files.apart first second entry entry' hfirst hsecond hprefix }
  else none

theorem create_eq_some {files files' : Files} {path : Path} {content : Bytes}
    (hcreate : files.create path content = some files') :
    legalPath path = true ∧ files.free path = true ∧
      files'.entries = files.entries.insert path (.file content) := by
  unfold create at hcreate
  split at hcreate
  · next h =>
    obtain rfl := Option.some.inj hcreate
    exact ⟨h.1, h.2, rfl⟩
  · cases hcreate

theorem ext {left right : Files} (hentries : left.entries = right.entries) : left = right := by
  cases left
  cases right
  simpa using hentries

end Files

/-! ## Texts of paths -/

def segments (value : Bytes) : List Name :=
  value.splitOn SLASH

/-- The components of a relative path, if each is a name. The dot that a path starts with is
one, any other is passed over. -/
def components (value : Bytes) : Option Path :=
  let names := (segments value).filter fun name => name ≠ [] && name ≠ ascii "."
  if (segments value).head? = some (ascii ".") || (ascii "..") ∈ names then none
  else some names

/-- The file that is opened under a path. What ends in a slash or a dot is a directory. -/
def Path.resolve (value : Bytes) : Option Path :=
  if (segments value).getLast? = some [] || (segments value).getLast? = some (ascii ".") then none
  else components value

theorem segments_spell {path : Path} (hlegal : legalPath path = true) :
    segments (spell path) = path := by
  simp only [legalPath, Bool.and_eq_true, decide_eq_true_eq, List.all_eq_true] at hlegal
  refine List.splitOn_intercalate SLASH (fun name hname => ?_) hlegal.1
  have hname := hlegal.2 name hname
  simp only [legalName, Bool.and_eq_true, decide_eq_true_eq] at hname
  exact hname.1.2

theorem legalName_of_mem {path : Path} (hlegal : legalPath path = true) {name : Name}
    (hname : name ∈ path) :
    name ≠ [] ∧ name ≠ ascii "." ∧ name ≠ ascii ".." ∧ SLASH ∉ name := by
  simp only [legalPath, Bool.and_eq_true, List.all_eq_true] at hlegal
  have hname := hlegal.2 name hname
  simp only [legalName, Bool.and_eq_true, decide_eq_true_eq] at hname
  exact ⟨hname.1.1.1.1, hname.1.1.1.2, hname.1.1.2, hname.1.2⟩

theorem components_spell {path : Path} (hlegal : legalPath path = true) :
    components (spell path) = some path := by
  have hnames : path.filter (fun name => name ≠ [] && name ≠ ascii ".") = path := by
    refine List.filter_eq_self.mpr fun name hname => ?_
    obtain ⟨hempty, hdot, -, -⟩ := legalName_of_mem hlegal hname
    simp [hempty, hdot]
  simp only [components, segments_spell hlegal, hnames]
  rw [if_neg]
  simp only [Bool.or_eq_true, decide_eq_true_eq, not_or]
  constructor
  · intro hhead
    exact (legalName_of_mem hlegal (List.mem_of_mem_head? hhead)).2.1 rfl
  · exact fun hmem => (legalName_of_mem hlegal hmem).2.2.1 rfl

theorem resolve_spell {path : Path} (hlegal : legalPath path = true) :
    Path.resolve (spell path) = some path := by
  rw [Path.resolve, if_neg, components_spell hlegal]
  simp only [segments_spell hlegal, Bool.or_eq_true, decide_eq_true_eq, not_or]
  constructor
  · intro hlast
    exact (legalName_of_mem hlegal (List.mem_of_getLast? hlast)).1 rfl
  · intro hlast
    exact (legalName_of_mem hlegal (List.mem_of_getLast? hlast)).2.1 rfl

theorem spell_injective {left right : Path} (hleft : legalPath left = true)
    (hright : legalPath right = true) (heq : spell left = spell right) : left = right := by
  rw [← segments_spell hleft, heq, segments_spell hright]

theorem mem_intercalate {names : List Name} {name : Name} {byte : Byte} (hname : name ∈ names)
    (hbyte : byte ∈ name) : byte ∈ [SLASH].intercalate names := by
  induction names with
  | nil => cases hname
  | cons first names ih =>
      cases names with
      | nil =>
          obtain rfl := List.mem_singleton.mp hname
          rwa [List.intercalate_singleton]
      | cons second names =>
          rw [List.intercalate_cons_cons, List.mem_append, List.mem_append]
          rcases List.mem_cons.mp hname with rfl | hname
          · exact Or.inl (Or.inl hbyte)
          · exact Or.inr (ih hname)

theorem mem_of_mem_segments {value : Bytes} {name : Name} {byte : Byte}
    (hname : name ∈ segments value) (hbyte : byte ∈ name) : byte ∈ value := by
  have hmem := mem_intercalate hname hbyte
  rwa [segments, List.intercalate_splitOn] at hmem

theorem components_of_resolve {value : Bytes} {path : Path}
    (hresolve : Path.resolve value = some path) : components value = some path := by
  unfold Path.resolve at hresolve
  split at hresolve
  · cases hresolve
  · exact hresolve

/-- The names of a path that was read have only bytes of its text. -/
theorem mem_of_resolve {value : Bytes} {path : Path} (hresolve : Path.resolve value = some path)
    {name : Name} (hname : name ∈ path) {byte : Byte} (hbyte : byte ∈ name) : byte ∈ value := by
  have hcomponents := components_of_resolve hresolve
  unfold components at hcomponents
  dsimp only at hcomponents
  split at hcomponents
  · cases hcomponents
  · obtain rfl := Option.some.inj hcomponents
    exact mem_of_mem_segments (List.mem_filter.mp hname).1 hbyte

end LoomDB
