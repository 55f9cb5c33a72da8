import LoomDB.Foundations.OrderedMap
import LoomDB.Foundations.StateExcept

/-!
# Programs over a key-value store

A transaction asks a store for records, changes some, and goes on with the
answers. Here it is a tree of requests, so that one transaction can be run on
the pages that hold the records and on the map they stand for: a store that
simulates another one request at a time simulates it on every transaction. The
keys a transaction may write are read off its tree as well.
-/

namespace LoomDB

open Std (ExtTreeMap)

/-- What a computation asks of the store, and how it goes on with the answer. -/
inductive KeyValue (κ ν ε α : Type) where
  | done (result : α)
  | fail (error : ε)
  | get (key : κ) (next : Option ν → KeyValue κ ν ε α)
  | insert (key : κ) (value : ν) (next : KeyValue κ ν ε α)
  | remove (key : κ) (next : Bool → KeyValue κ ν ε α)
  | scan (next : List (κ × ν) → KeyValue κ ν ε α)

namespace KeyValue

variable {κ ν ε α β γ σ τ : Type}

def andThen : KeyValue κ ν ε α → (α → KeyValue κ ν ε β) → KeyValue κ ν ε β
  | .done result, next => next result
  | .fail error, _ => .fail error
  | .get key rest, next => .get key fun found => (rest found).andThen next
  | .insert key value rest, next => .insert key value (rest.andThen next)
  | .remove key rest, next => .remove key fun removed => (rest removed).andThen next
  | .scan rest, next => .scan fun entries => (rest entries).andThen next

instance : Monad (KeyValue κ ν ε) where
  pure := .done
  bind := .andThen

theorem andThen_done (program : KeyValue κ ν ε α) : program.andThen .done = program := by
  induction program with
  | done result => rfl
  | fail error => rfl
  | get key rest ih => exact congrArg _ (funext ih)
  | insert key value rest ih => exact congrArg _ ih
  | remove key rest ih => exact congrArg _ (funext ih)
  | scan rest ih => exact congrArg _ (funext ih)

theorem andThen_andThen (program : KeyValue κ ν ε α) (first : α → KeyValue κ ν ε β)
    (second : β → KeyValue κ ν ε γ) :
    (program.andThen first).andThen second =
      program.andThen fun result => (first result).andThen second := by
  induction program with
  | done result => rfl
  | fail error => rfl
  | get key rest ih => exact congrArg _ (funext ih)
  | insert key value rest ih => exact congrArg _ ih
  | remove key rest ih => exact congrArg _ (funext ih)
  | scan rest ih => exact congrArg _ (funext ih)

instance : LawfulMonad (KeyValue κ ν ε) :=
  LawfulMonad.mk' (KeyValue κ ν ε) (fun program => andThen_done program) (fun _ _ => rfl)
    andThen_andThen

/-! ## Requests -/

def ask (key : κ) : KeyValue κ ν ε (Option ν) := .get key .done

def put (key : κ) (value : ν) : KeyValue κ ν ε Unit := .insert key value (.done ())

def drop (key : κ) : KeyValue κ ν ε Bool := .remove key .done

def entries : KeyValue κ ν ε (List (κ × ν)) := .scan .done

/-- A result computed outside the store. -/
def lift : Except ε α → KeyValue κ ν ε α
  | .ok result => .done result
  | .error error => .fail error

/-! ## Stores -/

/-- A store that answers the requests. -/
structure Store (κ ν ε σ : Type) where
  get : κ → StateT σ (Except ε) (Option ν)
  insert : κ → ν → StateT σ (Except ε) Unit
  remove : κ → StateT σ (Except ε) Bool
  scan : StateT σ (Except ε) (List (κ × ν))

def run (store : Store κ ν ε σ) : KeyValue κ ν ε α → StateT σ (Except ε) α
  | .done result => pure result
  | .fail error => throw error
  | .get key next => store.get key >>= fun found => (next found).run store
  | .insert key value next => store.insert key value >>= fun _ => next.run store
  | .remove key next => store.remove key >>= fun removed => (next removed).run store
  | .scan next => store.scan >>= fun entries => (next entries).run store

theorem run_bind (store : Store κ ν ε σ) (program : KeyValue κ ν ε α)
    (next : α → KeyValue κ ν ε β) :
    (program >>= next).run store = program.run store >>= fun result => (next result).run store := by
  change (program.andThen next).run store = _
  induction program with
  | done result => simp [andThen, run]
  | fail error => rfl
  | get key rest ih => simp only [andThen, run, ih, bind_assoc]
  | insert key value rest ih => simp only [andThen, run, ih, bind_assoc]
  | remove key rest ih => simp only [andThen, run, ih, bind_assoc]
  | scan rest ih => simp only [andThen, run, ih, bind_assoc]

/-- Whatever the concrete store answers, the abstract one answers, and the
states stay related. -/
structure Simulates (concrete : Store κ ν ε σ) (abstract : Store κ ν ε τ)
    (related : σ → τ → Prop) : Prop where
  get : ∀ {state state' : σ} {model : τ} {key : κ} {found : Option ν},
    related state model → concrete.get key state = .ok (found, state') →
      ∃ model', abstract.get key model = .ok (found, model') ∧ related state' model'
  insert : ∀ {state state' : σ} {model : τ} {key : κ} {value : ν} {done : Unit},
    related state model → concrete.insert key value state = .ok (done, state') →
      ∃ model', abstract.insert key value model = .ok (done, model') ∧ related state' model'
  remove : ∀ {state state' : σ} {model : τ} {key : κ} {removed : Bool},
    related state model → concrete.remove key state = .ok (removed, state') →
      ∃ model', abstract.remove key model = .ok (removed, model') ∧ related state' model'
  scan : ∀ {state state' : σ} {model : τ} {entries : List (κ × ν)},
    related state model → concrete.scan state = .ok (entries, state') →
      ∃ model', abstract.scan model = .ok (entries, model') ∧ related state' model'

theorem Simulates.run {concrete : Store κ ν ε σ} {abstract : Store κ ν ε τ}
    {related : σ → τ → Prop} (hsimulates : Simulates concrete abstract related)
    {program : KeyValue κ ν ε α} {state state' : σ} {model : τ} {result : α}
    (hrelated : related state model) (hrun : program.run concrete state = .ok (result, state')) :
    ∃ model', program.run abstract model = .ok (result, model') ∧ related state' model' := by
  induction program generalizing state model with
  | done value =>
      simp only [KeyValue.run, StateExcept.pure_eq_ok, Prod.mk.injEq] at hrun
      obtain ⟨rfl, rfl⟩ := hrun
      exact ⟨model, rfl, hrelated⟩
  | fail error => simp [KeyValue.run] at hrun
  | get key next ih =>
      obtain ⟨found, middle, hget, hnext⟩ := StateExcept.bind_eq_ok.mp hrun
      obtain ⟨model', habstract, hmiddle⟩ := hsimulates.get hrelated hget
      obtain ⟨last, hlast, hdone⟩ := ih found hmiddle hnext
      exact ⟨last, StateExcept.bind_eq_ok.mpr ⟨found, model', habstract, hlast⟩, hdone⟩
  | insert key value next ih =>
      obtain ⟨_, middle, hinsert, hnext⟩ := StateExcept.bind_eq_ok.mp hrun
      obtain ⟨model', habstract, hmiddle⟩ := hsimulates.insert hrelated hinsert
      obtain ⟨last, hlast, hdone⟩ := ih hmiddle hnext
      exact ⟨last, StateExcept.bind_eq_ok.mpr ⟨_, model', habstract, hlast⟩, hdone⟩
  | remove key next ih =>
      obtain ⟨removed, middle, hremove, hnext⟩ := StateExcept.bind_eq_ok.mp hrun
      obtain ⟨model', habstract, hmiddle⟩ := hsimulates.remove hrelated hremove
      obtain ⟨last, hlast, hdone⟩ := ih removed hmiddle hnext
      exact ⟨last, StateExcept.bind_eq_ok.mpr ⟨removed, model', habstract, hlast⟩, hdone⟩
  | scan next ih =>
      obtain ⟨entries, middle, hscan, hnext⟩ := StateExcept.bind_eq_ok.mp hrun
      obtain ⟨model', habstract, hmiddle⟩ := hsimulates.scan hrelated hscan
      obtain ⟨last, hlast, hdone⟩ := ih entries hmiddle hnext
      exact ⟨last, StateExcept.bind_eq_ok.mpr ⟨entries, model', habstract, hlast⟩, hdone⟩

/-! ## What a program may write -/

/-- Every key the program inserts or removes, whatever the answers, is in the
set. -/
def Writes (keys : κ → Prop) : KeyValue κ ν ε α → Prop
  | .done _ => True
  | .fail _ => True
  | .get _ next => ∀ found, (next found).Writes keys
  | .insert key _ next => keys key ∧ next.Writes keys
  | .remove key next => keys key ∧ ∀ removed, (next removed).Writes keys
  | .scan next => ∀ entries, (next entries).Writes keys

variable {keys : κ → Prop}

theorem Writes.bind {program : KeyValue κ ν ε α} {next : α → KeyValue κ ν ε β}
    (hprogram : program.Writes keys) (hnext : ∀ value, (next value).Writes keys) :
    (program >>= next).Writes keys := by
  change (program.andThen next).Writes keys
  induction program with
  | done value => exact hnext value
  | fail error => trivial
  | get key rest ih => exact fun found => ih found (hprogram found)
  | insert key value rest ih => exact ⟨hprogram.1, ih hprogram.2⟩
  | remove key rest ih => exact ⟨hprogram.1, fun removed => ih removed (hprogram.2 removed)⟩
  | scan rest ih => exact fun entries => ih entries (hprogram entries)

theorem Writes.mono {wider : κ → Prop} {program : KeyValue κ ν ε α}
    (hprogram : program.Writes keys) (hwider : ∀ key, keys key → wider key) :
    program.Writes wider := by
  induction program with
  | done value => trivial
  | fail error => trivial
  | get key next ih => exact fun found => ih found (hprogram found)
  | insert key value next ih => exact ⟨hwider key hprogram.1, ih hprogram.2⟩
  | remove key next ih => exact ⟨hwider key hprogram.1, fun removed => ih removed (hprogram.2 removed)⟩
  | scan next ih => exact fun entries => ih entries (hprogram entries)

theorem Writes.forM {items : List γ} {body : γ → KeyValue κ ν ε PUnit}
    (hbody : ∀ item ∈ items, (body item).Writes keys) : (items.forM body).Writes keys := by
  induction items with
  | nil => trivial
  | cons item items ih =>
      obtain ⟨hitem, hitems⟩ := List.forall_mem_cons.mp hbody
      exact hitem.bind fun _ => ih hitems

/-! ## What a program may insert -/

/-- Every record the program inserts, whatever the answers, is one of the pairs. -/
def Inserts (pairs : κ → ν → Prop) : KeyValue κ ν ε α → Prop
  | .done _ => True
  | .fail _ => True
  | .get _ next => ∀ found, (next found).Inserts pairs
  | .insert key value next => pairs key value ∧ next.Inserts pairs
  | .remove _ next => ∀ removed, (next removed).Inserts pairs
  | .scan next => ∀ entries, (next entries).Inserts pairs

section Inserts

variable {pairs : κ → ν → Prop}

theorem Inserts.ask (key : κ) : (ask key : KeyValue κ ν ε (Option ν)).Inserts pairs :=
  fun _ => trivial

theorem Inserts.put {key : κ} {value : ν} (hpair : pairs key value) :
    (put key value : KeyValue κ ν ε Unit).Inserts pairs :=
  ⟨hpair, trivial⟩

theorem Inserts.drop (key : κ) : (drop key : KeyValue κ ν ε Bool).Inserts pairs :=
  fun _ => trivial

theorem Inserts.entries : (entries : KeyValue κ ν ε (List (κ × ν))).Inserts pairs :=
  fun _ => trivial

theorem Inserts.bind {program : KeyValue κ ν ε α} {next : α → KeyValue κ ν ε β}
    (hprogram : program.Inserts pairs) (hnext : ∀ value, (next value).Inserts pairs) :
    (program >>= next).Inserts pairs := by
  change (program.andThen next).Inserts pairs
  induction program with
  | done value => exact hnext value
  | fail error => trivial
  | get key rest ih => exact fun found => ih found (hprogram found)
  | insert key value rest ih => exact ⟨hprogram.1, ih hprogram.2⟩
  | remove key rest ih => exact fun removed => ih removed (hprogram removed)
  | scan rest ih => exact fun entries => ih entries (hprogram entries)

theorem Inserts.forM {items : List γ} {body : γ → KeyValue κ ν ε PUnit}
    (hbody : ∀ item ∈ items, (body item).Inserts pairs) : (items.forM body).Inserts pairs := by
  induction items with
  | nil => trivial
  | cons item items ih =>
      obtain ⟨hitem, hitems⟩ := List.forall_mem_cons.mp hbody
      exact hitem.bind fun _ => ih hitems

theorem Inserts.lift (value : Except ε α) :
    (lift value : KeyValue κ ν ε α).Inserts pairs := by
  cases value <;> trivial

/-- A program that keeps to its keys inserts what may stand under them. -/
theorem Writes.inserts {program : KeyValue κ ν ε α} (hwrites : program.Writes keys)
    (hpairs : ∀ key value, keys key → pairs key value) : program.Inserts pairs := by
  induction program with
  | done value => trivial
  | fail error => trivial
  | get key next ih => exact fun found => ih found (hwrites found)
  | insert key value next ih => exact ⟨hpairs key value hwrites.1, ih hwrites.2⟩
  | remove key next ih => exact fun removed => ih removed (hwrites.2 removed)
  | scan next ih => exact fun entries => ih entries (hwrites entries)

end Inserts

/-! ## What a program may fail with -/

/-- Every error the program fails with of itself, whatever the answers, has the
property. -/
def Fails (P : ε → Prop) : KeyValue κ ν ε α → Prop
  | .done _ => True
  | .fail error => P error
  | .get _ next => ∀ found, (next found).Fails P
  | .insert _ _ next => next.Fails P
  | .remove _ next => ∀ removed, (next removed).Fails P
  | .scan next => ∀ entries, (next entries).Fails P

section Fails

variable {P : ε → Prop}

theorem Fails.ask (key : κ) : (ask key : KeyValue κ ν ε (Option ν)).Fails P :=
  fun _ => trivial

theorem Fails.put (key : κ) (value : ν) : (put key value : KeyValue κ ν ε Unit).Fails P :=
  trivial

theorem Fails.drop (key : κ) : (drop key : KeyValue κ ν ε Bool).Fails P :=
  fun _ => trivial

theorem Fails.entries : (entries : KeyValue κ ν ε (List (κ × ν))).Fails P :=
  fun _ => trivial

theorem Fails.bind {program : KeyValue κ ν ε α} {next : α → KeyValue κ ν ε β}
    (hprogram : program.Fails P) (hnext : ∀ value, (next value).Fails P) :
    (program >>= next).Fails P := by
  change (program.andThen next).Fails P
  induction program with
  | done value => exact hnext value
  | fail error => exact hprogram
  | get key rest ih => exact fun found => ih found (hprogram found)
  | insert key value rest ih => exact ih hprogram
  | remove key rest ih => exact fun removed => ih removed (hprogram removed)
  | scan rest ih => exact fun entries => ih entries (hprogram entries)

theorem Fails.forM {items : List γ} {body : γ → KeyValue κ ν ε PUnit}
    (hbody : ∀ item ∈ items, (body item).Fails P) : (items.forM body).Fails P := by
  induction items with
  | nil => trivial
  | cons item items ih =>
      obtain ⟨hitem, hitems⟩ := List.forall_mem_cons.mp hbody
      exact hitem.bind fun _ => ih hitems

theorem Fails.lift {value : Except ε α} (hvalue : ∀ error, value = .error error → P error) :
    (lift value : KeyValue κ ν ε α).Fails P := by
  cases value with
  | error error => exact hvalue error rfl
  | ok value => trivial

/-- A program fails as it fails of itself, or as the store does. -/
theorem Fails.run {store : Store κ ν ε σ} {program : KeyValue κ ν ε α} (hfails : program.Fails P)
    (hget : ∀ key, StateExcept.Raises P (store.get key))
    (hinsert : ∀ key value, StateExcept.Raises P (store.insert key value))
    (hremove : ∀ key, StateExcept.Raises P (store.remove key))
    (hscan : StateExcept.Raises P store.scan) : StateExcept.Raises P (program.run store) := by
  induction program with
  | done value => exact .pure value
  | fail error => exact .throw hfails
  | get key next ih => exact (hget key).bind fun found => ih found (hfails found)
  | insert key value next ih => exact (hinsert key value).bind fun _ => ih hfails
  | remove key next ih => exact (hremove key).bind fun removed => ih removed (hfails removed)
  | scan next ih => exact hscan.bind fun entries => ih entries (hfails entries)

end Fails

/-! ## Maps -/

section Maps

variable [Ord κ] [Std.TransOrd κ]

/-- A map answers for itself. -/
def mapStore : Store κ ν ε (ExtTreeMap κ ν) where
  get key := fun map => .ok (map[key]?, map)
  insert key value := fun map => .ok ((), map.insert key value)
  remove key := fun map => .ok (map[key]?.isSome, map.erase key)
  scan := fun map => .ok (map.toList, map)

/-- What a program does to a map. -/
def onMap (program : KeyValue κ ν ε α) (map : ExtTreeMap κ ν) :
    Except ε (α × ExtTreeMap κ ν) :=
  program.run mapStore map

variable {map map' : ExtTreeMap κ ν}

theorem onMap_bind_eq_ok {program : KeyValue κ ν ε α} {next : α → KeyValue κ ν ε β}
    {result : β × ExtTreeMap κ ν} :
    (program >>= next).onMap map = .ok result ↔
      ∃ value middle, program.onMap map = .ok (value, middle) ∧
        (next value).onMap middle = .ok result := by
  unfold onMap
  rw [run_bind, StateExcept.bind_eq_ok]

@[simp]
theorem onMap_pure (value : α) (map : ExtTreeMap κ ν) :
    (pure value : KeyValue κ ν ε α).onMap map = .ok (value, map) := rfl

@[simp]
theorem onMap_fail (error : ε) (map : ExtTreeMap κ ν) :
    (fail error : KeyValue κ ν ε α).onMap map = .error error := rfl

@[simp]
theorem onMap_ask_bind (key : κ) (next : Option ν → KeyValue κ ν ε β) (map : ExtTreeMap κ ν) :
    (ask key >>= next).onMap map = (next map[key]?).onMap map := rfl

@[simp]
theorem onMap_put_bind (key : κ) (value : ν) (next : Unit → KeyValue κ ν ε β)
    (map : ExtTreeMap κ ν) :
    (put key value >>= next).onMap map = (next ()).onMap (map.insert key value) := rfl

@[simp]
theorem onMap_put (key : κ) (value : ν) (map : ExtTreeMap κ ν) :
    (put key value : KeyValue κ ν ε Unit).onMap map = .ok ((), map.insert key value) := rfl

@[simp]
theorem onMap_drop_bind (key : κ) (next : Bool → KeyValue κ ν ε β) (map : ExtTreeMap κ ν) :
    (drop key >>= next).onMap map = (next map[key]?.isSome).onMap (map.erase key) := rfl

@[simp]
theorem onMap_entries_bind (next : List (κ × ν) → KeyValue κ ν ε β) (map : ExtTreeMap κ ν) :
    (entries >>= next).onMap map = (next map.toList).onMap map := rfl

theorem onMap_lift_eq_ok {value : Except ε α} {result : α × ExtTreeMap κ ν} :
    (lift value : KeyValue κ ν ε α).onMap map = .ok result ↔
      value = .ok result.1 ∧ result.2 = map := by
  obtain ⟨found, map'⟩ := result
  cases value with
  | error error => simp [lift]
  | ok value =>
      change (pure value : KeyValue κ ν ε α).onMap map = _ ↔ _
      simp [eq_comm]

/-- Keys the program does not write keep their values. -/
theorem Writes.frame [Std.LawfulEqOrd κ] [DecidableEq κ] {keys : κ → Prop}
    {program : KeyValue κ ν ε α}
    (hwrites : program.Writes keys) {result : α} (hrun : program.onMap map = .ok (result, map'))
    {key : κ} (hkey : ¬keys key) : map'[key]? = map[key]? := by
  unfold onMap at hrun
  induction program generalizing map with
  | done value =>
      simp only [run, StateExcept.pure_eq_ok, Prod.mk.injEq] at hrun
      rw [hrun.2]
  | fail error => simp [run] at hrun
  | get asked next ih => exact ih _ (hwrites _) hrun
  | insert written value next ih =>
      rw [ih hwrites.2 hrun, OrderedMap.getElem?_insert, if_neg]
      exact fun heq => hkey (heq ▸ hwrites.1)
  | remove removed next ih =>
      rw [ih _ (hwrites.2 _) hrun, OrderedMap.getElem?_erase, if_neg]
      exact fun heq => hkey (heq ▸ hwrites.1)
  | scan next ih => exact ih _ (hwrites _) hrun

/-- What a program leaves was there, or was inserted. -/
theorem Inserts.getElem? [Std.LawfulEqOrd κ] [DecidableEq κ] {pairs : κ → ν → Prop}
    {program : KeyValue κ ν ε α} (hinserts : program.Inserts pairs) {result : α}
    (hrun : program.onMap map = .ok (result, map')) {key : κ} {value : ν}
    (hvalue : map'[key]? = some value) : map[key]? = some value ∨ pairs key value := by
  unfold onMap at hrun
  induction program generalizing map with
  | done done =>
      simp only [run, StateExcept.pure_eq_ok, Prod.mk.injEq] at hrun
      exact Or.inl (hrun.2 ▸ hvalue)
  | fail error => simp [run] at hrun
  | get asked next ih => exact ih _ (hinserts _) hrun
  | insert written new next ih =>
      refine (ih hinserts.2 hrun).elim (fun hfound => ?_) Or.inr
      rw [OrderedMap.getElem?_insert] at hfound
      split at hfound
      · next heq =>
        obtain rfl := Option.some.inj hfound
        exact Or.inr (heq ▸ hinserts.1)
      · exact Or.inl hfound
  | remove removed next ih =>
      refine (ih _ (hinserts _) hrun).elim (fun hfound => ?_) Or.inr
      rw [OrderedMap.getElem?_erase] at hfound
      split at hfound
      · cases hfound
      · exact Or.inl hfound
  | scan next ih => exact ih _ (hinserts _) hrun

/-- Where each round of a loop leaves a key alone or gives it a value, the key has the
last value it was given. -/
theorem getElem?_forM {items : List γ} {body : γ → KeyValue κ ν ε PUnit} {key : κ}
    {effect : γ → Option ν}
    (hbody : ∀ item ∈ items, ∀ map map', (body item).onMap map = .ok (⟨⟩, map') →
      map'[key]? = (effect item).or map[key]?)
    (hrun : (items.forM body).onMap map = .ok (⟨⟩, map')) :
    map'[key]? = (items.filterMap effect).getLast?.or map[key]? := by
  induction items generalizing map with
  | nil =>
      obtain ⟨-, rfl⟩ := Prod.mk.inj (Except.ok.inj hrun)
      rfl
  | cons item items ih =>
      obtain ⟨hitem, hitems⟩ := List.forall_mem_cons.mp hbody
      obtain ⟨_, middle, hfirst, hrest⟩ := onMap_bind_eq_ok.mp hrun
      rw [ih hitems hrest, hitem map middle hfirst]
      cases heffect : effect item with
      | none => rw [List.filterMap_cons_none heffect, Option.none_or]
      | some value =>
          rw [List.filterMap_cons_some heffect, List.getLast?_cons]
          cases (items.filterMap effect).getLast? <;> rfl

/-! ## What a program depends on -/

/-- The maps have the same values under these keys. -/
def Agree (keys : κ → Prop) (map other : ExtTreeMap κ ν) : Prop :=
  ∀ key, keys key → map[key]? = other[key]?

/-- On maps that agree under these keys the program returns the same, and leaves
maps that agree under them. -/
def Respects (keys : κ → Prop) (program : KeyValue κ ν ε α) : Prop :=
  ∀ (map other map' : ExtTreeMap κ ν) (result : α), Agree keys map other →
    program.onMap map = .ok (result, map') →
      ∃ other', program.onMap other = .ok (result, other') ∧ Agree keys map' other'

namespace Respects

variable {keys : κ → Prop}

theorem pure (value : α) : Respects keys (pure value : KeyValue κ ν ε α) := by
  intro map other map' result hagree hrun
  obtain ⟨rfl, rfl⟩ := Prod.mk.inj (Except.ok.inj hrun)
  exact ⟨other, rfl, hagree⟩

theorem fail (error : ε) : Respects keys (fail error : KeyValue κ ν ε α) := by
  intro map other map' result _ hrun
  cases hrun

theorem lift (value : Except ε α) : Respects keys (lift value : KeyValue κ ν ε α) := by
  cases value with
  | ok value => exact pure value
  | error error => exact fail error

theorem bind {program : KeyValue κ ν ε α} {next : α → KeyValue κ ν ε β}
    (hprogram : Respects keys program) (hnext : ∀ value, Respects keys (next value)) :
    Respects keys (program >>= next) := by
  intro map other map' result hagree hrun
  obtain ⟨value, middle, hfirst, hrest⟩ := onMap_bind_eq_ok.mp hrun
  obtain ⟨middle', hfirst', hagree'⟩ := hprogram _ _ _ _ hagree hfirst
  obtain ⟨other', hrest', hagree''⟩ := hnext value _ _ _ _ hagree' hrest
  exact ⟨other', onMap_bind_eq_ok.mpr ⟨value, middle', hfirst', hrest'⟩, hagree''⟩

theorem forM {items : List γ} {body : γ → KeyValue κ ν ε PUnit}
    (hbody : ∀ item ∈ items, Respects keys (body item)) : Respects keys (items.forM body) := by
  induction items with
  | nil => exact pure _
  | cons item items ih =>
      obtain ⟨hitem, hitems⟩ := List.forall_mem_cons.mp hbody
      exact hitem.bind fun _ => ih hitems

theorem ask {key : κ} (hkey : keys key) : Respects keys (ask key : KeyValue κ ν ε (Option ν)) := by
  intro map other map' result hagree hrun
  obtain ⟨rfl, rfl⟩ := Prod.mk.inj (Except.ok.inj hrun)
  exact ⟨other, congrArg (fun found => Except.ok (found, other)) (hagree key hkey).symm, hagree⟩

theorem put [Std.LawfulEqOrd κ] [DecidableEq κ] (key : κ) (value : ν) :
    Respects keys (put key value : KeyValue κ ν ε Unit) := by
  intro map other map' result hagree hrun
  obtain ⟨rfl, rfl⟩ := Prod.mk.inj (Except.ok.inj hrun)
  refine ⟨_, rfl, fun found hfound => ?_⟩
  rw [OrderedMap.getElem?_insert, OrderedMap.getElem?_insert, hagree found hfound]

end Respects

end Maps

end KeyValue

end LoomDB
