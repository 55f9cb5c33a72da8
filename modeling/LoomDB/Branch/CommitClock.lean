import LoomDB.Core.Error
import Mathlib.Data.List.Nodup

/-!
# The clock of the commits

A process counts the instants of its commits up from the system time at which it opened the store.
Over the life of a store the instants increase as long as every process starts behind those of the
processes before it.
-/

namespace LoomDB

structure CommitClock where
  next : U64

namespace CommitClock

/-- The clock starts at the milliseconds since the epoch, and at zero if there are none. -/
def new (systemTime : ℤ) : CommitClock :=
  { next := Fin.ofNat (256 ^ 8) systemTime.toNat }

/-- `fetch_add(1)`. -/
def nowMs (clock : CommitClock) : U64 × CommitClock :=
  (clock.next, { next := clock.next + 1 })

/-- The instants of some commits, one after another. -/
def instants : ℕ → CommitClock → List U64
  | 0, _ => []
  | commits + 1, clock => clock.nowMs.1 :: instants commits clock.nowMs.2

@[simp]
theorem length_instants (commits : ℕ) (clock : CommitClock) :
    (clock.instants commits).length = commits := by
  induction commits generalizing clock with
  | zero => rfl
  | succ commits ih => rw [instants, List.length_cons, ih]

theorem val_getElem_instants {commits index : ℕ} {clock : CommitClock}
    (hindex : index < (clock.instants commits).length) :
    (clock.instants commits)[index].val = (clock.next.val + index) % 256 ^ 8 := by
  induction commits generalizing clock index with
  | zero => simp at hindex
  | succ commits ih =>
      cases index with
      | zero => exact (Nat.mod_eq_of_lt clock.next.isLt).symm
      | succ index =>
          have hindex' : index < (instants commits clock.nowMs.2).length := by
            simpa [instants] using hindex
          have hrest := ih hindex'
          have hnext : clock.nowMs.2.next.val = (clock.next.val + 1) % 256 ^ 8 := by
            simp [nowMs, Fin.val_add]
          calc (instants commits clock.nowMs.2)[index].val
              = (clock.nowMs.2.next.val + index) % 256 ^ 8 := hrest
            _ = (clock.next.val + 1 + index) % 256 ^ 8 := by rw [hnext, Nat.mod_add_mod]
            _ = (clock.next.val + (index + 1)) % 256 ^ 8 := by rw [Nat.add_right_comm, Nat.add_assoc]

/-- Within a process only the end of the integers stops the instants from increasing. -/
theorem pairwise_instants {commits : ℕ} {clock : CommitClock} :
    (clock.instants commits).Pairwise (· < ·) ↔ clock.next.val + commits ≤ 256 ^ 8 := by
  have hstart := clock.next.isLt
  rw [List.pairwise_iff_getElem]
  constructor
  · intro hincreasing
    by_contra hwraps
    have hlast : 256 ^ 8 - clock.next.val - 1 < (clock.instants commits).length := by
      rw [length_instants]
      omega
    have hfirst : 256 ^ 8 - clock.next.val < (clock.instants commits).length := by
      rw [length_instants]
      omega
    have hlt := hincreasing _ _ hlast hfirst (by omega)
    rw [Fin.lt_def, val_getElem_instants, val_getElem_instants] at hlt
    rw [Nat.add_sub_cancel' hstart.le, Nat.mod_self] at hlt
    exact absurd hlt (Nat.not_lt_zero _)
  · intro hfits index later hindex hlater hlt
    rw [length_instants] at hindex hlater
    rw [Fin.lt_def, val_getElem_instants, val_getElem_instants, Nat.mod_eq_of_lt (by omega),
      Nat.mod_eq_of_lt (by omega)]
    omega

theorem mem_instants {commits : ℕ} {clock : CommitClock}
    (hfits : clock.next.val + commits ≤ 256 ^ 8) {instant : U64} :
    instant ∈ clock.instants commits ↔
      clock.next.val ≤ instant.val ∧ instant.val < clock.next.val + commits := by
  rw [List.mem_iff_getElem]
  constructor
  · rintro ⟨index, hindex, rfl⟩
    rw [val_getElem_instants]
    rw [length_instants] at hindex
    rw [Nat.mod_eq_of_lt (by omega)]
    omega
  · rintro ⟨hfrom, hbefore⟩
    have hindex : instant.val - clock.next.val < (clock.instants commits).length := by
      rw [length_instants]
      omega
    refine ⟨instant.val - clock.next.val, hindex, Fin.ext ?_⟩
    rw [val_getElem_instants, Nat.add_sub_cancel' hfrom, Nat.mod_eq_of_lt instant.isLt]

end CommitClock

/-- A process that opens the store at a system time and makes some commits. -/
structure Process where
  systemTime : ℤ
  commits : ℕ

/-- Where the instants of the process begin. -/
def Process.first (process : Process) : ℕ :=
  (CommitClock.new process.systemTime).next.val

def Process.instants (process : Process) : List U64 :=
  (CommitClock.new process.systemTime).instants process.commits

/-- The instants of all commits over the life of a store. -/
def commitInstants (processes : List Process) : List U64 :=
  (processes.map Process.instants).flatten

/-- The ids of commits, each of which is made of its instant and what else is in it. -/
def commitIds {Content ι : Type} (idOf : U64 → Content → ι) (instants : List U64)
    (contents : List Content) : List ι :=
  List.zipWith idOf instants contents

/-- Every process that commits starts behind the instants of those before it that did, and its own
do not pass the end of the integers. -/
def StartsAhead (processes : List Process) : Prop :=
  (∀ process ∈ processes, process.first + process.commits ≤ 256 ^ 8) ∧
    processes.Pairwise fun process later =>
      0 < process.commits → 0 < later.commits → process.first + process.commits ≤ later.first

instance (processes : List Process) : Decidable (StartsAhead processes) :=
  inferInstanceAs (Decidable (_ ∧ _))

theorem pairwise_commitInstants {processes : List Process} :
    (commitInstants processes).Pairwise (· < ·) ↔ StartsAhead processes := by
  rw [commitInstants, List.pairwise_flatten, List.pairwise_map, List.forall_mem_map]
  simp only [Process.instants, CommitClock.pairwise_instants]
  refine and_congr_right fun hfits => List.pairwise_iff_forall_sublist.trans
    (Iff.trans ?_ List.pairwise_iff_forall_sublist.symm)
  refine forall_congr' fun process => forall_congr' fun later => forall_congr' fun hsub => ?_
  have hprocess := hfits process (hsub.subset List.mem_cons_self)
  have hlater := hfits later (hsub.subset (List.mem_cons_of_mem _ List.mem_cons_self))
  simp only [CommitClock.mem_instants hprocess, CommitClock.mem_instants hlater, Fin.lt_def]
  change _ ↔ (0 < process.commits → 0 < later.commits →
    (CommitClock.new process.systemTime).next.val + process.commits ≤
      (CommitClock.new later.systemTime).next.val)
  constructor
  · intro hbelow hcommits hmore
    -- the last instant of the one and the first of the other
    have hlt := hbelow
      ⟨(CommitClock.new process.systemTime).next.val + process.commits - 1, by omega⟩
      ⟨by dsimp only; omega, by dsimp only; omega⟩
      (CommitClock.new later.systemTime).next ⟨le_refl _, by omega⟩
    dsimp only at hlt
    omega
  · rintro hbelow instant ⟨hfrom, hinstant⟩ other ⟨hother, hend⟩
    have hle := hbelow (by omega) (by omega)
    omega

/-- Commits at different instants are different commits. -/
theorem nodup_commitIds {Content ι : Type} {idOf : U64 → Content → ι}
    (hid : Function.Injective2 idOf) {instants : List U64} (hinstants : instants.Pairwise (· < ·))
    (contents : List Content) : (commitIds idOf instants contents).Nodup := by
  unfold commitIds
  induction instants generalizing contents with
  | nil => exact List.nodup_nil
  | cons instant instants ih =>
      obtain ⟨hfirst, hrest⟩ := List.pairwise_cons.mp hinstants
      cases contents with
      | nil => exact List.nodup_nil
      | cons content contents =>
          rw [List.zipWith_cons_cons, List.nodup_cons]
          refine ⟨fun hmem => ?_, ih hrest contents⟩
          rw [← List.map_uncurry_zip_eq_zipWith, List.mem_map] at hmem
          obtain ⟨⟨other, found⟩, hpair, heq⟩ := hmem
          have hlt := hfirst other (List.of_mem_zip hpair).1
          exact absurd (hid heq).1 (ne_of_gt hlt)

/-- Over the life of a store the instants increase, and no two commits have one id, exactly if
every process starts ahead. -/
theorem commitInstants_increase_iff {Content ι : Type} (idOf : U64 → Content → ι)
    (hid : Function.Injective2 idOf) (processes : List Process) :
    ((commitInstants processes).Pairwise (· < ·) ∧
      ∀ contents : List Content, (commitIds idOf (commitInstants processes) contents).Nodup) ↔
    StartsAhead processes := by
  rw [← pairwise_commitInstants]
  exact ⟨And.left, fun hincrease => ⟨hincrease, nodup_commitIds hid hincrease⟩⟩

/-- A restart at the instant after the last one given: every instant is given once. -/
theorem commitInstants_increase_iff_two :
    (commitInstants [⟨1000, 3⟩, ⟨1003, 2⟩]).Pairwise (· < ·) ∧
      ∀ contents : List Unit,
        (commitIds Prod.mk (commitInstants [⟨1000, 3⟩, ⟨1003, 2⟩]) contents).Nodup :=
  (commitInstants_increase_iff Prod.mk (fun _ _ _ _ heq => Prod.mk.inj heq) _).mpr (by decide)

/-- Three commits in a millisecond, a restart one millisecond later, and the same commit again. -/
theorem not_commitInstants_increase :
    ¬ ((commitInstants [⟨1000, 3⟩, ⟨1001, 1⟩]).Pairwise (· < ·)) ∧
      ¬ (commitIds Prod.mk (commitInstants [⟨1000, 3⟩, ⟨1001, 1⟩]) [(), (), (), ()]).Nodup := by
  decide

end LoomDB
