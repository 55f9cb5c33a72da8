import LoomDB.Branch.MergeSpec

/-!
# Retrieval

A retrieval reads the index entries of a branch at its head, drops the ones a
filter refuses, orders the rest by score and packs whole items while the token
budget lasts. Scores are floating-point numbers and come from outside.
-/

namespace LoomDB

open KeyValue (entries)

structure RetrievalQuery where
  embedding : Option (List F32)
  text : Bytes
  budget : ℕ

structure ScoredCandidate where
  entry : IndexEntry
  score : F32

/-- The score of an entry, and the order that sorting by it gives. Where the comparison is no
total order the standard sort may also panic, which is left out: here it orders them somehow. -/
structure Ranking where
  scoreCandidate : RetrievalQuery → IndexEntry → F32
  sort : List ScoredCandidate → List ScoredCandidate
  perm : ∀ scored, (sort scored).Perm scored

/-- One item in a packed context. -/
structure PackedItem where
  key : Key
  text : Bytes
  citations : List SourceRef
  score : F32
  stale : Bool
  tokens : ℕ
  deriving DecidableEq

/-- What fit, and an account of what did not. -/
structure PackedContext where
  items : List PackedItem
  budget : ℕ
  usedTokens : ℕ
  considered : ℕ
  droppedForBudget : ℕ
  deriving DecidableEq

/-! ## Packing -/

/-- `chars().count()`: every byte but the continuation bytes starts a character. -/
def charCount (text : Bytes) : ℕ :=
  (text.filter fun byte => !(0x80 ≤ byte.val && byte.val < 0xC0)).length

/-- About four characters a token, and one more. -/
def estimate (text : Bytes) : ℕ :=
  (charCount text % 2 ^ 32 + 3) / 4 + 1

structure Budget where
  total : ℕ
  spent : ℕ
  deriving DecidableEq

namespace Budget

def new (total : ℕ) : Budget :=
  { total := total, spent := 0 }

/-- The sum saturates. -/
def fits (budget : Budget) (cost : ℕ) : Bool :=
  min (budget.spent + cost) (2 ^ 32 - 1) ≤ budget.total

/-- Nothing is spent on what does not fit. -/
def spend (budget : Budget) (cost : ℕ) : Bool × Budget :=
  if budget.fits cost then
    (true, { budget with spent := (budget.spent + cost) % 2 ^ 32 })
  else (false, budget)

end Budget

def ScoredCandidate.item (candidate : ScoredCandidate) : PackedItem where
  key := candidate.entry.key
  text := candidate.entry.text
  citations := candidate.entry.citations
  score := candidate.score
  stale := candidate.entry.stale
  tokens := estimate candidate.entry.text

/-- Take the candidates in order, each whole or not at all. -/
def packInto : List ScoredCandidate → Budget → List PackedItem → ℕ → List PackedItem × Budget × ℕ
  | [], budget, items, dropped => (items, budget, dropped)
  | candidate :: scored, budget, items, dropped =>
      match budget.spend (estimate candidate.entry.text) with
      | (true, budget) => packInto scored budget (items ++ [candidate.item]) dropped
      | (false, budget) => packInto scored budget items (dropped + 1)

def pack (ranking : Ranking) (scored : List ScoredCandidate) (budgetTokens : ℕ) :
    PackedContext :=
  let (items, budget, dropped) := packInto (ranking.sort scored) (Budget.new budgetTokens) [] 0
  { items := items
    budget := budgetTokens
    usedTokens := budget.spent
    considered := scored.length
    droppedForBudget := dropped }

namespace Engine

variable {σ ρ : Type} (engine : Engine σ ρ)

/-! ## Reading the index -/

/-- The index entries among the records of a tree. -/
def indexEntries : List (Key × Record) → Except LoomError (List IndexEntry)
  | [] => .ok []
  | (key, record) :: records =>
      if RESERVED_INDEX_PREFIX.isPrefixOf key then
        match record with
        | .value (.blob bytes) => do
            let entry ← IndexEntry.decode bytes
            let entries ← indexEntries records
            return entry :: entries
        | _ => indexEntries records
      else indexEntries records

def entriesOn (token : CapabilityToken) (branch : BranchId) : LoomM σ ρ (List IndexEntry) := do
  engine.authorize token branch
  let commit ← head branch
  let records ← engine.reading commit entries
  FallibleState.lift (indexEntries records)

/-- What the filter refuses is gone before anything is scored. -/
def retrieveFiltered (ranking : Ranking) (token : CapabilityToken) (branch : BranchId)
    (query : RetrievalQuery) (allow : IndexEntry → Bool) : LoomM σ ρ PackedContext := do
  let entries ← engine.entriesOn token branch
  let scored := (entries.filter allow).map fun entry =>
    { entry := entry, score := ranking.scoreCandidate query entry }
  return pack ranking scored query.budget

def retrieve (ranking : Ranking) (token : CapabilityToken) (branch : BranchId)
    (query : RetrievalQuery) : LoomM σ ρ PackedContext :=
  engine.retrieveFiltered ranking token branch query fun _ => true

end Engine

end LoomDB
